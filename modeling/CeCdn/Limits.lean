/-
The resource limits and the checks of content ids (`limits.rs`).
-/
import CeCdn.Lib.TextFacts

namespace CeCdn

open Lib Text Word

abbrev Bytes := List UInt8

/-- Largest object in one `cdn/read` reply. -/
def MAX_MESH_OBJECT_BYTES : Nat := 8 * 1024 * 1024

/-- Largest span of chunks fetched for one range of a `cdn/read` reply. -/
def MAX_MESH_RANGE_BYTES : Nat := MAX_MESH_OBJECT_BYTES

def MAX_REQUEST_BYTES : Nat := 256 * 1024

def MAX_CAPS_HEX_LEN : Nat := 128 * 1024

def MAX_CID_LEN : Nat := 128

def isLowerHex (b : UInt8) : Bool := (48 ≤ b && b ≤ 57) || (97 ≤ b && b ≤ 102)

/-- 64 lowercase hex characters. -/
def isValidCid (cid : String) : Bool := strLen cid == 64 && (utf8 cid).all isLowerHex

def isAsciiAlphanumeric (b : UInt8) : Bool :=
  (48 ≤ b && b ≤ 57) || (65 ≤ b && b ≤ 90) || (97 ≤ b && b ≤ 122)

/-- The check on the path of a request, by `-`, `_`, `.` and the alphanumerics. -/
def isAcceptableCidCharset (cid : String) : Bool :=
  cid != "" && strLen cid ≤ MAX_CID_LEN &&
    (utf8 cid).all fun b => isAsciiAlphanumeric b || b == 45 || b == 95 || b == 46

/-! ## The characters of a CID -/

/-- The characters that `is_acceptable_cid_charset` allows. -/
def CidChars (cid : String) : Prop :=
  (utf8 cid).all fun b => isAsciiAlphanumeric b || b == 45 || b == 95 || b == 46

theorem cidChars_of_acceptable {cid : String} (h : isAcceptableCidCharset cid = true) :
    CidChars cid := by
  simp only [isAcceptableCidCharset, Bool.and_eq_true] at h
  exact h.2

/-- A content id is acceptable in a path. -/
theorem acceptable_of_valid {cid : String} (h : isValidCid cid = true) :
    isAcceptableCidCharset cid = true := by
  simp only [isValidCid, Bool.and_eq_true, beq_iff_eq] at h
  have hne : cid ≠ "" := by
    rintro rfl
    exact absurd h.1 (by decide)
  simp only [isAcceptableCidCharset, Bool.and_eq_true, bne_iff_ne, decide_eq_true_eq, h.1]
  refine ⟨⟨hne, by decide⟩, List.all_eq_true.2 fun b hb => ?_⟩
  have hlower := List.all_eq_true.1 h.2 b hb
  simp only [isLowerHex, isAsciiAlphanumeric, Bool.or_eq_true, Bool.and_eq_true,
    decide_eq_true_eq] at hlower ⊢
  rcases hlower with hdigit | ⟨hge, hle⟩
  · exact .inl (.inl (.inl (.inl (.inl hdigit))))
  · have hz : (102 : UInt8) ≤ 122 := by decide
    exact .inl (.inl (.inl (.inr ⟨hge, UInt8.le_trans hle hz⟩)))

/-- A character with a byte that is not among theirs is not in the CID. -/
theorem CidChars.not_mem {cid : String} (h : CidChars cid) {c : Char} (b : UInt8)
    (hb : b ∈ String.utf8EncodeChar c)
    (hno : (isAsciiAlphanumeric b || b == 45 || b == 95 || b == 46) = false) :
    c ∉ cid.toList := by
  intro hmem
  have hbyte : b ∈ utf8 cid := by
    rw [utf8_eq]
    exact List.mem_flatMap.2 ⟨c, hmem, hb⟩
  have hallowed := List.all_eq_true.1 h b hbyte
  rw [hno] at hallowed
  cases hallowed

end CeCdn
