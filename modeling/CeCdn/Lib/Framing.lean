/-
Byte strings built field by field. A field that shows where it ends (of a
fixed length, or behind its length) can be read off the front, so equal
strings of the same fields have equal fields.
-/
import CeCdn.Lib.Text

namespace Lib.Framing

open Text Word

/-! ## Numbers -/

@[simp] theorem length_leBytes (k n : Nat) : (leBytes k n).length = k := by
  induction k generalizing n with
  | zero => rfl
  | succ k ih => simp only [leBytes, List.length_cons, ih]

/-- The bytes of a word determine it. -/
theorem leBytes_inj {k m n : Nat} (hm : m < 256 ^ k) (hn : n < 256 ^ k)
    (h : leBytes k m = leBytes k n) : m = n := by
  induction k generalizing m n with
  | zero => simp at hm hn; omega
  | succ k ih =>
    simp only [leBytes, List.cons.injEq] at h
    have hlow : m % 256 = n % 256 := by
      have hb := congrArg UInt8.toNat h.1
      simpa using hb
    have hhigh : m / 256 = n / 256 := by
      refine ih ?_ ?_ h.2
      · rw [Nat.pow_succ] at hm; omega
      · rw [Nat.pow_succ] at hn; omega
    omega

/-! ## Fields -/

/-- A field of a fixed length ends where the other does. -/
theorem fixed_append_inj {a b r s : List UInt8} (hl : a.length = b.length)
    (h : a ++ r = b ++ s) : a = b ∧ r = s := List.append_inj h hl

theorem leBytes_append_inj {k m n : Nat} (hm : m < 256 ^ k) (hn : n < 256 ^ k)
    {r s : List UInt8} (h : leBytes k m ++ r = leBytes k n ++ s) : m = n ∧ r = s := by
  have hl : (leBytes k m).length = (leBytes k n).length := by simp
  obtain ⟨hb, hr⟩ := fixed_append_inj hl h
  exact ⟨leBytes_inj hm hn hb, hr⟩

/-- A string behind its length, a word of `k` bytes. -/
def prefixed (k : Nat) (bs : List UInt8) : List UInt8 := leBytes k bs.length ++ bs

theorem prefixed_append_inj {k : Nat} {a b r s : List UInt8} (ha : a.length < 256 ^ k)
    (hb : b.length < 256 ^ k) (h : prefixed k a ++ r = prefixed k b ++ s) : a = b ∧ r = s := by
  simp only [prefixed, List.append_assoc] at h
  obtain ⟨hl, hrest⟩ := leBytes_append_inj ha hb h
  exact fixed_append_inj hl hrest

/-- Strings that start with different tags of which neither starts the other
are different. -/
theorem tag_append_ne {a b r s : List UInt8} (hab : ¬ a <+: b) (hba : ¬ b <+: a) :
    a ++ r ≠ b ++ s := by
  intro h
  rcases List.prefix_or_prefix_of_prefix (List.prefix_append a r) (h ▸ List.prefix_append b s)
    with hp | hp
  · exact hab hp
  · exact hba hp

end Lib.Framing
