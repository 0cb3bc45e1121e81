/-
The string functions of the Rust standard library that a service's parsers
are written in, on the characters of a string: trimming, splitting, reading a
`u64`; and the `hex` crate, whose decoder reads both letter cases and whose
encoder writes lower case.
-/
import Mathlib.Data.List.Basic
import Mathlib.Data.List.DropRight
import CeCdn.Lib.Word

namespace Lib.Text

open Word

/-- The bytes of a string (`str::as_bytes`). -/
def utf8 (s : String) : List UInt8 := s.toUTF8.data.toList

/-- `str::len`, in bytes. -/
def strLen (s : String) : Nat := (utf8 s).length

/-- `char::is_whitespace`: the characters with the Unicode property
`White_Space`. -/
def isWhitespace (c : Char) : Bool :=
  let n := c.toNat
  (9 ≤ n && n ≤ 13) || n == 32 || n == 0x85 || n == 0xA0 || n == 0x1680 ||
    (0x2000 ≤ n && n ≤ 0x200A) || n == 0x2028 || n == 0x2029 || n == 0x202F ||
    n == 0x205F || n == 0x3000

def trimStart (cs : List Char) : List Char := cs.dropWhile isWhitespace

def trimEnd (cs : List Char) : List Char := (cs.reverse.dropWhile isWhitespace).reverse

/-- `str::trim`. -/
def trim (cs : List Char) : List Char := trimEnd (trimStart cs)

/-- `str::trim_end_matches`, of one character. -/
def trimEndMatches (c : Char) (cs : List Char) : List Char := cs.rdropWhile (· == c)

/-- `str::strip_prefix`. -/
def stripPrefix (p cs : List Char) : Option (List Char) :=
  if p.isPrefixOf cs then some (cs.drop p.length) else none

/-- `str::split_once`, at the first separator. -/
def splitOnce (sep : Char) : List Char → Option (List Char × List Char)
  | [] => none
  | c :: cs =>
    if c = sep then some ([], cs)
    else (splitOnce sep cs).map fun (l, r) => (c :: l, r)

/-! ## Numbers -/

def isDigit (c : Char) : Bool := 48 ≤ c.toNat && c.toNat ≤ 57

/-- The number a string of digits denotes. -/
def digitsVal (cs : List Char) : Nat := cs.foldl (fun n c => 10 * n + (c.toNat - 48)) 0

/-- `str::parse::<u64>`: digits, after at most one `+`, that denote a number
below `2 ^ 64`. -/
def parseU64 (cs : List Char) : Option Nat :=
  let ds := if cs.head? = some '+' then cs.tail else cs
  if ds ≠ [] ∧ ds.all isDigit ∧ digitsVal ds ≤ u64Max then some (digitsVal ds) else none

/-! ## Byte arrays -/

/-- `[u8; n]`. -/
abbrev ByteArr (n : Nat) := { b : List UInt8 // b.length = n }

/-- `try_into` from a vector of bytes. -/
def ByteArr.ofList (n : Nat) (bs : List UInt8) : Option (ByteArr n) :=
  if h : bs.length = n then some ⟨bs, h⟩ else none

@[simp] theorem ByteArr.ofList_val {n : Nat} (a : ByteArr n) : ByteArr.ofList n a.1 = some a :=
  dif_pos a.2

/-- `n` bytes, all zero. -/
def ByteArr.zero (n : Nat) : ByteArr n := ⟨List.replicate n 0, List.length_replicate⟩

/-- One array after the other. -/
def ByteArr.append {m n : Nat} (a : ByteArr m) (b : ByteArr n) : ByteArr (m + n) :=
  ⟨a.1 ++ b.1, by rw [List.length_append, a.2, b.2]⟩

/-! ## Hexadecimal -/

def hexDigit (n : Nat) : Char := if n < 10 then Char.ofNat (48 + n) else Char.ofNat (87 + n)

def hexVal (c : Char) : Option Nat :=
  let n := c.toNat
  if 48 ≤ n ∧ n ≤ 57 then some (n - 48)
  else if 97 ≤ n ∧ n ≤ 102 then some (n - 87)
  else if 65 ≤ n ∧ n ≤ 70 then some (n - 55)
  else none

def hexChars : List UInt8 → List Char
  | [] => []
  | b :: bs => hexDigit (b.toNat / 16) :: hexDigit (b.toNat % 16) :: hexChars bs

/-- `hex::encode`. -/
def hexEncode (bs : List UInt8) : String := String.ofList (hexChars bs)

/-- `hex::decode`, its error left out. -/
def hexDecode : List Char → Option (List UInt8)
  | [] => some []
  | [_] => none
  | a :: b :: rest =>
    match hexVal a, hexVal b with
    | some x, some y => (hexDecode rest).map (UInt8.ofNat (16 * x + y) :: ·)
    | _, _ => none

theorem hexVal_hexDigit : ∀ n < 16, hexVal (hexDigit n) = some n := by decide

theorem hexDecode_hexChars (bs : List UInt8) : hexDecode (hexChars bs) = some bs := by
  induction bs with
  | nil => rfl
  | cons b bs ih =>
    have hb := b.toNat_lt
    have hhi := hexVal_hexDigit (b.toNat / 16) (by omega)
    have hlo := hexVal_hexDigit (b.toNat % 16) (by omega)
    have hb' : 16 * (b.toNat / 16) + b.toNat % 16 = b.toNat := by omega
    simp only [hexChars, hexDecode, hhi, hlo, ih, Option.map_some, hb', UInt8.ofNat_toNat]

/-- Decoding undoes encoding. -/
theorem hexDecode_hexEncode (bs : List UInt8) : hexDecode (hexEncode bs).toList = some bs := by
  rw [hexEncode, String.toList_ofList, hexDecode_hexChars]

theorem length_hexChars (bs : List UInt8) : (hexChars bs).length = 2 * bs.length := by
  induction bs with
  | nil => rfl
  | cons b bs ih => simp only [hexChars, List.length_cons, ih]; omega

@[simp] theorem length_hexEncode (bs : List UInt8) : (hexEncode bs).length = 2 * bs.length := by
  rw [hexEncode, String.length_ofList, length_hexChars]

end Lib.Text
