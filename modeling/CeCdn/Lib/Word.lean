/-
Saturating arithmetic on 64-bit unsigned words, with words as natural numbers
below `2 ^ 64`: `u64::saturating_add` and `u64::saturating_mul`
(`u64::saturating_sub` is subtraction on `Nat`), and the bytes of a word.
-/
import Mathlib.Algebra.GroupWithZero.Nat
import Mathlib.Order.Basic

namespace Lib.Word

/-- `u64::MAX`. -/
def u64Max : Nat := 2 ^ 64 - 1

def satAdd (a b : Nat) : Nat := min (a + b) u64Max

def satMul (a b : Nat) : Nat := min (a * b) u64Max

/-- A saturated sum that stays below a bound below `u64::MAX` is the sum. -/
theorem satAdd_le_iff {a b c : Nat} (hc : c < u64Max) : satAdd a b ≤ c ↔ a + b ≤ c := by
  simp only [satAdd]; omega

theorem satMul_le_iff {a b c : Nat} (hc : c < u64Max) : satMul a b ≤ c ↔ a * b ≤ c := by
  simp only [satMul]; omega

/-- The `k` low bytes of a number, the least significant first; with `k = 8`
`u64::to_le_bytes`. -/
def leBytes : Nat → Nat → List UInt8
  | 0, _ => []
  | k + 1, n => UInt8.ofNat (n % 256) :: leBytes k (n / 256)

theorem satAdd_eq {a b : Nat} (h : a + b ≤ u64Max) : satAdd a b = a + b := Nat.min_eq_left h

/-- A word is below a saturated sum when it is below the sum. -/
theorem le_satAdd_iff {a b c : Nat} (hc : c ≤ u64Max) : c ≤ satAdd a b ↔ c ≤ a + b := by
  simp only [satAdd]; omega

/-- A lifetime from now fits in a limit at each of its moments exactly if it
fits now. -/
theorem satAdd_fits_iff {t0 ttl max : Nat} :
    (∀ t, t0 ≤ t → t ≤ satAdd t0 ttl → satAdd t0 ttl ≤ satAdd t max) ↔
      ttl ≤ max ∨ u64Max ≤ t0 + max := by
  constructor
  · intro h
    by_cases ht0 : t0 ≤ u64Max
    · have hle := h t0 (Nat.le_refl t0) (by simp only [satAdd]; omega)
      simp only [satAdd] at hle
      omega
    · exact .inr (by omega)
  · intro h t ht _
    simp only [satAdd]
    omega

/-! ## Arithmetic that must not overflow

The operators `+`, `-`, `*` and `/` on `u64`, with no result where the code
would panic or wrap around. -/

def checkedAdd (a b : Nat) : Option Nat := if a + b ≤ u64Max then some (a + b) else none

def checkedSub (a b : Nat) : Option Nat := if b ≤ a then some (a - b) else none

def checkedMul (a b : Nat) : Option Nat := if a * b ≤ u64Max then some (a * b) else none

def checkedDiv (a b : Nat) : Option Nat := if b = 0 then none else some (a / b)

theorem checkedAdd_of_le {a b : Nat} (h : a + b ≤ u64Max) : checkedAdd a b = some (a + b) :=
  if_pos h

theorem checkedSub_of_le {a b : Nat} (h : b ≤ a) : checkedSub a b = some (a - b) := if_pos h

theorem checkedMul_of_le {a b : Nat} (h : a * b ≤ u64Max) : checkedMul a b = some (a * b) :=
  if_pos h

theorem checkedDiv_of_ne {a b : Nat} (h : b ≠ 0) : checkedDiv a b = some (a / b) := if_neg h

end Lib.Word
