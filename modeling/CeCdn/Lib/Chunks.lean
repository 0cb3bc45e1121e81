/-
A list cut into consecutive chunks of one size, the last one possibly
shorter, and the slice of the list that a span of chunks covers.
-/
import Mathlib.Data.List.Basic
import Mathlib.Tactic.Ring

namespace Lib.Chunks

variable {α : Type*}

/-- The elements `a..=b`. -/
def slice (xs : List α) (a b : Nat) : List α := (xs.drop a).take (b + 1 - a)

/-- The number of chunks of size `cs`. -/
def count (cs : Nat) (xs : List α) : Nat := (xs.length + cs - 1) / cs

def chunk (cs : Nat) (xs : List α) (i : Nat) : List α := (xs.drop (i * cs)).take cs

def chunks (cs : Nat) (xs : List α) : List (List α) := (List.range (count cs xs)).map (chunk cs xs)

@[simp] theorem length_chunks (cs : Nat) (xs : List α) : (chunks cs xs).length = count cs xs := by
  simp [chunks]

/-- Consecutive chunks, joined, are a slice. -/
theorem flatten_map_chunk (cs : Nat) (xs : List α) (i n : Nat) :
    ((List.range' i n).map (chunk cs xs)).flatten = (xs.drop (i * cs)).take (n * cs) := by
  induction n generalizing i with
  | zero => simp
  | succ n ih =>
    have hsplit : (n + 1) * cs = cs + n * cs := by ring
    rw [List.range'_succ, List.map_cons, List.flatten_cons, ih, hsplit, List.take_add, chunk,
      List.drop_drop]
    congr 3
    ring

theorem drop_take_chunks (cs : Nat) (xs : List α) {i n : Nat} (h : i + n ≤ count cs xs) :
    ((chunks cs xs).drop i).take n = (List.range' i n).map (chunk cs xs) := by
  have hrange : ((List.range (count cs xs)).drop i).take n = List.range' i n := by
    apply List.ext_getElem
    · simp; omega
    · intro k h₁ h₂
      simp
  rw [chunks, ← List.map_drop, ← List.map_take, hrange]

/-- The index of an element's chunk is below the number of chunks. -/
theorem div_lt_count {cs : Nat} {xs : List α} {k : Nat} (hcs : 0 < cs) (hk : k < xs.length) :
    k / cs < count cs xs := by
  have h : k / cs * cs ≤ k := Nat.div_mul_le_self k cs
  have : (k / cs + 1) * cs ≤ xs.length + cs - 1 := by
    have : (k / cs + 1) * cs = k / cs * cs + cs := by ring
    omega
  exact (Nat.le_div_iff_mul_le hcs).2 this

/-- All the chunks cover the list. -/
theorem length_le_count_mul {cs : Nat} (xs : List α) (hcs : 0 < cs) :
    xs.length ≤ count cs xs * cs := by
  have h := Nat.lt_div_mul_add (a := xs.length + cs - 1) hcs
  simp only [count]
  omega

/-- Joining every chunk gives the list back. -/
theorem flatten_chunks {cs : Nat} {xs : List α} (hcs : 0 < cs) : (chunks cs xs).flatten = xs := by
  have h := flatten_map_chunk cs xs 0 (count cs xs)
  rw [Nat.zero_mul, List.drop_zero, List.take_of_length_le (length_le_count_mul xs hcs)] at h
  rw [chunks, List.range_eq_range', h]

/-- The chunks that cover `a..=b`, joined and cut at the edges, are the slice. -/
theorem slice_of_chunks {cs : Nat} {xs : List α} {a b : Nat} (hcs : 0 < cs) (hab : a ≤ b)
    (hb : b < xs.length) :
    let joined := (((chunks cs xs).drop (a / cs)).take (b / cs + 1 - a / cs)).flatten
    (joined.drop (a - a / cs * cs)).take (b + 1 - a) = slice xs a b ∧
      a - a / cs * cs + (b + 1 - a) ≤ joined.length := by
  intro joined
  have hle : a / cs ≤ b / cs := Nat.div_le_div_right hab
  have hlast : b / cs < count cs xs := div_lt_count hcs hb
  have hjoined : joined = (xs.drop (a / cs * cs)).take ((b / cs + 1 - a / cs) * cs) := by
    rw [← flatten_map_chunk, ← drop_take_chunks cs xs (by omega)]
  have ha : a / cs * cs ≤ a := Nat.div_mul_le_self a cs
  have hcover : b + 1 ≤ a / cs * cs + (b / cs + 1 - a / cs) * cs := by
    have h₁ : a / cs * cs + (b / cs + 1 - a / cs) * cs = (b / cs + 1) * cs := by
      rw [← Nat.add_mul]; congr 1; omega
    have h₂ : (b / cs + 1) * cs = b / cs * cs + cs := by ring
    have h₃ := Nat.lt_div_mul_add (a := b) hcs
    omega
  refine ⟨?_, ?_⟩
  · rw [hjoined, List.drop_take, List.drop_drop, List.take_take, slice]
    congr 2
    · omega
    · omega
  · rw [hjoined, List.length_take, List.length_drop]
    omega

end Lib.Chunks
