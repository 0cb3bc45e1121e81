/-
HTTP ranges and the chunks that cover them (`cidrange.rs`), with the object
manifest of the blob store they are computed on.

A `Manifest` carries the bounds of its `u64` fields. Byte offsets are `Nat`:
`parseRange_within` bounds them by the total.
-/
import CeCdn.Limits

namespace CeCdn

open Lib Text Word

/-- An object manifest: its chunks' CIDs in order. -/
structure Manifest where
  kind : String
  chunkSize : Nat
  totalSize : Nat
  chunks : List String
  chunkSize_le : chunkSize ≤ u64Max
  totalSize_le : totalSize ≤ u64Max
deriving DecidableEq

/-- A byte range, both bounds inclusive; `stop` is the source's `end`. -/
structure ByteRange where
  start : Nat
  stop : Nat
deriving DecidableEq

namespace ByteRange

def len (r : ByteRange) : Nat := r.stop - r.start + 1

def contentRangeHeader (r : ByteRange) (total : Nat) : String :=
  s!"bytes {r.start}-{r.stop}/{total}"

/-- What a resolved range is by construction. -/
def Within (r : ByteRange) (total : Nat) : Prop := r.start ≤ r.stop ∧ r.stop < total

instance (r : ByteRange) (total : Nat) : Decidable (r.Within total) :=
  inferInstanceAs (Decidable (_ ∧ _))

end ByteRange

inductive RangeOutcome where
  | full
  | partialRange (r : ByteRange)
  | unsatisfiable
deriving DecidableEq

/-- The last arm of `parse_range`, on the two sides of the dash. -/
def resolveSpec (lhs rhs : List Char) (total : Nat) : RangeOutcome :=
  match lhs.isEmpty, rhs.isEmpty with
  | true, false =>
    match parseU64 rhs with
    | none => .full
    | some suffix =>
      if suffix = 0 then .unsatisfiable
      else .partialRange ⟨total - min suffix total, total - 1⟩
  | false, true =>
    match parseU64 lhs with
    | none => .full
    | some start =>
      if start ≥ total then .unsatisfiable else .partialRange ⟨start, total - 1⟩
  | false, false =>
    match parseU64 lhs, parseU64 rhs with
    | some start, some stop =>
      if start > stop ∨ start ≥ total then .unsatisfiable
      else .partialRange ⟨start, min stop (total - 1)⟩
    | _, _ => .full
  | true, true => .full

/-- Resolve a `Range` header against an object of `total` bytes. A header that
is not one `bytes` range is ignored; the empty object is checked before the
dash. -/
def parseRange (header : Option String) (total : Nat) : RangeOutcome :=
  match header with
  | none => .full
  | some h =>
    match stripPrefix "bytes=".toList (trim h.toList) with
    | none => .full
    | some spec =>
      let spec := trim spec
      if ',' ∈ spec then .full
      else if total = 0 then .unsatisfiable
      else
        match splitOnce '-' spec with
        | none => .full
        | some (lhs, rhs) => resolveSpec (trim lhs) (trim rhs) total

/-- The chunks that cover a range and where it lies in them. -/
structure ChunkSpan where
  firstChunk : Nat
  lastChunk : Nat
  headSkip : Nat
  outLen : Nat
deriving DecidableEq

def chunksForRange (m : Manifest) (r : ByteRange) : Option ChunkSpan :=
  let cs := m.chunkSize
  if cs = 0 then none
  else
    let firstChunk := r.start / cs
    let lastChunk := r.stop / cs
    some ⟨firstChunk, lastChunk, r.start - firstChunk * cs, r.len⟩

def sliceSpan (joined : Bytes) (span : ChunkSpan) : Except String Bytes :=
  let start := span.headSkip
  let stop := start + span.outLen
  if stop > u64Max then .error "range length overflow"
  else if stop > joined.length then
    .error s!"joined chunk bytes ({joined.length}) too short for range [{start}, {stop})"
  else .ok ((joined.drop start).take span.outLen)

/-! ## What a resolved range is -/

theorem resolveSpec_within {lhs rhs : List Char} {total : Nat} {r : ByteRange} (ht : total ≠ 0)
    (h : resolveSpec lhs rhs total = .partialRange r) : r.Within total := by
  unfold resolveSpec at h
  unfold ByteRange.Within
  split at h
  · split at h
    · cases h
    · split at h
      · cases h
      · cases h; simp only; omega
  · split at h
    · cases h
    · split at h
      · cases h
      · cases h; simp only; omega
  · split at h
    · split at h
      · cases h
      · cases h; simp only; omega
    · cases h
  · cases h

/-- A header resolves to a range inside the object. -/
theorem parseRange_within {header : Option String} {total : Nat} {r : ByteRange}
    (h : parseRange header total = .partialRange r) : r.Within total := by
  unfold parseRange at h
  split at h
  · cases h
  · split at h
    · cases h
    · simp only at h
      split at h
      · cases h
      · split at h
        · cases h
        · next ht =>
          split at h
          · cases h
          · exact resolveSpec_within ht h

/-! ## The span of a range -/

section

variable {m : Manifest} {range : ByteRange}

/-- The span of a range. -/
theorem chunksForRange_eq_some {span : ChunkSpan} :
    chunksForRange m range = some span ↔
      m.chunkSize ≠ 0 ∧ span = ⟨range.start / m.chunkSize, range.stop / m.chunkSize,
        range.start % m.chunkSize, range.len⟩ := by
  have hmod : range.start - range.start / m.chunkSize * m.chunkSize = range.start % m.chunkSize :=
    Nat.mod_eq_sub_div_mul.symm
  by_cases hcs : m.chunkSize = 0
  · simp [chunksForRange, hcs]
  · simp only [chunksForRange, hcs, if_false, hmod, Option.some.injEq, ne_eq, not_false_eq_true,
      true_and]
    exact eq_comm

theorem chunksForRange_of_ne (hcs : m.chunkSize ≠ 0) :
    chunksForRange m range = some ⟨range.start / m.chunkSize, range.stop / m.chunkSize,
      range.start % m.chunkSize, range.len⟩ :=
  chunksForRange_eq_some.2 ⟨hcs, rfl⟩

theorem chunksForRange_eq_none : chunksForRange m range = none ↔ m.chunkSize = 0 := by
  by_cases hcs : m.chunkSize = 0
  · simp [chunksForRange, hcs]
  · simp [chunksForRange, hcs]

end

/-! ## Slicing a span -/

/-- When `slice_span` succeeds. -/
def ChunkSpan.Fits (span : ChunkSpan) (joined : Bytes) : Prop :=
  span.headSkip + span.outLen ≤ u64Max ∧ span.headSkip + span.outLen ≤ joined.length

/-- What `slice_span` then returns. -/
def ChunkSpan.cut (span : ChunkSpan) (joined : Bytes) : Bytes :=
  (joined.drop span.headSkip).take span.outLen

theorem ChunkSpan.Fits.length_cut {span : ChunkSpan} {joined : Bytes} (h : span.Fits joined) :
    (span.cut joined).length = span.outLen := by
  have := h.2
  simp only [ChunkSpan.cut, List.length_take, List.length_drop]
  omega

theorem ChunkSpan.cut_isInfix (span : ChunkSpan) (joined : Bytes) : span.cut joined <:+: joined :=
  (List.take_prefix _ _).isInfix.trans (List.drop_suffix _ _).isInfix

theorem sliceSpan_eq_ok_iff {joined b : Bytes} {span : ChunkSpan} :
    sliceSpan joined span = .ok b ↔ span.Fits joined ∧ b = span.cut joined := by
  unfold sliceSpan ChunkSpan.Fits ChunkSpan.cut
  simp only
  split
  · constructor
    · intro h; cases h
    · rintro ⟨⟨h, -⟩, -⟩; omega
  · split
    · constructor
      · intro h; cases h
      · rintro ⟨⟨-, h⟩, -⟩; omega
    · constructor
      · intro h; cases h; exact ⟨⟨by omega, by omega⟩, rfl⟩
      · rintro ⟨-, rfl⟩; rfl

end CeCdn
