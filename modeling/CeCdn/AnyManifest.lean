/-
Reads of an object whose manifest is any v1 manifest: the chunk size, the
total and the chunk list it declares need not fit its chunks.

The covering chunks of a range are computed from the declared chunk size and
clamped to the chunk list, and only the number of bytes they come to is
checked. So a cold range read of the host returns the bytes of the object from
`place` on. Where that is depends on the sizes of the chunks alone: it is where
the range starts when the chunks before the first one pulled come to the
declared number of bytes (`InPlace`). Then the read is right, whatever the
bytes; of any other sizes there is an object that is read wrongly
(`cold_range_read_right_of_inPlace`).
-/
import CeCdn.ReadPaths
import Mathlib.Data.List.SplitLengths

namespace CeCdn

open Lib Text Word

/-- The chunk of a span that the host pulls last. -/
def lastPulled (m : Manifest) (range : ByteRange) : Nat :=
  min (range.stop / m.chunkSize) (m.chunks.length - 1)

/-- The chunk it pulls first. -/
def firstPulled (m : Manifest) (range : ByteRange) : Nat :=
  min (range.start / m.chunkSize) (lastPulled m range)

/-- The chunks it pulls. -/
def coveredCids (m : Manifest) (range : ByteRange) : List String :=
  (m.chunks.drop (firstPulled m range)).take (lastPulled m range + 1 - firstPulled m range)

/-- The bytes it pulls, of an object of the chunks `bs`. -/
def pulledBytes (m : Manifest) (bs : List Bytes) (range : ByteRange) : Bytes :=
  ((bs.drop (firstPulled m range)).take (lastPulled m range + 1 - firstPulled m range)).flatten

/-- The checks of `read_range` let the range through, for chunks of these
sizes. -/
structure RangeServed (m : Manifest) (sizes : List Nat) (range : ByteRange) : Prop where
  chunkSize : m.chunkSize ≠ 0
  covering : satMul (satAdd (range.stop / m.chunkSize - range.start / m.chunkSize) 1) m.chunkSize ≤
    MAX_MESH_RANGE_BYTES
  long : range.start % m.chunkSize + range.len ≤
    ((sizes.drop (firstPulled m range)).take (lastPulled m range + 1 - firstPulled m range)).sum

/-- Where in an object of chunks of these sizes the bytes that are returned
lie. -/
def place (m : Manifest) (sizes : List Nat) (range : ByteRange) : Nat :=
  (sizes.take (firstPulled m range)).sum + range.start % m.chunkSize

/-- If the range is let through, the chunks before the first one pulled come to
as many bytes as are declared before it. -/
def InPlace (m : Manifest) (sizes : List Nat) (range : ByteRange) : Prop :=
  RangeServed m sizes range →
    (sizes.take (firstPulled m range)).sum = range.start / m.chunkSize * m.chunkSize

/-- The range lies in the object, and `b` is its bytes. -/
def IsRange (data : Bytes) (range : ByteRange) (b : Bytes) : Prop :=
  range.stop < data.length ∧ b = (data.drop range.start).take range.len

/-- The range lies in the object, and its bytes are also found at `p`. -/
def FoundAt (data : Bytes) (range : ByteRange) (p : Nat) : Prop :=
  range.stop < data.length ∧ ∀ k < range.len, data[p + k]? = data[range.start + k]?

/-- The host's read fails or returns the bytes of the range, of an object of the
chunks `bs`. -/
def ReadsRight (rs : CeRs) (src : BlobSource) (cid : String) (bs : List Bytes) (range : ByteRange)
    (now : Nat) (w : World) : Prop :=
  ∀ b hit, ((EdgeState.readRange rs src cid range now).run w).1 = .ok (b, hit) →
    IsRange bs.flatten range b

/-- Two objects of the same sizes, declared and real. -/
structure SameSizes (m m' : Manifest) (bs bs' : List Bytes) : Prop where
  chunkSize : m'.chunkSize = m.chunkSize
  totalSize : m'.totalSize = m.totalSize
  chunks : bs'.map List.length = bs.map List.length

/-! ## The sizes -/

section

variable {m : Manifest} {sizes : List Nat} {bs : List Bytes} {range : ByteRange}

theorem place_eq_iff :
    place m sizes range = range.start ↔
      (sizes.take (firstPulled m range)).sum = range.start / m.chunkSize * m.chunkSize := by
  have hstart := Nat.div_add_mod' range.start m.chunkSize
  unfold place
  omega

theorem length_flatten_take (bs : List Bytes) (n : Nat) :
    (bs.take n).flatten.length = ((bs.map List.length).take n).sum := by
  rw [List.length_flatten, List.map_take]

theorem length_pulledBytes (m : Manifest) (bs : List Bytes) (range : ByteRange) :
    (pulledBytes m bs range).length = (((bs.map List.length).drop (firstPulled m range)).take
      (lastPulled m range + 1 - firstPulled m range)).sum := by
  rw [pulledBytes, List.length_flatten, List.map_take, List.map_drop]

/-- The pulled bytes in the object. -/
theorem flatten_eq_pulled (m : Manifest) (bs : List Bytes) (range : ByteRange) :
    ∃ rest, bs.flatten =
      (bs.take (firstPulled m range)).flatten ++ (pulledBytes m bs range ++ rest) := by
  refine ⟨((bs.drop (firstPulled m range)).drop
    (lastPulled m range + 1 - firstPulled m range)).flatten, ?_⟩
  rw [pulledBytes, ← List.flatten_append, List.take_append_drop, ← List.flatten_append,
    List.take_append_drop]

/-- What is cut from the pulled bytes is the bytes of the object from `place` on. -/
theorem cut_pulledBytes (h : RangeServed m (bs.map List.length) range) :
    ((pulledBytes m bs range).drop (range.start % m.chunkSize)).take range.len =
      (bs.flatten.drop (place m (bs.map List.length) range)).take range.len := by
  obtain ⟨rest, hrest⟩ := flatten_eq_pulled m bs range
  have hlong := h.long
  rw [← length_pulledBytes] at hlong
  rw [hrest, place, ← length_flatten_take, ← List.drop_drop, List.drop_left,
    List.drop_append_of_le_length (by omega),
    List.take_append_of_le_length (by rw [List.length_drop]; omega)]

theorem place_add_le (h : RangeServed m (bs.map List.length) range) :
    place m (bs.map List.length) range + range.len ≤ bs.flatten.length := by
  obtain ⟨rest, hrest⟩ := flatten_eq_pulled m bs range
  have hlong := h.long
  rw [← length_pulledBytes] at hlong
  rw [hrest, place, ← length_flatten_take, List.length_append, List.length_append]
  omega

end

/-! ## The bytes -/

section

variable {rs : CeRs} {src : BlobSource} {cid : String} {m : Manifest} {bs : List Bytes}
  {range : ByteRange}

theorem window_eq_iff {α : Type} {data : List α} {p s n : Nat} :
    (data.drop p).take n = (data.drop s).take n ↔ ∀ k < n, data[p + k]? = data[s + k]? := by
  constructor
  · intro h k hk
    have hget := congrArg (·[k]?) h
    simpa [List.getElem?_take, hk, List.getElem?_drop] using hget
  · intro h
    apply List.ext_getElem?
    intro k
    by_cases hk : k < n
    · simpa [List.getElem?_take, hk, List.getElem?_drop] using h k hk
    · simp [hk]

theorem isRange_window_iff {data : Bytes} {p : Nat} :
    IsRange data range ((data.drop p).take range.len) ↔ FoundAt data range p :=
  and_congr_right fun _ => window_eq_iff

/-- Verified chunks are what the store has. -/
theorem Verified.eq {cids : List String} {xs ys : List Bytes} (hx : Verified rs src cids xs)
    (hy : Verified rs src cids ys) : xs = ys := by
  induction hx generalizing ys with
  | nil => cases hy; rfl
  | cons h _ ih =>
    cases hy with
    | cons h' hy =>
      have hb := h.1.symm.trans h'.1
      cases hb
      rw [ih hy]

theorem pulledCids_eq (m : Manifest) (range : ByteRange) :
    pulledCids m (firstPulled m range) (range.stop / m.chunkSize) = .ok (coveredCids m range) := by
  by_cases hne : m.chunks = []
  · simp [pulledCids, coveredCids, hne]
  · have hpos : 0 < m.chunks.length := List.length_pos_iff.2 hne
    have hempty : m.chunks.isEmpty = false := by simpa using hne
    have hfirst : firstPulled m range ≤ lastPulled m range := Nat.min_le_right _ _
    have hlast : lastPulled m range < m.chunks.length := by
      unfold lastPulled
      omega
    simp only [pulledCids, hempty, Bool.false_eq_true, if_false]
    exact sliceIncl_eq_ok.2 ⟨by unfold lastPulled at hfirst; omega, hlast, rfl⟩

/-- From an honest store the chunks of a span can be pulled. -/
theorem pulled_iff (hv : Verified rs src m.chunks bs) {joined : Bytes} :
    Pulled rs src m (firstPulled m range) (range.stop / m.chunkSize) joined ↔
      joined = pulledBytes m bs range := by
  have hpart : Verified rs src (coveredCids m range)
      ((bs.drop (firstPulled m range)).take (lastPulled m range + 1 - firstPulled m range)) :=
    List.forall₂_take _ (List.forall₂_drop _ hv)
  constructor
  · intro h
    obtain ⟨cids, xs, hc, hx, rfl⟩ := h
    rw [pulledCids_eq] at hc
    cases hc
    rw [Verified.eq hx hpart, pulledBytes]
  · intro h
    exact ⟨_, _, pulledCids_eq m range, hpart, h⟩

/-- What the host reads of a range, from an honest store. -/
theorem hostReads_iff (hv : Verified rs src m.chunks bs) (hw : range.Within m.totalSize)
    {b : Bytes} :
    EdgeState.HostReads rs src m range b ↔ RangeServed m (bs.map List.length) range ∧
      b = (bs.flatten.drop (place m (bs.map List.length) range)).take range.len := by
  constructor
  · intro h
    obtain ⟨span, joined, hspan, hcov, hj, hfits, rfl⟩ := h
    obtain ⟨hcs, rfl⟩ := chunksForRange_eq_some.1 hspan
    obtain rfl := (pulled_iff hv).1 hj
    have hlong := hfits.2
    rw [length_pulledBytes] at hlong
    have hserved : RangeServed m (bs.map List.length) range := ⟨hcs, hcov, hlong⟩
    exact ⟨hserved, cut_pulledBytes hserved⟩
  · intro h
    obtain ⟨hserved, rfl⟩ := h
    have hskip : range.start % m.chunkSize + range.len ≤ u64Max := by
      have htotal := m.totalSize_le
      have hmod := Nat.mod_le range.start m.chunkSize
      obtain ⟨hle, hlt⟩ := hw
      unfold ByteRange.len
      omega
    have hlong := hserved.long
    rw [← length_pulledBytes] at hlong
    exact ⟨_, _, chunksForRange_eq_some.2 ⟨hserved.chunkSize, rfl⟩, hserved.covering,
      (pulled_iff hv).2 rfl, ⟨hskip, hlong⟩, (cut_pulledBytes hserved).symm⟩

/-- What a cold read returns, of an object of any manifest. -/
theorem coldRead_eq_ok_iff (hm : manifestAt rs src cid = .ok m)
    (hv : Verified rs src m.chunks bs) (hw : range.Within m.totalSize) {now : Nat} {w : World}
    (hcold : w.edge.cache.containsFresh cid now = false) {b : Bytes} {hit : Bool} :
    ((EdgeState.readRange rs src cid range now).run w).1 = .ok (b, hit) ↔
      hit = false ∧ RangeServed m (bs.map List.length) range ∧
        b = (bs.flatten.drop (place m (bs.map List.length) range)).take range.len := by
  have hmiss : (w.edge.cache.get cid now).1 = none := by
    have hsome := EdgeCache.get_isSome cid now w.edge.cache
    rw [hcold] at hsome
    exact Option.not_isSome_iff_eq_none.1 (by rw [hsome]; simp)
  rw [EdgeState.readRange_of_miss (by rw [hmiss]; nofun), EdgeState.readRangeCold_eq_ok_iff]
  refine and_congr_right fun _ => ?_
  rw [← hostReads_iff hv hw]
  constructor
  · rintro ⟨m', hm', h⟩
    rw [hm] at hm'
    cases hm'
    exact h
  · intro h
    exact ⟨m, hm, h⟩

/-- A cold read is right when the bytes from `place` on, if any are returned,
are those of the range. Repeated bytes can make it so from another place. -/
theorem readsRight_iff (hm : manifestAt rs src cid = .ok m) (hv : Verified rs src m.chunks bs)
    (hw : range.Within m.totalSize) {now : Nat} {w : World}
    (hcold : w.edge.cache.containsFresh cid now = false) :
    ReadsRight rs src cid bs range now w ↔ (RangeServed m (bs.map List.length) range →
      FoundAt bs.flatten range (place m (bs.map List.length) range)) := by
  constructor
  · intro h hserved
    have hread := (coldRead_eq_ok_iff hm hv hw hcold).2 ⟨rfl, hserved, rfl⟩
    exact isRange_window_iff.1 (h _ false hread)
  · intro h b hit hb
    obtain ⟨-, hserved, rfl⟩ := (coldRead_eq_ok_iff hm hv hw hcold).1 hb
    exact isRange_window_iff.2 (h hserved)

/-- In place, the bytes from `place` on are those of the range. -/
theorem InPlace.foundAt (h : InPlace m (bs.map List.length) range)
    (hw : range.Within m.totalSize) (hserved : RangeServed m (bs.map List.length) range) :
    FoundAt bs.flatten range (place m (bs.map List.length) range) := by
  have hlen := place_add_le hserved
  rw [place_eq_iff.2 (h hserved)] at hlen ⊢
  have hstop : range.stop < bs.flatten.length := by
    have hle := hw.1
    unfold ByteRange.len at hlen
    omega
  exact ⟨hstop, fun k _ => rfl⟩

end

/-! ## An object of the same sizes -/

/-- A library whose hash is the bytes in hex and which reads one manifest. -/
def hexLib (m : Manifest) : CeRs where
  cid := hexEncode
  parseManifest _ := .ok m
  isV1 m' := m'.kind == m.kind
  plain _ := true

/-- A store of every blob under its hash. -/
def hexStore : BlobSource where
  getBlob c := .ok ((hexDecode c.toList).getD [])
  getObject _ := .error "no such object"

/-- The manifest, with the chunks `bs` in the place of its own. -/
def Manifest.holding (m : Manifest) (bs : List Bytes) : Manifest :=
  { m with chunks := bs.map hexEncode }

section

variable {m : Manifest} {bs : List Bytes} {range : ByteRange}

theorem firstPulled_holding (h : bs.length = m.chunks.length) :
    firstPulled (m.holding bs) range = firstPulled m range := by
  simp [firstPulled, lastPulled, Manifest.holding, h]

theorem lastPulled_holding (h : bs.length = m.chunks.length) :
    lastPulled (m.holding bs) range = lastPulled m range := by
  simp [lastPulled, Manifest.holding, h]

theorem RangeServed.holding {sizes : List Nat} (h : RangeServed m sizes range)
    (hlen : bs.length = m.chunks.length) : RangeServed (m.holding bs) sizes range where
  chunkSize := h.chunkSize
  covering := h.covering
  long := by
    rw [firstPulled_holding hlen, lastPulled_holding hlen]
    exact h.long

end

theorem manifestAt_hex (m : Manifest) (cid : String) :
    manifestAt (hexLib m) hexStore cid = .ok m := by
  simp [manifestAt, hexStore, hexLib, parseV1]

theorem verified_hex (m : Manifest) (bs : List Bytes) :
    Verified (hexLib (m.holding bs)) hexStore (m.holding bs).chunks bs := by
  rw [Verified, Manifest.holding, List.forall₂_map_left_iff]
  exact List.forall₂_same.2 fun b _ => ⟨by simp [hexStore, hexDecode_hexEncode], rfl⟩

/-- Zeros, but for a one at `i`. -/
def markedAt (i n : Nat) : Bytes := (List.replicate n 0).set i 1

theorem length_markedAt (i n : Nat) : (markedAt i n).length = n := by simp [markedAt]

/-- A marked byte is found nowhere else. -/
theorem not_foundAt_markedAt {range : ByteRange} {p n : Nat} (hle : range.start ≤ range.stop)
    (hp : p ≠ range.start) : ¬ FoundAt (markedAt range.start n) range p := by
  intro h
  obtain ⟨hstop, hbytes⟩ := h
  rw [length_markedAt] at hstop
  have hfirst := hbytes 0 (by unfold ByteRange.len; omega)
  have hmark : (markedAt range.start n)[range.start]? = some 1 := by
    simp [markedAt, show range.start < n by omega]
  rw [Nat.add_zero, Nat.add_zero, hmark, markedAt, List.getElem?_set_ne (Ne.symm hp),
    List.getElem?_replicate] at hfirst
  split at hfirst <;> simp at hfirst

/-- **When a cold range read is right.** From an honest store and a cache that
does not hold the object fresh, for every v1 manifest and every header that it
resolves to a range. If the range is refused, or the chunks before the first
one pulled come to as many bytes as the declared chunk size makes them, the
host's read fails or returns the bytes of the range. If not, some object with
chunks of these sizes, under the same declared sizes, is read wrongly. -/
theorem cold_range_read_right_of_inPlace {rs : CeRs} {src : BlobSource} {cid : String}
    {m : Manifest} {bs : List Bytes} (hm : manifestAt rs src cid = .ok m)
    (hv : Verified rs src m.chunks bs) {header : Option String} {range : ByteRange}
    (hr : parseRange header m.totalSize = .partialRange range) (now : Nat) (w : World)
    (hcold : w.edge.cache.containsFresh cid now = false) :
    (InPlace m (bs.map List.length) range → ReadsRight rs src cid bs range now w) ∧
    (¬ InPlace m (bs.map List.length) range → ∃ rs' src' m' bs', SameSizes m m' bs bs' ∧
      manifestAt rs' src' cid = .ok m' ∧ Verified rs' src' m'.chunks bs' ∧
      ¬ ReadsRight rs' src' cid bs' range now w) := by
  have hw := parseRange_within hr
  refine ⟨fun h => (readsRight_iff hm hv hw hcold).2 (h.foundAt hw), fun h => ?_⟩
  obtain ⟨hserved, hsum⟩ := Classical.not_imp.1 h
  -- The object has its only byte other than zero where the range starts.
  let sizes := bs.map List.length
  let data := markedAt range.start sizes.sum
  let bs' := sizes.splitLengths data
  have hlen : data.length = sizes.sum := length_markedAt _ _
  have hsizes : bs'.map List.length = sizes := List.map_splitLengths_length _ _ hlen.ge
  have hdata : bs'.flatten = data := List.flatten_splitLengths _ _ hlen.le
  have hcount : bs'.length = m.chunks.length := by
    rw [hv.length_eq, ← List.length_map List.length, hsizes, List.length_map]
  refine ⟨_, _, m.holding bs', bs', ⟨rfl, rfl, hsizes⟩, manifestAt_hex _ _, verified_hex m bs', ?_⟩
  rw [readsRight_iff (manifestAt_hex _ _) (verified_hex m bs') hw hcold, hsizes, hdata]
  intro hfound
  refine not_foundAt_markedAt hw.1 (fun hplace => hsum ?_) (hfound (hserved.holding hcount))
  rw [place_eq_iff, firstPulled_holding hcount] at hplace
  exact hplace

/-! ### A chunk list too short for its total -/

/-- Six bytes are declared, in chunks of two; there is one chunk. -/
def shortManifest : Manifest where
  kind := "object"
  chunkSize := 2
  totalSize := 6
  chunks := ["0102"]
  chunkSize_le := sampleManifest.chunkSize_le
  totalSize_le := by decide

def shortLib : CeRs := { sampleLib with parseManifest := fun _ => .ok shortManifest }

theorem short_verified : Verified shortLib sampleStore shortManifest.chunks [[1, 2]] :=
  .cons ⟨by decide, by decide⟩ .nil

/-- A range inside the one chunk there is. -/
theorem cold_range_read_right_sample :
    ((EdgeState.readRange shortLib sampleStore "00" ⟨1, 1⟩ 0).run ⟨.new 100 0, []⟩).1 =
      .ok ([2], false) ∧
    IsRange [1, 2] ⟨1, 1⟩ [2] := by
  have hread : ((EdgeState.readRange shortLib sampleStore "00" ⟨1, 1⟩ 0).run
      ⟨.new 100 0, []⟩).1 = .ok ([2], false) := by
    decide
  have hm : manifestAt shortLib sampleStore "00" = .ok shortManifest := rfl
  have hr : parseRange (some "bytes=1-1") shortManifest.totalSize = .partialRange ⟨1, 1⟩ := by
    decide
  have hplace : InPlace shortManifest [2] ⟨1, 1⟩ := by
    intro _
    decide
  have hright := (cold_range_read_right_of_inPlace hm short_verified hr 0 ⟨.new 100 0, []⟩ rfl).1
    hplace
  exact ⟨hread, hright _ _ hread⟩

/-- The last two declared bytes: the first two are returned. -/
theorem cold_range_read_wrong :
    parseRange (some "bytes=4-5") shortManifest.totalSize = .partialRange ⟨4, 5⟩ ∧
    ¬ ∀ b hit, ((EdgeState.readRange shortLib sampleStore "00" ⟨4, 5⟩ 0).run
        ⟨.new 100 0, []⟩).1 = .ok (b, hit) → IsRange [1, 2] ⟨4, 5⟩ b := by
  refine ⟨by decide, fun h => ?_⟩
  have hstop := (h [1, 2] false (by decide)).1
  exact absurd hstop (by decide)

end CeCdn
