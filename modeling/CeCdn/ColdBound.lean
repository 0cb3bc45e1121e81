/-
How many bytes a cold range read holds. `read_range` bounds the covering chunks
by their number and the chunk size that the manifest declares; its arithmetic
does not overflow, and the slice it returns is within the limit. What
`fetch_chunks` concatenates is as long as the chunks really are, and nothing
checks a chunk's length: the read is bounded when no chunk it pulls is longer
than declared, and no declaration makes it so (`cold_read_bounded_of_chunks`).
-/
import CeCdn.AnyManifest
import CeCdn.MeshCeiling

namespace CeCdn

open Lib Text Word

/-! ## The arithmetic -/

/-- `ByteRange.len`, with the checks of its operators. -/
def ByteRange.lenChecked (r : ByteRange) : Option Nat := do
  let d ← checkedSub r.stop r.start
  checkedAdd d 1

/-- `chunksForRange`, with the checks of its operators. -/
def chunksForRangeChecked (m : Manifest) (r : ByteRange) : Option (Option ChunkSpan) :=
  if m.chunkSize = 0 then some none
  else do
    let firstChunk ← checkedDiv r.start m.chunkSize
    let lastChunk ← checkedDiv r.stop m.chunkSize
    let skipped ← checkedMul firstChunk m.chunkSize
    let headSkip ← checkedSub r.start skipped
    let outLen ← r.lenChecked
    some (some ⟨firstChunk, lastChunk, headSkip, outLen⟩)

theorem ByteRange.Within.lenChecked {r : ByteRange} {total : Nat} (h : r.Within total)
    (ht : total ≤ u64Max) : r.lenChecked = some r.len := by
  obtain ⟨hle, hlt⟩ := h
  simp only [ByteRange.lenChecked, checkedSub_of_le hle]
  exact checkedAdd_of_le (by omega)

/-- No operator of `chunks_for_range` overflows or divides by zero. -/
theorem chunksForRangeChecked_eq {m : Manifest} {r : ByteRange} (h : r.Within m.totalSize) :
    chunksForRangeChecked m r = some (chunksForRange m r) := by
  have htotal := m.totalSize_le
  by_cases hcs : m.chunkSize = 0
  · simp [chunksForRangeChecked, chunksForRange, hcs]
  · have hskip : r.start / m.chunkSize * m.chunkSize ≤ r.start := Nat.div_mul_le_self _ _
    have hmul : r.start / m.chunkSize * m.chunkSize ≤ u64Max := by
      have := h.1
      have := h.2
      omega
    simp [chunksForRangeChecked, chunksForRange, hcs, checkedDiv_of_ne hcs, checkedMul_of_le hmul,
      checkedSub_of_le hskip, h.lenChecked htotal]

/-! ## What the loop over the chunks holds -/

section

variable (rs : CeRs) (src : BlobSource)

/-- The bytes concatenated when the loop ends, be it at a chunk that is missing
or has another hash. -/
def concatenated : List String → Bytes
  | [] => []
  | c :: cs =>
    match src.getBlob c with
    | .error _ => []
    | .ok b => if rs.cid b ≠ c then [] else b ++ concatenated cs

/-- The store does not have the first of the chunks. -/
def Stops : List String → Prop
  | [] => True
  | c :: _ => ∀ b, src.getBlob c = .ok b → rs.cid b ≠ c

/-- The loop goes through the chunks the store has. -/
theorem concatenated_split (cids : List String) :
    ∃ pre post bs, cids = pre ++ post ∧ Verified rs src pre bs ∧ Stops rs src post ∧
      concatenated rs src cids = bs.flatten := by
  induction cids with
  | nil => exact ⟨[], [], [], rfl, .nil, trivial, rfl⟩
  | cons c cids ih =>
    unfold concatenated
    cases hb : src.getBlob c with
    | error e => exact ⟨[], c :: cids, [], rfl, .nil, by simp [Stops, hb], rfl⟩
    | ok b =>
      by_cases hc : rs.cid b = c
      · obtain ⟨pre, post, bs, rfl, hv, hstop, hcat⟩ := ih
        refine ⟨c :: pre, post, b :: bs, rfl, .cons ⟨hb, hc⟩ hv, hstop, ?_⟩
        simp [hc, hcat]
      · exact ⟨[], c :: cids, [], rfl, .nil, by simpa [Stops, hb] using hc, by simp [hc]⟩

variable {rs src}

/-- Chunks the store has are concatenated. -/
theorem concatenated_append {pre post : List String} {bs : List Bytes}
    (h : Verified rs src pre bs) :
    concatenated rs src (pre ++ post) = bs.flatten ++ concatenated rs src post := by
  induction h with
  | nil => rfl
  | cons hc _ ih => simp [concatenated, hc.1, hc.2, ih]

/-- The loop with the chunks the store has behind it. -/
theorem pullChunks_append {pre : List String} {bs : List Bytes} (h : Verified rs src pre bs)
    (post : List String) (out : Bytes) (w : World) :
    ∃ w', (pullChunks rs (EdgeState.getBlob src) (pre ++ post) out).run w =
      (pullChunks rs (EdgeState.getBlob src) post (out ++ bs.flatten)).run w' := by
  induction h generalizing out w with
  | nil => exact ⟨w, by simp⟩
  | @cons c b pre bs hc hv ih =>
    obtain ⟨w', hw'⟩ := ih (out ++ b) (w.fetched (.blob c))
    refine ⟨w', ?_⟩
    have hget : (EdgeState.getBlob src c).run w = (.ok b, w.fetched (.blob c)) := by
      simp [EdgeState.getBlob_apply, hc.1, Except.mapError]
    rw [List.cons_append, pullChunks, Eff.run_bind_of_ok hget]
    simpa [hc.2] using hw'

variable {m : Manifest} {range : ByteRange} {span : ChunkSpan}

/-- `fetch_chunks` is the loop over the covered chunks. -/
theorem fetchChunks_run (hs : chunksForRange m range = some span) (w : World) :
    (EdgeState.fetchChunks rs src m span).run w =
      (pullChunks rs (EdgeState.getBlob src) (coveredCids m range) []).run w := by
  obtain ⟨-, rfl⟩ := chunksForRange_eq_some.1 hs
  have hcids := pulledCids_eq m range
  by_cases hne : m.chunks = []
  · simp [EdgeState.fetchChunks, coveredCids, pullChunks, hne]
  · have hempty : m.chunks.isEmpty = false := by simpa using hne
    simp only [pulledCids, hempty, Bool.false_eq_true, if_false] at hcids
    simp only [EdgeState.fetchChunks, hempty, Bool.false_eq_true, if_false]
    apply Eff.run_bind_of_ok
    rw [Eff.run_ofExcept, ← hcids]
    rfl

/-- Where the loop of `fetch_chunks` comes to: it holds the concatenated bytes,
and is done or at a chunk that the store does not have. -/
theorem fetchChunks_holds (hs : chunksForRange m range = some span) (w : World) :
    ∃ post w', Stops rs src post ∧ (EdgeState.fetchChunks rs src m span).run w =
      (pullChunks rs (EdgeState.getBlob src) post
        (concatenated rs src (coveredCids m range))).run w' := by
  obtain ⟨pre, post, bs, hcids, hv, hstop, hcat⟩ :=
    concatenated_split rs src (coveredCids m range)
  obtain ⟨w', hw'⟩ := pullChunks_append hv post [] w
  refine ⟨post, w', hstop, ?_⟩
  rw [fetchChunks_run hs, hcat, hcids, hw', List.nil_append]

/-- What `fetch_chunks` returns is the concatenated bytes. -/
theorem fetchChunks_ok (hs : chunksForRange m range = some span) {w : World} {b : Bytes}
    (h : ((EdgeState.fetchChunks rs src m span).run w).1 = .ok b) :
    b = concatenated rs src (coveredCids m range) := by
  obtain ⟨post, w', hstop, hw'⟩ := fetchChunks_holds hs w
  rw [hw', pullChunks_eq_ok_iff (EdgeState.getBlob_fst src)] at h
  obtain ⟨bs, hv, rfl⟩ := h
  cases hv with
  | nil => simp
  | cons hc _ => exact absurd hc.2 (hstop _ hc.1)

end

/-! ## The bound -/

/-- The declared sizes pass the check of `read_range`. -/
def DeclaredFits (m : Manifest) (range : ByteRange) : Prop :=
  m.chunkSize ≠ 0 ∧
    (range.stop / m.chunkSize - range.start / m.chunkSize + 1) * m.chunkSize ≤ MAX_MESH_RANGE_BYTES

/-- The saturating check compares the exact product. -/
theorem coveringBytes_le_iff {m : Manifest} {range : ByteRange} {span : ChunkSpan}
    (hs : chunksForRange m range = some span) :
    EdgeState.coveringBytes m span ≤ MAX_MESH_RANGE_BYTES ↔ DeclaredFits m range := by
  obtain ⟨hcs, rfl⟩ := chunksForRange_eq_some.1 hs
  have hmax : MAX_MESH_RANGE_BYTES < u64Max := by decide
  rw [EdgeState.coveringBytes, satMul_le_iff hmax, DeclaredFits, and_iff_right hcs]
  have hpos : 0 < m.chunkSize := Nat.pos_of_ne_zero hcs
  generalize range.stop / m.chunkSize - range.start / m.chunkSize = n
  by_cases hn : n + 1 ≤ u64Max
  · rw [satAdd_eq hn]
  · have hsat : satAdd n 1 = u64Max := by unfold satAdd; omega
    have hle : u64Max ≤ u64Max * m.chunkSize := Nat.le_mul_of_pos_right _ hpos
    have hle' : n + 1 ≤ (n + 1) * m.chunkSize := Nat.le_mul_of_pos_right _ hpos
    rw [hsat]
    omega

/-- What is promised of a cold range read of `m` at `cid`: no operator
overflows, and what passes the check is within the limit, as it is
concatenated, joined and returned. -/
structure ColdReadBounded (rs : CeRs) (src : BlobSource) (cid : String) (m : Manifest)
    (range : ByteRange) : Prop where
  arithmetic : chunksForRangeChecked m range = some (chunksForRange m range)
  held : ∀ span, chunksForRange m range = some span →
    EdgeState.coveringBytes m span ≤ MAX_MESH_RANGE_BYTES →
    (concatenated rs src (coveredCids m range)).length ≤ MAX_MESH_RANGE_BYTES
  joined : ∀ span w b, chunksForRange m range = some span →
    EdgeState.coveringBytes m span ≤ MAX_MESH_RANGE_BYTES →
    ((EdgeState.fetchChunks rs src m span).run w).1 = .ok b → b.length ≤ MAX_MESH_RANGE_BYTES
  returned : ∀ w b hit, ((EdgeState.readRangeCold rs src cid range).run w).1 = .ok (b, hit) →
    b.length ≤ MAX_MESH_RANGE_BYTES

/-- The covered chunks really are within the limit, as far as the store has
them. -/
def RealSizesFit (rs : CeRs) (src : BlobSource) (m : Manifest) (range : ByteRange) : Prop :=
  ∀ pre post bs, coveredCids m range = pre ++ post → Verified rs src pre bs →
    (bs.map List.length).sum ≤ MAX_MESH_RANGE_BYTES

/-- No chunk that the loop pulls is longer than the declared chunk size. -/
def ChunksWithin (rs : CeRs) (src : BlobSource) (m : Manifest) (range : ByteRange) : Prop :=
  ∀ pre post bs, coveredCids m range = pre ++ post → Verified rs src pre bs →
    ∀ b ∈ bs, b.length ≤ m.chunkSize

section

variable {rs : CeRs} {src : BlobSource} {cid : String} {m : Manifest} {range : ByteRange}

theorem realSizesFit_iff :
    RealSizesFit rs src m range ↔
      (concatenated rs src (coveredCids m range)).length ≤ MAX_MESH_RANGE_BYTES := by
  constructor
  · intro h
    obtain ⟨pre, post, bs, hcids, hv, -, hcat⟩ :=
      concatenated_split rs src (coveredCids m range)
    rw [hcat, List.length_flatten]
    exact h pre post bs hcids hv
  · intro h pre post bs hcids hv
    rw [hcids, concatenated_append hv, List.length_append, List.length_flatten] at h
    omega

/-- No more chunks are covered than were counted. -/
theorem length_coveredCids_le (m : Manifest) (hr : range.start ≤ range.stop) :
    (coveredCids m range).length ≤ range.stop / m.chunkSize - range.start / m.chunkSize + 1 := by
  have hdiv : range.start / m.chunkSize ≤ range.stop / m.chunkSize := Nat.div_le_div_right hr
  simp only [coveredCids, firstPulled, lastPulled, List.length_take]
  omega

/-- Chunks no longer than the declared size are within the limit. -/
theorem ChunksWithin.realSizesFit (h : ChunksWithin rs src m range)
    (hr : range.start ≤ range.stop) (hfit : DeclaredFits m range) :
    RealSizesFit rs src m range := by
  intro pre post bs hcids hv
  have hsum : (bs.map List.length).sum ≤ bs.length * m.chunkSize := by
    have hle := List.sum_le_card_nsmul (bs.map List.length) m.chunkSize
    simp only [List.forall_mem_map, List.length_map, nsmul_eq_mul, Nat.cast_id] at hle
    exact hle (h pre post bs hcids hv)
  have hcount : bs.length ≤ range.stop / m.chunkSize - range.start / m.chunkSize + 1 := by
    have hle := length_coveredCids_le m hr
    rw [hcids, List.length_append, hv.length_eq] at hle
    omega
  exact hsum.trans ((Nat.mul_le_mul_right _ hcount).trans hfit.2)

/-- A range is no longer than the chunks counted for it. -/
theorem DeclaredFits.len_le (h : DeclaredFits m range) (hr : range.start ≤ range.stop) :
    range.len ≤ MAX_MESH_RANGE_BYTES := by
  obtain ⟨hcs, hfit⟩ := h
  have hdiv : range.start / m.chunkSize ≤ range.stop / m.chunkSize := Nat.div_le_div_right hr
  have hstart := Nat.div_mul_le_self range.start m.chunkSize
  have hstop := Nat.lt_div_mul_add (a := range.stop) (Nat.pos_of_ne_zero hcs)
  rw [Nat.add_mul, Nat.sub_mul] at hfit
  unfold ByteRange.len
  omega

/-- What is held is the real sizes of the chunks, once the declared ones pass. -/
theorem coldReadBounded_iff (hm : manifestAt rs src cid = .ok m)
    (hr : range.Within m.totalSize) :
    ColdReadBounded rs src cid m range ↔ (DeclaredFits m range → RealSizesFit rs src m range) := by
  have hspan : ∀ span, chunksForRange m range = some span →
      EdgeState.coveringBytes m span ≤ MAX_MESH_RANGE_BYTES → DeclaredFits m range :=
    fun span hs => (coveringBytes_le_iff hs).1
  constructor
  · intro h hfit
    have hs : chunksForRange m range = some _ := chunksForRange_of_ne hfit.1
    exact realSizesFit_iff.2 (h.held _ hs ((coveringBytes_le_iff hs).2 hfit))
  · intro h
    refine ⟨chunksForRangeChecked_eq hr, ?_, ?_, ?_⟩
    · intro span hs hcov
      exact realSizesFit_iff.1 (h (hspan span hs hcov))
    · intro span w b hs hcov hb
      rw [fetchChunks_ok hs hb]
      exact realSizesFit_iff.1 (h (hspan span hs hcov))
    · intro w b hit hb
      obtain ⟨-, m', hm', span, joined, hs, hcov, -, hfits, rfl⟩ :=
        EdgeState.readRangeCold_eq_ok_iff.1 hb
      rw [hm] at hm'
      cases hm'
      rw [hfits.length_cut]
      have hlen := (hspan span hs hcov).len_le hr.1
      obtain ⟨-, rfl⟩ := chunksForRange_eq_some.1 hs
      exact hlen

/-! ## An object under the same declaration -/

variable (range) in
/-- A range covers a chunk, if there is one. -/
theorem coveredCids_replicate {c : String} {n : Nat} (hchunks : m.chunks = List.replicate n c)
    (hn : 0 < n) : ∃ post, coveredCids m range = c :: post := by
  have hfirst : firstPulled m range ≤ lastPulled m range := Nat.min_le_right _ _
  have hlast : lastPulled m range < n := by
    rw [lastPulled, hchunks, List.length_replicate]
    omega
  obtain ⟨k, hk⟩ : ∃ k, min (lastPulled m range + 1 - firstPulled m range)
      (n - firstPulled m range) = k + 1 := Nat.exists_eq_add_one.2 (by omega)
  rw [coveredCids, hchunks, List.drop_replicate, List.take_replicate, hk, List.replicate_succ]
  exact ⟨_, rfl⟩

/-- The manifest with as many chunks, each longer than the limit. -/
def Manifest.oversized (m : Manifest) : Manifest :=
  m.holding (List.replicate m.chunks.length bigData)

theorem length_oversized (m : Manifest) : m.oversized.chunks.length = m.chunks.length := by
  simp [Manifest.oversized, Manifest.holding]

theorem not_realSizesFit_oversized (hne : m.chunks ≠ []) :
    ¬ RealSizesFit (hexLib m.oversized) hexStore m.oversized range := by
  intro h
  have hpos : 0 < m.chunks.length := List.length_pos_iff.2 hne
  have hchunks : m.oversized.chunks = List.replicate m.chunks.length (hexEncode bigData) :=
    List.map_replicate
  obtain ⟨post, hpost⟩ := coveredCids_replicate range hchunks hpos
  have hbig : Verified (hexLib m.oversized) hexStore [hexEncode bigData] [bigData] :=
    .cons ⟨by simp [hexStore, hexDecode_hexEncode], rfl⟩ .nil
  have hsum := h [hexEncode bigData] post [bigData] hpost hbig
  rw [List.map_singleton, List.sum_singleton, length_bigData] at hsum
  exact absurd hsum (Nat.not_succ_le_self _)

end

/-- **When a cold range read holds a bounded number of bytes.** For every v1
manifest that the store answers and every range inside its total: when the
range is refused, or no chunk that is pulled is longer than the declared chunk
size. No declaration that passes the check makes it so: if there is a chunk,
some object that declares the same sizes, in as many chunks, is held past the
limit. -/
theorem cold_read_bounded_of_chunks {rs : CeRs} {src : BlobSource} {cid : String} {m : Manifest}
    (hm : manifestAt rs src cid = .ok m) {range : ByteRange} (hr : range.Within m.totalSize) :
    ((DeclaredFits m range → ChunksWithin rs src m range) →
      ColdReadBounded rs src cid m range) ∧
    (DeclaredFits m range → m.chunks ≠ [] → ∃ rs' src' m', m'.chunkSize = m.chunkSize ∧
      m'.totalSize = m.totalSize ∧ m'.chunks.length = m.chunks.length ∧
      manifestAt rs' src' cid = .ok m' ∧ ¬ ColdReadBounded rs' src' cid m' range) := by
  constructor
  · intro h
    exact (coldReadBounded_iff hm hr).2 fun hfit => (h hfit).realSizesFit hr.1 hfit
  · intro hfit hne
    have hm' := manifestAt_hex m.oversized cid
    refine ⟨_, _, m.oversized, rfl, rfl, length_oversized m, hm', fun h => ?_⟩
    exact not_realSizesFit_oversized hne ((coldReadBounded_iff hm' hr).1 h hfit)

theorem cold_read_bounded_sample :
    (⟨1, 1⟩ : ByteRange).Within shortManifest.totalSize ∧
    ColdReadBounded shortLib sampleStore "00" shortManifest ⟨1, 1⟩ := by
  have hr : (⟨1, 1⟩ : ByteRange).Within shortManifest.totalSize := by decide
  refine ⟨hr, (cold_read_bounded_of_chunks (m := shortManifest) (by decide) hr).1 ?_⟩
  intro _ pre post bs hcids hv b hb
  have hcov : coveredCids shortManifest ⟨1, 1⟩ = ["0102"] := by decide
  rw [hcov] at hcids
  cases hv with
  | nil => cases hb
  | cons hc hv =>
    simp only [List.cons_append, List.cons.injEq] at hcids
    obtain ⟨rfl, hnil⟩ := hcids
    obtain ⟨rfl, -⟩ := List.append_eq_nil_iff.1 hnil.symm
    cases hv
    cases hc.1
    simp only [List.mem_singleton] at hb
    subst hb
    decide

/-- One byte is declared, in one chunk; the chunk is longer than the limit. -/
def fatManifest : Manifest where
  kind := "object"
  chunkSize := 1
  totalSize := 1
  chunks := [toString (MAX_MESH_OBJECT_BYTES + 1)]
  chunkSize_le := by decide
  totalSize_le := by decide

def fatLib : CeRs := { bigLib with parseManifest := fun _ => .ok fatManifest }

/-- The first byte of it. -/
theorem cold_read_unbounded :
    manifestAt fatLib bigStore "1" = .ok fatManifest ∧
    (⟨0, 0⟩ : ByteRange).Within fatManifest.totalSize ∧
    ¬ ColdReadBounded fatLib bigStore "1" fatManifest ⟨0, 0⟩ := by
  refine ⟨rfl, by decide, fun h => ?_⟩
  have hheld := h.held ⟨0, 0, 0, 1⟩ rfl (by decide)
  have hcat : concatenated fatLib bigStore (coveredCids fatManifest ⟨0, 0⟩) = bigData := by
    have hcov : coveredCids fatManifest ⟨0, 0⟩ = [toString (MAX_MESH_OBJECT_BYTES + 1)] := rfl
    have hne : ¬ toString (MAX_MESH_OBJECT_BYTES + 1) = "1" := by decide
    simp only [hcov, concatenated, bigStore, if_neg hne, fatLib, bigLib, length_bigData]
    simp
  rw [hcat, length_bigData] at hheld
  exact absurd hheld (Nat.not_succ_le_self _)

end CeCdn
