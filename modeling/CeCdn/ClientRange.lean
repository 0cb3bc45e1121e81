/-
A client's range fetch on any v1 manifest (`Client.getRange`): when it panics,
and when the bytes it returns are as many as the range it returns.

`reassemble_span` clamps the last chunk of a span to the chunk list and not the
first, so a range that starts beyond the chunk list is sliced out of range. For
a range, `slice_span` makes the length right or fails; a whole fetch is not
sliced, and its length is that of the chunks there are.
-/
import CeCdn.AnyManifest

namespace CeCdn

open Lib Text Word

section

variable {rs : CeRs} {src : BlobSource}

/-! ## What does not panic -/

theorem Client.getBlob_fst_ne_panic (what c : String) (s : List SourceCall) :
    ((Client.getBlob src what c).run s).1 ≠ .error .panic := by
  unfold Client.getBlob
  cases src.getBlob c with
  | error e => simp [Except.mapError]
  | ok x => simp [Except.mapError]

theorem parseV1_ne_panic (cid : String) (mb : Bytes) : parseV1 rs cid mb ≠ .error .panic := by
  unfold parseV1
  split
  · simp
  · split <;> simp

theorem Client.fetchManifest_fst_ne_panic (cid : String) (s : List SourceCall) :
    ((Client.fetchManifest rs src cid).run s).1 ≠ .error .panic := by
  intro h
  rw [Client.fetchManifest, Eff.run_bind_fst_error_iff] at h
  rcases h with h | ⟨mb, -, h⟩
  · exact Client.getBlob_fst_ne_panic _ _ _ h
  · exact parseV1_ne_panic _ _ h

/-- The loop over the chunks panics only where a fetch does. -/
theorem pullChunks_fst_ne_panic {σ : Type} {getBlob : String → Eff σ Fail Bytes}
    (hget : ∀ c s, ((getBlob c).run s).1 ≠ .error .panic) (cids : List String) (out : Bytes)
    (s : σ) : ((pullChunks rs getBlob cids out).run s).1 ≠ .error .panic := by
  induction cids generalizing out s with
  | nil => simp [pullChunks]
  | cons c cids ih =>
    intro h
    rw [pullChunks, Eff.run_bind_fst_error_iff] at h
    rcases h with h | ⟨x, -, h⟩
    · exact hget _ _ h
    · simp only at h
      split at h
      · simp at h
      · exact ih _ _ h

/-! ## The slice of the chunk list -/

/-- The chunk slice of a span is out of range. -/
def ChunkSpan.OffList (span : ChunkSpan) (m : Manifest) : Prop :=
  m.chunks ≠ [] ∧ min span.lastChunk (m.chunks.length - 1) + 1 < span.firstChunk

theorem sliceIncl_eq_panic {α : Type} {xs : List α} {first last : Nat} (h : last < xs.length) :
    sliceIncl xs first last = .error .panic ↔ last + 1 < first := by
  unfold sliceIncl
  split
  · next h' => simp; omega
  · next h' => simp; omega

theorem Client.reassembleSpan_fst_panic {m : Manifest} {span : ChunkSpan} {s : List SourceCall} :
    ((Client.reassembleSpan rs src m span).run s).1 = .error .panic ↔ span.OffList m := by
  unfold Client.reassembleSpan ChunkSpan.OffList
  by_cases hne : m.chunks = []
  · simp [hne]
  · have hempty : m.chunks.isEmpty = false := by simpa using hne
    have hpos : 0 < m.chunks.length := List.length_pos_iff.2 hne
    have hlast : min span.lastChunk (m.chunks.length - 1) < m.chunks.length := by omega
    simp only [hempty, Bool.false_eq_true, if_false, Eff.run_bind_fst_error_iff, Eff.run_ofExcept,
      sliceIncl_eq_panic hlast, ne_eq, hne, not_false_eq_true, true_and]
    constructor
    · intro h
      rcases h with h | ⟨cids, -, h⟩
      · exact h
      · exact absurd h (pullChunks_fst_ne_panic (Client.getBlob_fst_ne_panic "chunk") _ _ _)
    · exact .inl

/-- A range fetch of the chunks of a manifest slices out of range. -/
def PanicsOn (m : Manifest) : RangeOutcome → Prop
  | .full => False
  | .partialRange r =>
    m.chunkSize ≠ 0 ∧ m.chunks ≠ [] ∧ m.chunks.length < r.start / m.chunkSize
  | .unsatisfiable => False

theorem offList_iff {m : Manifest} {r : ByteRange} {span : ChunkSpan}
    (hr : r.start ≤ r.stop) (hs : chunksForRange m r = some span) :
    span.OffList m ↔ PanicsOn m (.partialRange r) := by
  have hdiv : r.start / m.chunkSize ≤ r.stop / m.chunkSize := Nat.div_le_div_right hr
  obtain ⟨hcs, rfl⟩ := chunksForRange_eq_some.1 hs
  simp only [ChunkSpan.OffList, PanicsOn]
  constructor
  · intro ⟨hne, h⟩
    have := List.length_pos_iff.2 hne
    exact ⟨hcs, hne, by omega⟩
  · intro ⟨_, hne, h⟩
    have := List.length_pos_iff.2 hne
    exact ⟨hne, by omega⟩

/-- When a range fetch panics. -/
theorem Client.getRange_panics_iff {cid : String} {rangeHeader : Option String}
    {s : List SourceCall} :
    ((Client.getRange rs src cid rangeHeader).run s).1 = .error .panic ↔
      ∃ m, manifestAt rs src cid = .ok m ∧ PanicsOn m (parseRange rangeHeader m.totalSize) := by
  rw [Client.getRange, Eff.run_bind_fst_error_iff,
    or_iff_right (Client.fetchManifest_fst_ne_panic cid s)]
  simp only [Client.fetchManifest_fst]
  refine exists_congr fun m => and_congr_right fun _ => ?_
  generalize ((Client.fetchManifest rs src cid).run s).2 = s'
  cases hp : parseRange rangeHeader m.totalSize with
  | full =>
    simp only [PanicsOn, Eff.run_bind_fst_error_iff, Client.reassembleSpan_fst_panic,
      ChunkSpan.OffList, Eff.run_pure]
    simp
  | partialRange r =>
    simp only
    cases hs : chunksForRange m r with
    | none =>
      simp [PanicsOn, chunksForRange_eq_none.1 hs]
    | some span =>
      rw [← offList_iff (parseRange_within hp).1 hs]
      simp only [Eff.run_bind_fst_error_iff, Client.reassembleSpan_fst_panic, Eff.run_ofExcept,
        Eff.run_pure]
      constructor
      · intro h
        rcases h with h | ⟨joined, -, h | ⟨b, -, h⟩⟩
        · exact h
        · cases hslice : sliceSpan joined span with
          | error e => rw [hslice] at h; cases h
          | ok b => rw [hslice] at h; cases h
        · cases h
      · exact .inl
  | unsatisfiable => simp [PanicsOn]

/-! ## The length of what is returned -/

/-- A whole fetch joins the chunks of the manifest. -/
theorem pulled_all_iff {m : Manifest} {b : Bytes} :
    Pulled rs src m 0 (m.chunks.length - 1) b ↔
      ∃ bs, Verified rs src m.chunks bs ∧ b = bs.flatten := by
  have hcids : pulledCids m 0 (m.chunks.length - 1) = .ok m.chunks := by
    by_cases hne : m.chunks = []
    · simp [pulledCids, hne]
    · have hempty : m.chunks.isEmpty = false := by simpa using hne
      have hpos : 0 < m.chunks.length := List.length_pos_iff.2 hne
      simp only [pulledCids, hempty, Bool.false_eq_true, if_false]
      refine sliceIncl_eq_ok.2 ⟨by omega, by omega, ?_⟩
      rw [List.drop_zero, List.take_of_length_le (by omega)]
  unfold Pulled
  rw [hcids]
  constructor
  · rintro ⟨cids, bs, hc, h⟩
    cases hc
    exact ⟨bs, h⟩
  · rintro ⟨bs, h⟩
    exact ⟨_, bs, rfl, h⟩

end

/-- The outcome of a range fetch is what its caller relies on: no panic, and
of an object that is not empty a range inside it with its number of bytes. -/
structure SafeRead (out : Except Fail (Bytes × ByteRange × Nat)) : Prop where
  no_panic : out ≠ .error .panic
  exact : ∀ b r total, out = .ok (b, r, total) → 0 < total → r.Within total ∧ b.length = r.len

/-- What a range fetch needs of a manifest and the store that answers it: the
range does not start beyond the chunk list; for a whole fetch, the chunks, when
the store has them all, come to the declared total. -/
def FetchFits (rs : CeRs) (src : BlobSource) (m : Manifest) : RangeOutcome → Prop
  | .full =>
    m.totalSize = 0 ∨ ∀ bs, Verified rs src m.chunks bs → bs.flatten.length = m.totalSize
  | .partialRange r =>
    m.chunkSize = 0 ∨ m.chunks = [] ∨ r.start / m.chunkSize ≤ m.chunks.length
  | .unsatisfiable => True

section

variable {rs : CeRs} {src : BlobSource} {m : Manifest}

theorem FetchFits.not_panics {o : RangeOutcome} (h : FetchFits rs src m o) : ¬ PanicsOn m o := by
  cases o with
  | full => simp [PanicsOn]
  | partialRange r =>
    intro ⟨hcs, hne, hlt⟩
    rcases h with h | h | h
    · exact hcs h
    · exact hne h
    · omega
  | unsatisfiable => simp [PanicsOn]

theorem FetchFits.exact {rangeHeader : Option String}
    (h : FetchFits rs src m (parseRange rangeHeader m.totalSize)) (htotal : 0 < m.totalSize)
    {b : Bytes} {r : ByteRange} (hread : ClientReads rs src m rangeHeader b r) :
    r.Within m.totalSize ∧ b.length = r.len := by
  rw [ClientReads] at hread
  cases hr : parseRange rangeHeader m.totalSize with
  | full =>
    rw [hr] at hread h
    obtain ⟨rfl, hpulled⟩ := hread
    obtain ⟨bs, hbs, rfl⟩ := pulled_all_iff.1 hpulled
    rcases h with h | h
    · omega
    · simp only [ByteRange.Within, ByteRange.len, h bs hbs]
      omega
  | partialRange range =>
    rw [hr] at hread
    obtain ⟨rfl, span, joined, hspan, -, hfit, rfl⟩ := hread
    obtain ⟨-, rfl⟩ := chunksForRange_eq_some.1 hspan
    exact ⟨parseRange_within hr, hfit.length_cut⟩
  | unsatisfiable => rw [hr] at hread; exact hread.elim

/-- What a safe read says of the manifest it read. -/
theorem SafeRead.fetchFits {cid : String} {rangeHeader : Option String} {s : List SourceCall}
    (h : SafeRead ((Client.getRange rs src cid rangeHeader).run s).1)
    (hm : manifestAt rs src cid = .ok m) :
    FetchFits rs src m (parseRange rangeHeader m.totalSize) := by
  cases hp : parseRange rangeHeader m.totalSize with
  | full =>
    by_cases htotal : m.totalSize = 0
    · exact .inl htotal
    · refine .inr fun bs hbs => ?_
      have hread : ClientReads rs src m rangeHeader bs.flatten ⟨0, m.totalSize - 1⟩ := by
        rw [ClientReads, hp]
        exact ⟨rfl, pulled_all_iff.2 ⟨bs, hbs, rfl⟩⟩
      have hlen := (h.exact _ _ _ (Client.getRange_eq_ok_iff.2 ⟨m, hm, rfl, hread⟩)
        (Nat.pos_of_ne_zero htotal)).2
      simp only [ByteRange.len] at hlen
      omega
  | partialRange r =>
    have hno : ¬ PanicsOn m (.partialRange r) := fun hp' =>
      h.no_panic (Client.getRange_panics_iff.2 ⟨m, hm, by rw [hp]; exact hp'⟩)
    simp only [PanicsOn, not_and, Nat.not_lt] at hno
    by_cases hcs : m.chunkSize = 0
    · exact .inl hcs
    · by_cases hne : m.chunks = []
      · exact .inr (.inl hne)
      · exact .inr (.inr (hno hcs hne))
  | unsatisfiable => trivial

end

/-- **When a range fetch is safe.** For every store, CID and header: exactly
when the v1 manifest that the store answers, if it answers one, fits what the
header asks. -/
theorem Client.getRange_safe_iff (rs : CeRs) (src : BlobSource) (cid : String)
    (rangeHeader : Option String) (s : List SourceCall) :
    SafeRead ((Client.getRange rs src cid rangeHeader).run s).1 ↔
      ∀ m, manifestAt rs src cid = .ok m →
        FetchFits rs src m (parseRange rangeHeader m.totalSize) := by
  refine ⟨fun h m hm => h.fetchFits hm, fun h => ⟨fun hpanic => ?_, fun b r total hok htotal => ?_⟩⟩
  · obtain ⟨m, hm, hp⟩ := Client.getRange_panics_iff.1 hpanic
    exact (h m hm).not_panics hp
  · obtain ⟨m, hm, rfl, hread⟩ := Client.getRange_eq_ok_iff.1 hok
    exact (h m hm).exact htotal hread

/-- The one chunk of two bytes under a total of six: a range beyond it panics,
and the whole object is two bytes for six. -/
theorem Client.getRange_unsafe :
    manifestAt shortLib sampleStore "00" = .ok shortManifest ∧
    ¬ SafeRead ((Client.getRange shortLib sampleStore "00" (some "bytes=4-5")).run []).1 ∧
    ¬ SafeRead ((Client.getRange shortLib sampleStore "00" none).run []).1 := by
  refine ⟨by decide, fun h => ?_, fun h => ?_⟩
  · exact h.no_panic (by decide)
  · have hlen := (h.exact [1, 2] ⟨0, 5⟩ 6 (by decide) (by decide)).2
    exact absurd hlen (by decide)

end CeCdn
