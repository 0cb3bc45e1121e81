/-
Facts about the host's operations: what each returns and what it does to the
edge, as case lemmas the later proofs split on instead of unfolding.
-/
import CeCdn.CacheFacts
import CeCdn.ReadFacts

namespace CeCdn

open Lib Text Word

/-! ## Worlds -/

def World.fetched (w : World) (call : SourceCall) : World := { w with calls := w.calls ++ [call] }

def World.setCache (w : World) (c : EdgeCache) : World := { w with edge := { w.edge with cache := c } }

@[simp] theorem World.edge_fetched (w : World) (call : SourceCall) :
    (w.fetched call).edge = w.edge := rfl

@[simp] theorem World.cache_setCache (w : World) (c : EdgeCache) :
    (w.setCache c).edge.cache = c := rfl

/-- The edge is as it was; fetches may have been made. -/
def SameEdge (w w' : World) : Prop := w'.edge = w.edge

theorem SameEdge.refl (w : World) : SameEdge w w := rfl

theorem SameEdge.trans (a b c : World) (h : SameEdge a b) (h' : SameEdge b c) : SameEdge a c :=
  Eq.trans h' h

namespace EdgeState

variable (rs : CeRs) (src : BlobSource)

@[simp] theorem withCache_apply {α : Type} (f : EdgeCache → α × EdgeCache) (w : World) :
    (withCache f).run w = (.ok (f w.edge.cache).1, w.setCache (f w.edge.cache).2) := rfl

@[simp] theorem readCache_apply {α : Type} (f : EdgeCache → α) (w : World) :
    (readCache f).run w = (.ok (f w.edge.cache), w) := rfl

theorem getBlob_apply (cid : String) (w : World) :
    (getBlob src cid).run w = ((src.getBlob cid).mapError .err, w.fetched (.blob cid)) := rfl

theorem getObject_apply (cid : String) (w : World) :
    (getObject src cid).run w = ((src.getObject cid).mapError .err, w.fetched (.object cid)) := rfl

theorem getBlob_fst (c : String) (w : World) (b : Bytes) :
    ((getBlob src c).run w).1 = .ok b ↔ src.getBlob c = .ok b := by
  rw [getBlob_apply src]
  cases src.getBlob c with
  | error e => simp [Except.mapError]
  | ok x => simp [Except.mapError]

theorem fetchManifest_apply (cid : String) (w : World) :
    (fetchManifest rs src cid).run w = (manifestAt rs src cid, w.fetched (.blob cid)) := by
  have h := getBlob_apply src cid w
  unfold fetchManifest manifestAt
  cases hb : src.getBlob cid with
  | error e => rw [hb] at h; rw [Eff.run_bind_of_error h]
  | ok mb => rw [hb] at h; rw [Eff.run_bind_of_ok h]; rfl

theorem objectTotalSize_apply (cid : String) (w : World) :
    (objectTotalSize rs src cid).run w =
      ((manifestAt rs src cid).map Manifest.totalSize, w.fetched (.blob cid)) := by
  have h := fetchManifest_apply rs src cid w
  unfold objectTotalSize
  cases hm : manifestAt rs src cid with
  | error e => rw [hm] at h; rw [Eff.run_bind_of_error h]; rfl
  | ok m => rw [hm] at h; rw [Eff.run_bind_of_ok h]; rfl

variable {rs src}

/-- The answers of the store do not panic. -/
theorem manifestAt_error {cid : String} {f : Fail} (h : manifestAt rs src cid = .error f) :
    ∃ e, f = .err e := by
  unfold manifestAt at h
  split at h
  · cases h; exact ⟨_, rfl⟩
  · unfold parseV1 at h
    split at h
    · cases h; exact ⟨_, rfl⟩
    · split at h
      · cases h
      · cases h; exact ⟨_, rfl⟩

/-! ## Whole objects -/

variable (rs src) in
/-- An object within the budget is cached. -/
theorem cacheObject_of_fits (ord : IterOrder String CacheEntry) {cid : String} (ttlSecs now : Nat)
    {w : World} {m : Manifest} {b : Bytes} (hm : manifestAt rs src cid = .ok m)
    (hobj : src.getObject cid = .ok b) (htotal : m.totalSize ≤ w.edge.cache.maxBytes)
    (hlen : b.length ≤ w.edge.cache.maxBytes) :
    (cacheObject rs src ord cid ttlSecs now).run w =
      (.ok b.length, ((w.fetched (.blob cid)).fetched (.object cid)).setCache
        (w.edge.cache.insertWithTtl ord cid b
          (if ttlSecs = 0 then w.edge.cache.defaultTtlSecs else ttlSecs) now).2) := by
  have ht := objectTotalSize_apply rs src cid w
  rw [hm] at ht
  have ho := getObject_apply src cid (w.fetched (.blob cid))
  rw [hobj] at ho
  have hc : ((w.fetched (.blob cid)).fetched (.object cid)).edge.cache = w.edge.cache := rfl
  unfold cacheObject
  rw [Eff.run_bind_of_ok ht, Eff.run_bind_of_ok (readCache_apply _ _), World.edge_fetched,
    if_neg (Nat.not_lt.2 htotal), Eff.run_bind_of_ok ho, Eff.run_bind_of_ok (withCache_apply _ _),
    if_pos (EdgeCache.insertWithTtl_of_le ord cid _ now (hc ▸ hlen))]
  rfl

variable (rs src) in
/-- Caching an object stores what the store answers for it, within the budget,
or fails with the edge as it was. -/
theorem cacheObject_cases (ord : IterOrder String CacheEntry) (cid : String) (ttlSecs now : Nat)
    (w : World) :
    (∃ m b ttl calls, manifestAt rs src cid = .ok m ∧ m.totalSize ≤ w.edge.cache.maxBytes ∧
      src.getObject cid = .ok b ∧ (cacheObject rs src ord cid ttlSecs now).run w =
        (.ok b.length, { (w.setCache (w.edge.cache.insertWithTtl ord cid b ttl now).2) with
          calls := calls })) ∨
    ∃ e w', (cacheObject rs src ord cid ttlSecs now).run w = (.error (.err e), w') ∧
      SameEdge w w' := by
  have ht := objectTotalSize_apply rs src cid w
  cases hm : manifestAt rs src cid with
  | error f =>
    obtain ⟨e, rfl⟩ := manifestAt_error hm
    rw [hm] at ht
    exact .inr ⟨e, _, Eff.run_bind_of_error ht, rfl⟩
  | ok m =>
    rw [hm] at ht
    by_cases hbig : m.totalSize > w.edge.cache.maxBytes
    · rw [cacheObject, Eff.run_bind_of_ok ht, Eff.run_bind_of_ok (readCache_apply _ _),
        World.edge_fetched, if_pos hbig]
      exact .inr ⟨_, _, rfl, rfl⟩
    · have ho := getObject_apply src cid (w.fetched (.blob cid))
      cases hobj : src.getObject cid with
      | error e =>
        rw [hobj] at ho
        rw [cacheObject, Eff.run_bind_of_ok ht, Eff.run_bind_of_ok (readCache_apply _ _),
          World.edge_fetched, if_neg hbig, Eff.run_bind_of_error ho]
        exact .inr ⟨e, _, rfl, rfl⟩
      | ok b =>
        by_cases hlen : b.length ≤ w.edge.cache.maxBytes
        · have hfit := cacheObject_of_fits rs src ord ttlSecs now hm hobj (Nat.not_lt.1 hbig) hlen
          exact .inl ⟨m, b, _, _, rfl, Nat.not_lt.1 hbig, rfl, hfit⟩
        · have hfail := EdgeCache.insertWithTtl_of_lt ord cid
            (if ttlSecs = 0 then w.edge.cache.defaultTtlSecs else ttlSecs) now (Nat.not_le.1 hlen)
          have hc : ((w.fetched (.blob cid)).fetched (.object cid)).edge.cache = w.edge.cache := rfl
          rw [hobj] at ho
          rw [cacheObject, Eff.run_bind_of_ok ht, Eff.run_bind_of_ok (readCache_apply _ _),
            World.edge_fetched, if_neg hbig, Eff.run_bind_of_ok ho,
            Eff.run_bind_of_ok (withCache_apply _ _)]
          simp only [hc, hfail]
          exact .inr ⟨_, _, rfl, rfl⟩

variable (rs src) in
/-- A cold read returns what the store answers for the object, within the mesh
limit, and inserts it; or fails with the edge as it was. -/
theorem readObjectCold_cases (ord : IterOrder String CacheEntry) (cid : String) (now : Nat)
    (w : World) :
    (∃ m b calls, manifestAt rs src cid = .ok m ∧ m.totalSize ≤ MAX_MESH_OBJECT_BYTES ∧
      src.getObject cid = .ok b ∧ (readObjectCold rs src ord cid now).run w =
        (.ok (b, false), { (w.setCache (w.edge.cache.insert ord cid b now).2) with
          calls := calls })) ∨
    ∃ e w', (readObjectCold rs src ord cid now).run w = (.error (.err e), w') ∧ SameEdge w w' := by
  have ht := objectTotalSize_apply rs src cid w
  unfold readObjectCold
  cases hm : manifestAt rs src cid with
  | error f =>
    obtain ⟨e, rfl⟩ := manifestAt_error hm
    rw [hm] at ht
    exact .inr ⟨e, _, Eff.run_bind_of_error ht, rfl⟩
  | ok m =>
    rw [hm] at ht
    rw [Eff.run_bind_of_ok ht]
    by_cases hbig : m.totalSize > MAX_MESH_OBJECT_BYTES
    · rw [if_pos hbig]
      exact .inr ⟨_, _, rfl, rfl⟩
    · rw [if_neg hbig]
      have ho := getObject_apply src cid (w.fetched (.blob cid))
      cases hobj : src.getObject cid with
      | error e =>
        rw [hobj] at ho
        exact .inr ⟨e, _, Eff.run_bind_of_error ho, rfl⟩
      | ok b =>
        rw [hobj] at ho
        rw [Eff.run_bind_of_ok ho, Eff.run_bind_of_ok (withCache_apply _ _)]
        exact .inl ⟨m, b, _, rfl, Nat.not_lt.1 hbig, rfl, rfl⟩

variable (rs src) in
/-- A read of an object the cache holds fresh. -/
theorem readObject_of_hit (ord : IterOrder String CacheEntry) {cid : String} {now : Nat}
    {w : World} {b : Bytes} (h : (w.edge.cache.get cid now).1 = some b) :
    (readObject rs src ord cid now).run w =
      (.ok (b, true), w.setCache (w.edge.cache.get cid now).2) := by
  unfold readObject
  rw [Eff.run_bind_of_ok (withCache_apply _ _)]
  simp only [h]
  rfl

theorem readObject_of_miss {ord : IterOrder String CacheEntry} {cid : String} {now : Nat}
    {w : World} (h : (w.edge.cache.get cid now).1 = none) :
    (readObject rs src ord cid now).run w =
      (readObjectCold rs src ord cid now).run (w.setCache (w.edge.cache.get cid now).2) := by
  unfold readObject
  rw [Eff.run_bind_of_ok (withCache_apply _ _)]
  simp only [h]

/-! ## Ranges -/

theorem keepsEdge_getBlob (c : String) : Eff.Keeps SameEdge (getBlob src c) := fun _ => rfl

theorem keepsEdge_pullChunks (cids : List String) (out : Bytes) :
    Eff.Keeps SameEdge (pullChunks rs (getBlob src) cids out) := by
  induction cids generalizing out with
  | nil => exact Eff.keeps_pure SameEdge.refl out
  | cons c cids ih =>
    refine Eff.keeps_bind SameEdge.trans (keepsEdge_getBlob c) fun x => ?_
    simp only
    split
    · exact Eff.keeps_fail SameEdge.refl _
    · exact ih _

theorem keepsEdge_fetchChunks (m : Manifest) (span : ChunkSpan) :
    Eff.Keeps SameEdge (fetchChunks rs src m span) := by
  unfold fetchChunks
  split
  · exact Eff.keeps_pure SameEdge.refl _
  · exact Eff.keeps_bind SameEdge.trans (Eff.keeps_ofExcept SameEdge.refl _) fun _ =>
      keepsEdge_pullChunks _ _

/-- A cold range read leaves the edge alone. -/
theorem keepsEdge_readRangeCold (cid : String) (range : ByteRange) :
    Eff.Keeps SameEdge (readRangeCold rs src cid range) := by
  unfold readRangeCold
  refine Eff.keeps_bind SameEdge.trans (fun w => ?_) fun m => ?_
  · rw [fetchManifest_apply]; rfl
  · split
    · exact Eff.keeps_fail SameEdge.refl _
    · simp only
      split
      · exact Eff.keeps_fail SameEdge.refl _
      · refine Eff.keeps_bind SameEdge.trans (keepsEdge_fetchChunks m _) fun _ => ?_
        exact Eff.keeps_bind SameEdge.trans (Eff.keeps_ofExcept SameEdge.refl _) fun _ =>
          Eff.keeps_pure SameEdge.refl _

theorem fetchChunks_fst {m : Manifest} {span : ChunkSpan} {w : World} {b : Bytes} :
    ((fetchChunks rs src m span).run w).1 = .ok b ↔
      Pulled rs src m (min span.firstChunk (min span.lastChunk (m.chunks.length - 1)))
        span.lastChunk b := by
  unfold fetchChunks Pulled pulledCids
  split
  · constructor
    · intro h; cases h; exact ⟨[], [], rfl, .nil, rfl⟩
    · rintro ⟨cids, bs, h, hv, rfl⟩; cases h; cases hv; rfl
  · simp only [Eff.run_bind_fst_ok_iff, Eff.run_ofExcept, pullChunks_eq_ok_iff (getBlob_fst src),
      List.nil_append]
    constructor
    · rintro ⟨cids, hc, bs, hv, rfl⟩; exact ⟨cids, bs, hc, hv, rfl⟩
    · rintro ⟨cids, bs, hc, hv, rfl⟩; exact ⟨cids, hc, bs, hv, rfl⟩

/-- What the host reads from the store for a range, when it does. -/
def HostReads (rs : CeRs) (src : BlobSource) (m : Manifest) (range : ByteRange) (b : Bytes) : Prop :=
  ∃ span joined, chunksForRange m range = some span ∧
    coveringBytes m span ≤ MAX_MESH_RANGE_BYTES ∧
    Pulled rs src m (min span.firstChunk (min span.lastChunk (m.chunks.length - 1)))
      span.lastChunk joined ∧
    span.Fits joined ∧ b = span.cut joined

/-- When a cold range read succeeds, and with what. -/
theorem readRangeCold_eq_ok_iff {cid : String} {range : ByteRange} {w : World} {b : Bytes}
    {hit : Bool} :
    ((readRangeCold rs src cid range).run w).1 = .ok (b, hit) ↔
      hit = false ∧ ∃ m, manifestAt rs src cid = .ok m ∧ HostReads rs src m range b := by
  simp only [readRangeCold, Eff.run_bind_fst_ok_iff, fetchManifest_apply]
  rw [← exists_and_left]
  refine exists_congr fun m => ?_
  unfold HostReads
  cases chunksForRange m range with
  | none => simp
  | some span =>
    simp only
    by_cases hbig : coveringBytes m span > MAX_MESH_RANGE_BYTES
    · rw [if_pos hbig]
      constructor
      · rintro ⟨-, h⟩; cases h
      · rintro ⟨-, -, span', joined, hs, hc, -⟩; cases hs; omega
    · rw [if_neg hbig]
      simp only [Eff.run_bind_fst_ok_iff, fetchChunks_fst, Eff.run_ofExcept, Eff.run_pure]
      constructor
      · rintro ⟨hm, joined, hj, x, hx, h⟩
        cases h
        cases hs : sliceSpan joined span with
        | error e => rw [hs] at hx; cases hx
        | ok y =>
          rw [hs] at hx
          cases hx
          obtain ⟨hf, rfl⟩ := sliceSpan_eq_ok_iff.1 hs
          exact ⟨rfl, hm, span, joined, rfl, Nat.not_lt.1 hbig, hj, hf, rfl⟩
      · rintro ⟨rfl, hm, span', joined, hs, -, hj, hf, rfl⟩
        cases hs
        exact ⟨hm, joined, hj, _, by rw [sliceSpan_eq_ok_iff.2 ⟨hf, rfl⟩]; rfl, rfl⟩

variable (rs src) in
/-- A range of an object the cache holds fresh and long enough. -/
theorem readRange_of_hit {cid : String} {range : ByteRange} {now : Nat} {w : World} {b : Bytes}
    (h : (w.edge.cache.get cid now).1 = some b) (hr : range.Within b.length) :
    (readRange rs src cid range now).run w =
      (.ok ((b.drop range.start).take range.len, true),
        w.setCache (w.edge.cache.get cid now).2) := by
  have hs : sliceIncl b range.start range.stop =
      .ok ((b.drop range.start).take (range.stop + 1 - range.start)) :=
    sliceIncl_eq_ok.2 ⟨by have := hr.1; omega, hr.2, rfl⟩
  have hlen : range.stop + 1 - range.start = range.len := by
    have := hr.1
    unfold ByteRange.len; omega
  unfold readRange
  rw [Eff.run_bind_of_ok (withCache_apply _ _)]
  simp only [h, if_pos hr.2, hs, hlen]
  rfl

/-- Otherwise the chunks are pulled. -/
theorem readRange_of_miss {cid : String} {range : ByteRange} {now : Nat} {w : World}
    (h : ∀ b, (w.edge.cache.get cid now).1 = some b → ¬ range.stop < b.length) :
    (readRange rs src cid range now).run w =
      (readRangeCold rs src cid range).run (w.setCache (w.edge.cache.get cid now).2) := by
  unfold readRange
  rw [Eff.run_bind_of_ok (withCache_apply _ _)]
  cases hg : (w.edge.cache.get cid now).1 with
  | none => rfl
  | some b => simp only [if_neg (h b hg)]

variable (rs src) in
/-- A range read does to the cache what its lookup does. -/
theorem readRange_cache (cid : String) (range : ByteRange) (now : Nat) (w : World) :
    ((readRange rs src cid range now).run w).2.edge.cache = (w.edge.cache.get cid now).2 := by
  have hcold : ∀ w : World, ((readRangeCold rs src cid range).run w).2.edge.cache = w.edge.cache :=
    fun w => congrArg EdgeState.cache (keepsEdge_readRangeCold cid range w)
  unfold readRange
  rw [Eff.run_bind_of_ok (withCache_apply _ _)]
  cases hg : (w.edge.cache.get cid now).1 with
  | none => exact hcold _
  | some b =>
    simp only
    split
    · rcases hs : sliceIncl b range.start range.stop with f | x
      · rfl
      · rfl
    · exact hcold _

end EdgeState

/-! ## Replies -/

theorem replyWith_of_ok {α β : Type} {m : Op α} {ok : α → β} {err : String → β} {w : World} {a : α}
    (h : (m.run w).1 = .ok a) : (replyWith m ok err).run w = (.ok (ok a), (m.run w).2) := by
  unfold replyWith
  rw [Eff.run_attempt_bind, h]
  rfl

theorem replyWith_of_err {α β : Type} {m : Op α} {ok : α → β} {err : String → β} {w : World}
    {e : String} (h : (m.run w).1 = .error (.err e)) :
    (replyWith m ok err).run w = (.ok (err e), (m.run w).2) := by
  unfold replyWith
  rw [Eff.run_attempt_bind, h]
  rfl

theorem replyWith_snd {α β : Type} (m : Op α) (ok : α → β) (err : String → β) (w : World) :
    ((replyWith m ok err).run w).2 = (m.run w).2 := by
  unfold replyWith
  rw [Eff.run_attempt_bind]
  rcases (m.run w).1 with (_ | _) | _ <;> rfl

/-- A reply comes from a result or from an error's text. -/
theorem replyWith_eq_ok {α β : Type} {m : Op α} {ok : α → β} {err : String → β} {w : World} {r : β}
    (h : ((replyWith m ok err).run w).1 = .ok r) :
    (∃ a, (m.run w).1 = .ok a ∧ r = ok a) ∨ ∃ e, (m.run w).1 = .error (.err e) ∧ r = err e := by
  unfold replyWith at h
  rw [Eff.run_attempt_bind] at h
  rcases hm : (m.run w).1 with (e | _) | a
  · rw [hm] at h; cases h; exact .inr ⟨e, rfl, rfl⟩
  · rw [hm] at h; cases h
  · rw [hm] at h; cases h; exact .inl ⟨a, rfl, rfl⟩

/-! ## `do_read` -/

section

variable {rs : CeRs} {src : BlobSource} {ord : IterOrder String CacheEntry} {req : ReadReq}
  {now : Nat} {w : World}

theorem doRead_of_none (hreq : req.range = none) :
    doRead rs src ord req now = doReadWhole rs src ord req now := by
  simp only [doRead, hreq]

variable (ord now w) in
/-- Without a manifest a header is answered negatively. -/
theorem doRead_of_no_manifest {hdr : String} {f : Fail} (hreq : req.range = some hdr)
    (hm : manifestAt rs src req.cid = .error f) :
    ∃ resp w', (doRead rs src ord req now).run w = (.ok resp, w') ∧ resp.ok = false ∧
      SameEdge w w' := by
  obtain ⟨e, rfl⟩ := EdgeState.manifestAt_error hm
  have ht := EdgeState.objectTotalSize_apply rs src req.cid w
  rw [hm] at ht
  unfold doRead
  simp only [hreq, Eff.run_attempt_bind, ht]
  exact ⟨_, _, rfl, rfl, rfl⟩

/-- A header is resolved against the total of the manifest. -/
theorem doRead_of_header {hdr : String} {m : Manifest} (hreq : req.range = some hdr)
    (hm : manifestAt rs src req.cid = .ok m) :
    (doRead rs src ord req now).run w =
      (match parseRange (some hdr) m.totalSize with
        | .full => doReadWhole rs src ord req now
        | .partialRange r => doReadRange rs src req r m.totalSize now
        | .unsatisfiable =>
          pure { ok := false, totalLen := m.totalSize,
                 reason := some s!"range not satisfiable for {m.totalSize} bytes" }).run
        (w.fetched (.blob req.cid)) := by
  have ht := EdgeState.objectTotalSize_apply rs src req.cid w
  rw [hm] at ht
  unfold doRead
  simp only [hreq, Eff.run_attempt_bind, ht]
  rfl

end

end CeCdn
