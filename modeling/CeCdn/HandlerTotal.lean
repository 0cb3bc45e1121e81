/-
The handler of a mesh message never panics: whatever the message, the store's
answers and manifests, and the state of the edge, every index it slices with is
in range. So it replies to every message (`HostEnv.handle_replies`), and the
loop around it goes on.
-/
import CeCdn.HostFacts
import CeCdn.MeshAuth

namespace CeCdn

open Lib Text Word

/-- An error with a text, not a panic. -/
def Fail.IsErr : Fail → Prop
  | .err _ => True
  | .panic => False

theorem isErr_of_exists {f : Fail} (h : ∃ e, f = .err e) : f.IsErr := by
  obtain ⟨e, rfl⟩ := h
  trivial

/-- From no state does the operation panic. -/
abbrev Op.Safe {α : Type} (m : Op α) : Prop := Eff.FailsIn Fail.IsErr m

theorem sliceIncl_error {α : Type} {xs : List α} {first last : Nat} {f : Fail}
    (hle : first ≤ last + 1) (hlt : last < xs.length) : sliceIncl xs first last ≠ .error f := by
  rw [sliceIncl, if_pos ⟨hle, hlt⟩]
  nofun

namespace EdgeState

variable {rs : CeRs} {src : BlobSource}

theorem safe_withCache {α : Type} (f : EdgeCache → α × EdgeCache) : Op.Safe (withCache f) :=
  Eff.failsIn_step _

theorem safe_getBlob (cid : String) : Op.Safe (getBlob src cid) := by
  intro w e he
  rw [getBlob_apply src cid w] at he
  cases hb : src.getBlob cid with
  | error e' => rw [hb] at he; cases he; trivial
  | ok b => rw [hb] at he; cases he

theorem safe_fetchManifest (cid : String) : Op.Safe (fetchManifest rs src cid) := by
  intro w e he
  rw [fetchManifest_apply] at he
  exact isErr_of_exists (manifestAt_error he)

theorem safe_pullChunks (cids : List String) (out : Bytes) :
    Op.Safe (pullChunks rs (getBlob src) cids out) := by
  induction cids generalizing out with
  | nil => exact Eff.failsIn_pure out
  | cons c cids ih =>
    refine Eff.failsIn_bind (safe_getBlob c) fun _ chunk _ => ?_
    simp only
    split
    · exact Eff.failsIn_fail trivial
    · exact ih _

/-- The first chunk of a span is clamped to the last, and the last to the list. -/
theorem safe_fetchChunks (m : Manifest) (span : ChunkSpan) : Op.Safe (fetchChunks rs src m span) := by
  unfold fetchChunks
  split
  · exact Eff.failsIn_pure _
  · next hne =>
    have hpos : 0 < m.chunks.length := by
      rw [List.length_pos_iff]
      simpa using hne
    have hlast : min span.lastChunk (m.chunks.length - 1) < m.chunks.length := by omega
    refine Eff.failsIn_bind (Eff.failsIn_ofExcept fun e he => ?_) fun _ cids _ =>
      safe_pullChunks cids []
    exact absurd he (sliceIncl_error (by omega) hlast)

theorem safe_readRangeCold (cid : String) (range : ByteRange) :
    Op.Safe (readRangeCold rs src cid range) := by
  refine Eff.failsIn_bind (safe_fetchManifest cid) fun _ m _ => ?_
  split
  · exact Eff.failsIn_fail trivial
  · simp only
    split
    · exact Eff.failsIn_fail trivial
    · refine Eff.failsIn_bind (safe_fetchChunks m _) fun _ joined _ => ?_
      refine Eff.failsIn_bind (Eff.failsIn_ofExcept fun e he => ?_) fun _ _ _ =>
        Eff.failsIn_pure _
      cases hs : sliceSpan joined ‹_› with
      | error e' => rw [hs] at he; cases he; trivial
      | ok b => rw [hs] at he; cases he

/-- A range that does not run backwards is sliced within a cached object. -/
theorem safe_readRange {cid : String} {range : ByteRange} (hr : range.start ≤ range.stop)
    (now : Nat) : Op.Safe (readRange rs src cid range now) := by
  refine Eff.failsIn_bind (safe_withCache _) fun _ found _ => ?_
  cases found with
  | none => exact safe_readRangeCold cid range
  | some bytes =>
    simp only
    split
    · next hlt =>
      refine Eff.failsIn_bind (Eff.failsIn_ofExcept fun e he => ?_) fun _ _ _ =>
        Eff.failsIn_pure _
      exact absurd he (sliceIncl_error (by omega) hlt)
    · exact safe_readRangeCold cid range

theorem safe_cacheObject (ord : IterOrder String CacheEntry) (cid : String) (ttlSecs now : Nat) :
    Op.Safe (cacheObject rs src ord cid ttlSecs now) := by
  intro w e he
  obtain ⟨m, b, ttl, calls, -, -, -, hrun⟩ | ⟨e', w', hrun, -⟩ :=
    cacheObject_cases rs src ord cid ttlSecs now w
  · rw [hrun] at he; cases he
  · rw [hrun] at he; cases he; trivial

theorem safe_readObject (ord : IterOrder String CacheEntry) (cid : String) (now : Nat) :
    Op.Safe (readObject rs src ord cid now) := by
  refine Eff.failsIn_bind (safe_withCache _) fun _ found _ => ?_
  cases found with
  | some bytes => exact Eff.failsIn_pure _
  | none =>
    intro w e he
    obtain ⟨m, b, calls, -, -, -, hrun⟩ | ⟨e', w', hrun, -⟩ :=
      readObjectCold_cases rs src ord cid now w
    · rw [hrun] at he; cases he
    · rw [hrun] at he; cases he; trivial

end EdgeState

/-! ## Replies -/

/-- An operation that does not panic is replied to. -/
theorem replies_replyWith {α β : Type} {m : Op α} (hm : Op.Safe m) (ok : α → β) (err : String → β)
    (w : World) : ∃ r, ((replyWith m ok err).run w).1 = .ok r := by
  rcases hr : (m.run w).1 with f | a
  · have hf := hm w f hr
    cases f with
    | err e => exact ⟨err e, congrArg Prod.fst (replyWith_of_err hr)⟩
    | panic => exact hf.elim
  · exact ⟨ok a, congrArg Prod.fst (replyWith_of_ok hr)⟩

section

variable (rs : CeRs) (src : BlobSource) (ord : IterOrder String CacheEntry) (now : Nat)

theorem doRead_replies (req : ReadReq) (w : World) :
    ∃ r, ((doRead rs src ord req now).run w).1 = .ok r := by
  have hwhole : ∀ w, ∃ r, ((doReadWhole rs src ord req now).run w).1 = .ok r :=
    replies_replyWith (EdgeState.safe_readObject ord req.cid now) _ _
  cases hreq : req.range with
  | none => rw [doRead_of_none hreq]; exact hwhole w
  | some hdr =>
    cases hm : manifestAt rs src req.cid with
    | error f =>
      obtain ⟨resp, w', hrun, -⟩ := doRead_of_no_manifest ord now w hreq hm
      exact ⟨resp, congrArg Prod.fst hrun⟩
    | ok m =>
      rw [doRead_of_header hreq hm]
      cases hp : parseRange (some hdr) m.totalSize with
      | full => exact hwhole _
      | unsatisfiable => exact ⟨_, rfl⟩
      | partialRange r =>
        exact replies_replyWith
          (EdgeState.safe_readRange (parseRange_within hp).1 now) _ _ _

theorem Action.perform_replies (act : Action) (w : World) :
    ∃ r, ((act.perform rs src ord now).run w).1 = .ok r := by
  cases act with
  | cache req =>
    refine replies_replyWith (Eff.failsIn_bind (EdgeState.safe_cacheObject ord req.cid req.ttlSecs
      now) fun _ len _ => ?_) _ _ w
    exact Eff.failsIn_bind (EdgeState.safe_withCache _) fun _ _ _ => Eff.failsIn_pure _
  | read req =>
    obtain ⟨r, hr⟩ := doRead_replies rs src ord now req w
    exact ⟨.read r, by rw [Action.perform, Eff.run_bind_fst_of_ok hr]; rfl⟩
  | purge req => exact ⟨_, rfl⟩
  | status req => exact ⟨_, rfl⟩

end

namespace HostEnv

variable (env : HostEnv) (src : BlobSource) (ord : IterOrder String CacheEntry) (clocks : Clocks)
  (msg : MeshMsg)

theorem safe_handleInner : Op.Safe (env.handleInner src ord clocks msg) := by
  refine Eff.failsIn_bind (Eff.failsIn_ofExcept fun e he => isErr_of_exists (checked_error he))
    fun _ c _ => ?_
  obtain ⟨payload, sender, ability, caps, cid⟩ := c
  refine Eff.failsIn_bind (Eff.failsIn_step _) fun _ isPublic _ => ?_
  simp only
  rcases decideAccess ability cid (if isPublic = true then {cid} else ∅)
    (env.authorizeFn caps sender clocks.authorize) with ⟨_ | _, reason⟩
  · refine Eff.failsIn_bind (Eff.failsIn_ofExcept fun e he => isErr_of_exists (action_error he))
      fun _ act _ => ?_
    intro w e he
    obtain ⟨r, hr⟩ := act.perform_replies env.rs src ord clocks.dispatch w
    rw [hr] at he
    cases he
  · exact Eff.failsIn_fail trivial

/-- Every message is replied to. -/
theorem handle_replies (w : World) : ∃ reply, ((env.handle src ord clocks msg).run w).1 = .ok reply :=
  replies_replyWith (env.safe_handleInner src ord clocks msg) _ _ w

end HostEnv

end CeCdn
