/-
A purge over HTTP. The mesh side of the edge purges an object while requests
for it are anywhere in `serve_cid`. What a purge cannot call back are the bytes
a request carries already; from every other request for the CID it keeps the
object away until the origin answers with it again (`purge_takes_effect`).

The one request that can undo a purge is one whose fetch has returned and that
is about to store what it got.
-/
import CeCdn.CacheFacts
import CeCdn.ServerFacts
import CeCdn.Lib.Places

namespace CeCdn

open Lib Machine

/-- The request carries no bytes, and its response, if it has one, is a refusal,
a revalidation or "not found". -/
def Phase.Bare : Phase → Prop
  | .fetched _ _ (some _) | .shape _ _ => False
  | .unlock _ (.bytes _ _) | .unref _ (.bytes _ _) => False
  | p => p.Replies fun resp => resp.status = 403 ∨ resp.status = 304 ∨ resp.status = 404

/-- The request is about to store bytes the origin answered. -/
def Task.Storing (t : Task) : Prop := ∃ l max b, t.phase = .fetched l max (some b)

/-- The origin does not answer a request for the CID with bytes. -/
def NotFetched (cid : String) (y : Sys) : Label → Prop
  | .answer i (some _) => ∀ t, y.tasks[i]? = some t → t.req.cid ≠ cid
  | _ => True

/-- The edge does not have the object, and of the requests for it at most the
ones in `old` do. -/
structure Forgotten (cid : String) (old : Nat → Prop) (y : Sys) : Prop where
  absent : y.shared.edge.cache.entries.lookup cid = none
  unstored : ∀ t ∈ y.tasks, t.req.cid = cid → ¬ t.Storing
  bare : ∀ (i : Nat) (t : Task), y.tasks[i]? = some t → t.req.cid = cid → ¬ old i → t.phase.Bare

/-! ## The cache does not get it -/

section

variable {env : ServerEnv} {o : Orders} {s s' : ServerState} {t t' : Task} {cid : String}

/-- A piece brings no object into the cache but one its request stores. -/
theorem Task.Piece.keeps_absent (h : Piece env o s t s' t')
    (hs : s.edge.cache.entries.lookup cid = none) (ht : t.req.cid = cid → ¬ t.Storing) :
    s'.edge.cache.entries.lookup cid = none := by
  have hget : ∀ k now, (s.edge.cache.get k now).2.entries.lookup cid = none := by
    intro k now
    refine Option.eq_none_iff_forall_ne_some.2 fun e he => ?_
    obtain ⟨e', he', -⟩ := EdgeCache.lookup_get he
    rw [hs] at he'
    cases he'
  have hneg : ∀ (c : EdgeCache) k now, (c.isNegative k now).2.entries = c.entries := by
    intro c k now
    obtain ⟨ts, n, heq⟩ := EdgeCache.isNegative_frame k now c
    rw [heq]
  obtain ⟨-, hc | ⟨-, hc⟩ | hc | ⟨-, hc⟩ | ⟨l, max, b, hp, hlen, hc⟩ | ⟨l, max, -, hc⟩⟩ :=
    h.edge_cases
  · rw [hc]; exact hs
  · rw [hc, hneg]; exact hs
  · rw [hc]; exact hget _ _
  · rw [hc, hneg]; exact hget _ _
  · rw [hc]
    refine Option.eq_none_iff_forall_ne_some.2 fun e he => ?_
    obtain ⟨hk, -, -⟩ | hold := EdgeCache.lookup_insertWithTtl he
    · exact ht hk.symm ⟨l, max, b, hp⟩
    · rw [hs] at hold
      cases hold
  · obtain ⟨ts, heq⟩ := EdgeCache.noteAbsent_frame o.tombstones t.req.cid t.now s.edge.cache
    rw [hc, heq]
    exact hs

/-! ## The requests do not get it -/

theorem Task.Piece.not_storing (h : Piece env o s t s' t') : ¬ t'.Storing := by
  intro ⟨l, max, b, hp⟩
  cases h <;> simp [Task.readBudget] at hp

/-- A piece leaves a request for an object that is not cached without it. -/
theorem Task.Piece.keeps_bare (h : Piece env o s t s' t')
    (hs : s.edge.cache.entries.lookup t.req.cid = none) (ht : t.phase.Bare) : t'.phase.Bare := by
  have hmiss : ∀ b, (s.edge.cache.get t.req.cid t.now).1 ≠ some b := by
    intro b hb
    obtain ⟨e, he, -⟩ := EdgeCache.get_eq_some hb
    rw [hs] at he
    cases he
  have hforbidden : (denyResponse t.req.cid t.now).status = 403 := rfl
  have habsent : t.absent.status = 404 := rfl
  cases h with
  | denied | replayed => exact .inl hforbidden
  | notModified => exact .inr (.inl rfl)
  | negative | renegative => exact .inr (.inr habsent)
  | absent => exact .inr (.inr habsent)
  | hit _ hget | rehit _ hget => exact absurd hget (hmiss _)
  | tooLarge hp | stored hp | unrefBytes hp | shape hp => rw [hp] at ht; exact ht.elim
  | @unlock l found hp =>
    rw [hp] at ht
    cases found with
    | bytes b hit => exact ht.elim
    | reply resp => exact ht
  | unrefReply hp => rw [hp] at ht; exact ht
  | granted | popAndCap | letThrough | modified | fresh | notNegative | budget | miss | flight
  | acquire | remiss | call => exact trivial

end

/-! ## Until it is fetched again -/

theorem Forgotten.step {env : ServerEnv} {cid : String} {old : Nat → Prop} {y y' : Sys} {l : Label}
    (h : Forgotten cid old y) (hl : NotFetched cid y l) (hs : Sys.step env y l = some y') :
    Forgotten cid old y' := by
  -- a request that moves: the others stay as they are
  have hset : ∀ {i : Nat} {t t' : Task} (s' : ServerState), y.tasks[i]? = some t →
      t'.req = t.req → s'.edge.cache.entries.lookup cid = none →
      (t.req.cid = cid → ¬ t'.Storing) → (t.req.cid = cid → ¬ old i → t'.phase.Bare) →
      Forgotten cid old ⟨s', y.tasks.set i t'⟩ := by
    intro i t t' s' hi hreq habs hstore hbare
    refine ⟨habs, fun u hu hcid => ?_, fun j u hj hcid hold => ?_⟩
    · obtain hu | rfl := List.mem_or_eq_of_mem_set hu
      · exact h.unstored u hu hcid
      · exact hstore (hreq ▸ hcid)
    · obtain ⟨rfl, rfl⟩ | ⟨-, hj⟩ := Places.getElem?_set_cases hj
      · exact hbare (hreq ▸ hcid) hold
      · exact h.bare j u hj hcid hold
  cases Sys.moves_of_step hs with
  | arrive req now =>
    refine ⟨h.absent, fun u hu hcid => ?_, fun j u hj hcid hold => ?_⟩
    · obtain hu | hu := List.mem_append.1 hu
      · exact h.unstored u hu hcid
      · rw [List.mem_singleton.1 hu]
        exact fun ⟨l, max, b, hp⟩ => nomatch hp
    · by_cases hlt : j < y.tasks.length
      · rw [List.getElem?_append_left hlt] at hj
        exact h.bare j u hj hcid hold
      · rw [List.getElem?_append_right (Nat.not_lt.1 hlt)] at hj
        rw [List.mem_singleton.1 (List.mem_of_getElem? hj)]
        trivial
  | piece hi hpiece =>
    have ht := List.mem_of_getElem? hi
    refine hset _ hi hpiece.req (hpiece.keeps_absent h.absent (h.unstored _ ht))
      (fun _ => hpiece.not_storing) fun hcid hold => ?_
    exact hpiece.keeps_bare (hcid ▸ h.absent) (h.bare _ _ hi hcid hold)
  | @answered i l max t res hi hp =>
    cases res with
    | none => exact hset _ hi rfl h.absent (fun _ ⟨_, _, _, h⟩ => nomatch h) fun _ _ => trivial
    | some b =>
      have hne : t.req.cid ≠ cid := hl t hi
      exact hset _ hi rfl h.absent (fun hcid => absurd hcid hne) fun hcid => absurd hcid hne
  | cancelled hi hc =>
    obtain ⟨rfl, -⟩ := Task.cancel_cases hc
    refine hset _ hi rfl ?_ (fun _ ⟨_, _, _, h⟩ => nomatch h) fun _ _ => trivial
    rw [Task.edge_cancel hc]
    exact h.absent
  | swept o now => exact ⟨EdgeCache.lookup_sweepExpired_of_none h.absent, h.unstored, h.bare⟩
  | purged k =>
    refine ⟨?_, h.unstored, h.bare⟩
    exact (EdgeCache.evicts_dropEntry k y.shared.edge.cache).none h.absent

/-- A purge leaves no entry. -/
theorem EdgeCache.lookup_purge (cid : String) (c : EdgeCache) :
    (c.purge cid).2.entries.lookup cid = none := by
  rw [purge, dropEntry_snd]
  exact AList.lookup_erase _ _

/-- **A purge takes effect.** Let the edge purge an object at any moment, in any
state of the requests, unless a request is just about to store it. Then however
the run goes on, as long as the origin answers no request for the CID with
bytes: the cache does not hold the object, and every request for it that carried
no bytes at the purge, or came after it, is answered 403, 304 or 404. -/
theorem purge_takes_effect (env : ServerEnv) (y : Sys) (cid : String)
    (hquiet : ∀ t ∈ y.tasks, t.req.cid = cid → ¬ t.Storing) (ls : List Label) (y' : Sys)
    (hfetch : Guarded (Sys.step env) (NotFetched cid) y (.purge cid :: ls))
    (hrun : run (Sys.step env) y (.purge cid :: ls) = some y') :
    y'.shared.edge.cache.entries.lookup cid = none ∧
    ∀ (i : Nat) (t' : Task), y'.tasks[i]? = some t' → t'.req.cid = cid →
      (∀ t, y.tasks[i]? = some t → t.phase.Bare) → ∀ resp, t'.phase = .done resp →
        resp.status = 403 ∨ resp.status = 304 ∨ resp.status = 404 := by
  obtain ⟨y₁, hpurge, hrun⟩ := run_cons_eq_some.1 hrun
  have hguard := hfetch.2 y₁ hpurge
  cases hpurge
  have hstart : Forgotten cid (fun i => ∃ t, y.tasks[i]? = some t ∧ ¬ t.phase.Bare)
      { y with shared := y.shared.setCache (y.shared.edge.cache.purge cid).2 } := by
    refine ⟨EdgeCache.lookup_purge cid _, hquiet, fun i t hi _ hold => ?_⟩
    by_contra hbare
    exact hold ⟨t, hi, hbare⟩
  have hend := guarded_invariant (fun _ _ _ hy hl hs => hy.step hl hs) hstart hguard hrun
  refine ⟨hend.absent, fun i t' hi hcid hbare resp hp => ?_⟩
  have hb := hend.bare i t' hi hcid fun ⟨t, ht, hnot⟩ => hnot (hbare t ht)
  rw [hp] at hb
  exact hb

/-! ### An object that is served, purged and asked for again -/

def servedRun : List Label :=
  .arrive plainReq 50 :: List.replicate 9 (.step 0 sampleOrders) ++
    .answer 0 (some [1, 2]) :: List.replicate 4 (.step 0 sampleOrders)

/-- The origin no longer has the object. -/
def afterPurge : List Label :=
  .arrive plainReq 60 :: List.replicate 9 (.step 1 sampleOrders) ++
    .answer 1 none :: List.replicate 3 (.step 1 sampleOrders)

/-- The CID a request is for, and its status. -/
def Task.outcome (t : Task) : String × Option Nat := (t.req.cid, t.status)

theorem outcomes_afterPurge :
    ((run (Sys.step sampleEnv) (.start publicState) servedRun).bind fun y =>
      (run (Sys.step sampleEnv) y (.purge "a" :: afterPurge)).map fun y' =>
        (y.tasks.map Task.outcome, y'.tasks.map Task.outcome)) =
      some ([("a", some 200)], [("a", some 200), ("a", some 404)]) := by
  decide +kernel

theorem purge_takes_effect_sample :
    ∃ y y', run (Sys.step sampleEnv) (.start publicState) servedRun = some y ∧
      run (Sys.step sampleEnv) y (.purge "a" :: afterPurge) = some y' ∧
      y'.shared.edge.cache.entries.lookup "a" = none ∧
      ∃ t' resp, y'.tasks[1]? = some t' ∧ t'.phase = .done resp ∧
        (resp.status = 403 ∨ resp.status = 304 ∨ resp.status = 404) := by
  obtain ⟨y, hrun, h⟩ := Option.bind_eq_some_iff.1 outcomes_afterPurge
  obtain ⟨y', hrun', houtcome⟩ := Option.map_eq_some_iff.1 h
  obtain ⟨hbefore, hafter⟩ := Prod.mk.inj houtcome
  obtain ⟨t₀, ht₀, ho₀⟩ : ∃ t₀, y.tasks = [t₀] ∧ t₀.outcome = ("a", some 200) := by
    simpa [List.map_eq_cons_iff] using hbefore
  obtain ⟨t', hi, ho⟩ : ∃ t', y'.tasks[1]? = some t' ∧ t'.outcome = ("a", some 404) := by
    have hone := congrArg (fun l => l[1]?) hafter
    simpa using hone
  obtain ⟨resp₀, hp₀, -⟩ := Task.done_of_status (congrArg Prod.snd ho₀)
  obtain ⟨resp, hp, -⟩ := Task.done_of_status (congrArg Prod.snd ho)
  have hquiet : ∀ t ∈ y.tasks, t.req.cid = "a" → ¬ t.Storing := by
    intro t ht _ ⟨l, max, b, hstore⟩
    rw [ht₀, List.mem_singleton] at ht
    rw [ht, hp₀] at hstore
    cases hstore
  have hfetch : Guarded (Sys.step sampleEnv) (NotFetched "a") y (.purge "a" :: afterPurge) := by
    refine guarded_of_forall (fun l hl y' => ?_) _
    cases l with
    | answer i res =>
      obtain ⟨-, rfl⟩ : i = 1 ∧ res = none := by simpa [afterPurge] using hl
      trivial
    | _ => trivial
  obtain ⟨habsent, hanswers⟩ :=
    purge_takes_effect sampleEnv y "a" hquiet afterPurge y' hfetch hrun'
  refine ⟨y, y', hrun, hrun', habsent, t', resp, hi, hp, ?_⟩
  refine hanswers 1 t' hi (congrArg Prod.fst ho) (fun t ht => ?_) resp hp
  rw [ht₀] at ht
  cases ht

end CeCdn
