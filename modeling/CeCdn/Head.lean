/-
`HEAD` is `GET` without a body (`handle`, `serve_cid`). Take any run of the
front-end and turn its `HEAD` requests into `GET` requests: the run goes the
same way, however its requests interleave, the server is at every point in the
same state, and each request is answered the same, but that a `HEAD` is not sent
the object's bytes (`head_as_get`).
-/
import CeCdn.Routes

namespace CeCdn

open Lib Text Machine

/-! ## Requests as `GET` requests -/

def Method.asGet : Method → Method
  | .head => .get
  | m => m

def RawReq.asGet (raw : RawReq) : RawReq := { raw with method := raw.method.asGet }

def HttpReq.asGet (req : HttpReq) : HttpReq := { req with headOnly := false }

def Task.asGet (t : Task) : Task := { t with req := t.req.asGet }

def FrontLabel.asGet : FrontLabel → FrontLabel
  | .request raw now => .request raw.asGet now
  | .work l => .work l

def Route.asGet : Route → Route
  | .object req => .object req.asGet
  | r => r

theorem RawReq.route_asGet (raw : RawReq) : raw.asGet.route = raw.route.asGet := by
  obtain ⟨method, path, query, headers⟩ := raw
  cases method <;> simp only [asGet, Method.asGet, route, reduceCtorEq, if_false, if_true] <;>
    (repeat' split) <;> simp [Route.asGet, HttpReq.asGet]

/-- The task of a `GET` that stands where that of the request does: once they are
answered, a `HEAD` has the response without its body. -/
structure Task.GetOf (t u : Task) : Prop where
  req : u.req = t.req.asGet
  now : u.now = t.now
  grant : u.grant = t.grant
  phase : u.phase = t.phase ∨ t.req.headOnly = true ∧
    ∃ resp, u.phase = .done resp ∧ t.phase = .done { resp with body := [] }

/-- Two states of the front-end with the same server, and with tasks that stand
alike. -/
structure Sys.GetOf (y z : Sys) : Prop where
  shared : z.shared = y.shared
  tasks : List.Forall₂ Task.GetOf y.tasks z.tasks

/-! ## One piece of a request -/

section

variable {env : ServerEnv} {o : Orders} {s s' : ServerState} {t t' u : Task}

theorem Task.getOf_asGet (t : Task) : t.GetOf t.asGet := ⟨rfl, rfl, rfl, .inl rfl⟩

/-- No piece but the last looks at the method. -/
theorem Task.advance_asGet (hp : ∀ b hit, t.phase ≠ .shape b hit) :
    t.asGet.advance env o s = (t.advance env o s).map fun r => (r.1, r.2.asGet) := by
  obtain ⟨req, now, grant, phase⟩ := t
  cases phase with
  | access =>
    have hg : env.grantOf s.edge.publicSet req.asGet now = env.grantOf s.edge.publicSet req now := rfl
    simp only [advance, asGet, decideGrant, hg, Option.map_some]
    cases env.grantOf s.edge.publicSet req now <;> rfl
  | replay =>
    have hpop : env.popOnce req.asGet now s.replay = env.popOnce req now s.replay := rfl
    simp only [advance, asGet, checkReplay, hpop, Option.map_some]
    cases (env.popOnce req now s.replay).1 <;> rfl
  | conditional =>
    have hheader : req.asGet.header "if-none-match" = req.header "if-none-match" := rfl
    have hcid : req.asGet.cid = req.cid := rfl
    simp only [advance, asGet, checkConditional, hheader, hcid, Option.map_some]
    split <;> rfl
  | tombstone =>
    have hcid : req.asGet.cid = req.cid := rfl
    simp only [advance, asGet, checkTombstone, hcid, Option.map_some]
    split <;> rfl
  | lookup max =>
    have hcid : req.asGet.cid = req.cid := rfl
    simp only [advance, asGet, lookup, hcid, Option.map_some]
    rfl
  | wait l max =>
    simp only [advance, asGet]
    split <;> rfl
  | recheck l max =>
    have hcid : req.asGet.cid = req.cid := rfl
    simp only [advance, asGet, recheck, hcid, Option.map_some]
    cases (s.edge.cache.get req.cid now).1 <;> rfl
  | fetched l max res =>
    have hcid : req.asGet.cid = req.cid := rfl
    simp only [advance, asGet, Option.map_some]
    cases res with
    | none => rfl
    | some b =>
      simp only [store, hcid]
      split <;> rfl
  | shape b hit => exact absurd rfl (hp b hit)
  | unlock l found | unref l found => rfl
  | budget | flight max | call l max | fetching l max | done resp | cancelled => rfl

theorem Task.answered_asGet (t : Task) (res : Option Bytes) :
    t.asGet.answered res = (t.answered res).map asGet := by
  obtain ⟨req, now, grant, phase⟩ := t
  cases phase <;> rfl

theorem Task.cancel_asGet (t : Task) (s : ServerState) :
    t.asGet.cancel s = (t.cancel s).map fun r => (r.1, r.2.asGet) := by
  obtain ⟨req, now, grant, phase⟩ := t
  cases phase <;> rfl

/-- The task stands where that of the `GET` does, or both are answered. -/
theorem Task.GetOf.cases (h : t.GetOf u) :
    u = t.asGet ∨ ∃ resp resp', t.phase = .done resp ∧ u.phase = .done resp' := by
  obtain ⟨req, now, grant, phase⟩ := t
  obtain ⟨req', now', grant', phase'⟩ := u
  obtain ⟨hreq, hnow, hgrant, hphase | ⟨-, resp, hget, hhead⟩⟩ := h
  · cases hreq; cases hnow; cases hgrant; cases hphase
    exact .inl rfl
  · exact .inr ⟨_, _, hhead, hget⟩

/-- Two tasks, with the servers they leave. -/
def GetOfWith (p q : ServerState × Task) : Prop := q.1 = p.1 ∧ p.2.GetOf q.2

theorem rel_map_asGet (x : Option (ServerState × Task)) :
    Option.Rel GetOfWith x (x.map fun r => (r.1, r.2.asGet)) := by
  cases x with
  | none => exact .none
  | some p => exact .some ⟨rfl, p.2.getOf_asGet⟩

theorem Task.GetOf.advance (h : t.GetOf u) (env : ServerEnv) (o : Orders) (s : ServerState) :
    Option.Rel GetOfWith (t.advance env o s) (u.advance env o s) := by
  obtain rfl | ⟨resp, resp', ht, hu⟩ := h.cases
  · by_cases hp : ∃ b hit, t.phase = .shape b hit
    · obtain ⟨b, hit, hp⟩ := hp
      have hhead : t.advance env o s = some (s, t.goto (.done (t.respond s b hit))) := by
        rw [Task.advance, hp]
      have hget : t.asGet.advance env o s =
          some (s, t.asGet.goto (.done (t.asGet.respond s b hit))) := by
        rw [Task.advance, show t.asGet.phase = _ from hp]
      rw [hhead, hget]
      refine .some ⟨rfl, rfl, rfl, rfl, ?_⟩
      cases hmethod : t.req.headOnly with
      | false =>
        refine .inl (congrArg Phase.done ?_)
        rw [respond, respond, hmethod]
        rfl
      | true =>
        refine .inr ⟨hmethod, _, rfl, congrArg Phase.done ?_⟩
        rw [respond, respond, hmethod]
        rfl
    · rw [Task.advance_asGet fun b hit h => hp ⟨b, hit, h⟩]
      exact rel_map_asGet _
  · rw [Task.advance, Task.advance, ht, hu]
    exact .none

theorem Task.GetOf.cancel (h : t.GetOf u) (s : ServerState) :
    Option.Rel GetOfWith (t.cancel s) (u.cancel s) := by
  obtain rfl | ⟨resp, resp', ht, hu⟩ := h.cases
  · rw [Task.cancel_asGet]
    exact rel_map_asGet _
  · rw [Task.cancel, Task.cancel, ht, hu]
    exact .none

theorem Task.GetOf.answered (h : t.GetOf u) (res : Option Bytes) :
    Option.Rel Task.GetOf (t.answered res) (u.answered res) := by
  obtain rfl | ⟨resp, resp', ht, hu⟩ := h.cases
  · rw [Task.answered_asGet]
    cases t.answered res with
    | none => exact .none
    | some t' => exact .some t'.getOf_asGet
  · rw [Task.answered, Task.answered, ht, hu]
    exact .none

end

/-! ## What a `HEAD` is sent -/

/-- The response that a `HEAD` carries has no body, but for the text with which
an object is refused that is too large. -/
def Task.Silent (t : Task) : Prop :=
  t.req.headOnly = true → t.phase.Replies fun resp => resp.body = [] ∨ resp.status = 413

theorem Task.Piece.silent {env : ServerEnv} {o : Orders} {s s' : ServerState} {t t' : Task}
    (h : Piece env o s t s' t') (ht : t.Silent) : t'.Silent := by
  intro hhead
  have hreq : t.req.headOnly = true := h.req ▸ hhead
  have hrep := ht hreq
  cases h with
  | denied | replayed | notModified | negative => exact .inl rfl
  | renegative | absent => exact .inl rfl
  | tooLarge => exact .inr rfl
  | unlock hp | unrefReply hp =>
    rw [hp] at hrep
    exact hrep
  | shape =>
    refine .inl ?_
    rw [respond, if_pos hreq]
  | _ => trivial

/-! ## Runs -/

section

variable {env : ServerEnv} {y z : Sys}

theorem Sys.silent_step {y' : Sys} {l : Label} (h : ∀ t ∈ y.tasks, t.Silent)
    (hs : Sys.step env y l = some y') : ∀ t ∈ y'.tasks, t.Silent := by
  cases Sys.moves_of_step hs with
  | arrive req now =>
    intro t ht
    obtain ht | ht := List.mem_append.1 ht
    · exact h t ht
    · rw [List.mem_singleton.1 ht]
      exact fun _ => trivial
  | piece hi hpiece =>
    exact Places.forall_mem_set h (hpiece.silent (h _ (List.mem_of_getElem? hi)))
  | answered res hi hp => exact Places.forall_mem_set h fun _ => trivial
  | cancelled hi hc =>
    obtain ⟨rfl, -⟩ := Task.cancel_cases hc
    exact Places.forall_mem_set h fun _ => trivial
  | swept | purged => exact h

theorem Front.silent {ls : List FrontLabel} {s : ServerState}
    (hrun : run (Front.step env) (.start s) ls = some y) : ∀ t ∈ y.tasks, t.Silent := by
  refine run_invariant (I := fun y : Sys => ∀ t ∈ y.tasks, t.Silent) (fun y l y' h hs => ?_)
    (fun _ ht => absurd ht List.not_mem_nil) hrun
  obtain rfl | ⟨raw, now, req, -, -, rfl⟩ | ⟨l', -, -, hwork⟩ := Front.step_cases hs
  · exact h
  · exact Sys.silent_step h (show Sys.step env y (.arrive req now) = some _ from rfl)
  · exact Sys.silent_step h hwork

/-- A task is taken a step further, in both states. -/
theorem Sys.GetOf.set {i : Nat} {p q : ServerState × Task} (h : y.GetOf z) (hp : GetOfWith p q) :
    Sys.GetOf ⟨p.1, y.tasks.set i p.2⟩ ⟨q.1, z.tasks.set i q.2⟩ :=
  ⟨hp.1, Places.forall₂_set h.tasks hp.2 i⟩

variable (env) in
theorem Sys.GetOf.step (h : y.GetOf z) (l : Label) (hl : ∀ req now, l ≠ .arrive req now) :
    Option.Rel Sys.GetOf (Sys.step env y l) (Sys.step env z l) := by
  have hplace : ∀ i : Nat, (y.tasks[i]? = none ∧ z.tasks[i]? = none) ∨
      ∃ t u, y.tasks[i]? = some t ∧ z.tasks[i]? = some u ∧ t.GetOf u := by
    intro i
    have hi := Places.rel_getElem? h.tasks i
    generalize y.tasks[i]? = a at hi ⊢
    generalize z.tasks[i]? = b at hi ⊢
    cases hi with
    | none => exact .inl ⟨rfl, rfl⟩
    | some htu => exact .inr ⟨_, _, rfl, rfl, htu⟩
  cases l with
  | arrive req now => exact absurd rfl (hl req now)
  | step i o =>
    rw [Sys.step, Sys.step, h.shared]
    obtain ⟨hy, hz⟩ | ⟨t, u, hy, hz, htu⟩ := hplace i
    · rw [hy, hz]
      exact .none
    · rw [hy, hz, Option.bind_some, Option.bind_some]
      have hadv := htu.advance env o y.shared
      generalize t.advance env o y.shared = a at hadv ⊢
      generalize u.advance env o y.shared = b at hadv ⊢
      cases hadv with
      | none => exact .none
      | some hp => exact .some (h.set hp)
  | cancel i =>
    rw [Sys.step, Sys.step, h.shared]
    obtain ⟨hy, hz⟩ | ⟨t, u, hy, hz, htu⟩ := hplace i
    · rw [hy, hz]
      exact .none
    · rw [hy, hz, Option.bind_some, Option.bind_some]
      have hcancel := htu.cancel y.shared
      generalize t.cancel y.shared = a at hcancel ⊢
      generalize u.cancel y.shared = b at hcancel ⊢
      cases hcancel with
      | none => exact .none
      | some hp => exact .some (h.set hp)
  | answer i res =>
    rw [Sys.step, Sys.step]
    obtain ⟨hy, hz⟩ | ⟨t, u, hy, hz, htu⟩ := hplace i
    · rw [hy, hz]
      exact .none
    · rw [hy, hz, Option.bind_some, Option.bind_some]
      have hans := htu.answered res
      generalize t.answered res = a at hans ⊢
      generalize u.answered res = b at hans ⊢
      cases hans with
      | none => exact .none
      | some ht => exact .some ⟨h.shared, Places.forall₂_set h.tasks ht i⟩
  | sweep o now =>
    refine .some ⟨?_, h.tasks⟩
    rw [h.shared]
  | purge cid =>
    refine .some ⟨?_, h.tasks⟩
    rw [h.shared]

theorem Sys.GetOf.front (h : y.GetOf z) (l : FrontLabel) :
    Option.Rel Sys.GetOf (Front.step env y l) (Front.step env z l.asGet) := by
  cases l with
  | request raw now =>
    simp only [FrontLabel.asGet, Front.step, RawReq.route_asGet]
    cases raw.route with
    | object req =>
      refine .some ⟨h.shared, List.rel_append h.tasks (.cons ?_ .nil)⟩
      exact ⟨rfl, rfl, rfl, .inl rfl⟩
    | notAllowed | health | status | metrics | notFound => exact .some h
  | work l =>
    cases l with
    | arrive req now => exact .none
    | step i o => exact h.step env (.step i o) fun _ _ heq => by cases heq
    | answer i res => exact h.step env (.answer i res) fun _ _ heq => by cases heq
    | cancel i => exact h.step env (.cancel i) fun _ _ heq => by cases heq
    | sweep o now => exact h.step env (.sweep o now) fun _ _ heq => by cases heq
    | purge cid => exact h.step env (.purge cid) fun _ _ heq => by cases heq

/-- **`HEAD` is `GET` without a body.** A run of the front-end goes through
exactly if it does with every `HEAD` turned into a `GET`. Then the server is in
the same state, and each request has got as far and is answered the same, but
that a `HEAD` may have lost the body of its response; and it has none, unless it
is told that the object is too large. -/
theorem head_as_get (env : ServerEnv) (s : ServerState) (ls : List FrontLabel) :
    Option.Rel Sys.GetOf (run (Front.step env) (.start s) ls)
      (run (Front.step env) (.start s) (ls.map FrontLabel.asGet)) ∧
    ∀ y, run (Front.step env) (.start s) ls = some y → ∀ t ∈ y.tasks, t.req.headOnly = true →
      ∀ resp, t.phase = .done resp → resp.body = [] ∨ resp.status = 413 := by
  refine ⟨run_rel FrontLabel.asGet (fun _ _ l h => h.front l) ⟨rfl, .nil⟩ ls,
    fun y hrun t ht hhead resp hdone => ?_⟩
  have hrep := Front.silent hrun t ht hhead
  rw [hdone] at hrep
  exact hrep

end

end CeCdn
