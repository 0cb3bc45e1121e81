/-
HTTP access. Private content is answered with anything but a 403 only to a
presigned link, or to a fresh proof of possession with a capability chain; and
a 403 leaves no trace and tells nothing (`http_access_safe`).
-/
import CeCdn.ServerFacts

namespace CeCdn

open Lib Text Word

/-- The request carries a proof whose requester and nonce the guard has not seen. -/
def HttpReq.ProofFresh (req : HttpReq) (guard : ReplayGuard) : Prop :=
  ∃ proof, proofOf req.proofHeader = some proof ∧
    (req.requesterId.append proof.nonce : ReplayKey) ∉ guard.set

/-- What a request must show for private content. -/
def ServerEnv.Credentials (env : ServerEnv) (guard : ReplayGuard) (req : HttpReq) (now : Nat) :
    Prop :=
  env.LinkVerifies req.cid req.query now ∨
  (env.GatesPass req.cid req.requesterId req.proofHeader req.capabilityHex now ∧
    req.ProofFresh guard)

theorem accept_iff {requester : NodeId} {nonce : Nonce} {guard : ReplayGuard} :
    (guard.accept requester nonce).1 = true ↔
      (requester.append nonce : ReplayKey) ∉ guard.set := by
  unfold ReplayGuard.accept KeyRing.insert
  split
  · next h => simp [h]
  · next h => simp [h]

namespace ServerEnv

variable {env : ServerEnv} {o : Orders} {origin : String → Option Bytes} {s : ServerState}
  {req : HttpReq} {now : Nat}

/-- When a request is refused: by the access decision, or by the guard. -/
def Refused (env : ServerEnv) (publicSet : Finset String) (guard : ReplayGuard) (req : HttpReq)
    (now : Nat) : Prop :=
  env.grantOf publicSet req now = .denied ∨
  (env.grantOf publicSet req now = .popAndCap ∧ (env.popOnce req now guard).1 ≠ .ok ())

/-! ## The access pieces -/

theorem serveCid_of_denied (h : env.grantOf s.edge.publicSet req now = .denied) :
    env.serveCid o origin s req now = some (denyResponse req.cid now, s) := by
  have hadv : (Task.arrive req now).advance env o s = some (s, (Task.arrive req now).deny) := by
    change some (s, (Task.arrive req now).decideGrant env s) = _
    simp only [Task.decideGrant, Task.arrive, h]
  unfold serveCid
  rw [show Phase.access.rank = 14 + 1 from rfl, Task.finish_advance _ rfl hadv]
  exact Task.finish_done _ rfl

/-- A proof that the guard refuses is a 403 that changes nothing. -/
theorem serveCid_of_replayed (h : env.grantOf s.edge.publicSet req now = .popAndCap)
    {e : PopError} (hpop : (env.popOnce req now s.replay).1 = .error e) :
    env.serveCid o origin s req now = some (denyResponse req.cid now, s) := by
  have hadv : (Task.arrive req now).advance env o s =
      some (s, (Task.arrive req now).granted .popAndCap .replay) := by
    change some (s, (Task.arrive req now).decideGrant env s) = _
    simp only [Task.decideGrant, Task.arrive, h, Task.granted]
  have hguard : (env.popOnce req now s.replay).2 = s.replay := verifyPopOnce_error hpop
  have hcheck : ((Task.arrive req now).granted .popAndCap .replay).advance env o s =
      some (s, ((Task.arrive req now).granted .popAndCap .replay).deny) := by
    change some (((Task.arrive req now).granted .popAndCap .replay).checkReplay env s) = _
    simp only [Task.checkReplay, Task.arrive, Task.granted, hpop, hguard]
  unfold serveCid
  rw [show Phase.access.rank = 13 + 1 + 1 from rfl, Task.finish_advance _ rfl hadv,
    Task.finish_advance _ rfl hcheck]
  exact Task.finish_done _ rfl

/-- A refused request is answered 403 from any state, and changes nothing. -/
theorem serveCid_of_refused (h : env.Refused s.edge.publicSet s.replay req now) :
    env.serveCid o origin s req now = some (denyResponse req.cid now, s) := by
  rcases h with h | ⟨h, hpop⟩
  · exact serveCid_of_denied h
  · cases he : (env.popOnce req now s.replay).1 with
    | error e => exact serveCid_of_replayed h he
    | ok u => exact absurd he hpop

/-- What is answered 403 was refused. -/
theorem refused_of_status {resp : HttpResponse} {s' : ServerState}
    (hrun : env.serveCid o origin s req now = some (resp, s')) (h : resp.status = 403) :
    env.Refused s.edge.publicSet s.replay req now := by
  have hgranted : ∀ {n : Nat} {s₁ : ServerState} {g : Grant}, g ≠ .denied →
      ((Task.arrive req now).granted g .conditional).finish env o origin n s₁ ≠ some (resp, s') := by
    intro n s₁ g hg hfin
    have hadm : ((Task.arrive req now).granted g .conditional).Admitted :=
      ⟨hg, nofun, nofun, trivial⟩
    exact hadm.finish hfin h
  obtain ⟨hp, -⟩ | ⟨_, _, -, ⟨ha, -⟩ | ⟨_, ha, hrun⟩⟩ := Task.finish_eq_some hrun
  · cases hp
  · cases ha
  · cases Task.piece_of_advance ha with
    | denied _ hg => exact .inl hg
    | granted _ _ hopen =>
      rcases hopen with rfl | rfl
      · exact absurd hrun (hgranted nofun)
      · exact absurd hrun (hgranted nofun)
    | popAndCap _ hg =>
      obtain ⟨hp, -⟩ | ⟨_, _, -, ⟨ha, -⟩ | ⟨_, ha, hrun⟩⟩ := Task.finish_eq_some hrun
      · cases hp
      · cases ha
      · cases Task.piece_of_advance ha with
        | letThrough => exact absurd hrun (hgranted nofun)
        | replayed _ hpop =>
          refine .inr ⟨hg, fun hok => ?_⟩
          cases hok.symm.trans hpop
        | _ => contradiction
    | _ => contradiction

/-- Who is not refused has shown credentials. -/
theorem credentials_of_not_refused (hcid : req.cid ∉ s.edge.publicSet)
    (h : ¬ env.Refused s.edge.publicSet s.replay req now) : env.Credentials s.replay req now := by
  cases hg : env.grantOf s.edge.publicSet req now with
  | denied => exact absurd (.inl hg) h
  | publicGrant => exact absurd hg (resolveGrant_ne_public hcid)
  | presigned => exact .inl ((resolveGrant_presigned_iff hcid).1 hg)
  | popAndCap =>
    have hpop : (env.popOnce req now s.replay).1 = .ok () := by
      by_contra hno
      exact h (.inr ⟨hg, hno⟩)
    obtain ⟨-, proof, hproof, hnew⟩ := verifyPopOnce_ok_iff.1 hpop
    exact .inr ⟨((resolveGrant_popAndCap_iff hcid).1 hg).2, proof, hproof, accept_iff.1 hnew⟩

end ServerEnv

/-- **Access safety, and no oracle for the denied.** For a private object a
request is answered with anything but 403 only if it shows credentials. A
request answered 403 leaves the state as it was, fetches included, and from any
state with the same public set and replay guard, whatever its cache and origin,
it gets the same response. -/
theorem http_access_safe (env : ServerEnv) (o : Orders) (origin : String → Option Bytes)
    (s : ServerState) (req : HttpReq) (now : Nat) (hcid : req.cid ∉ s.edge.publicSet)
    (resp : HttpResponse) (s' : ServerState)
    (hrun : env.serveCid o origin s req now = some (resp, s')) :
    (resp.status ≠ 403 → env.Credentials s.replay req now) ∧
    (resp.status = 403 → s' = s ∧
      ∀ (o₂ : Orders) (origin₂ : String → Option Bytes) (s₂ : ServerState),
        s₂.edge.publicSet = s.edge.publicSet → s₂.replay = s.replay →
        env.serveCid o₂ origin₂ s₂ req now = some (resp, s₂)) := by
  refine ⟨fun hstatus => ?_, fun hstatus => ?_⟩
  · refine ServerEnv.credentials_of_not_refused hcid fun hrefused => hstatus ?_
    rw [ServerEnv.serveCid_of_refused hrefused] at hrun
    cases hrun
    rfl
  · have hrefused := ServerEnv.refused_of_status hrun hstatus
    rw [ServerEnv.serveCid_of_refused hrefused] at hrun
    cases hrun
    refine ⟨rfl, fun o₂ origin₂ s₂ hpublic hguard => ServerEnv.serveCid_of_refused ?_⟩
    rw [hpublic, hguard]
    exact hrefused

/-! ### A fresh proof, and no proof -/

theorem sample_serves : (sampleEnv.serveCid sampleOrders (fun _ => some [1, 2]) sampleState
    (sampleReq (ByteArr.zero 16)) 50).map (·.1.status) = some 200 := by
  decide +kernel

theorem http_access_safe_sample :
    sampleEnv.Credentials sampleState.replay (sampleReq (ByteArr.zero 16)) 50 := by
  obtain ⟨r, hrun, hstatus⟩ := Option.map_eq_some_iff.1 sample_serves
  refine (http_access_safe sampleEnv sampleOrders (fun _ => some [1, 2]) sampleState
    (sampleReq (ByteArr.zero 16)) 50 (Finset.notMem_empty "a") r.1 r.2 hrun).1 ?_
  rw [hstatus]
  decide

end CeCdn
