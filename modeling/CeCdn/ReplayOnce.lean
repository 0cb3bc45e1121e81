/-
Replays. The guard is a ring, so a proof of possession that was let through is
let through again only after as many other proofs as the ring holds, whatever
the interleaving of the requests (`pop_single_use_within_capacity`).
-/
import CeCdn.HttpAccess

namespace CeCdn

open Lib Text Word Machine

/-- A request let through by proof of possession: requester, proof, clock. -/
structure Admission where
  requester : NodeId
  proof : Proof
  now : Nat
deriving DecidableEq

def Admission.key (a : Admission) : ReplayKey := a.requester.append a.proof.nonce

/-- The admission a step makes, if it is a request's replay check that succeeds. -/
def admission (env : ServerEnv) (y : Sys) : Label → Option Admission
  | .step i _ =>
    (y.tasks[i]?).bind fun t =>
      match t.phase, (env.popOnce t.req t.now y.shared.replay).1 with
      | .replay, .ok () =>
        (proofOf t.req.proofHeader).map fun proof => ⟨t.req.requesterId, proof, t.now⟩
      | _, _ => none
  | _ => none

/-- The requests let through in a run, in order. -/
def admissions (env : ServerEnv) : Sys → List Label → List Admission :=
  events (Sys.step env) (admission env)

/-! ## What steps do to the guard -/

section

variable {env : ServerEnv} {o : Orders} {s s' : ServerState} {t t' : Task}

/-- Only the replay check of a proof that is let through changes the guard. -/
theorem Task.Piece.replay_cases (h : Task.Piece env o s t s' t') :
    (s'.replay = s.replay ∧
      ¬ (t.phase = .replay ∧ (env.popOnce t.req t.now s.replay).1 = .ok ())) ∨
    (t.phase = .replay ∧ (env.popOnce t.req t.now s.replay).1 = .ok () ∧
      s'.replay = (env.popOnce t.req t.now s.replay).2) := by
  cases h with
  | letThrough hp hpop => exact .inr ⟨hp, hpop, rfl⟩
  | replayed hp hpop =>
    refine .inl ⟨rfl, fun hno => ?_⟩
    rw [hpop] at hno
    cases hno.2
  | flight hp =>
    refine .inl ⟨ServerState.replay_inflightLock s t.req.cid, fun hno => ?_⟩
    cases hp.symm.trans hno.1
  | denied hp | granted hp | popAndCap hp | notModified hp | modified hp | fresh hp | negative hp
  | notNegative hp | budget hp | hit hp | miss hp | acquire hp | rehit hp | renegative hp
  | remiss hp | call hp | tooLarge hp | stored hp | absent hp | unlock hp | unrefBytes hp
  | unrefReply hp | shape hp => exact .inl ⟨rfl, fun hno => nomatch hp.symm.trans hno.1⟩

/-- A step admits nobody and keeps the guard, or it admits a proof whose key
the guard accepts. -/
theorem admission_cases {y y' : Sys} {l : Label} (h : Sys.step env y l = some y') :
    (admission env y l = none ∧ y'.shared.replay = y.shared.replay) ∨
    ∃ a, admission env y l = some a ∧ (y.shared.replay.insert a.key).1 = true ∧
      y'.shared.replay = (y.shared.replay.insert a.key).2 := by
  cases Sys.moves_of_step h with
  | arrive | answered | swept | purged => exact .inl ⟨rfl, rfl⟩
  | cancelled hi hc =>
    refine .inl ⟨rfl, ?_⟩
    obtain ⟨-, rfl | ⟨l, rfl⟩ | ⟨l, rfl⟩⟩ := Task.cancel_cases hc
    · rfl
    · rfl
    · rfl
  | @piece i o t t' s' hi hpiece =>
    obtain ⟨hsame, hno⟩ | ⟨hp, hpop, hguard⟩ := hpiece.replay_cases
    · refine .inl ⟨?_, hsame⟩
      simp only [admission, hi, Option.bind_some]
      split
      · next hp hpop => exact absurd ⟨hp, hpop⟩ hno
      · rfl
    · obtain ⟨hv, proof, hproof, hnew⟩ := verifyPopOnce_ok_iff.1 hpop
      refine .inr ⟨⟨t.req.requesterId, proof, t.now⟩, ?_, hnew, ?_⟩
      · simp only [admission, hi, Option.bind_some, hp, hpop, hproof, Option.map_some]
      · rw [hguard]
        exact verifyPopOnce_ok_snd hpop hproof

end

/-! ## Runs -/

/-- The guard remembers the last admissions, and admissions of one key are
spaced by as many others as it holds. -/
structure GuardRight (capacity : Nat) (y : Sys) (log : List Admission) : Prop where
  remembers : y.shared.replay.Remembers (log.map Admission.key)
  spaced : KeyRing.Spaced capacity (log.map Admission.key)
  capacity_eq : y.shared.replay.capacity = capacity

theorem GuardRight.step {env : ServerEnv} {capacity : Nat} {y y' : Sys} {l : Label}
    {log : List Admission} (hy : GuardRight capacity y log) (h : Sys.step env y l = some y') :
    GuardRight capacity y' (log ++ (admission env y l).toList) := by
  obtain ⟨hnone, hguard⟩ | ⟨a, hsome, hnew, hguard⟩ := admission_cases h
  · rw [hnone, Option.toList_none, List.append_nil]
    refine ⟨?_, hy.spaced, ?_⟩
    · rw [hguard]; exact hy.remembers
    · rw [hguard]; exact hy.capacity_eq
  · rw [hsome, Option.toList_some]
    refine ⟨?_, ?_, ?_⟩
    · rw [hguard, List.map_append]
      exact hy.remembers.insert hnew
    · have hs := hy.spaced
      rw [← hy.capacity_eq] at hs ⊢
      rw [List.map_append]
      exact hy.remembers.spaced_concat hs hnew
    · rw [hguard, KeyRing.capacity_insert]
      exact hy.capacity_eq

/-- **Between two admissions of one (requester, nonce) in a run, at least as
many admissions of others take place as the guard holds.** The runs start from
any state whose guard is new. -/
theorem pop_single_use_within_capacity (env : ServerEnv) (y : Sys) (capacity : Nat)
    (ls : List Label) :
    KeyRing.Spaced (max capacity 1)
      ((admissions env { y with shared := { y.shared with replay := .new capacity } } ls).map
        Admission.key) := by
  have hstart : GuardRight (max capacity 1)
      { y with shared := { y.shared with replay := .new capacity } } [] :=
    ⟨KeyRing.remembers_new capacity, KeyRing.spaced_nil _, rfl⟩
  obtain ⟨r, hr⟩ := events_invariant
    (I := GuardRight (max capacity 1)) (fun _ _ _ _ hy h => hy.step h) ls hstart
  rw [List.nil_append] at hr
  exact hr.spaced

/-! ### A guard of one: a proof comes back after one other -/

/-- No proof is let through twice up to its expiry. -/
def SingleUse (admitted : List Admission) : Prop :=
  ∀ a p b q c, admitted = a ++ p :: (b ++ q :: c) → p.requester = q.requester →
    p.proof = q.proof → p.proof.expires < q.now

/-- The clock values the requests of a run read, in order. -/
def clocks (ls : List Label) : List Nat :=
  ls.filterMap fun
    | .arrive _ now => some now
    | _ => none

def otherNonce : Nonce := ⟨List.replicate 16 1, List.length_replicate⟩

def sampleAdmission (nonce : Nonce) : Admission where
  requester := sampleReader
  proof :=
    { expires := 100
      nonce := nonce
      sig := toySign sampleReader (challenge sampleReader "a" ABILITY_READ nonce 100) }
  now := 50

/-- One proof, another, and the first again, each through both access checks. -/
def replayRun : List Label :=
  [.arrive (sampleReq (ByteArr.zero 16)) 50, .step 0 sampleOrders, .step 0 sampleOrders,
    .arrive (sampleReq otherNonce) 50, .step 1 sampleOrders, .step 1 sampleOrders,
    .arrive (sampleReq (ByteArr.zero 16)) 50, .step 2 sampleOrders, .step 2 sampleOrders]

theorem admissions_replayRun :
    admissions sampleEnv (.start { sampleState with replay := .new 1 }) replayRun =
      [sampleAdmission (ByteArr.zero 16), sampleAdmission otherNonce,
        sampleAdmission (ByteArr.zero 16)] := by
  decide +kernel

theorem pop_not_single_use :
    ¬ ∀ (env : ServerEnv) (s : ServerState) (capacity : Nat) (ls : List Label), 1 ≤ capacity →
      (clocks ls).Pairwise (· ≤ ·) →
      SingleUse (admissions env (.start { s with replay := .new capacity }) ls) := by
  intro h
  have hrun := h sampleEnv sampleState 1 replayRun (Nat.le_refl 1) (by decide)
  rw [admissions_replayRun] at hrun
  have hlate := hrun [] _ [sampleAdmission otherNonce] _ [] rfl rfl rfl
  exact absurd hlate (by decide)

end CeCdn
