/-
The reply tokens an edge has handled (`SeenTokens` of `host.rs`), and what a
ring of tokens or of proofs remembers of the calls it answered.

Both rings remember the last keys they admitted (`rings_remember`). That is less
than the last keys they were asked of: a token that is refused keeps its place
in the queue, and is admitted again as soon as it is pushed out, however often
it was seen in between (`readmitsLate_iff`).
-/
import CeCdn.Pop
import Mathlib.Data.Finset.Card

namespace CeCdn

open Lib

/-- A mesh reply token. -/
abbrev Token := UInt64

abbrev SeenTokens := KeyRing Token

namespace SeenTokens

def new (capacity : Nat) : SeenTokens := KeyRing.new capacity

/-- Whether the token is newly seen; it is seen from now on. -/
def insert (token : Token) (seen : SeenTokens) : Bool × SeenTokens := KeyRing.insert token seen

/-- The number of tokens retained. -/
def len (seen : SeenTokens) : Nat := seen.set.card

/-- A ring of tokens that handles one token after another. -/
def step (seen : SeenTokens) (token : Token) : Bool × SeenTokens := insert token seen

/-- The ring after a list of calls on a new one. -/
def after (capacity : Nat) (calls : List Token) : SeenTokens :=
  Machine.final step (new capacity) calls

end SeenTokens

namespace ReplayGuard

/-- A guard that is asked of one requester and nonce after another. -/
def step (guard : ReplayGuard) (call : NodeId × Nonce) : Bool × ReplayGuard :=
  guard.accept call.1 call.2

def key (call : NodeId × Nonce) : ReplayKey := call.1.append call.2

/-- The guard after a list of calls on a new one. -/
def after (capacity : Nat) (calls : List (NodeId × Nonce)) : ReplayGuard :=
  Machine.final step (new capacity) calls

end ReplayGuard

/-! ## What a ring remembers -/

section

variable {α ι : Type} (step : KeyRing α → ι → Bool × KeyRing α) (key : ι → α)

/-- The keys of the calls that a run admits, in order. -/
def admittedKeys (r : KeyRing α) (calls : List ι) : List α :=
  (Machine.trace step r calls).filterMap fun t => if t.2.2 then some (key t.2.1) else none

variable [DecidableEq α]

/-- The ring holds the last `capacity` keys of `log`, in order and without
repeats, in its queue and in its set alike; it refuses the calls with these keys
and no others, and a call it refuses changes nothing. -/
structure HoldsLast (r : KeyRing α) (capacity : Nat) (log : List α) : Prop where
  queue : r.order = log.drop (log.length - capacity)
  length : r.order.length = min capacity log.length
  same : ∀ k, k ∈ r.set ↔ k ∈ r.order
  distinct : r.order.Nodup
  admits : ∀ call, (step r call).1 = true ↔ key call ∉ r.order
  refused : ∀ call, (step r call).1 = false → (step r call).2 = r

variable {step key}

section

variable (hstep : ∀ r call, step r call = KeyRing.insert (key call) r)

include hstep

theorem final_map_key (r : KeyRing α) (calls : List ι) :
    Machine.final step r calls = Machine.final KeyRing.step r (calls.map key) := by
  simp only [Machine.final, List.foldl_map, KeyRing.step, hstep]

theorem admittedKeys_eq (r : KeyRing α) (calls : List ι) :
    admittedKeys step key r calls = KeyRing.admitted r (calls.map key) := by
  induction calls generalizing r with
  | nil => rfl
  | cons call calls ih =>
    rw [List.map_cons, KeyRing.admitted_cons, ← ih, ← hstep]
    simp only [admittedKeys, Machine.trace, List.filterMap_cons]
    cases (step r call).1 <;> rfl

theorem holdsLast_of_remembers {r : KeyRing α} {log : List α} (h : r.Remembers log) :
    HoldsLast step key r r.capacity log where
  queue := h.order_eq
  length := by
    rw [h.order_eq, List.rtake, List.length_drop]; omega
  same := fun k => by rw [h.set_eq, List.mem_toFinset]
  distinct := h.nodup
  admits := fun call => by rw [hstep, h.insert_fst, h.order_eq]
  refused := fun call hk => by
    rw [hstep] at hk ⊢
    exact KeyRing.insert_refused hk

/-- After every run of calls a ring holds the last keys the run admitted. -/
theorem holdsLast_run (capacity : Nat) (calls : List ι) :
    HoldsLast step key (Machine.final step (KeyRing.new capacity) calls) (max capacity 1)
      (admittedKeys step key (KeyRing.new capacity) calls) := by
  have h := KeyRing.remembers_run (KeyRing.remembers_new capacity) (calls.map key)
  have hlast := holdsLast_of_remembers hstep h
  rwa [List.nil_append, KeyRing.capacity_final, ← final_map_key hstep,
    ← admittedKeys_eq hstep] at hlast

end

/-- The set has as many keys as the queue, so it stays within the capacity. -/
theorem HoldsLast.card_set {r : KeyRing α} {capacity : Nat} {log : List α}
    (h : HoldsLast step key r capacity log) : r.set.card = min capacity log.length := by
  have hset : r.set = r.order.toFinset := by
    ext k
    rw [h.same, List.mem_toFinset]
  rw [hset, List.toFinset_card_of_nodup h.distinct, h.length]

end

theorem SeenTokens.holdsLast_after (capacity : Nat) (calls : List Token) :
    HoldsLast SeenTokens.step id (SeenTokens.after capacity calls) (max capacity 1)
      (admittedKeys SeenTokens.step id (SeenTokens.new capacity) calls) :=
  holdsLast_run (fun _ _ => rfl) capacity calls

theorem SeenTokens.len_after_le (capacity : Nat) (calls : List Token) :
    (SeenTokens.after capacity calls).len ≤ max capacity 1 := by
  have hcard : (SeenTokens.after capacity calls).len = _ :=
    (SeenTokens.holdsLast_after capacity calls).card_set
  exact hcard ▸ Nat.min_le_left _ _

/-- **The rings remember exactly the last `capacity` keys they admitted.** After
every list of calls: of tokens, and of requesters with their nonces. So does the
guard of the proofs of possession, which only a proof that is let through
changes. -/
theorem rings_remember (capacity : Nat) :
    (∀ calls : List Token,
      HoldsLast SeenTokens.step id (SeenTokens.after capacity calls) (max capacity 1)
        (admittedKeys SeenTokens.step id (SeenTokens.new capacity) calls)) ∧
    (∀ calls : List (NodeId × Nonce),
      HoldsLast ReplayGuard.step ReplayGuard.key (ReplayGuard.after capacity calls)
        (max capacity 1)
        (admittedKeys ReplayGuard.step ReplayGuard.key (ReplayGuard.new capacity) calls)) ∧
    ∀ (verify : Verify) (proofHeader : Option (List Char)) (requester : NodeId)
      (cid ability : String) (now : Nat) (guard : ReplayGuard),
      (verifyPopOnce verify proofHeader requester cid ability now guard).1 = .ok () ∨
      (verifyPopOnce verify proofHeader requester cid ability now guard).2 = guard := by
  refine ⟨SeenTokens.holdsLast_after capacity, holdsLast_run (fun _ _ => rfl) capacity, ?_⟩
  intro verify proofHeader requester cid ability now guard
  cases h : (verifyPopOnce verify proofHeader requester cid ability now guard).1 with
  | ok u => exact .inl rfl
  | error e => exact .inr (verifyPopOnce_error h)

/-! ## What is seen again -/

/-- In every call that admits a token, the token is not the argument of one of
the `capacity` calls before it. -/
def ReadmitsLate (capacity : Nat) (calls : List Token) : Prop :=
  ∀ past token, past ++ [token] <+: calls →
    (SeenTokens.insert token (SeenTokens.after capacity past)).1 = true →
      token ∉ past.rtake capacity

/-- No call that pushes a token out of the ring finds that this token was the
argument of one of the `capacity - 1` calls before. -/
def PushesOutLate (capacity : Nat) (calls : List Token) : Prop :=
  ∀ past token, past ++ [token] <+: calls →
    ∀ old ∈ (SeenTokens.after capacity past).pushedOut token, old ∉ past.rtake (capacity - 1)

/-- The calls of a list, each with the calls before it. -/
theorem forall_calls_iff {calls : List Token} {P : List Token → Token → Prop} :
    (∀ past token, past ++ [token] <+: calls → P past token) ↔
      ∀ done ∈ calls.inits, ∀ token ∈ done.getLast?, P done.dropLast token := by
  simp only [List.mem_inits, Option.mem_def]
  constructor
  · intro h done hdone token htoken
    obtain ⟨past, rfl⟩ := List.getLast?_eq_some_iff.1 htoken
    rw [List.dropLast_concat]
    exact h past token hdone
  · intro h past token hpre
    simpa using h _ hpre token (by simp)

-- By `all`, so that no instance goes through the tokens one by one.
instance (capacity : Nat) (calls : List Token) : Decidable (PushesOutLate capacity calls) :=
  decidable_of_iff
    ((calls.inits.all fun done => done.getLast?.all fun token =>
      ((SeenTokens.after capacity done.dropLast).pushedOut token).all fun old =>
        !(done.dropLast.rtake (capacity - 1)).contains old) = true) <| by
    rw [PushesOutLate, forall_calls_iff]
    simp [Option.all_eq_true]

section

variable {capacity : Nat}

/-- A ring covers its last calls when none of them would be admitted. -/
theorem covers_after_iff (h : 0 < capacity) (past : List Token) :
    (SeenTokens.after capacity past).Covers past ↔
      ∀ token, (SeenTokens.insert token (SeenTokens.after capacity past)).1 = true →
        token ∉ past.rtake capacity := by
  have hcap : (SeenTokens.after capacity past).capacity = capacity := by
    exact (KeyRing.capacity_final _ past).trans (Nat.max_eq_left h)
  have hadmits := (SeenTokens.holdsLast_after capacity past).admits
  rw [KeyRing.Covers, hcap]
  constructor
  · intro hcov token hnew hrecent
    exact (hadmits token).1 hnew (hcov token hrecent)
  · intro hlate token hrecent
    by_contra hgone
    exact hlate token ((hadmits token).2 hgone) hrecent

/-- A run whose states all cover their last calls, by what the next call may
bring. -/
theorem readmitsLate_all_iff (calls : List Token) :
    (∀ past token, past <+: calls → ReadmitsLate capacity (past ++ [token])) ↔
      ∀ past, past <+: calls → ∀ token,
        (SeenTokens.insert token (SeenTokens.after capacity past)).1 = true →
          token ∉ past.rtake capacity := by
  constructor
  · intro h past hpre token
    exact h past token hpre past token (List.prefix_refl _)
  · intro h past token hpre past' token' hpre'
    have hpast : past' <+: past := by
      rcases List.prefix_concat_iff.1 hpre' with heq | hlt
      · exact (List.append_inj' heq rfl).1 ▸ List.prefix_refl _
      · exact (List.prefix_append _ _).trans hlt
    exact h past' (hpast.trans hpre) token'

/-- **When tokens are re-admitted late.** A run whose calls push a token out only
after it was not seen for `capacity` calls re-admits no token that one of the
last `capacity` calls brought; and exactly in these runs that holds in every
state, whatever token the next call brings. -/
theorem readmitsLate_iff (h : 0 < capacity) (calls : List Token) :
    (PushesOutLate capacity calls → ReadmitsLate capacity calls) ∧
    ((∀ past token, past <+: calls → ReadmitsLate capacity (past ++ [token])) ↔
      PushesOutLate capacity calls) := by
  have hcap : (SeenTokens.new capacity).capacity = capacity := Nat.max_eq_left h
  have hiff : (∀ past token, past <+: calls → ReadmitsLate capacity (past ++ [token])) ↔
      PushesOutLate capacity calls := by
    have hrun := KeyRing.covers_run_iff (KeyRing.remembers_new capacity) calls
    rw [readmitsLate_all_iff, PushesOutLate]
    simp only [← covers_after_iff h]
    rw [show (KeyRing.new capacity : SeenTokens).capacity = capacity from hcap] at hrun
    exact hrun
  refine ⟨fun hlate past token hpre => ?_, hiff⟩
  exact hiff.2 hlate past token ((List.prefix_append _ _).trans hpre) past token
    (List.prefix_refl _)

end

/-- Three tokens in turn, each seen again long after it was pushed out. -/
theorem readmitsLate_in_turn : ReadmitsLate 2 [1, 2, 3, 1, 2, 3] :=
  (readmitsLate_iff (by decide) [1, 2, 3, 1, 2, 3]).1 (by decide +kernel)

/-- A token that is seen again while the ring holds it is pushed out all the
same, and the next sighting is handled a second time. -/
theorem readmitsLate_not_kept :
    ¬ ReadmitsLate 2 [1, 2, 1, 3, 1] := by
  intro h
  have hnew : (SeenTokens.insert 1 (SeenTokens.after 2 [1, 2, 1, 3])).1 = true := by decide +kernel
  exact absurd (h [1, 2, 1, 3] 1 (List.prefix_refl _) hnew) (by decide)

end CeCdn
