/-
The loop of the mesh host (`serve` of `host.rs`): every round it may refresh
what it knows to be revoked and sweep the cache, and then takes the messages of
its inbox, which may hold a request more than once.

A round is cut into its inputs, the poll at its start and the messages after
it, so that what holds along a run can be said of every message. A step has no
outcome when the handler panics; it never does (`HostLoop.step_isSome`).
Requests are told apart by their reply tokens: each is answered, and none
again within `SEEN_TOKENS_CAPACITY` others (`serve_answers`), so that
redelivery changes nothing (`redelivery_invisible`).
-/
import CeCdn.HandlerTotal
import CeCdn.SeenTokens

namespace CeCdn

open Lib Text Machine

def SEEN_TOKENS_CAPACITY : Nat := 16384

/-- A message of the inbox, with what the edge meets while it handles it. -/
structure Delivery where
  replyToken : Option Token
  msg : MeshMsg
  src : BlobSource
  ord : IterOrder String CacheEntry
  clocks : Clocks

/-- The token of a message the loop takes: it asks for a reply, on a topic of
the CDN. -/
def Delivery.token? (d : Delivery) : Option Token :=
  if (stripPrefix TOPIC_PREFIX.toList d.msg.topic.toList).isSome then d.replyToken else none

/-- What the start of a round meets: the node's answer to `revoked()`, and the
sweep's clock. -/
structure Upkeep where
  revoked : Except String (List (String × Nat))
  ord : IterOrder String CacheEntry
  now : Nat

/-- A round of the loop; `messages` is what the node answers for the inbox. -/
structure Round where
  upkeep : Upkeep
  messages : Except String (List Delivery)

structure HostLoop where
  world : World
  seen : SeenTokens
  revoked : Finset (NodeId × Nat)
  tick : UInt32
  /-- The services advertised so far. -/
  advertised : Finset String
  /-- The replies sent so far, by token. -/
  replies : List (Token × Reply)

inductive Input where
  | poll (u : Upkeep)
  | message (d : Delivery)

/-- An inbox that cannot be read counts as empty. -/
def Round.inputs (r : Round) : List Input :=
  .poll r.upkeep :: (r.messages.toOption.getD []).map .message

def Input.token? : Input → Option Token
  | .poll _ => none
  | .message d => d.token?

/-- The tokens of the requests of some rounds, with repeats. -/
def tokens (rounds : List Round) : List Token := (rounds.flatMap Round.inputs).filterMap Input.token?

namespace EdgeState

/-- Mark a CID as public. -/
def allowPublic (e : EdgeState) (cid : String) : EdgeState :=
  { e with publicSet := insert cid e.publicSet }

end EdgeState

namespace HostLoop

/-- The state in front of the first round. -/
def start (maxBytes defaultTtlSecs : Nat) (publicCids : List String) : HostLoop where
  world := ⟨publicCids.foldl EdgeState.allowPublic (.new maxBytes defaultTtlSecs), []⟩
  seen := .new SEEN_TOKENS_CAPACITY
  revoked := ∅
  tick := 0
  advertised := {SERVICE_EDGE}
  replies := []

/-- The revocations of an answer; an issuer that is no node id is left out. -/
def revokedSet (pairs : List (String × Nat)) : Finset (NodeId × Nat) :=
  (pairs.filterMap fun p =>
    ((hexDecode p.1.toList).bind (ByteArr.ofList 32)).map fun issuer => (issuer, p.2)).toFinset

/-- Every twentieth round: the revocations, the advertisements and the sweep. -/
def maintain (u : Upkeep) (s : HostLoop) : HostLoop :=
  { s with
    revoked := (u.revoked.toOption.map revokedSet).getD s.revoked
    advertised := s.advertised ∪ {SERVICE_EDGE} ∪ s.world.edge.publicSet.image serviceFor
    world := s.world.setCache (s.world.edge.cache.sweepExpired u.ord u.now).2 }

def poll (u : Upkeep) (s : HostLoop) : HostLoop :=
  let s := if s.tick % 20 = 0 then s.maintain u else s
  { s with tick := s.tick + 1 }

/-- What the handler advertises: an object it has just cached. -/
def advertisedBy (env : HostEnv) (msg : MeshMsg) : Reply → Finset String
  | .cache resp =>
    match env.checked msg with
    | .error _ => ∅
    | .ok (payload, _) =>
      match env.action msg.topic payload with
      | .ok (.cache req) => if resp.cached then {serviceFor req.cid} else ∅
      | _ => ∅
  | _ => ∅

/-- The handler, with the revocations the loop knows of. -/
def envOf (env : HostEnv) (s : HostLoop) : HostEnv := { env with revoked := s.revoked }

/-- Handle a request and reply to it. -/
def answer (env : HostEnv) (token : Token) (d : Delivery) (s : HostLoop) : Option HostLoop :=
  match ((s.envOf env).handle d.src d.ord d.clocks d.msg).run s.world with
  | (.ok reply, world) =>
    some { s with
      world := world
      advertised := s.advertised ∪ advertisedBy (s.envOf env) d.msg reply
      replies := s.replies ++ [(token, reply)] }
  | (.error _, _) => none

def message (env : HostEnv) (d : Delivery) (s : HostLoop) : Option HostLoop :=
  match d.token? with
  | none => some s
  | some token =>
    let (new, seen) := s.seen.insert token
    if new then answer env token d { s with seen } else some { s with seen }

def step (env : HostEnv) (s : HostLoop) : Input → Option HostLoop
  | .poll u => some (s.poll u)
  | .message d => s.message env d

/-- Some rounds of the loop. -/
def serve (env : HostEnv) (s : HostLoop) (rounds : List Round) : Option HostLoop :=
  run (step env) s (rounds.flatMap Round.inputs)

/-! ## What an input does -/

variable {env : HostEnv} {s s' : HostLoop}

@[simp] theorem seen_poll (u : Upkeep) (s : HostLoop) : (s.poll u).seen = s.seen := by
  unfold poll
  split
  · rfl
  · rfl

@[simp] theorem replies_poll (u : Upkeep) (s : HostLoop) : (s.poll u).replies = s.replies := by
  unfold poll
  split
  · rfl
  · rfl

/-- What an input can do: a poll, a message that is passed over, one that is
refused as seen, or one that is handled and replied to. -/
theorem step_cases {i : Input} (h : step env s i = some s') :
    (∃ u, i = .poll u ∧ s' = s.poll u) ∨
    (∃ d, i = .message d ∧ d.token? = none ∧ s' = s) ∨
    (∃ d token, i = .message d ∧ d.token? = some token ∧ token ∈ s.seen.set ∧ s' = s) ∨
    ∃ d token reply world, i = .message d ∧ d.token? = some token ∧ token ∉ s.seen.set ∧
      ((s.envOf env).handle d.src d.ord d.clocks d.msg).run s.world = (.ok reply, world) ∧
      s' = { s with
        world := world
        seen := (s.seen.insert token).2
        advertised := s.advertised ∪ advertisedBy (s.envOf env) d.msg reply
        replies := s.replies ++ [(token, reply)] } := by
  cases i with
  | poll u => cases h; exact .inl ⟨u, rfl, rfl⟩
  | message d =>
    refine .inr ?_
    simp only [step, message] at h
    cases htok : d.token? with
    | none =>
      rw [htok] at h
      cases h
      exact .inl ⟨d, rfl, htok, rfl⟩
    | some token =>
      rw [htok] at h
      simp only at h
      have hnew : (s.seen.insert token).1 = decide (token ∉ s.seen.set) :=
        KeyRing.insert_fst token s.seen
      by_cases hseen : token ∈ s.seen.set
      · have hfst : (s.seen.insert token).1 = false := by rw [hnew]; simpa using hseen
        have hsame : (s.seen.insert token).2 = s.seen := KeyRing.insert_refused hfst
        rw [hfst, hsame] at h
        cases h
        exact .inr (.inl ⟨d, token, rfl, htok, hseen, rfl⟩)
      · have hfst : (s.seen.insert token).1 = true := by rw [hnew]; simpa using hseen
        rw [hfst, if_pos rfl] at h
        unfold answer at h
        rcases hr : ((s.envOf env).handle d.src d.ord d.clocks d.msg).run s.world with ⟨e | reply, w⟩
        · have hr' : ((envOf env { s with seen := (s.seen.insert token).2 }).handle d.src d.ord
              d.clocks d.msg).run s.world = (.error e, w) := hr
          rw [hr'] at h
          cases h
        · have hr' : ((envOf env { s with seen := (s.seen.insert token).2 }).handle d.src d.ord
              d.clocks d.msg).run s.world = (.ok reply, w) := hr
          rw [hr'] at h
          cases h
          exact .inr (.inr ⟨d, token, reply, w, rfl, htok, hseen, hr, rfl⟩)

/-- No input makes the loop panic. -/
theorem step_isSome (env : HostEnv) (s : HostLoop) (i : Input) : (step env s i).isSome = true := by
  cases i with
  | poll u => rfl
  | message d =>
    simp only [step, message]
    cases d.token? with
    | none => rfl
    | some token =>
      simp only
      split
      · unfold answer
        obtain ⟨reply, hr⟩ := (envOf env { s with seen := (s.seen.insert token).2 }).handle_replies
          d.src d.ord d.clocks d.msg s.world
        rcases hrun : ((envOf env { s with seen := (s.seen.insert token).2 }).handle d.src d.ord
          d.clocks d.msg).run s.world with ⟨e | r, w⟩
        · rw [hrun] at hr; cases hr
        · rfl
      · rfl

/-! ## The tokens that were answered -/

/-- The ring remembers the tokens replied to, which are spaced, and are those of
the requests taken so far. -/
structure Answered (s : HostLoop) (taken : List Token) : Prop where
  remembers : s.seen.Remembers (s.replies.map Prod.fst)
  capacity : s.seen.capacity = SEEN_TOKENS_CAPACITY
  spaced : KeyRing.Spaced SEEN_TOKENS_CAPACITY (s.replies.map Prod.fst)
  mem : ∀ t, t ∈ s.replies.map Prod.fst ↔ t ∈ taken

/-- A token in the ring was replied to. -/
theorem Answered.mem_of_seen {taken : List Token} (h : s.Answered taken) {token : Token}
    (hseen : token ∈ s.seen.set) : token ∈ s.replies.map Prod.fst := by
  rw [h.remembers.set_eq, List.mem_toFinset, h.remembers.order_eq] at hseen
  exact List.mem_of_mem_drop hseen

theorem Answered.step {taken : List Token} {i : Input} (h : s.Answered taken)
    (hs : HostLoop.step env s i = some s') : s'.Answered (taken ++ i.token?.toList) := by
  obtain ⟨u, rfl, rfl⟩ | ⟨d, rfl, htok, rfl⟩ | ⟨d, token, rfl, htok, hseen, rfl⟩ |
    ⟨d, token, reply, world, rfl, htok, hnew, -, rfl⟩ := step_cases hs
  · refine ⟨?_, ?_, ?_, ?_⟩
    · simpa using h.remembers
    · simpa using h.capacity
    · simpa using h.spaced
    · simpa [Input.token?] using h.mem
  · have hnone : (Input.message d).token? = none := htok
    rw [hnone]
    simpa using h
  · have hsome : (Input.message d).token? = some token := htok
    refine ⟨h.remembers, h.capacity, h.spaced, fun t => ?_⟩
    rw [hsome, h.mem]
    simp only [Option.toList_some, List.mem_append, List.mem_singleton]
    refine ⟨.inl, fun ht => ?_⟩
    obtain ht | rfl := ht
    · exact ht
    · exact (h.mem t).1 (h.mem_of_seen hseen)
  · have hsome : (Input.message d).token? = some token := htok
    have hfst : (KeyRing.insert token s.seen).1 = true := by
      rw [KeyRing.insert_fst]
      simpa using hnew
    refine ⟨?_, ?_, ?_, fun t => ?_⟩
    · rw [List.map_append]
      exact h.remembers.insert hfst
    · exact (KeyRing.capacity_insert token s.seen).trans h.capacity
    · rw [List.map_append]
      have hsp := h.spaced
      rw [← h.capacity] at hsp ⊢
      exact h.remembers.spaced_concat hsp hfst
    · rw [hsome]
      simp only [List.map_append, List.map_cons, List.map_nil, List.mem_append,
        List.mem_singleton, Option.toList_some, h.mem]

theorem answered_start (maxBytes ttl : Nat) (publicCids : List String) :
    (start maxBytes ttl publicCids).Answered [] where
  remembers := KeyRing.remembers_new SEEN_TOKENS_CAPACITY
  capacity := rfl
  spaced := KeyRing.spaced_nil _
  mem := fun _ => Iff.rfl

/-- **Every request is answered, and none twice in a row.** In every run of the
loop, whatever messages come and however often: the loop does not panic, the
tokens it replied to are those of the requests it took, and two replies to one
token have `SEEN_TOKENS_CAPACITY` replies to other tokens in between. -/
theorem serve_answers (env : HostEnv) (maxBytes ttl : Nat) (publicCids : List String)
    (rounds : List Round) :
    ∃ s, serve env (start maxBytes ttl publicCids) rounds = some s ∧
      (∀ t, t ∈ s.replies.map Prod.fst ↔ t ∈ tokens rounds) ∧
      KeyRing.Spaced SEEN_TOKENS_CAPACITY (s.replies.map Prod.fst) := by
  obtain ⟨s, hrun⟩ := Option.isSome_iff_exists.1
    (run_isSome (step_isSome env) (start maxBytes ttl publicCids) (rounds.flatMap Round.inputs))
  have hinv : s.Answered ([] ++ events (step env) (fun _ i => i.token?)
      (start maxBytes ttl publicCids) (rounds.flatMap Round.inputs)) :=
    events_run_invariant (I := Answered) (G := fun _ _ => True) (fun _ _ _ _ h _ hs => h.step hs)
      (answered_start maxBytes ttl publicCids) (guarded_of_forall (fun _ _ _ => trivial) _) hrun
  rw [List.nil_append, events_eq_filterMap Input.token? hrun] at hinv
  exact ⟨s, hrun, hinv.mem, hinv.spaced⟩

/-! ## Redelivery -/

/-- The inputs without the requests whose token came before. -/
def dropRepeats : Finset Token → List Input → List Input
  | _, [] => []
  | before, i :: is =>
    match i.token? with
    | none => i :: dropRepeats before is
    | some token =>
      if token ∈ before then dropRepeats before is else i :: dropRepeats (insert token before) is

/-- What a step does to the ring is a call of it. -/
theorem seen_step {i : Input} (h : step env s i = some s') :
    s'.seen = match i.token? with
      | none => s.seen
      | some token => (s.seen.insert token).2 := by
  obtain ⟨u, rfl, rfl⟩ | ⟨d, rfl, hd, rfl⟩ | ⟨d, t, rfl, hd, hold, rfl⟩ |
    ⟨d, t, reply, world, rfl, hd, -, -, rfl⟩ := step_cases h
  · exact seen_poll u s
  · simp only [Input.token?, hd]
  · simp only [Input.token?, hd]
    have hfst : (KeyRing.insert t s'.seen).1 = false := by
      rw [KeyRing.insert_fst]
      simpa using hold
    exact (KeyRing.insert_refused hfst).symm
  · simp only [Input.token?, hd]

/-- A repeat leaves the loop as it was. -/
theorem step_of_seen (env : HostEnv) {i : Input} {token : Token} (htok : i.token? = some token)
    (hseen : token ∈ s.seen.set) : step env s i = some s := by
  obtain ⟨s', hs⟩ := Option.isSome_iff_exists.1 (step_isSome env s i)
  obtain ⟨u, rfl, -⟩ | ⟨d, rfl, hd, -⟩ | ⟨d, t, rfl, -, -, rfl⟩ |
    ⟨d, t, reply, world, rfl, hd, hnew, -⟩ := step_cases hs
  · cases htok
  · rw [Input.token?, hd] at htok
    cases htok
  · exact hs
  · rw [Input.token?, hd] at htok
    cases htok
    exact absurd hseen hnew

/-- While no more tokens came than the ring holds, it holds them all, so every
request that is redelivered is passed over. -/
theorem run_dropRepeats (env : HostEnv) : ∀ (is : List Input) {s : HostLoop} {log : List Token},
    s.seen.Remembers log → log.Nodup →
    (log ++ is.filterMap Input.token?).toFinset.card ≤ s.seen.capacity →
    run (step env) s is = run (step env) s (dropRepeats log.toFinset is)
  | [], _, _, _, _, _ => rfl
  | i :: is, s, log, hrem, hnd, hcard => by
    -- the ring is not over its capacity yet, so it holds the whole log
    have hlen : log.length ≤ s.seen.capacity := by
      rw [← List.toFinset_card_of_nodup hnd]
      refine le_trans (Finset.card_le_card fun t ht => ?_) hcard
      rw [List.mem_toFinset] at ht ⊢
      exact List.mem_append_left _ ht
    have hset : s.seen.set = log.toFinset := by
      rw [hrem.set_eq, hrem.order_eq, List.rtake, Nat.sub_eq_zero_of_le hlen, List.drop_zero]
    obtain ⟨s', hs⟩ := Option.isSome_iff_exists.1 (step_isSome env s i)
    have hseen := seen_step hs
    cases htok : i.token? with
    | none =>
      rw [htok] at hseen
      rw [List.filterMap_cons_none htok] at hcard
      simp only [dropRepeats, htok, run, hs, Option.bind_some]
      exact run_dropRepeats env is (hseen ▸ hrem) hnd (hseen ▸ hcard)
    | some token =>
      rw [htok] at hseen
      rw [List.filterMap_cons_some htok] at hcard
      by_cases hmem : token ∈ log.toFinset
      · simp only [dropRepeats, htok, if_pos hmem, run, step_of_seen env htok (hset ▸ hmem),
          Option.bind_some]
        refine run_dropRepeats env is hrem hnd (le_trans (Finset.card_le_card fun t ht => ?_) hcard)
        rw [List.mem_toFinset] at ht ⊢
        obtain ht | ht := List.mem_append.1 ht
        · exact List.mem_append_left _ ht
        · exact List.mem_append_right _ (List.mem_cons_of_mem _ ht)
      · have hnew : (KeyRing.insert token s.seen).1 = true := by
          rw [KeyRing.insert_fst, hset]
          simpa using hmem
        have hcap : s'.seen.capacity = s.seen.capacity := by
          rw [hseen]
          exact KeyRing.capacity_insert token s.seen
        have hfin : insert token log.toFinset = (log ++ [token]).toFinset := by
          ext t
          simp
        simp only [dropRepeats, htok, if_neg hmem, run, hs, Option.bind_some, hfin]
        refine run_dropRepeats env is ?_ ?_ ?_
        · rw [hseen]
          exact hrem.insert hnew
        · refine List.nodup_append.2 ⟨hnd, List.nodup_singleton _, fun a ha b hb => ?_⟩
          rw [List.mem_singleton.1 hb]
          rintro rfl
          exact hmem (List.mem_toFinset.2 ha)
        · rw [hcap]
          simpa using hcard

/-- **Redelivery changes nothing.** As long as a run brings no more than
`SEEN_TOKENS_CAPACITY` different requests, the loop ends in the state it would
end in had each of them come once: same cache, same fetches, same
advertisements, same replies. -/
theorem redelivery_invisible (env : HostEnv) (maxBytes ttl : Nat) (publicCids : List String)
    (rounds : List Round) (hfew : (tokens rounds).toFinset.card ≤ SEEN_TOKENS_CAPACITY) :
    serve env (start maxBytes ttl publicCids) rounds =
      run (step env) (start maxBytes ttl publicCids)
        (dropRepeats ∅ (rounds.flatMap Round.inputs)) :=
  run_dropRepeats env _ (KeyRing.remembers_new SEEN_TOKENS_CAPACITY) List.nodup_nil hfew

/-! ### A request that comes three times -/

/-- A host to which no payload parses. -/
def sampleLoopHost : HostEnv where
  rs := ⟨fun _ => "", fun _ => .error "", fun _ => false, fun _ => true⟩
  iam := toyIam fun _ => none
  fromSlice := fun _ => .error "EOF while parsing a value at line 1 column 0"
  shapeError := fun _ => ""
  edgeId := sampleEdge
  roots := []
  revoked := ∅

/-- A probe with an empty payload. -/
def emptyProbe : Delivery where
  replyToken := some 7
  msg := ⟨TOPIC_STATUS, hexEncode sampleReader.1, ""⟩
  src := ⟨fun _ => .error "", fun _ => .error ""⟩
  ord := .stored _ _
  clocks := ⟨50, 50⟩

def resentRounds : List Round :=
  [⟨⟨.ok [], .stored _ _, 50⟩, .ok [emptyProbe, emptyProbe]⟩,
    ⟨⟨.error "timeout", .stored _ _, 51⟩, .ok [emptyProbe]⟩]

theorem redelivery_invisible_sample :
    (dropRepeats ∅ (resentRounds.flatMap Round.inputs)).length = 3 ∧
      serve sampleLoopHost (start 100 0 []) resentRounds =
        run (step sampleLoopHost) (start 100 0 [])
          (dropRepeats ∅ (resentRounds.flatMap Round.inputs)) :=
  ⟨by decide +kernel,
    redelivery_invisible sampleLoopHost 100 0 [] resentRounds (by decide +kernel)⟩

end HostLoop

end CeCdn
