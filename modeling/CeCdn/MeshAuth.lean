/-
Mesh authorization. Every message is either honored, with the access conditions
met for the very CID that is acted on, or answered negatively with nothing
touched and nothing fetched (`mesh_message_authorized`). The payload is parsed
twice; the two parses agree on the CID because both read the same members of
the document (`action_cid`).
-/
import CeCdn.HostFacts

namespace CeCdn

open Lib Text Word

/-- What the host has checked of a message it honors. -/
structure Honored (env : HostEnv) (clocks : Clocks) (msg : MeshMsg) (publicSet : Finset String)
    (sender : NodeId) (payload : Bytes) (ability caps cid : String) : Prop where
  from_hex : (hexDecode msg.fromHex.toList).bind (ByteArr.ofList 32) = some sender
  payload_hex : hexDecode msg.payloadHex.toList = some payload
  payload_le : payload.length ≤ MAX_REQUEST_BYTES
  head : env.capsAndCid payload = .ok (caps, cid)
  /-- The topic is one of the four. -/
  topic : abilityFor msg.topic = some ability
  cid_valid : isValidCid cid = true
  caps_le : strLen caps ≤ MAX_CAPS_HEX_LEN
  /-- The waiver for a public CID on a read or a probe, or the capability chain. -/
  granted :
    ((msg.topic = TOPIC_READ ∨ msg.topic = TOPIC_STATUS) ∧ cid ∈ publicSet) ∨
    ∃ chain, env.iam.decodeChain caps = some chain ∧
      env.iam.authorize env.edgeId env.roots [] clocks.authorize sender ability chain
        env.isRevoked = .ok ()

/-! ## The checks -/

/-- Only reads and probes need `cdn:read`. -/
theorem topic_of_read {topic : String} (h : abilityFor topic = some ABILITY_READ) :
    topic = TOPIC_READ ∨ topic = TOPIC_STATUS := by
  unfold abilityFor at h
  have hcache : some ABILITY_CACHE ≠ some ABILITY_READ := by decide
  have hpurge : some ABILITY_PURGE ≠ some ABILITY_READ := by decide
  split at h
  · exact absurd h hcache
  · split at h
    · next ht => exact .inl ht
    · split at h
      · exact absurd h hpurge
      · split at h
        · next ht => exact .inr ht
        · cases h

theorem decideAccess_allow {action cid : String} {publicSet : Finset String}
    {authorize : String → Except String Unit} :
    (decideAccess action cid publicSet authorize).1 = .allow ↔
      (action = ABILITY_READ ∧ cid ∈ publicSet) ∨ authorize action = .ok () := by
  unfold decideAccess
  split
  · next h => exact ⟨fun _ => .inl h, fun _ => rfl⟩
  · next h =>
    rw [or_iff_right h]
    cases authorize action with
    | ok _ => exact ⟨fun _ => rfl, fun _ => rfl⟩
    | error e => exact ⟨nofun, nofun⟩

namespace HostEnv

variable {env : HostEnv}

theorem authorizeFn_eq_ok {caps action : String} {sender : NodeId} {now : Nat} :
    env.authorizeFn caps sender now action = .ok () ↔
      ∃ chain, env.iam.decodeChain caps = some chain ∧
        env.iam.authorize env.edgeId env.roots [] now sender action chain env.isRevoked = .ok () := by
  unfold authorizeFn
  cases env.iam.decodeChain caps with
  | none => simp
  | some chain => simp

theorem capsAndCid_eq_ok {payload : Bytes} {h : String × String} :
    env.capsAndCid payload = .ok h ↔
      ∃ doc, env.fromSlice payload = .ok doc ∧ headOfJson doc = some h := by
  unfold capsAndCid
  cases env.fromSlice payload with
  | error e => simp
  | ok doc =>
    simp only [Except.ok.injEq, exists_eq_left']
    cases headOfJson doc <;> simp

theorem body_eq_ok {α : Type} {ofJson : JsonDoc → Option α} {payload : Bytes} {r : α} :
    env.body ofJson payload = .ok r ↔
      ∃ doc, env.fromSlice payload = .ok doc ∧ ofJson doc = some r := by
  unfold body
  cases env.fromSlice payload with
  | error e => simp
  | ok doc =>
    simp only [Except.ok.injEq, exists_eq_left']
    cases ofJson doc <;> simp

/-- A check that fails fails with a text. -/
theorem checked_error {msg : MeshMsg} {f : Fail} (h : env.checked msg = .error f) :
    ∃ e, f = .err e := by
  unfold checked at h
  split at h
  · cases h; exact ⟨_, rfl⟩
  split at h
  · cases h; exact ⟨_, rfl⟩
  split at h
  · cases h; exact ⟨_, rfl⟩
  split at h
  · cases h; exact ⟨_, rfl⟩
  split at h
  · cases h; exact ⟨_, rfl⟩
  split at h
  · next f' hf =>
    cases h
    unfold capsAndCid at hf
    split at hf
    · cases hf; exact ⟨_, rfl⟩
    · split at hf
      · cases hf; exact ⟨_, rfl⟩
      · cases hf
  split at h
  · cases h; exact ⟨_, rfl⟩
  split at h
  · cases h; exact ⟨_, rfl⟩
  · cases h

/-- What the checks establish. -/
theorem checked_ok {msg : MeshMsg} {payload : Bytes} {sender : NodeId} {ability caps cid : String}
    (h : env.checked msg = .ok (payload, sender, ability, caps, cid)) :
    (hexDecode msg.fromHex.toList).bind (ByteArr.ofList 32) = some sender ∧
    hexDecode msg.payloadHex.toList = some payload ∧ payload.length ≤ MAX_REQUEST_BYTES ∧
    env.capsAndCid payload = .ok (caps, cid) ∧ abilityFor msg.topic = some ability ∧
    isValidCid cid = true ∧ strLen caps ≤ MAX_CAPS_HEX_LEN := by
  unfold checked at h
  split at h
  · cases h
  split at h
  · cases h
  · next _ _ hpay =>
    split at h
    · cases h
    · next hlen =>
      split at h
      · cases h
      · next _ _ hsender =>
        split at h
        · cases h
        · next _ _ hability =>
          split at h
          · cases h
          · next _ _ _ hhead =>
            split at h
            · cases h
            · next hvalid =>
              split at h
              · cases h
              · next hcaps =>
                cases h
                refine ⟨hsender, hpay, Nat.not_lt.1 hlen, hhead, hability, ?_, Nat.not_lt.1 hcaps⟩
                simpa using hvalid

theorem body_error {α : Type} {ofJson : JsonDoc → Option α} {payload : Bytes} {f : Fail}
    (h : env.body ofJson payload = .error f) : ∃ e, f = .err e := by
  unfold body at h
  split at h
  · cases h; exact ⟨_, rfl⟩
  · split at h
    · cases h; exact ⟨_, rfl⟩
    · cases h

/-- A body that does not parse fails with a text. -/
theorem action_error {topic : String} {payload : Bytes} {f : Fail}
    (h : env.action topic payload = .error f) : ∃ e, f = .err e := by
  have hmap : ∀ {α : Type} {ofJson : JsonDoc → Option α} {g : α → Action},
      (env.body ofJson payload).map g = .error f → ∃ e, f = .err e := by
    intro α ofJson g hg
    cases hb : env.body ofJson payload with
    | error f' => rw [hb] at hg; cases hg; exact body_error hb
    | ok r => rw [hb] at hg; cases hg
  unfold action at h
  split at h
  · exact hmap h
  split at h
  · exact hmap h
  split at h
  · exact hmap h
  · exact hmap h

/-- **Both parses read one CID.** The request that is acted on names the CID
that was checked, whichever shape its body has. -/
theorem action_cid {topic caps cid : String} {payload : Bytes} {act : Action}
    (hhead : env.capsAndCid payload = .ok (caps, cid)) (h : env.action topic payload = .ok act) :
    act.cid = cid := by
  obtain ⟨doc, hdoc, hh⟩ := capsAndCid_eq_ok.1 hhead
  -- Each shape reads `caps` and `cid` where the head does.
  have hmap : ∀ {α : Type} {ofJson : JsonDoc → Option α} {g : α → Action} {n : Nat},
      (∀ r, ofJson doc = some r → ∃ caps', doc.capsAndCid n = some (caps', (g r).cid)) →
      (env.body ofJson payload).map g = .ok act → act.cid = cid := by
    intro α ofJson g n hread hg
    cases hb : env.body ofJson payload with
    | error f' => rw [hb] at hg; cases hg
    | ok r =>
      rw [hb] at hg
      cases hg
      obtain ⟨doc', hdoc', hr⟩ := body_eq_ok.1 hb
      rw [hdoc] at hdoc'
      cases hdoc'
      obtain ⟨caps', hc⟩ := hread r hr
      exact congrArg Prod.snd (capsAndCid_mono hc hh)
  unfold action at h
  split at h
  · exact hmap (fun r hr => ⟨r.caps, CacheReq.ofJson_capsAndCid hr⟩) h
  split at h
  · exact hmap (fun r hr => ⟨r.caps, ReadReq.ofJson_capsAndCid hr⟩) h
  split at h
  · exact hmap (fun r hr => ⟨r.caps, PurgeReq.ofJson_capsAndCid hr⟩) h
  · exact hmap (fun r hr => ⟨r.caps, StatusReq.ofJson_capsAndCid hr⟩) h

end HostEnv

/-! ## The dispatch -/

theorem replyWith_ne_err {α β : Type} (m : Op α) (ok : α → β) (err : String → β) (w : World)
    (e : String) : ((replyWith m ok err).run w).1 ≠ .error (.err e) := by
  intro h
  unfold replyWith at h
  rw [Eff.run_attempt_bind] at h
  rcases hm : (m.run w).1 with (e' | _) | a <;> rw [hm] at h <;> cases h

theorem doRead_ne_err (rs : CeRs) (src : BlobSource) (ord : IterOrder String CacheEntry)
    (req : ReadReq) (now : Nat) (w : World) (e : String) :
    ((doRead rs src ord req now).run w).1 ≠ .error (.err e) := by
  intro h
  cases hreq : req.range with
  | none =>
    rw [doRead_of_none hreq] at h
    exact replyWith_ne_err _ _ _ w e h
  | some hdr =>
    cases hm : manifestAt rs src req.cid with
    | error f =>
      obtain ⟨resp, w', heq, -, -⟩ := doRead_of_no_manifest ord now w hreq hm
      rw [heq] at h
      cases h
    | ok m =>
      rw [doRead_of_header hreq hm] at h
      cases hp : parseRange (some hdr) m.totalSize with
      | full => rw [hp] at h; exact replyWith_ne_err _ _ _ _ e h
      | partialRange r => rw [hp] at h; exact replyWith_ne_err _ _ _ _ e h
      | unsatisfiable => rw [hp] at h; cases h

/-- The dispatch turns every error into a reply of its own. -/
theorem perform_ne_err (rs : CeRs) (src : BlobSource) (ord : IterOrder String CacheEntry)
    (now : Nat) (act : Action) (w : World) (e : String) :
    ((act.perform rs src ord now).run w).1 ≠ .error (.err e) := by
  intro h
  cases act with
  | cache req => exact replyWith_ne_err _ _ _ w e h
  | read req =>
    rcases hr : (doRead rs src ord req now).run w with ⟨f | resp, w'⟩
    · rw [Action.perform, Eff.run_bind_of_error hr] at h
      cases h
      exact doRead_ne_err rs src ord req now w e (congrArg Prod.fst hr)
    · rw [Action.perform, Eff.run_bind_of_ok hr] at h
      cases h
  | purge req => cases h
  | status req => cases h

theorem replyWith_of_ne_err {m : Op Reply} {w : World}
    (h : ∀ e, (m.run w).1 ≠ .error (.err e)) : (replyWith m id Reply.negative).run w = m.run w := by
  unfold replyWith
  rw [Eff.run_attempt_bind]
  rcases hm : m.run w with ⟨(e | _) | r, w'⟩
  · exact absurd (congrArg Prod.fst hm) (h e)
  · rfl
  · rfl

/-! ## The handler -/

namespace HostEnv

variable (env : HostEnv) (ord : IterOrder String CacheEntry) (clocks : Clocks) (msg : MeshMsg)

/-- A message that is not honored, from any edge with these public CIDs and
whatever the store would answer: the reply is negative, and the edge and the
record of fetches are as they were. -/
def Refuses (publicSet : Finset String) : Prop :=
  ∃ reason, ∀ (src : BlobSource) (w : World), w.edge.publicSet = publicSet →
    (env.handle src ord clocks msg).run w = (.ok (.negative reason), w)

variable {env ord clocks msg}

/-- An error before the dispatch refuses the message. -/
theorem refuses_of_error {publicSet : Finset String} (e : String)
    (h : ∀ (src : BlobSource) (w : World), w.edge.publicSet = publicSet →
      (env.handleInner src ord clocks msg).run w = (.error (.err e), w)) :
    env.Refuses ord clocks msg publicSet := by
  refine ⟨e, fun src w hw => ?_⟩
  have hrun := h src w hw
  rw [handle, replyWith_of_err (congrArg Prod.fst hrun), hrun]

/-- The handler after its checks. -/
theorem handleInner_of_checked {payload : Bytes} {sender : NodeId} {ability caps cid : String}
    (h : env.checked msg = .ok (payload, sender, ability, caps, cid)) (src : BlobSource)
    (w : World) :
    (env.handleInner src ord clocks msg).run w =
      (match decideAccess ability cid (if decide (cid ∈ w.edge.publicSet) then {cid} else ∅)
          (env.authorizeFn caps sender clocks.authorize) with
        | (.deny, reason) => (Eff.fail (.err (denied (reason.getD "unauthorized"))) : Op Reply)
        | (.allow, _) => do
          let act ← Eff.ofExcept (env.action msg.topic payload)
          act.perform env.rs src ord clocks.dispatch).run w := by
  unfold handleInner
  rw [h]
  rfl

/-- An action that is allowed is the handler's whole effect. -/
theorem handle_of_allowed {payload : Bytes} {sender : NodeId} {ability caps cid : String}
    {src : BlobSource} {w : World} {act : Action} {reason : Option String}
    (hc : env.checked msg = .ok (payload, sender, ability, caps, cid))
    (hd : decideAccess ability cid (if decide (cid ∈ w.edge.publicSet) then {cid} else ∅)
      (env.authorizeFn caps sender clocks.authorize) = (.allow, reason))
    (ha : env.action msg.topic payload = .ok act) :
    (env.handle src ord clocks msg).run w = (act.perform env.rs src ord clocks.dispatch).run w := by
  have hinner : (env.handleInner src ord clocks msg).run w =
      (act.perform env.rs src ord clocks.dispatch).run w := by
    rw [handleInner_of_checked hc, hd, ha]
    rfl
  rw [handle, replyWith_of_ne_err, hinner]
  intro e
  rw [hinner]
  exact perform_ne_err env.rs src ord clocks.dispatch act w e

/-- A message that is checked and allowed meets every access condition. -/
theorem honored_of_allow {publicSet : Finset String} {payload : Bytes} {sender : NodeId}
    {ability caps cid : String} (hc : env.checked msg = .ok (payload, sender, ability, caps, cid))
    (hd : (decideAccess ability cid (if decide (cid ∈ publicSet) then {cid} else ∅)
      (env.authorizeFn caps sender clocks.authorize)).1 = .allow) :
    Honored env clocks msg publicSet sender payload ability caps cid := by
  obtain ⟨hsender, hpay, hlen, hhead, hability, hvalid, hcaps⟩ := checked_ok hc
  refine ⟨hsender, hpay, hlen, hhead, hability, hvalid, hcaps, ?_⟩
  rcases decideAccess_allow.1 hd with ⟨hread, hin⟩ | hauth
  · rw [hread] at hability
    have hpub : cid ∈ publicSet := by
      by_contra hnot
      simp [hnot] at hin
    exact .inl ⟨topic_of_read hability, hpub⟩
  · exact .inr (authorizeFn_eq_ok.1 hauth)

end HostEnv

/-- **Mesh authorization safety.** For every message, edge, store and clock:
either the message is honored, with every access condition met, and the handler
does exactly the action that the topic and the payload name, on the CID that was
checked; or it refuses, which means a negative reply that depends on neither the
cache nor the store, an unchanged edge, and no fetch. -/
theorem mesh_message_authorized (env : HostEnv) (src : BlobSource)
    (ord : IterOrder String CacheEntry) (clocks : Clocks) (msg : MeshMsg) (w : World) :
    (∃ sender payload ability caps cid act,
      Honored env clocks msg w.edge.publicSet sender payload ability caps cid ∧
      env.action msg.topic payload = .ok act ∧ act.cid = cid ∧
      (env.handle src ord clocks msg).run w =
        (act.perform env.rs src ord clocks.dispatch).run w) ∨
    env.Refuses ord clocks msg w.edge.publicSet := by
  cases hc : env.checked msg with
  | error f =>
    obtain ⟨e, rfl⟩ := HostEnv.checked_error hc
    refine .inr (HostEnv.refuses_of_error e fun src w _ => ?_)
    rw [HostEnv.handleInner, hc]
    rfl
  | ok r =>
    obtain ⟨payload, sender, ability, caps, cid⟩ := r
    cases hd : decideAccess ability cid
        (if decide (cid ∈ w.edge.publicSet) then {cid} else ∅)
        (env.authorizeFn caps sender clocks.authorize) with
    | mk decision reason =>
      cases decision with
      | deny =>
        refine .inr (HostEnv.refuses_of_error (denied (reason.getD "unauthorized"))
          fun src w' hw' => ?_)
        rw [HostEnv.handleInner_of_checked hc, hw', hd]
        rfl
      | allow =>
        cases ha : env.action msg.topic payload with
        | error f =>
          obtain ⟨e, rfl⟩ := HostEnv.action_error ha
          refine .inr (HostEnv.refuses_of_error e fun src w' hw' => ?_)
          rw [HostEnv.handleInner_of_checked hc, hw', hd, ha]
          rfl
        | ok act =>
          have hhead := (HostEnv.checked_ok hc).2.2.2.1
          exact .inl ⟨sender, payload, ability, caps, cid, act,
            HostEnv.honored_of_allow hc (congrArg Prod.fst hd), ha, HostEnv.action_cid hhead ha,
            HostEnv.handle_of_allowed hc hd ha⟩

end CeCdn
