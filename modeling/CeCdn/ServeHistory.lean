/-
What the mesh host does is accounted for by the requests it honored
(`HostLoop.serve_accounted`): an object in the cache was fetched for one of
them, after the last purge of it, and a CID is advertised because it is public
or because one of them asked to cache it. The history of a run holds the
requests honored in it, each with the revocations known then, which are never
more than twenty rounds old (`HostLoop.revocation_takes_effect`).
-/
import CeCdn.Lib.Log
import CeCdn.ServeLoop

namespace CeCdn

open Lib Text Machine

/-! ## What a request brings into the cache -/

/-- Whether the action fetches the object into the cache when it is not there. -/
def Action.fetches : Action → Bool
  | .cache _ | .read _ => true
  | .purge _ | .status _ => false

/-- A request for `cid` may leave in the cache what was there, and besides that
only the object the store answers for `cid`. -/
structure Brought (src : BlobSource) (cid : String) (w w' : World) : Prop where
  publicSet : w'.edge.publicSet = w.edge.publicSet
  entries : ∀ k e, w'.edge.cache.entries.lookup k = some e →
    (k = cid ∧ src.getObject cid = .ok e.bytes) ∨
      ∃ e', w.edge.cache.entries.lookup k = some e' ∧ e'.bytes = e.bytes

section

variable {rs : CeRs} {src : BlobSource} {cid : String}

theorem Brought.refl (w : World) : Brought src cid w w :=
  ⟨rfl, fun _ e he => .inr ⟨e, he, rfl⟩⟩

theorem Brought.trans (a b c : World) (h : Brought src cid a b) (h' : Brought src cid b c) :
    Brought src cid a c := by
  refine ⟨h'.publicSet.trans h.publicSet, fun k e he => ?_⟩
  obtain hnew | ⟨e', he', hb⟩ := h'.entries k e he
  · exact .inl hnew
  · obtain ⟨hk, hobj⟩ | ⟨e'', he'', hb'⟩ := h.entries k e' he'
    · exact .inl ⟨hk, hb ▸ hobj⟩
    · exact .inr ⟨e'', he'', hb'.trans hb⟩

theorem SameEdge.brought {w w' : World} (h : SameEdge w w') : Brought src cid w w' := by
  refine ⟨congrArg EdgeState.publicSet h, fun k e he => .inr ⟨e, ?_, rfl⟩⟩
  rwa [h] at he

theorem brought_get (k : String) (now : Nat) (w : World) :
    Brought src cid w (w.setCache (w.edge.cache.get k now).2) := by
  refine ⟨rfl, fun k' e he => .inr ?_⟩
  obtain ⟨e', he', hb⟩ := EdgeCache.lookup_get he
  exact ⟨e', he', hb⟩

theorem brought_insertWithTtl {b : Bytes} (hobj : src.getObject cid = .ok b)
    (ord : IterOrder String CacheEntry) (ttl now : Nat) (w : World) (calls : List SourceCall) :
    Brought src cid w { (w.setCache (w.edge.cache.insertWithTtl ord cid b ttl now).2) with
      calls := calls } := by
  refine ⟨rfl, fun k e he => ?_⟩
  obtain ⟨hk, hb, -⟩ | hold := EdgeCache.lookup_insertWithTtl he
  · exact .inl ⟨hk, hb ▸ hobj⟩
  · exact .inr ⟨e, hold, rfl⟩

namespace EdgeState

theorem brings_cacheObject (ord : IterOrder String CacheEntry) (ttlSecs now : Nat) :
    Eff.Keeps (Brought src cid) (cacheObject rs src ord cid ttlSecs now) := by
  intro w
  obtain ⟨m, b, ttl, calls, -, -, hobj, hrun⟩ | ⟨e, w', hrun, hsame⟩ :=
    cacheObject_cases rs src ord cid ttlSecs now w
  · rw [hrun]
    exact brought_insertWithTtl hobj ord ttl now w calls
  · rw [hrun]
    exact hsame.brought

theorem brings_readObject (ord : IterOrder String CacheEntry) (now : Nat) :
    Eff.Keeps (Brought src cid) (readObject rs src ord cid now) := by
  intro w
  cases hget : (w.edge.cache.get cid now).1 with
  | some b =>
    rw [readObject_of_hit rs src ord hget]
    exact brought_get cid now w
  | none =>
    rw [readObject_of_miss hget]
    refine (brought_get cid now w).trans _ _ _ ?_
    obtain ⟨m, b, calls, -, -, hobj, hrun⟩ | ⟨e, w', hrun, hsame⟩ :=
      readObjectCold_cases rs src ord cid now (w.setCache (w.edge.cache.get cid now).2)
    · rw [hrun]
      exact brought_insertWithTtl hobj ord _ now _ calls
    · rw [hrun]
      exact hsame.brought

theorem brings_readRange (range : ByteRange) (now : Nat) :
    Eff.Keeps (Brought src cid) (readRange rs src cid range now) := by
  refine Eff.keeps_bind Brought.trans (fun w => brought_get cid now w) fun found => ?_
  have hcold : Eff.Keeps (Brought src cid) (readRangeCold rs src cid range) := fun w =>
    (keepsEdge_readRangeCold cid range w).brought
  cases found with
  | none => exact hcold
  | some bytes =>
    simp only
    split
    · exact Eff.keeps_bind Brought.trans (Eff.keeps_ofExcept Brought.refl _) fun _ =>
        Eff.keeps_pure Brought.refl _
    · exact hcold

end EdgeState

theorem brings_replyWith {α β : Type} {m : Op α} (h : Eff.Keeps (Brought src cid) m) (ok : α → β)
    (err : String → β) : Eff.Keeps (Brought src cid) (replyWith m ok err) := by
  intro w
  rw [replyWith_snd]
  exact h w

theorem brings_doRead (ord : IterOrder String CacheEntry) (req : ReadReq) (now : Nat) :
    Eff.Keeps (Brought src req.cid) (doRead rs src ord req now) := by
  have hwhole : Eff.Keeps (Brought src req.cid) (doReadWhole rs src ord req now) :=
    brings_replyWith (EdgeState.brings_readObject ord now) _ _
  intro w
  cases hreq : req.range with
  | none =>
    rw [doRead_of_none hreq]
    exact hwhole w
  | some hdr =>
    cases hm : manifestAt rs src req.cid with
    | error f =>
      obtain ⟨resp, w', hrun, -, hsame⟩ := doRead_of_no_manifest ord now w hreq hm
      rw [hrun]
      exact hsame.brought
    | ok m =>
      have hfetched : SameEdge w (w.fetched (.blob req.cid)) := rfl
      rw [doRead_of_header hreq hm]
      refine hfetched.brought.trans _ _ _ ?_
      cases parseRange (some hdr) m.totalSize with
      | full => exact hwhole _
      | unsatisfiable => exact Brought.refl _
      | partialRange r => exact brings_replyWith (EdgeState.brings_readRange r now) _ _ _

theorem brings_cache (ord : IterOrder String CacheEntry) (req : CacheReq) (now : Nat) :
    Eff.Keeps (Brought src req.cid) ((Action.cache req).perform rs src ord now) := by
  refine brings_replyWith (Eff.keeps_bind Brought.trans
    (EdgeState.brings_cacheObject ord req.ttlSecs now) fun len => ?_) _ _
  exact Eff.keeps_bind Brought.trans (fun w => Brought.refl w) fun _ =>
    Eff.keeps_pure Brought.refl _

theorem brings_read (ord : IterOrder String CacheEntry) (req : ReadReq) (now : Nat) :
    Eff.Keeps (Brought src req.cid) ((Action.read req).perform rs src ord now) :=
  Eff.keeps_bind Brought.trans (brings_doRead ord req now) fun _ => Eff.keeps_pure Brought.refl _

theorem Action.publicSet_perform (ord : IterOrder String CacheEntry) (now : Nat) (act : Action)
    (w : World) :
    ((act.perform rs src ord now).run w).2.edge.publicSet = w.edge.publicSet := by
  cases act with
  | cache req => exact (brings_cache ord req now w).publicSet
  | read req => exact (brings_read ord req now w).publicSet
  | purge req => rfl
  | status req => rfl

/-- What an action leaves in the cache it fetched, or it was there and the
action did not purge it. -/
theorem Action.entries_perform {ord : IterOrder String CacheEntry} {now : Nat} {act : Action}
    {w : World} {k : String} {e : CacheEntry}
    (h : ((act.perform rs src ord now).run w).2.edge.cache.entries.lookup k = some e) :
    (act.fetches = true ∧ act.cid = k ∧ src.getObject k = .ok e.bytes) ∨
      ((∃ e', w.edge.cache.entries.lookup k = some e' ∧ e'.bytes = e.bytes) ∧
        ∀ req, act = .purge req → req.cid ≠ k) := by
  cases act with
  | cache req =>
    obtain ⟨rfl, hobj⟩ | hold := (brings_cache ord req now w).entries k e h
    · exact .inl ⟨rfl, rfl, hobj⟩
    · exact .inr ⟨hold, nofun⟩
  | read req =>
    obtain ⟨rfl, hobj⟩ | hold := (brings_read ord req now w).entries k e h
    · exact .inl ⟨rfl, rfl, hobj⟩
    · exact .inr ⟨hold, nofun⟩
  | purge req =>
    have hentries : ((Action.perform rs src ord now (.purge req)).run w).2.edge.cache.entries =
        (EdgeCache.dropEntry req.cid w.edge.cache).2.entries := rfl
    rw [hentries, EdgeCache.dropEntry_snd] at h
    obtain ⟨hne, hold⟩ := HashMap.lookup_erase_eq_some.1 h
    refine .inr ⟨⟨e, hold, rfl⟩, fun req' heq => ?_⟩
    cases heq
    exact Ne.symm hne
  | status req => exact .inr ⟨⟨e, h, rfl⟩, nofun⟩

/-- Only a read is answered as a read. -/
theorem Action.read_of_perform {ord : IterOrder String CacheEntry} {now : Nat} {act : Action}
    {w : World} {resp : ReadResp}
    (h : ((act.perform rs src ord now).run w).1 = .ok (.read resp)) :
    ∃ req, act = .read req ∧ ((doRead rs src ord req now).run w).1 = .ok resp := by
  cases act with
  | cache req =>
    obtain ⟨a, -, ha⟩ | ⟨e, -, he⟩ := replyWith_eq_ok h
    · cases ha
    · cases he
  | read req =>
    obtain ⟨resp', hresp, h⟩ := Eff.run_bind_fst_ok_iff.1 h
    cases h
    exact ⟨req, rfl, hresp⟩
  | purge req => cases h
  | status req => cases h

/-- The bytes of a whole object come from the cache or from the store. -/
theorem doRead_whole {ord : IterOrder String CacheEntry} {req : ReadReq} {now : Nat} {w : World}
    {resp : ReadResp} (h : ((doRead rs src ord req now).run w).1 = .ok resp) (hok : resp.ok = true)
    (hwhole : resp.isPartial = false) :
    ∃ b, resp.bytesHex = hexEncode b ∧ resp.totalLen = b.length ∧
      ((∃ e, w.edge.cache.entries.lookup req.cid = some e ∧ e.bytes = b) ∨
        src.getObject req.cid = .ok b) := by
  have hread : ∀ w : World, ((doReadWhole rs src ord req now).run w).1 = .ok resp →
      ∃ b, resp.bytesHex = hexEncode b ∧ resp.totalLen = b.length ∧
        ((∃ e, w.edge.cache.entries.lookup req.cid = some e ∧ e.bytes = b) ∨
          src.getObject req.cid = .ok b) := by
    intro w h
    obtain ⟨⟨b, hit⟩, hrun, rfl⟩ | ⟨e, -, rfl⟩ := replyWith_eq_ok h
    · refine ⟨b, rfl, rfl, ?_⟩
      cases hget : (w.edge.cache.get req.cid now).1 with
      | some b' =>
        rw [EdgeState.readObject_of_hit rs src ord hget] at hrun
        cases hrun
        obtain ⟨e, he, hb, -⟩ := EdgeCache.get_eq_some hget
        exact .inl ⟨e, he, hb⟩
      | none =>
        rw [EdgeState.readObject_of_miss hget] at hrun
        obtain ⟨m, b', calls, -, -, hobj, hcold⟩ | ⟨e, w', hcold, -⟩ :=
          EdgeState.readObjectCold_cases rs src ord req.cid now
            (w.setCache (w.edge.cache.get req.cid now).2)
        · rw [hcold] at hrun
          cases hrun
          exact .inr hobj
        · rw [hcold] at hrun
          cases hrun
    · cases hok
  cases hreq : req.range with
  | none =>
    rw [doRead_of_none hreq] at h
    exact hread w h
  | some hdr =>
    cases hm : manifestAt rs src req.cid with
    | error f =>
      obtain ⟨resp', w', hrun, hno, -⟩ := doRead_of_no_manifest ord now w hreq hm
      rw [hrun] at h
      cases h
      rw [hno] at hok
      cases hok
    | ok m =>
      rw [doRead_of_header hreq hm] at h
      cases hp : parseRange (some hdr) m.totalSize with
      | full => rw [hp] at h; exact hread (w.fetched (.blob req.cid)) h
      | unsatisfiable => rw [hp] at h; cases h; cases hok
      | partialRange r =>
        rw [hp] at h
        obtain ⟨⟨b, hit⟩, -, rfl⟩ | ⟨e, -, rfl⟩ := replyWith_eq_ok h
        · cases hwhole
        · cases hok

end

/-! ## The requests that are honored -/

namespace HostEnv

variable (env : HostEnv)

/-- The request of a message that is honored. -/
def accepted (publicSet : Finset String) (clocks : Clocks) (msg : MeshMsg) : Option Action :=
  match env.checked msg with
  | .error _ => none
  | .ok (payload, sender, ability, caps, cid) =>
    match decideAccess ability cid (if decide (cid ∈ publicSet) then {cid} else ∅)
        (env.authorizeFn caps sender clocks.authorize) with
    | (.deny, _) => none
    | (.allow, _) => (env.action msg.topic payload).toOption

variable {env} {publicSet : Finset String} {clocks : Clocks} {msg : MeshMsg}

/-- A request that is accepted meets the access conditions for its own CID. -/
theorem honored_of_accepted {act : Action} (h : env.accepted publicSet clocks msg = some act) :
    ∃ sender payload ability caps,
      Honored env clocks msg publicSet sender payload ability caps act.cid ∧
      env.action msg.topic payload = .ok act := by
  unfold accepted at h
  split at h
  · cases h
  · next payload sender ability caps cid hc =>
    split at h
    · cases h
    · next hd =>
      cases ha : env.action msg.topic payload with
      | error f => rw [ha] at h; cases h
      | ok act' =>
        rw [ha] at h
        cases h
        have hhon := honored_of_allow hc (congrArg Prod.fst hd)
        rw [action_cid hhon.head ha]
        exact ⟨sender, payload, ability, caps, hhon, ha⟩

variable (clocks msg) in
/-- The handler does what it accepts, and nothing else. -/
theorem handle_accepted (src : BlobSource) (ord : IterOrder String CacheEntry) (w : World) :
    (∃ act, env.accepted w.edge.publicSet clocks msg = some act ∧
      (env.handle src ord clocks msg).run w =
        (act.perform env.rs src ord clocks.dispatch).run w) ∨
    (env.accepted w.edge.publicSet clocks msg = none ∧
      ∃ reason, (env.handle src ord clocks msg).run w = (.ok (.negative reason), w)) := by
  have hrefuse : ∀ e, (env.handleInner src ord clocks msg).run w = (.error (.err e), w) →
      (env.handle src ord clocks msg).run w = (.ok (.negative e), w) := by
    intro e he
    rw [handle, replyWith_of_err (congrArg Prod.fst he), he]
  unfold accepted
  cases hc : env.checked msg with
  | error f =>
    obtain ⟨e, rfl⟩ := checked_error hc
    refine .inr ⟨rfl, e, hrefuse e ?_⟩
    rw [handleInner, hc]
    rfl
  | ok r =>
    obtain ⟨payload, sender, ability, caps, cid⟩ := r
    simp only
    cases hd : decideAccess ability cid (if decide (cid ∈ w.edge.publicSet) then {cid} else ∅)
        (env.authorizeFn caps sender clocks.authorize) with
    | mk decision reason =>
      cases decision with
      | deny =>
        refine .inr ⟨rfl, _, hrefuse (denied (reason.getD "unauthorized")) ?_⟩
        rw [handleInner_of_checked hc, hd]
        rfl
      | allow =>
        cases ha : env.action msg.topic payload with
        | error f =>
          obtain ⟨e, rfl⟩ := action_error ha
          refine .inr ⟨rfl, e, hrefuse e ?_⟩
          rw [handleInner_of_checked hc, hd, ha]
          rfl
        | ok act => exact .inl ⟨act, rfl, handle_of_allowed hc hd ha⟩

end HostEnv

/-- A request that was honored: what it asked for, the message, and the
revocations known then. -/
structure Accepted where
  act : Action
  delivery : Delivery
  revoked : Finset (NodeId × Nat)

namespace Accepted

def Stores (h : Accepted) (cid : String) (b : Bytes) : Prop :=
  h.act.cid = cid ∧ h.act.fetches = true ∧ h.delivery.src.getObject cid = .ok b

def Purges (h : Accepted) (cid : String) : Prop := ∃ req, h.act = .purge req ∧ req.cid = cid

/-- The access conditions were met, with the revocations known then. -/
def Lawful (env : HostEnv) (publicSet : Finset String) (h : Accepted) : Prop :=
  ∃ sender payload ability caps,
    Honored { env with revoked := h.revoked } h.delivery.clocks h.delivery.msg publicSet sender
      payload ability caps h.act.cid ∧
    env.action h.delivery.msg.topic payload = .ok h.act

end Accepted

namespace HostLoop

/-- The request honored by a step, when its token is new. -/
def honoredBy (env : HostEnv) (s : HostLoop) : Input → Option Accepted
  | .poll _ => none
  | .message d =>
    match d.token? with
    | none => none
    | some token =>
      if token ∈ s.seen.set then none
      else
        ((s.envOf env).accepted s.world.edge.publicSet d.clocks d.msg).map fun act =>
          ⟨act, d, s.revoked⟩

/-- The requests honored along a run, in order. -/
def history (env : HostEnv) (s : HostLoop) (is : List Input) : List Accepted :=
  events (step env) (honoredBy env) s is

/-- Some request of the history fetched these bytes, and none after it purged
them. -/
def Explained (log : List Accepted) (cid : String) (b : Bytes) : Prop :=
  Log.Since (fun h => h.Stores cid b) (fun h => h.Purges cid) log

/-- The state of the loop is explained by the requests honored so far. -/
structure Accounted (env : HostEnv) (cids : Finset String) (s : HostLoop) (log : List Accepted) :
    Prop where
  publicSet : s.world.edge.publicSet = cids
  lawful : ∀ h ∈ log, h.Lawful env cids
  cached : ∀ k e, s.world.edge.cache.entries.lookup k = some e → Explained log k e.bytes
  /-- An object sent whole was fetched for a request. -/
  sent : ∀ token resp, (token, .read resp) ∈ s.replies → resp.ok = true →
    resp.isPartial = false → ∃ h ∈ log, ∃ req b, h.act = .read req ∧
      h.delivery.token? = some token ∧ resp.bytesHex = hexEncode b ∧
      ∃ h' ∈ log, h'.Stores req.cid b
  advertised : ∀ name ∈ s.advertised, name = SERVICE_EDGE ∨
    (∃ k ∈ cids, name = serviceFor k) ∨
    ∃ h ∈ log, ∃ req, h.act = .cache req ∧ name = serviceFor req.cid

variable {env : HostEnv} {cids : Finset String} {s s' : HostLoop} {log : List Accepted}

/-! ## Histories -/

theorem honoredBy_of_new {d : Delivery} {token : Token} (htok : d.token? = some token)
    (hnew : token ∉ s.seen.set) :
    honoredBy env s (.message d) =
      ((s.envOf env).accepted s.world.edge.publicSet d.clocks d.msg).map fun act =>
        ⟨act, d, s.revoked⟩ := by
  simp only [honoredBy, htok, if_neg hnew]

theorem honoredBy_of_seen {d : Delivery} {token : Token} (htok : d.token? = some token)
    (hseen : token ∈ s.seen.set) : honoredBy env s (.message d) = none := by
  simp only [honoredBy, htok, if_pos hseen]

theorem honoredBy_of_no_token {d : Delivery} (htok : d.token? = none) :
    honoredBy env s (.message d) = none := by
  simp only [honoredBy, htok]

/-- What is advertised after a message is the object its request cached. -/
theorem mem_advertisedBy {msg : MeshMsg} {publicSet : Finset String} {clocks : Clocks}
    {act : Action} {reply : Reply} {name : String}
    (hacc : env.accepted publicSet clocks msg = some act)
    (h : name ∈ advertisedBy env msg reply) : ∃ req, act = .cache req ∧ name = serviceFor req.cid := by
  unfold HostEnv.accepted at hacc
  split at hacc
  · cases hacc
  · next payload sender ability caps cid hc =>
    split at hacc
    · cases hacc
    · cases reply with
      | cache resp =>
        simp only [advertisedBy, hc] at h
        cases ha : env.action msg.topic payload with
        | error f => rw [ha] at hacc; cases hacc
        | ok act' =>
          rw [ha] at hacc h
          cases hacc
          cases act with
          | cache req =>
            simp only at h
            split at h
            · exact ⟨req, rfl, Finset.mem_singleton.1 h⟩
            · simp at h
          | read req | purge req | status req => simp at h
      | read resp | purge resp | status resp | negative reason => simp [advertisedBy] at h

/-- What is cached after a request is explained by it or by the ones before. -/
theorem Accounted.cached_concat (h : Accounted env cids s log) {a : Accepted} {rs : CeRs}
    {ord : IterOrder String CacheEntry} {now : Nat} {k : String} {e : CacheEntry}
    (he : ((a.act.perform rs a.delivery.src ord now).run s.world).2.edge.cache.entries.lookup k =
      some e) : Explained (log ++ [a]) k e.bytes := by
  obtain ⟨hfetch, hcid, hobj⟩ | ⟨⟨e', he', hb⟩, hpurge⟩ := Action.entries_perform he
  · exact Log.since_concat ⟨hcid, hfetch, hcid ▸ hobj⟩
  · refine hb ▸ Log.Since.concat (h.cached k e' he') fun hp => ?_
    obtain ⟨req, hreq, hcid⟩ := hp
    exact hpurge req hreq hcid

/-- With the cache and the advertisements explained and no reply added, so is
the state. -/
theorem Accounted.keep (h : Accounted env cids s log)
    (hpub : s'.world.edge.publicSet = s.world.edge.publicSet)
    (hcache : ∀ k e, s'.world.edge.cache.entries.lookup k = some e →
      s.world.edge.cache.entries.lookup k = some e)
    (hsent : ∀ token resp, (token, .read resp) ∈ s'.replies → (token, .read resp) ∈ s.replies)
    (hadv : s'.advertised ⊆ s.advertised ∪ {SERVICE_EDGE} ∪ cids.image serviceFor) :
    Accounted env cids s' log where
  publicSet := hpub.trans h.publicSet
  lawful := h.lawful
  cached := fun k e he => h.cached k e (hcache k e he)
  sent := fun token resp hmem => h.sent token resp (hsent token resp hmem)
  advertised := by
    intro name hname
    obtain hname | hname := Finset.mem_union.1 (hadv hname)
    · obtain hname | hname := Finset.mem_union.1 hname
      · exact h.advertised name hname
      · exact .inl (Finset.mem_singleton.1 hname)
    · obtain ⟨k, hk, rfl⟩ := Finset.mem_image.1 hname
      exact .inr (.inl ⟨k, hk, rfl⟩)

theorem Accounted.poll (h : Accounted env cids s log) (u : Upkeep) :
    Accounted env cids (s.poll u) log := by
  have hsub : s.advertised ⊆ s.advertised ∪ {SERVICE_EDGE} ∪ cids.image serviceFor :=
    (Finset.subset_union_left).trans Finset.subset_union_left
  unfold HostLoop.poll
  split
  · refine h.keep rfl (fun k e he => EdgeCache.lookup_sweepExpired he) (fun _ _ hm => hm) ?_
    rw [← h.publicSet]
    exact Finset.Subset.refl _
  · exact h.keep rfl (fun k e he => he) (fun _ _ hm => hm) hsub

/-- A request that is honored is accounted for by itself. -/
theorem Accounted.honor (h : Accounted env cids s log) {d : Delivery} {token : Token}
    {act : Action} {reply : Reply} {world : World} (htok : d.token? = some token)
    (hacc : (s.envOf env).accepted s.world.edge.publicSet d.clocks d.msg = some act)
    (hrun : (act.perform env.rs d.src d.ord d.clocks.dispatch).run s.world = (.ok reply, world)) :
    Accounted env cids { s with
      world := world
      seen := (s.seen.insert token).2
      advertised := s.advertised ∪ advertisedBy (s.envOf env) d.msg reply
      replies := s.replies ++ [(token, reply)] } (log ++ [⟨act, d, s.revoked⟩]) := by
  have hworld : world = ((act.perform env.rs d.src d.ord d.clocks.dispatch).run s.world).2 := by
    rw [hrun]
  refine ⟨?_, ?_, ?_, ?_, ?_⟩
  · rw [← h.publicSet, hworld]
    exact Action.publicSet_perform d.ord d.clocks.dispatch act s.world
  · intro h' hmem
    obtain hmem | hmem := List.mem_append.1 hmem
    · exact h.lawful h' hmem
    · rw [List.mem_singleton.1 hmem]
      obtain ⟨sender, payload, ability, caps, hhon, ha⟩ := HostEnv.honored_of_accepted hacc
      rw [h.publicSet] at hhon
      exact ⟨sender, payload, ability, caps, hhon, ha⟩
  · intro k e he
    rw [hworld] at he
    exact h.cached_concat (a := ⟨act, d, s.revoked⟩) he
  · intro token' resp hmem hok hwhole
    obtain hmem | hmem := List.mem_append.1 hmem
    · obtain ⟨h', hh', req, b, hact, htok', hb, h'', hh'', hstores⟩ :=
        h.sent token' resp hmem hok hwhole
      exact ⟨h', List.mem_append_left _ hh', req, b, hact, htok', hb, h'',
        List.mem_append_left _ hh'', hstores⟩
    · cases List.mem_singleton.1 hmem
      obtain ⟨req, rfl, hresp⟩ := Action.read_of_perform (congrArg Prod.fst hrun)
      obtain ⟨b, hb, -, hfrom⟩ := doRead_whole hresp hok hwhole
      refine ⟨⟨.read req, d, s.revoked⟩, by simp, req, b, rfl, htok, hb, ?_⟩
      obtain ⟨e, he, rfl⟩ | hobj := hfrom
      · obtain ⟨h', hh', hstores⟩ := Log.Since.exists (h.cached req.cid e he)
        exact ⟨h', List.mem_append_left _ hh', hstores⟩
      · exact ⟨⟨.read req, d, s.revoked⟩, by simp, rfl, rfl, hobj⟩
  · intro name hname
    obtain hname | hname := Finset.mem_union.1 hname
    · obtain hname | hname | ⟨h', hh', req, hact, hname⟩ := h.advertised name hname
      · exact .inl hname
      · exact .inr (.inl hname)
      · exact .inr (.inr ⟨h', List.mem_append_left _ hh', req, hact, hname⟩)
    · obtain ⟨req, hact, hname⟩ := mem_advertisedBy hacc hname
      exact .inr (.inr ⟨⟨act, d, s.revoked⟩, by simp, req, hact, hname⟩)

/-- One input keeps the account. -/
theorem Accounted.step {i : Input} (h : Accounted env cids s log)
    (hs : HostLoop.step env s i = some s') :
    Accounted env cids s' (log ++ (honoredBy env s i).toList) := by
  obtain ⟨u, rfl, rfl⟩ | ⟨d, rfl, htok, rfl⟩ | ⟨d, token, rfl, htok, hseen, rfl⟩ |
    ⟨d, token, reply, world, rfl, htok, hnew, hrun, rfl⟩ := step_cases hs
  · simpa [honoredBy] using h.poll u
  · simpa [honoredBy_of_no_token htok] using h
  · simpa [honoredBy_of_seen htok hseen] using h
  · rw [honoredBy_of_new htok hnew]
    obtain ⟨act, hacc, hperf⟩ | ⟨hacc, reason, hneg⟩ :=
      (s.envOf env).handle_accepted d.clocks d.msg d.src d.ord s.world
    · rw [hperf] at hrun
      rw [hacc]
      exact h.honor htok hacc hrun
    · -- a refusal leaves the edge and what is advertised as they were
      rw [hneg] at hrun
      cases hrun
      rw [hacc]
      have hlog : log ++ (Option.map (fun act => Accepted.mk act d s.revoked) none).toList = log := by
        simp
      rw [hlog]
      refine h.keep rfl (fun k e he => he) (fun token' resp hm => ?_) ?_
      · simpa using hm
      · have hnone : advertisedBy (s.envOf env) d.msg (.negative reason) = ∅ := rfl
        simp only [hnone, Finset.union_empty]
        exact Finset.subset_union_left.trans Finset.subset_union_left

theorem accounted_start (env : HostEnv) (maxBytes ttl : Nat) (publicCids : List String) :
    Accounted env publicCids.toFinset (start maxBytes ttl publicCids) [] := by
  have hallow : ∀ (cids : List String) (e : EdgeState),
      cids.foldl EdgeState.allowPublic e = { e with publicSet := e.publicSet ∪ cids.toFinset } := by
    intro cids
    induction cids with
    | nil => intro e; simp
    | cons k cids ih =>
      intro e
      rw [List.foldl_cons, ih]
      simp [EdgeState.allowPublic, Finset.insert_union, Finset.union_insert]
  have hedge : (start maxBytes ttl publicCids).world.edge =
      { EdgeState.new maxBytes ttl with publicSet := publicCids.toFinset } := by
    change publicCids.foldl EdgeState.allowPublic (.new maxBytes ttl) = _
    rw [hallow]
    simp [EdgeState.new]
  refine ⟨congrArg EdgeState.publicSet hedge, ?_, fun k e he => ?_, ?_,
    fun name hname => .inl (Finset.mem_singleton.1 hname)⟩
  · intro h hmem
    cases hmem
  · rw [hedge] at he
    cases he
  · intro token resp hmem
    cases hmem

theorem accounted_of_serve {maxBytes ttl : Nat} {publicCids : List String} {rounds : List Round}
    (h : serve env (start maxBytes ttl publicCids) rounds = some s) :
    Accounted env publicCids.toFinset s
      (history env (start maxBytes ttl publicCids) (rounds.flatMap Round.inputs)) := by
  have hinv : Accounted env publicCids.toFinset s ([] ++ events (step env) (honoredBy env)
      (start maxBytes ttl publicCids) (rounds.flatMap Round.inputs)) :=
    events_run_invariant (I := Accounted env publicCids.toFinset) (G := fun _ _ => True)
      (fun _ _ _ _ h _ hs => h.step hs) (accounted_start env maxBytes ttl publicCids)
      (guarded_of_forall (fun _ _ _ => trivial) _) h
  exact hinv

/-- The loop goes through all its rounds. -/
theorem exists_serve (env : HostEnv) (s : HostLoop) (rounds : List Round) :
    ∃ s', serve env s rounds = some s' :=
  Option.isSome_iff_exists.1 (run_isSome (step_isSome env) s (rounds.flatMap Round.inputs))

/-- **The requests honored account for the edge.** In every run of the loop,
whatever messages come: each request honored met the access conditions with the
revocations known then; every object in the cache was fetched for one of them
that named its CID, and no purge of it was honored after; every object sent
whole was fetched for one of them; and what is advertised is the service, a
public CID, or one that such a request asked to cache. -/
theorem serve_accounted (env : HostEnv) (maxBytes ttl : Nat) (publicCids : List String)
    (rounds : List Round) :
    ∃ s, serve env (start maxBytes ttl publicCids) rounds = some s ∧
      Accounted env publicCids.toFinset s
        (history env (start maxBytes ttl publicCids) (rounds.flatMap Round.inputs)) := by
  obtain ⟨s, hrun⟩ := exists_serve env (start maxBytes ttl publicCids) rounds
  exact ⟨s, hrun, accounted_of_serve hrun⟩

/-! ## Revocations -/

/-- A message changes neither the count of rounds nor the revocations. -/
theorem message_frame {d : Delivery} (h : step env s (.message d) = some s') :
    s'.tick = s.tick ∧ s'.revoked = s.revoked := by
  obtain ⟨u, hi, -⟩ | ⟨d', -, -, rfl⟩ | ⟨d', token, -, -, -, rfl⟩ |
    ⟨d', token, reply, world, -, -, -, -, rfl⟩ := step_cases h
  · cases hi
  · exact ⟨rfl, rfl⟩
  · exact ⟨rfl, rfl⟩
  · exact ⟨rfl, rfl⟩

/-- What a round does to them its poll does. -/
theorem round_frame {r : Round} (h : run (step env) s r.inputs = some s') :
    s'.tick = s.tick + 1 ∧ s'.revoked = (s.poll r.upkeep).revoked := by
  obtain ⟨s₁, hs₁, hrun⟩ := run_cons_eq_some.1 h
  cases hs₁
  have htick : (s.poll r.upkeep).tick = s.tick + 1 := by
    unfold poll
    split
    · rfl
    · rfl
  refine guarded_invariant (G := fun _ i => ∃ d, i = .message d)
    (I := fun s' => s'.tick = s.tick + 1 ∧ s'.revoked = (s.poll r.upkeep).revoked)
    (fun s₁ i s₂ hI hi hs => ?_) ⟨htick, rfl⟩ (guarded_of_forall (fun i hi _ => ?_) _) hrun
  · obtain ⟨d, rfl⟩ := hi
    obtain ⟨ht, hr⟩ := message_frame hs
    exact ⟨ht.trans hI.1, hr.trans hI.2⟩
  · obtain ⟨d, -, rfl⟩ := List.mem_map.1 hi
    exact ⟨d, rfl⟩

theorem serve_cons_eq_some {r : Round} {rounds : List Round} :
    serve env s (r :: rounds) = some s' ↔
      ∃ s₁, run (step env) s r.inputs = some s₁ ∧ serve env s₁ rounds = some s' := by
  rw [serve, List.flatMap_cons, run_append, Option.bind_eq_some_iff]
  rfl

theorem tick_serve : ∀ {rounds : List Round} {s s' : HostLoop},
    serve env s rounds = some s' → s'.tick = s.tick + UInt32.ofNat rounds.length
  | [], s, s', h => by cases h; simp
  | r :: rounds, s, s', h => by
    obtain ⟨s₁, h₁, hrest⟩ := serve_cons_eq_some.1 h
    rw [tick_serve hrest, (round_frame h₁).1, List.length_cons, Nat.add_comm rounds.length,
      UInt32.ofNat_add, ← UInt32.add_assoc]
    rfl

/-- The counter may wrap around, but of twenty rounds in a row one is due. -/
theorem exists_due (t : UInt32) : ∃ j < 20, (t + UInt32.ofNat j) % 20 = 0 := by
  have hlt := t.toNat_lt
  have hsum : ∃ j < 20, (t.toNat + j) % 2 ^ 32 % 20 = 0 := by
    by_cases hwrap : t.toNat + 20 ≤ 2 ^ 32
    · obtain ⟨j, hj, hdue⟩ : ∃ j < 20, (t.toNat + j) % 20 = 0 := by
        by_cases hnow : t.toNat % 20 = 0
        · exact ⟨0, by omega, hnow⟩
        · exact ⟨20 - t.toNat % 20, by omega, by omega⟩
      have hfit : (t.toNat + j) % 2 ^ 32 = t.toNat + j := Nat.mod_eq_of_lt (by omega)
      exact ⟨j, hj, by rw [hfit, hdue]⟩
    · exact ⟨2 ^ 32 - t.toNat, by omega, by omega⟩
  obtain ⟨j, hj, hdue⟩ := hsum
  refine ⟨j, hj, ?_⟩
  rw [← UInt32.toNat_inj, UInt32.toNat_mod, UInt32.toNat_add, UInt32.toNat_ofNat',
    Nat.mod_eq_of_lt (a := j) (by omega)]
  exact hdue

/-- Whenever the node answers, it names the link `p` as revoked. -/
def Reports (p : NodeId × Nat) (u : Upkeep) : Prop :=
  ∀ ps, u.revoked = .ok ps → p ∈ revokedSet ps

theorem mem_revoked_poll_of_mem {p : NodeId × Nat} {u : Upkeep} (hp : p ∈ s.revoked)
    (hu : Reports p u) : p ∈ (s.poll u).revoked := by
  unfold poll
  split
  · change p ∈ (u.revoked.toOption.map revokedSet).getD s.revoked
    cases hr : u.revoked with
    | error e => exact hp
    | ok ps => exact hu ps hr
  · exact hp

theorem mem_revoked_poll_of_due {p : NodeId × Nat} {u : Upkeep} {ps : List (String × Nat)}
    (hdue : s.tick % 20 = 0) (hr : u.revoked = .ok ps) (hp : p ∈ revokedSet ps) :
    p ∈ (s.poll u).revoked := by
  unfold poll
  rw [if_pos hdue]
  change p ∈ (u.revoked.toOption.map revokedSet).getD s.revoked
  rw [hr]
  exact hp

/-- A link known to be revoked stays so while the node does not take it back. -/
theorem mem_revoked_serve {p : NodeId × Nat} : ∀ {rounds : List Round} {s s' : HostLoop},
    p ∈ s.revoked → (∀ r ∈ rounds, Reports p r.upkeep) → serve env s rounds = some s' →
    p ∈ s'.revoked
  | [], s, s', hp, _, h => by cases h; exact hp
  | r :: rounds, s, s', hp, hrep, h => by
    obtain ⟨s₁, h₁, hrest⟩ := serve_cons_eq_some.1 h
    refine mem_revoked_serve ?_ (fun r' hr' => hrep r' (List.mem_cons_of_mem _ hr')) hrest
    rw [(round_frame h₁).2]
    exact mem_revoked_poll_of_mem hp (hrep r List.mem_cons_self)

theorem serve_append_eq_some {rounds rounds' : List Round} :
    serve env s (rounds ++ rounds') = some s' ↔
      ∃ s₁, serve env s rounds = some s₁ ∧ serve env s₁ rounds' = some s' := by
  rw [serve, List.flatMap_append, run_append, Option.bind_eq_some_iff]
  rfl

/-- Twenty rounds in which the node names a link are enough to know of it. -/
theorem mem_revoked_of_recent {p : NodeId × Nat} {recent : List Round}
    (hlen : 20 ≤ recent.length)
    (hrecent : ∀ r ∈ recent, ∃ ps, r.upkeep.revoked = .ok ps ∧ p ∈ revokedSet ps)
    (h : serve env s recent = some s') : p ∈ s'.revoked := by
  obtain ⟨j, hj, hdue⟩ := exists_due s.tick
  have hlt : j < recent.length := by omega
  have hsplit : recent = recent.take j ++ recent[j] :: recent.drop (j + 1) := by simp
  rw [hsplit] at h
  obtain ⟨s₁, h₁, hrest⟩ := serve_append_eq_some.1 h
  obtain ⟨s₂, h₂, hrest⟩ := serve_cons_eq_some.1 hrest
  have htick : s₁.tick = s.tick + UInt32.ofNat j := by
    rw [tick_serve h₁, List.length_take, Nat.min_eq_left (Nat.le_of_lt hlt)]
  obtain ⟨ps, hps, hp⟩ := hrecent recent[j] (List.getElem_mem hlt)
  refine mem_revoked_serve ?_ (fun r hr ps' hps' => ?_) hrest
  · rw [(round_frame h₂).2]
    exact mem_revoked_poll_of_due (htick ▸ hdue) hps hp
  · obtain ⟨ps, hps, hp⟩ := hrecent r (List.mem_of_mem_drop hr)
    rw [hps] at hps'
    cases hps'
    exact hp

theorem honoredBy_revoked {i : Input} {h : Accepted} (hi : honoredBy env s i = some h) :
    h.revoked = s.revoked := by
  unfold honoredBy at hi
  split at hi
  · cases hi
  · split at hi
    · cases hi
    · split at hi
      · cases hi
      · obtain ⟨act, -, rfl⟩ := Option.map_eq_some_iff.1 hi
        rfl

/-- In a run whose polls name the link, every request is honored with the link
known to be revoked. -/
theorem mem_revoked_history {p : NodeId × Nat} {rounds : List Round} (hp : p ∈ s.revoked)
    (hrep : ∀ r ∈ rounds, Reports p r.upkeep) :
    ∀ h ∈ history env s (rounds.flatMap Round.inputs), p ∈ h.revoked := by
  obtain ⟨s', hrun⟩ := exists_serve env s rounds
  have hstep : ∀ s i s' log, (p ∈ s.revoked ∧ ∀ h ∈ log, p ∈ h.revoked) →
      (∀ u, i = .poll u → Reports p u) → step env s i = some s' →
      p ∈ s'.revoked ∧ ∀ h ∈ log ++ (honoredBy env s i).toList, p ∈ h.revoked := by
    intro s i s' log hI hi hs
    cases i with
    | poll u =>
      cases hs
      exact ⟨mem_revoked_poll_of_mem hI.1 (hi u rfl), by simpa [honoredBy] using hI.2⟩
    | message d =>
      refine ⟨(message_frame hs).2 ▸ hI.1, fun h hmem => ?_⟩
      obtain hmem | hmem := List.mem_append.1 hmem
      · exact hI.2 h hmem
      · rw [Option.mem_toList] at hmem
        rw [honoredBy_revoked hmem]
        exact hI.1
  have hguard : Guarded (step env) (fun _ i => ∀ u, i = .poll u → Reports p u) s
      (rounds.flatMap Round.inputs) := by
    refine guarded_of_forall (fun i hi _ u hu => ?_) _
    obtain ⟨r, hr, hmem⟩ := List.mem_flatMap.1 hi
    obtain rfl | hmem := List.mem_cons.1 hmem
    · cases hu
      exact hrep r hr
    · obtain ⟨d, -, hd⟩ := List.mem_map.1 hmem
      rw [← hd] at hu
      cases hu
  have hinv := events_run_invariant hstep
    (⟨hp, fun _ h => nomatch h⟩ : p ∈ s.revoked ∧ ∀ h ∈ ([] : List Accepted), p ∈ h.revoked)
    hguard hrun
  simpa [history] using hinv.2

end HostLoop

/-- The capability chain that the request presented. -/
def Accepted.Presents (env : HostEnv) (h : Accepted) (chain : List env.iam.SignedCapability) :
    Prop :=
  ∃ payload caps cid, hexDecode h.delivery.msg.payloadHex.toList = some payload ∧
    env.capsAndCid payload = .ok (caps, cid) ∧ env.iam.decodeChain caps = some chain

/-- A lawful request whose chain has a revoked link is a read or a probe of a
public object. -/
theorem Accepted.Lawful.public_of_revoked {env : HostEnv} (hiam : env.iam.ChecksRevocation)
    {cids : Finset String} {h : Accepted} (hlaw : h.Lawful env cids)
    {chain : List env.iam.SignedCapability} (hchain : h.Presents env chain)
    (hlink : ∃ link ∈ chain, (env.iam.issuer link, env.iam.nonce link) ∈ h.revoked) :
    (h.delivery.msg.topic = TOPIC_READ ∨ h.delivery.msg.topic = TOPIC_STATUS) ∧
      h.act.cid ∈ cids := by
  obtain ⟨sender, payload, ability, caps, hhon, -⟩ := hlaw
  obtain hpub | ⟨chain', hdec, hauth⟩ := hhon.granted
  · exact hpub
  · obtain ⟨payload', caps', cid', hpay, hhead, hdec'⟩ := hchain
    rw [hhon.payload_hex] at hpay
    cases hpay
    have hhead' : env.capsAndCid payload = .ok (caps, h.act.cid) := hhon.head
    rw [hhead'] at hhead
    cases hhead
    have hdec₂ : env.iam.decodeChain caps = some chain' := hdec
    rw [hdec₂] at hdec'
    cases hdec'
    obtain ⟨link, hmem, hrev⟩ := hlink
    refine absurd hauth (hiam.rejects _ _ _ _ _ _ _ _ ⟨link, hmem, ?_⟩)
    simpa [HostEnv.isRevoked] using hrev

namespace HostLoop

/-- **A revocation takes effect within twenty rounds.** Once the node has named
a link as revoked for twenty rounds in a row, and while it does not take that
back, a request whose capability chain has the link is not honored, unless it
reads or probes a public object; whatever came before, also when the counter of
rounds wraps around. -/
theorem revocation_takes_effect {env : HostEnv} (hiam : env.iam.ChecksRevocation)
    (maxBytes ttl : Nat) (publicCids : List String) (p : NodeId × Nat)
    {earlier recent later : List Round} (hlen : 20 ≤ recent.length)
    (hrecent : ∀ r ∈ recent, ∃ ps, r.upkeep.revoked = .ok ps ∧ p ∈ revokedSet ps)
    (hlater : ∀ r ∈ later, ∀ ps, r.upkeep.revoked = .ok ps → p ∈ revokedSet ps) :
    ∃ s, serve env (start maxBytes ttl publicCids) (earlier ++ recent) = some s ∧
      ∀ h ∈ history env s (later.flatMap Round.inputs), ∀ chain, h.Presents env chain →
        (∃ link ∈ chain, (env.iam.issuer link, env.iam.nonce link) = p) →
        (h.delivery.msg.topic = TOPIC_READ ∨ h.delivery.msg.topic = TOPIC_STATUS) ∧
          h.act.cid ∈ publicCids := by
  obtain ⟨s, hrun⟩ := exists_serve env (start maxBytes ttl publicCids) (earlier ++ recent)
  obtain ⟨s₁, -, hrecents⟩ := serve_append_eq_some.1 hrun
  have hp := mem_revoked_of_recent hlen hrecent hrecents
  refine ⟨s, hrun, fun h hmem chain hchain hlink => ?_⟩
  have hrev := mem_revoked_history hp hlater h hmem
  obtain ⟨s', hrun'⟩ :=
    exists_serve env (start maxBytes ttl publicCids) (earlier ++ recent ++ later)
  have hwhole : h ∈ history env (start maxBytes ttl publicCids)
      ((earlier ++ recent ++ later).flatMap Round.inputs) := by
    rw [List.flatMap_append, history, events_append hrun]
    exact List.mem_append_right _ hmem
  obtain ⟨link, hlinkmem, hlinkp⟩ := hlink
  obtain ⟨htopic, hcid⟩ := ((accounted_of_serve hrun').lawful h hwhole).public_of_revoked hiam hchain
    ⟨link, hlinkmem, hlinkp ▸ hrev⟩
  exact ⟨htopic, List.mem_toFinset.1 hcid⟩

/-! ### A chain that is revoked -/

def publicCid : String := "0000000000000000000000000000000000000000000000000000000000000000"

/-- A host to which every payload presents `sampleCap` for the public object. -/
def sampleProbedHost : HostEnv where
  rs := ⟨fun _ => "", fun _ => .error "", fun _ => false, fun _ => true⟩
  iam := toyIam fun _ => some [sampleCap]
  fromSlice := fun _ => .ok (.object [("caps", .str "c0"), ("cid", .str publicCid)])
  shapeError := fun _ => ""
  edgeId := sampleEdge
  roots := []
  revoked := ∅

/-- A round in which the node names `sampleCap` as revoked. -/
def revokingRound (messages : List Delivery) : Round :=
  ⟨⟨.ok [(hexEncode sampleEdge.1, 1)], .stored _ _, 50⟩, .ok messages⟩

/-- The probe is honored after the revocation, as the object is public. -/
theorem revocation_takes_effect_sample :
    ∃ s, serve sampleProbedHost (start 100 0 [publicCid])
        ([] ++ List.replicate 20 (revokingRound [])) = some s ∧
      ∀ h ∈ history sampleProbedHost s ([revokingRound [emptyProbe]].flatMap Round.inputs),
        ∀ chain, h.Presents sampleProbedHost chain →
        (∃ link ∈ chain, (sampleProbedHost.iam.issuer link, sampleProbedHost.iam.nonce link) =
          (sampleEdge, 1)) →
        (h.delivery.msg.topic = TOPIC_READ ∨ h.delivery.msg.topic = TOPIC_STATUS) ∧
          h.act.cid ∈ [publicCid] := by
  have hnamed : ∀ messages, ∃ ps, (revokingRound messages).upkeep.revoked = .ok ps ∧
      (sampleEdge, 1) ∈ revokedSet ps := fun _ => ⟨_, rfl, by decide +kernel⟩
  refine revocation_takes_effect (toyIam_checksRevocation _) 100 0 [publicCid] (sampleEdge, 1)
    (by simp) (fun r hr => ?_) fun r hr ps hps => ?_
  · rw [List.eq_of_mem_replicate hr]
    exact hnamed []
  · rw [List.mem_singleton.1 hr] at hps
    obtain ⟨ps', hps', hmem⟩ := hnamed [emptyProbe]
    rw [hps'] at hps
    cases hps
    exact hmem

example : (history sampleProbedHost (start 100 0 [publicCid])
    ((List.replicate 3 (revokingRound [emptyProbe])).flatMap Round.inputs)).map Accepted.revoked =
    [{(sampleEdge, 1)}] := by
  decide +kernel

end HostLoop

end CeCdn
