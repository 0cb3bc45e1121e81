/-
What the access decision of the HTTP front-end has checked, and what one piece
of `serve_cid` does.
-/
import CeCdn.Lib.Machine
import CeCdn.Server

namespace CeCdn

open Lib Text Word

/-! ## The access decision -/

namespace ServerEnv

variable (env : ServerEnv)

/-- The query is a presigned link for `cid` by a configured key. -/
def LinkVerifies (cid query : String) (now : Nat) : Prop :=
  env.presignKeys ≠ [] ∧ (verifyPresign env.verify query cid env.presignKeys now).isOk = true

/-- The chain, with nothing taken as revoked, authorizes the requester to read. -/
def ChainAuthorizes (requester : NodeId) (capsHex : String) (now : Nat) : Prop :=
  ∃ chain, env.iam.decodeChain capsHex = some chain ∧
    env.iam.authorize env.edgeId env.roots [] now requester ABILITY_READ chain neverRevoked = .ok ()

/-- Both gates of the last way to a grant: the proof, and the chain. -/
structure GatesPass (cid : String) (requester : NodeId) (proof : Option (List Char))
    (capsHex : String) (now : Nat) : Prop where
  proof : verifyPop env.verify proof requester cid ABILITY_READ now = .ok ()
  caps_le : strLen capsHex ≤ MAX_CAPS_HEX_LEN
  chain : env.ChainAuthorizes requester capsHex now

variable {cid : String} {publicSet : Finset String}

/-- What the grant for private content is. -/
theorem resolveGrant_cases (requester : NodeId) (proof : Option (List Char))
    (query capsHex : String) (now : Nat) (hcid : cid ∉ publicSet) :
    (env.LinkVerifies cid query now ∧
      env.resolveGrant cid publicSet requester proof query capsHex now = .presigned) ∨
    (¬ env.LinkVerifies cid query now ∧ env.GatesPass cid requester proof capsHex now ∧
      env.resolveGrant cid publicSet requester proof query capsHex now = .popAndCap) ∨
    (¬ env.LinkVerifies cid query now ∧ ¬ env.GatesPass cid requester proof capsHex now ∧
      env.resolveGrant cid publicSet requester proof query capsHex now = .denied) := by
  by_cases hlink : env.LinkVerifies cid query now
  · refine .inl ⟨hlink, ?_⟩
    unfold LinkVerifies at hlink
    unfold resolveGrant
    rw [if_neg hcid, if_pos hlink]
  · refine .inr ?_
    have hgates : (env.GatesPass cid requester proof capsHex now ∧
        env.resolveGrant cid publicSet requester proof query capsHex now = .popAndCap) ∨
        (¬ env.GatesPass cid requester proof capsHex now ∧
        env.resolveGrant cid publicSet requester proof query capsHex now = .denied) := by
      have hno := hlink
      unfold LinkVerifies at hno
      unfold resolveGrant
      rw [if_neg hcid, if_neg hno]
      cases hpop : verifyPop env.verify proof requester cid ABILITY_READ now with
      | error e =>
        refine .inr ⟨fun hg => ?_, rfl⟩
        have hok := hg.proof
        rw [hpop] at hok
        cases hok
      | ok u =>
        simp only
        by_cases hlen : strLen capsHex > MAX_CAPS_HEX_LEN
        · rw [if_pos hlen]
          exact .inr ⟨fun hg => absurd hg.caps_le (Nat.not_le.2 hlen), rfl⟩
        · rw [if_neg hlen]
          cases hdec : env.iam.decodeChain capsHex with
          | none =>
            refine .inr ⟨fun hg => ?_, rfl⟩
            obtain ⟨chain, hchain, -⟩ := hg.chain
            rw [hdec] at hchain
            cases hchain
          | some chain =>
            simp only
            cases hauth : env.iam.authorize env.edgeId env.roots [] now requester ABILITY_READ
                chain neverRevoked with
            | ok u => exact .inl ⟨⟨hpop, Nat.not_lt.1 hlen, chain, hdec, hauth⟩, rfl⟩
            | error e =>
              refine .inr ⟨fun hg => ?_, rfl⟩
              obtain ⟨chain', hchain', hok⟩ := hg.chain
              rw [hdec] at hchain'
              obtain rfl := Option.some.inj hchain'
              rw [hauth] at hok
              cases hok
    obtain ⟨hg, heq⟩ | ⟨hg, heq⟩ := hgates
    · exact .inl ⟨hlink, hg, heq⟩
    · exact .inr ⟨hlink, hg, heq⟩

variable {env} {requester : NodeId} {proof : Option (List Char)} {query capsHex : String} {now : Nat}

theorem resolveGrant_popAndCap_iff (hcid : cid ∉ publicSet) :
    env.resolveGrant cid publicSet requester proof query capsHex now = .popAndCap ↔
      ¬ env.LinkVerifies cid query now ∧ env.GatesPass cid requester proof capsHex now := by
  obtain ⟨hl, h⟩ | ⟨hl, hg, h⟩ | ⟨hl, hg, h⟩ :=
    env.resolveGrant_cases requester proof query capsHex now hcid
  · simp [h, hl]
  · simp [h, hl, hg]
  · simp [h, hg]

theorem resolveGrant_ne_public (hcid : cid ∉ publicSet) :
    env.resolveGrant cid publicSet requester proof query capsHex now ≠ .publicGrant := by
  obtain ⟨-, h⟩ | ⟨-, -, h⟩ | ⟨-, -, h⟩ :=
    env.resolveGrant_cases requester proof query capsHex now hcid
  · rw [h]; nofun
  · rw [h]; nofun
  · rw [h]; nofun

theorem resolveGrant_presigned_iff (hcid : cid ∉ publicSet) :
    env.resolveGrant cid publicSet requester proof query capsHex now = .presigned ↔
      env.LinkVerifies cid query now := by
  obtain ⟨hl, h⟩ | ⟨hl, -, h⟩ | ⟨hl, -, h⟩ :=
    env.resolveGrant_cases requester proof query capsHex now hcid
  · simp [h, hl]
  · simp [h, hl]
  · simp [h, hl]

end ServerEnv

/-! ## The single-flight locks -/

namespace ServerState

theorem lookup_prunedInflight {s : ServerState} {cid : String} {l : Nat}
    (h : s.prunedInflight.lookup cid = some l) : s.inflight.lookup cid = some l := by
  unfold prunedInflight at h
  split at h
  · exact (HashMap.lookup_retain.1 h).1
  · exact h

theorem edge_inflightLock (s : ServerState) (cid : String) : (s.inflightLock cid).2.edge = s.edge := by
  unfold inflightLock
  split
  · rfl
  · rfl

theorem replay_inflightLock (s : ServerState) (cid : String) :
    (s.inflightLock cid).2.replay = s.replay := by
  unfold inflightLock
  split
  · rfl
  · rfl

/-- The lock a request gets is the one of its CID, held as before, or a new one. -/
theorem locked_inflightLock (s : ServerState) {cid : String}
    (h : ∀ l, s.inflight.lookup cid = some l → (s.flights l).locked = false) :
    ((s.inflightLock cid).2.flights (s.inflightLock cid).1).locked = false := by
  unfold inflightLock
  split
  · next l hl =>
    simp only [addRef, setFlight, if_true]
    exact h l (lookup_prunedInflight hl)
  · simp

end ServerState

/-! ## The pieces of a request -/

/-- The client has the object: `If-None-Match` names it. -/
def HttpReq.revalidates (req : HttpReq) : Bool :=
  Edge.ifNoneMatchMatches ((req.header "if-none-match").map String.ofList) req.cid

namespace Task

@[simp] theorem goto_req (t : Task) (p : Phase) : (t.goto p).req = t.req := rfl
@[simp] theorem goto_now (t : Task) (p : Phase) : (t.goto p).now = t.now := rfl
@[simp] theorem goto_grant (t : Task) (p : Phase) : (t.goto p).grant = t.grant := rfl
@[simp] theorem goto_phase (t : Task) (p : Phase) : (t.goto p).phase = p := rfl
@[simp] theorem deny_req (t : Task) : t.deny.req = t.req := rfl
@[simp] theorem deny_phase (t : Task) : t.deny.phase = .done (denyResponse t.req.cid t.now) := rfl

/-- A request with its access decided. -/
def granted (t : Task) (g : Grant) (p : Phase) : Task := { t with grant := g, phase := p }

@[simp] theorem granted_req (t : Task) (g : Grant) (p : Phase) : (t.granted g p).req = t.req := rfl
@[simp] theorem granted_grant (t : Task) (g : Grant) (p : Phase) : (t.granted g p).grant = g := rfl
@[simp] theorem granted_phase (t : Task) (g : Grant) (p : Phase) : (t.granted g p).phase = p := rfl

/-- What one piece of a request can do, and when. -/
inductive Piece (env : ServerEnv) (o : Orders) (s : ServerState) (t : Task) :
    ServerState → Task → Prop
  | denied (hp : t.phase = .access) (hg : env.grantOf s.edge.publicSet t.req t.now = .denied) :
    Piece env o s t s t.deny
  | granted {g : Grant} (hp : t.phase = .access)
    (hg : env.grantOf s.edge.publicSet t.req t.now = g)
    (hopen : g = .publicGrant ∨ g = .presigned) : Piece env o s t s (t.granted g .conditional)
  | popAndCap (hp : t.phase = .access)
    (hg : env.grantOf s.edge.publicSet t.req t.now = .popAndCap) :
    Piece env o s t s (t.granted .popAndCap .replay)
  | letThrough (hp : t.phase = .replay) (hpop : (env.popOnce t.req t.now s.replay).1 = .ok ()) :
    Piece env o s t { s with replay := (env.popOnce t.req t.now s.replay).2 } (t.goto .conditional)
  | replayed {e : PopError} (hp : t.phase = .replay)
    (hpop : (env.popOnce t.req t.now s.replay).1 = .error e) : Piece env o s t s t.deny
  | notModified (hp : t.phase = .conditional) (hm : t.req.revalidates = true) :
    Piece env o s t s
      (t.goto (.done (toHttp (Edge.notModified t.req.cid s.edge.cache t.now))))
  | modified (hp : t.phase = .conditional) (hm : t.req.revalidates = false) :
    Piece env o s t s (t.goto .tombstone)
  | fresh (hp : t.phase = .tombstone) (hf : s.edge.cache.containsFresh t.req.cid t.now = true) :
    Piece env o s t s (t.goto .budget)
  | negative (hp : t.phase = .tombstone)
    (hf : s.edge.cache.containsFresh t.req.cid t.now = false)
    (hn : (s.edge.cache.isNegative t.req.cid t.now).1 = true) :
    Piece env o s t (s.setCache (s.edge.cache.isNegative t.req.cid t.now).2)
      (t.goto (.done t.absent))
  | notNegative (hp : t.phase = .tombstone)
    (hf : s.edge.cache.containsFresh t.req.cid t.now = false)
    (hn : (s.edge.cache.isNegative t.req.cid t.now).1 = false) :
    Piece env o s t (s.setCache (s.edge.cache.isNegative t.req.cid t.now).2) (t.goto .budget)
  | budget (hp : t.phase = .budget) : Piece env o s t s (t.readBudget env s)
  | hit {max : Nat} {b : Bytes} (hp : t.phase = .lookup max)
    (hget : (s.edge.cache.get t.req.cid t.now).1 = some b) :
    Piece env o s t (s.setCache (s.edge.cache.get t.req.cid t.now).2) (t.goto (.shape b true))
  | miss {max : Nat} (hp : t.phase = .lookup max)
    (hget : (s.edge.cache.get t.req.cid t.now).1 = none) :
    Piece env o s t (s.setCache (s.edge.cache.get t.req.cid t.now).2) (t.goto (.flight max))
  | flight {max : Nat} (hp : t.phase = .flight max) :
    Piece env o s t (s.inflightLock t.req.cid).2
      (t.goto (.wait (s.inflightLock t.req.cid).1 max))
  | acquire {l max : Nat} (hp : t.phase = .wait l max) (hfree : (s.flights l).locked = false) :
    Piece env o s t (s.lockFlight l) (t.goto (.recheck l max))
  | rehit {l max : Nat} {b : Bytes} (hp : t.phase = .recheck l max)
    (hget : (s.edge.cache.get t.req.cid t.now).1 = some b) :
    Piece env o s t (s.setCache (s.edge.cache.get t.req.cid t.now).2)
      (t.goto (.unlock l (.bytes b true)))
  | renegative {l max : Nat} (hp : t.phase = .recheck l max)
    (hget : (s.edge.cache.get t.req.cid t.now).1 = none)
    (hn : ((s.edge.cache.get t.req.cid t.now).2.isNegative t.req.cid t.now).1 = true) :
    Piece env o s t
      (s.setCache ((s.edge.cache.get t.req.cid t.now).2.isNegative t.req.cid t.now).2)
      (t.goto (.unlock l (.reply t.absent)))
  | remiss {l max : Nat} (hp : t.phase = .recheck l max)
    (hget : (s.edge.cache.get t.req.cid t.now).1 = none)
    (hn : ((s.edge.cache.get t.req.cid t.now).2.isNegative t.req.cid t.now).1 = false) :
    Piece env o s t
      (s.setCache ((s.edge.cache.get t.req.cid t.now).2.isNegative t.req.cid t.now).2)
      (t.goto (.call l max))
  | call {l max : Nat} (hp : t.phase = .call l max) :
    Piece env o s t { s with originCalls := s.originCalls ++ [t.req.cid] }
      (t.goto (.fetching l max))
  | tooLarge {l max : Nat} {b : Bytes} (hp : t.phase = .fetched l max (some b))
    (hlen : b.length > max) :
    Piece env o s t s
      (t.goto (.unlock l (.reply (textResponse 413 "object exceeds edge size limit"))))
  | stored {l max : Nat} {b : Bytes} (hp : t.phase = .fetched l max (some b))
    (hlen : b.length ≤ max) :
    Piece env o s t (s.setCache (s.edge.cache.insert o.entries t.req.cid b t.now).2)
      (t.goto (.unlock l (.bytes b false)))
  | absent {l max : Nat} (hp : t.phase = .fetched l max none) :
    Piece env o s t (s.setCache (s.edge.cache.noteAbsent o.tombstones t.req.cid t.now))
      (t.goto (.unlock l (.reply t.absent)))
  | unlock {l : Nat} {found : Found} (hp : t.phase = .unlock l found) :
    Piece env o s t (s.unlockFlight l) (t.goto (.unref l found))
  | unrefBytes {l : Nat} {b : Bytes} {hit : Bool} (hp : t.phase = .unref l (.bytes b hit)) :
    Piece env o s t (s.dropRef l) (t.goto (.shape b hit))
  | unrefReply {l : Nat} {resp : HttpResponse} (hp : t.phase = .unref l (.reply resp)) :
    Piece env o s t (s.dropRef l) (t.goto (.done resp))
  | shape {b : Bytes} {hit : Bool} (hp : t.phase = .shape b hit) :
    Piece env o s t s (t.goto (.done (t.respond s b hit)))

variable {env : ServerEnv} {o : Orders} {s s' : ServerState} {t t' : Task}

section

variable (o)

theorem piece_decideGrant (hp : t.phase = .access) : Piece env o s t s (t.decideGrant env s) := by
  unfold decideGrant
  cases hg : env.grantOf s.edge.publicSet t.req t.now with
  | denied => exact .denied hp hg
  | publicGrant => exact .granted hp hg (.inl rfl)
  | presigned => exact .granted hp hg (.inr rfl)
  | popAndCap => exact .popAndCap hp hg

theorem piece_checkReplay (hp : t.phase = .replay) :
    Piece env o s t (t.checkReplay env s).1 (t.checkReplay env s).2 := by
  unfold checkReplay
  cases hpop : (env.popOnce t.req t.now s.replay).1 with
  | ok u =>
    simp only [hpop]
    exact .letThrough hp hpop
  | error e =>
    have hguard : (env.popOnce t.req t.now s.replay).2 = s.replay := verifyPopOnce_error hpop
    simp only [hpop, hguard]
    exact .replayed hp hpop

theorem piece_checkConditional (hp : t.phase = .conditional) :
    Piece env o s t s (t.checkConditional s) := by
  unfold checkConditional
  split
  · next hm => exact .notModified hp hm
  · next hm => exact .modified hp (Bool.eq_false_iff.2 hm)

theorem piece_checkTombstone (hp : t.phase = .tombstone) :
    Piece env o s t (t.checkTombstone s).1 (t.checkTombstone s).2 := by
  unfold checkTombstone
  cases hf : s.edge.cache.containsFresh t.req.cid t.now with
  | true => exact .fresh hp hf
  | false =>
    cases hn : (s.edge.cache.isNegative t.req.cid t.now).1 with
    | true =>
      simp only [Bool.false_eq_true, if_false, if_true, hn]
      exact .negative hp hf hn
    | false =>
      simp only [Bool.false_eq_true, if_false, hn]
      exact .notNegative hp hf hn

theorem piece_lookup {max : Nat} (hp : t.phase = .lookup max) :
    Piece env o s t (t.lookup s max).1 (t.lookup s max).2 := by
  unfold lookup
  cases hget : (s.edge.cache.get t.req.cid t.now).1 with
  | some b =>
    simp only [hget]
    exact .hit hp hget
  | none =>
    simp only [hget]
    exact .miss hp hget

theorem piece_recheck {l max : Nat} (hp : t.phase = .recheck l max) :
    Piece env o s t (t.recheck s l max).1 (t.recheck s l max).2 := by
  unfold recheck
  cases hget : (s.edge.cache.get t.req.cid t.now).1 with
  | some b =>
    simp only [hget]
    exact .rehit hp hget
  | none =>
    simp only [hget]
    cases hn : ((s.edge.cache.get t.req.cid t.now).2.isNegative t.req.cid t.now).1 with
    | true =>
      simp only [if_true]
      exact .renegative hp hget hn
    | false =>
      simp only [Bool.false_eq_true, if_false]
      exact .remiss hp hget hn

theorem piece_store {l max : Nat} {res : Option Bytes} (hp : t.phase = .fetched l max res) :
    Piece env o s t (t.store o s l max res).1 (t.store o s l max res).2 := by
  cases res with
  | none => exact .absent hp
  | some b =>
    by_cases hlen : b.length > max
    · simp only [store, if_pos hlen]
      exact .tooLarge hp hlen
    · simp only [store, if_neg hlen]
      exact .stored hp (Nat.not_lt.1 hlen)

end

theorem Piece.of_eq {r : ServerState × Task} (hr : Piece env o s t r.1 r.2)
    (h : some r = some (s', t')) : Piece env o s t s' t' := by
  cases h
  exact hr

/-- `advance` does what `Piece` says. -/
theorem piece_of_advance (h : t.advance env o s = some (s', t')) : Piece env o s t s' t' := by
  unfold advance at h
  split at h
  · next hp => cases h; exact piece_decideGrant o hp
  · next hp => exact (piece_checkReplay o hp).of_eq h
  · next hp => cases h; exact piece_checkConditional o hp
  · next hp => exact (piece_checkTombstone o hp).of_eq h
  · next hp => cases h; exact .budget hp
  · next hp => exact (piece_lookup o hp).of_eq h
  · next hp => cases h; exact .flight hp
  · next hp =>
    split at h
    · cases h
    · next hfree => cases h; exact .acquire hp (Bool.eq_false_iff.2 hfree)
  · next hp => exact (piece_recheck o hp).of_eq h
  · next hp => cases h; exact .call hp
  · cases h
  · next hp => exact (piece_store o hp).of_eq h
  · next hp => cases h; exact .unlock hp
  · next l found hp =>
    cases found with
    | bytes b hit => cases h; exact .unrefBytes hp
    | reply resp => cases h; exact .unrefReply hp
  · next hp => cases h; exact .shape hp
  · cases h
  · cases h

theorem done_of_status {n : Nat} (h : t.status = some n) :
    ∃ resp, t.phase = .done resp ∧ resp.status = n := by
  unfold status at h
  split at h
  · next resp hp => cases h; exact ⟨resp, hp, rfl⟩
  · cases h

/-- A request keeps what it asked for. -/
theorem Piece.req (h : Piece env o s t s' t') : t'.req = t.req := by
  cases h <;> rfl

/-- Each piece takes the request further. -/
theorem Piece.rank_lt (h : Piece env o s t s' t') : t'.phase.rank < t.phase.rank := by
  cases h <;> simp [*, Phase.rank, readBudget]

/-- What a piece does to the cache: reads, and what a fetch came to. The public
set stays. -/
theorem Piece.edge_cases (h : Piece env o s t s' t') :
    s'.edge.publicSet = s.edge.publicSet ∧
    (s'.edge.cache = s.edge.cache ∨
      (t.phase = .tombstone ∧ s'.edge.cache = (s.edge.cache.isNegative t.req.cid t.now).2) ∨
      s'.edge.cache = (s.edge.cache.get t.req.cid t.now).2 ∨
      ((∃ l max, t.phase = .recheck l max) ∧
        s'.edge.cache = ((s.edge.cache.get t.req.cid t.now).2.isNegative t.req.cid t.now).2) ∨
      (∃ l max b, t.phase = .fetched l max (some b) ∧ b.length ≤ max ∧
        s'.edge.cache = (s.edge.cache.insert o.entries t.req.cid b t.now).2) ∨
      ∃ l max, t.phase = .fetched l max none ∧
        s'.edge.cache = s.edge.cache.noteAbsent o.tombstones t.req.cid t.now) := by
  cases h with
  | negative hp | notNegative hp => exact ⟨rfl, .inr (.inl ⟨hp, rfl⟩)⟩
  | hit | miss | rehit => exact ⟨rfl, .inr (.inr (.inl rfl))⟩
  | renegative hp | remiss hp => exact ⟨rfl, .inr (.inr (.inr (.inl ⟨⟨_, _, hp⟩, rfl⟩)))⟩
  | stored hp hlen => exact ⟨rfl, .inr (.inr (.inr (.inr (.inl ⟨_, _, _, hp, hlen, rfl⟩))))⟩
  | absent hp => exact ⟨rfl, .inr (.inr (.inr (.inr (.inr ⟨_, _, hp, rfl⟩))))⟩
  | flight => rw [ServerState.edge_inflightLock]; exact ⟨rfl, .inl rfl⟩
  | _ => exact ⟨rfl, .inl rfl⟩

/-- A request that is dropped gives up its lock and no more. -/
theorem cancel_cases (h : t.cancel s = some (s', t')) :
    t' = t.goto .cancelled ∧
      (s' = s ∨ (∃ l, s' = s.dropRef l) ∨ ∃ l, s' = (s.unlockFlight l).dropRef l) := by
  unfold cancel at h
  split at h
  · next l _ _ => cases h; exact ⟨rfl, .inr (.inl ⟨l, rfl⟩)⟩
  · next l _ _ => cases h; exact ⟨rfl, .inr (.inr ⟨l, rfl⟩)⟩
  · next l _ _ => cases h; exact ⟨rfl, .inr (.inr ⟨l, rfl⟩)⟩
  · next l _ _ => cases h; exact ⟨rfl, .inr (.inr ⟨l, rfl⟩)⟩
  · next l _ _ _ => cases h; exact ⟨rfl, .inr (.inr ⟨l, rfl⟩)⟩
  · cases h
  · cases h
  · cases h
  · cases h
  · cases h; exact ⟨rfl, .inl rfl⟩

theorem edge_cancel (h : t.cancel s = some (s', t')) : s'.edge = s.edge := by
  obtain ⟨-, rfl | ⟨l, rfl⟩ | ⟨l, rfl⟩⟩ := cancel_cases h
  · rfl
  · rfl
  · rfl

theorem answered_eq_some {res : Option Bytes} (h : t.answered res = some t') :
    ∃ l max, t.phase = .fetching l max ∧ t' = t.goto (.fetched l max res) := by
  unfold answered at h
  split at h
  · next l max hp => cases h; exact ⟨l, max, hp, rfl⟩
  · cases h

end Task

/-! ## The response a request carries -/

/-- The response a request already carries, if any, has the property. -/
def Found.Replies (P : HttpResponse → Prop) : Found → Prop
  | .bytes _ _ => True
  | .reply resp => P resp

@[inherit_doc Found.Replies]
def Phase.Replies (P : HttpResponse → Prop) : Phase → Prop
  | .unlock _ found | .unref _ found => found.Replies P
  | .done resp => P resp
  | _ => True

/-- Past the access checks: the request was granted, and is not answered 403. -/
structure Task.Admitted (t : Task) : Prop where
  grant : t.grant ≠ .denied
  access : t.phase ≠ .access
  replay : t.phase ≠ .replay
  replies : t.phase.Replies fun resp => resp.status ≠ 403

theorem Grant.access_ne_denied {g : Grant} (h : g ≠ .denied) : g.access ≠ .denied := by
  cases g with
  | denied => exact absurd rfl h
  | publicGrant => nofun
  | presigned => nofun
  | popAndCap => nofun

namespace Task

variable {env : ServerEnv} {o : Orders} {s s' : ServerState} {t t' : Task}

theorem respond_status (s : ServerState) (t : Task) (b : Bytes) (hit : Bool) :
    (t.respond s b hit).status = (Edge.serve t.req.cid b ((t.req.header "range").map String.ofList)
      t.grant.access s.edge.cache t.now hit).status := by
  unfold respond
  simp only
  split
  · rfl
  · rfl

theorem status_respond (ht : t.grant ≠ .denied) (b : Bytes) (hit : Bool) :
    (t.respond s b hit).status ≠ 403 := by
  rw [respond_status]
  obtain ⟨-, h⟩ | ⟨r, -, -, h⟩ | ⟨-, h⟩ := Edge.serve_cases t.req.cid b
    ((t.req.header "range").map String.ofList) s.edge.cache t.now hit (Grant.access_ne_denied ht)
  · rw [h]; exact show (200 : Nat) ≠ 403 by decide
  · rw [h]; exact show (206 : Nat) ≠ 403 by decide
  · rw [h]; exact show (416 : Nat) ≠ 403 by decide

/-- A granted request stays granted, whatever the cache holds. -/
theorem Admitted.piece (ht : t.Admitted) (h : Piece env o s t s' t') : t'.Admitted := by
  have hto : ∀ p : Phase, p ≠ .access → p ≠ .replay →
      (p.Replies fun resp => resp.status ≠ 403) → (t.goto p).Admitted :=
    fun p h₁ h₂ h₃ => ⟨ht.grant, h₁, h₂, h₃⟩
  have habsent : t.absent.status ≠ 403 := show (404 : Nat) ≠ 403 by decide
  have hrep := ht.replies
  cases h with
  | denied hp | granted hp | popAndCap hp => exact absurd hp ht.access
  | letThrough hp | replayed hp => exact absurd hp ht.replay
  | notModified => exact hto _ nofun nofun (show (304 : Nat) ≠ 403 by decide)
  | negative | renegative | absent => exact hto _ nofun nofun habsent
  | tooLarge => exact hto _ nofun nofun (show (413 : Nat) ≠ 403 by decide)
  | unlock hp | unrefReply hp => rw [hp] at hrep; exact hto _ nofun nofun hrep
  | shape => exact hto _ nofun nofun (status_respond ht.grant _ _)
  | _ => exact hto _ nofun nofun trivial

theorem Admitted.answered (ht : t.Admitted) {res : Option Bytes} (h : t.answered res = some t') :
    t'.Admitted := by
  obtain ⟨l, max, -, rfl⟩ := answered_eq_some h
  exact ⟨ht.grant, nofun, nofun, trivial⟩

/-! ## A request on its own -/

variable {origin : String → Option Bytes}

theorem finish_done {resp : HttpResponse} (n : Nat) (hp : t.phase = .done resp) :
    t.finish env o origin n s = some (resp, s) := by
  cases n with
  | zero => simp [finish, hp]
  | succ n => simp [finish, hp]

theorem finish_answered (n : Nat) (h : t.answered (origin t.req.cid) = some t') :
    t.finish env o origin (n + 1) s = t'.finish env o origin n s := by
  obtain ⟨l, max, hp, -⟩ := answered_eq_some h
  conv_lhs => unfold finish
  simp only [hp, h]

theorem finish_advance (n : Nat) (hans : t.answered (origin t.req.cid) = none)
    (h : t.advance env o s = some (s', t')) :
    t.finish env o origin (n + 1) s = t'.finish env o origin n s' := by
  conv_lhs => unfold finish
  split
  · next hp => simp [Task.advance, hp] at h
  · simp only [hans, h, Option.bind_some]

/-- A request that gets an answer is done, is answered by the origin, or takes
a piece. -/
theorem finish_eq_some {n : Nat} {resp : HttpResponse} {r : ServerState}
    (h : t.finish env o origin n s = some (resp, r)) :
    (t.phase = .done resp ∧ r = s) ∨
    ∃ m t', n = m + 1 ∧
      ((t.answered (origin t.req.cid) = some t' ∧ t'.finish env o origin m s = some (resp, r)) ∨
        ∃ s', t.advance env o s = some (s', t') ∧ t'.finish env o origin m s' = some (resp, r)) := by
  unfold finish at h
  split at h
  · next hp => cases h; exact .inl ⟨hp, rfl⟩
  · cases n with
    | zero => cases h
    | succ m =>
      simp only at h
      cases ha : t.answered (origin t.req.cid) with
      | some t' => rw [ha] at h; exact .inr ⟨m, t', rfl, .inl ⟨rfl, h⟩⟩
      | none =>
        rw [ha] at h
        obtain ⟨⟨s', t'⟩, h₁, h₂⟩ := Option.bind_eq_some_iff.1 h
        exact .inr ⟨m, t', rfl, .inr ⟨s', h₁, h₂⟩⟩

/-- What a request's own pieces keep, its answer has. -/
theorem finish_invariant {I : ServerState → Task → Prop}
    (hpiece : ∀ s t s' t', I s t → Piece env o s t s' t' → I s' t')
    (hans : ∀ s t t' res, I s t → t.answered res = some t' → I s t') :
    ∀ (n : Nat) {s : ServerState} {t : Task} {resp : HttpResponse} {r : ServerState}, I s t →
      t.finish env o origin n s = some (resp, r) → ∃ t', I r t' ∧ t'.phase = .done resp := by
  intro n
  induction n with
  | zero =>
    intro s t resp r hI h
    obtain ⟨hp, rfl⟩ | ⟨m, t', hm, -⟩ := finish_eq_some h
    · exact ⟨t, hI, hp⟩
    · cases hm
  | succ n ih =>
    intro s t resp r hI h
    obtain ⟨hp, rfl⟩ | ⟨m, t', hm, ⟨ha, h'⟩ | ⟨s', ha, h'⟩⟩ := finish_eq_some h
    · exact ⟨t, hI, hp⟩
    · cases hm; exact ih (hans _ _ _ _ hI ha) h'
    · cases hm; exact ih (hpiece _ _ _ _ hI (piece_of_advance ha)) h'

theorem Admitted.finish {n : Nat} {resp : HttpResponse} {r : ServerState} (ht : t.Admitted)
    (h : t.finish env o origin n s = some (resp, r)) : resp.status ≠ 403 := by
  obtain ⟨t', ht', hp⟩ := finish_invariant (I := fun _ t => t.Admitted)
    (fun _ _ _ _ ht h => ht.piece h) (fun _ _ _ _ ht h => ht.answered h) n ht h
  have := ht'.replies
  rwa [hp] at this

/-! ### It is answered, unless another request holds its lock -/

/-- Nobody holds the lock the request waits for or is about to get. -/
structure Free (s : ServerState) (t : Task) : Prop where
  wait : ∀ l max, t.phase = .wait l max → (s.flights l).locked = false
  before : 8 < t.phase.rank → ∀ l, s.inflight.lookup t.req.cid = some l →
    (s.flights l).locked = false
  live : t.phase ≠ .cancelled

theorem Free.piece (ht : t.Free s) (h : Piece env o s t s' t') : t'.Free s' := by
  have hearly : 8 < t'.phase.rank → s'.inflight = s.inflight → s'.flights = s.flights →
      t'.Free s' := by
    intro hr hi hf
    refine ⟨fun l max hw => ?_, fun _ l hl => ?_, fun hc => ?_⟩
    · rw [hw] at hr; exact absurd hr (Nat.lt_irrefl 8)
    · rw [hi, h.req] at hl
      rw [hf]
      exact ht.before (hr.trans h.rank_lt) l hl
    · rw [hc] at hr; exact absurd hr (by decide)
  have hlate : t'.phase.rank < 8 → t'.phase ≠ .cancelled → t'.Free s' := by
    intro hr hc
    refine ⟨fun l max hw => ?_, fun hr' => absurd hr' (Nat.not_lt.2 hr.le), hc⟩
    rw [hw] at hr
    exact absurd hr (Nat.lt_irrefl 8)
  cases h with
  | granted | popAndCap | letThrough | modified | fresh | notNegative | budget | miss =>
    exact hearly (by simp [Phase.rank, readBudget]) rfl rfl
  | flight hp =>
    refine ⟨fun l max hw => ?_, fun hr => absurd hr (Nat.lt_irrefl 8), nofun⟩
    cases hw
    have hr : 8 < t.phase.rank := by simp [hp, Phase.rank]
    exact ServerState.locked_inflightLock s (ht.before hr)
  | _ => exact hlate (by simp [Phase.rank]) nofun

/-- A request nobody holds up is done, waits for the origin, or takes a piece. -/
theorem Free.advance_isSome (env : ServerEnv) (o : Orders) (ht : t.Free s) :
    (∃ resp, t.phase = .done resp) ∨ (∃ l max, t.phase = .fetching l max) ∨
      (t.advance env o s).isSome = true := by
  unfold Task.advance
  split
  · exact .inr (.inr rfl)
  · exact .inr (.inr rfl)
  · exact .inr (.inr rfl)
  · exact .inr (.inr rfl)
  · exact .inr (.inr rfl)
  · exact .inr (.inr rfl)
  · exact .inr (.inr rfl)
  · next l max hp => simp [ht.wait l max hp]
  · exact .inr (.inr rfl)
  · exact .inr (.inr rfl)
  · next l max hp => exact .inr (.inl ⟨l, max, hp⟩)
  · exact .inr (.inr rfl)
  · exact .inr (.inr rfl)
  · exact .inr (.inr rfl)
  · exact .inr (.inr rfl)
  · next resp hp => exact .inl ⟨resp, hp⟩
  · next hp => exact absurd hp ht.live

theorem Free.finish_isSome : ∀ (n : Nat) {s : ServerState} {t : Task}, t.phase.rank ≤ n →
    t.Free s → (t.finish env o origin n s).isSome = true := by
  intro n
  induction n with
  | zero =>
    intro s t hn ht
    obtain ⟨resp, hp⟩ | ⟨l, max, hp⟩ | hadv := ht.advance_isSome env o
    · rw [finish_done 0 hp]; rfl
    · simp [hp, Phase.rank] at hn
    · obtain ⟨⟨s', t'⟩, hadv⟩ := Option.isSome_iff_exists.1 hadv
      have := (piece_of_advance hadv).rank_lt
      omega
  | succ n ih =>
    intro s t hn ht
    obtain ⟨resp, hp⟩ | ⟨l, max, hp⟩ | hadv := ht.advance_isSome env o
    · rw [finish_done _ hp]; rfl
    · have ha : t.answered (origin t.req.cid) =
          some (t.goto (.fetched l max (origin t.req.cid))) := by
        simp [answered, hp]
      rw [finish_answered n ha]
      rw [hp] at hn
      exact ih (Nat.le_of_succ_le_succ hn) ⟨nofun, fun hr => by simp [Phase.rank] at hr, nofun⟩
    · obtain ⟨⟨s', t'⟩, hadv⟩ := Option.isSome_iff_exists.1 hadv
      have hpiece := piece_of_advance hadv
      have hans : t.answered (origin t.req.cid) = none := by
        cases ha : t.answered (origin t.req.cid) with
        | none => rfl
        | some t₁ =>
          obtain ⟨l, max, hp, -⟩ := answered_eq_some ha
          simp [Task.advance, hp] at hadv
      rw [finish_advance n hans hadv]
      have := hpiece.rank_lt
      exact ih (by omega) (ht.piece hpiece)

end Task

/-- On its own, a request whose lock nobody holds is answered. -/
theorem ServerEnv.serveCid_isSome (env : ServerEnv) (o : Orders)
    (origin : String → Option Bytes) (s : ServerState) (req : HttpReq) (now : Nat)
    (hfree : ∀ l, s.inflight.lookup req.cid = some l → (s.flights l).locked = false) :
    (env.serveCid o origin s req now).isSome = true :=
  Task.Free.finish_isSome _ (Nat.le_refl _) ⟨nofun, fun _ => hfree, nofun⟩

/-! ## The machine -/

namespace Sys

open Machine

/-- What a step of the machine can do. -/
inductive Moves (env : ServerEnv) (y : Sys) : Label → Sys → Prop
  | arrive (req : HttpReq) (now : Nat) :
    Moves env y (.arrive req now) { y with tasks := y.tasks ++ [.arrive req now] }
  | piece {i : Nat} {o : Orders} {t t' : Task} {s' : ServerState} (hi : y.tasks[i]? = some t)
    (h : Task.Piece env o y.shared t s' t') : Moves env y (.step i o) ⟨s', y.tasks.set i t'⟩
  | answered {i l max : Nat} {t : Task} (res : Option Bytes) (hi : y.tasks[i]? = some t)
    (hp : t.phase = .fetching l max) :
    Moves env y (.answer i res) { y with tasks := y.tasks.set i (t.goto (.fetched l max res)) }
  | cancelled {i : Nat} {t t' : Task} {s' : ServerState} (hi : y.tasks[i]? = some t)
    (h : t.cancel y.shared = some (s', t')) : Moves env y (.cancel i) ⟨s', y.tasks.set i t'⟩
  | swept (o : Orders) (now : Nat) :
    Moves env y (.sweep o now)
      { y with shared := y.shared.setCache (y.shared.edge.cache.sweepExpired o.entries now).2 }
  | purged (cid : String) :
    Moves env y (.purge cid)
      { y with shared := y.shared.setCache (y.shared.edge.cache.purge cid).2 }

theorem moves_of_step {env : ServerEnv} {y y' : Sys} {l : Label} (h : step env y l = some y') :
    Moves env y l y' := by
  cases l with
  | arrive req now => cases h; exact .arrive req now
  | step i o =>
    obtain ⟨t, hi, h⟩ := Option.bind_eq_some_iff.1 h
    obtain ⟨⟨s', t'⟩, hadv, h⟩ := Option.map_eq_some_iff.1 h
    cases h
    exact .piece hi (Task.piece_of_advance hadv)
  | answer i res =>
    obtain ⟨t, hi, h⟩ := Option.bind_eq_some_iff.1 h
    obtain ⟨t', hans, h⟩ := Option.map_eq_some_iff.1 h
    obtain ⟨l, max, hp, rfl⟩ := Task.answered_eq_some hans
    cases h
    exact .answered res hi hp
  | cancel i =>
    obtain ⟨t, hi, h⟩ := Option.bind_eq_some_iff.1 h
    obtain ⟨⟨s', t'⟩, hc, h⟩ := Option.map_eq_some_iff.1 h
    cases h
    exact .cancelled hi hc
  | sweep o now => cases h; exact .swept o now
  | purge cid => cases h; exact .purged cid

/-! ### A request on its own is a run -/

variable {env : ServerEnv} {o : Orders} {origin : String → Option Bytes} {s s' r : ServerState}
  {t t' : Task} {resp : HttpResponse}

theorem step_last (ts : List Task) (h : t.advance env o s = some (s', t')) :
    step env ⟨s, ts ++ [t]⟩ (.step ts.length o) = some ⟨s', ts ++ [t']⟩ := by
  simp [step, h]

theorem answer_last (ts : List Task) {res : Option Bytes} (h : t.answered res = some t') :
    step env ⟨s, ts ++ [t]⟩ (.answer ts.length res) = some ⟨s, ts ++ [t']⟩ := by
  simp [step, h]

theorem run_of_finish (ts : List Task) : ∀ (n : Nat) {s : ServerState} {t : Task},
    t.finish env o origin n s = some (resp, r) →
    ∃ ls t', run (step env) ⟨s, ts ++ [t]⟩ ls = some ⟨r, ts ++ [t']⟩ ∧ t'.phase = .done resp := by
  intro n
  induction n with
  | zero =>
    intro s t h
    obtain ⟨hp, rfl⟩ | ⟨m, t', hm, -⟩ := Task.finish_eq_some h
    · exact ⟨[], t, rfl, hp⟩
    · cases hm
  | succ n ih =>
    intro s t h
    obtain ⟨hp, rfl⟩ | ⟨m, t', hm, ⟨ha, h'⟩ | ⟨s', ha, h'⟩⟩ := Task.finish_eq_some h
    · exact ⟨[], t, rfl, hp⟩
    · cases hm
      obtain ⟨ls, t₁, hrun, hp⟩ := ih h'
      exact ⟨_ :: ls, t₁, run_cons_eq_some.2 ⟨_, answer_last ts ha, hrun⟩, hp⟩
    · cases hm
      obtain ⟨ls, t₁, hrun, hp⟩ := ih h'
      exact ⟨_ :: ls, t₁, run_cons_eq_some.2 ⟨_, step_last ts ha, hrun⟩, hp⟩

/-- What `serveCid` computes, the machine can do: the request arrives and runs
to its answer with no other request's piece in between. -/
theorem run_of_serveCid (ts : List Task) {req : HttpReq} {now : Nat}
    (h : env.serveCid o origin s req now = some (resp, r)) :
    ∃ ls t', run (step env) ⟨s, ts⟩ (.arrive req now :: ls) = some ⟨r, ts ++ [t']⟩ ∧
      t'.phase = .done resp := by
  obtain ⟨ls, t', hrun, hp⟩ := run_of_finish ts _ h
  exact ⟨ls, t', run_cons_eq_some.2 ⟨_, rfl, hrun⟩, hp⟩

end Sys

end CeCdn
