/-
Herds: requests for one CID that start in the same second, on an edge that
neither holds nor has tombstoned it. What the cache knows of the CID changes by
what a fetch comes to only, and until a request calls the origin every request
that does not have the object is on its way there.
-/
import CeCdn.CacheFacts
import CeCdn.ReplayOnce
import CeCdn.SingleFlight

namespace CeCdn

open Lib Word Machine

/-! ## What the cache knows -/

namespace EdgeCache

/-- The cache answers for the object, with bytes or with a tombstone. -/
def knows (cid : String) (now : Nat) (c : EdgeCache) : Bool :=
  c.containsFresh cid now || (c.isNegative cid now).1

variable {cid : String} {now : Nat} {c : EdgeCache}

theorem knows_get : (c.get cid now).2.knows cid now = c.knows cid now := by
  have hfresh : (c.get cid now).2.containsFresh cid now = c.containsFresh cid now := by
    rcases get_cases cid now c with ⟨e, he, hn, hg⟩ | ⟨e, he, hn, hg⟩ | ⟨he, hg⟩
    · simp [hg, containsFresh, AList.lookup_insert, he]
    · simp [hg, containsFresh, dropEntry_snd, AList.lookup_erase, he, hn]
    · simp [hg, containsFresh]
  rw [knows, knows, hfresh, isNegative_fst, isNegative_fst, get_tombstones]

theorem knows_isNegative : (c.isNegative cid now).2.knows cid now = c.knows cid now := by
  have hfresh : (c.isNegative cid now).2.containsFresh cid now = c.containsFresh cid now := by
    obtain ⟨ts, n, h⟩ := isNegative_frame cid now c
    rw [h]
    rfl
  have hneg : ((c.isNegative cid now).2.isNegative cid now).1 = (c.isNegative cid now).1 := by
    cases ht : c.tombstones.lookup cid with
    | none => simp [isNegative, ht]
    | some t =>
      by_cases hnow : now ≤ t.expiresAt
      · simp [isNegative, ht, hnow]
      · simp [isNegative, ht, hnow, AList.lookup_erase]
  rw [knows, knows, hfresh, hneg]

theorem knows_insert (ord : IterOrder String CacheEntry) {b : Bytes} (hlen : b.length ≤ c.maxBytes)
    (hnow : now ≤ u64Max) : (c.insert ord cid b now).2.knows cid now = true := by
  have hexp : now ≤ if c.defaultTtlSecs = 0 then u64Max else satAdd now c.defaultTtlSecs := by
    split
    · exact hnow
    · exact le_min (Nat.le_add_right _ _) hnow
  have hget : (get cid now (insertWithTtl ord cid b c.defaultTtlSecs now c).2).1 = some b :=
    get_insertWithTtl hlen hexp
  rw [knows, insert, ← get_isSome, hget]
  rfl

theorem knows_noteAbsent (ord : IterOrder String Tombstone) (httl : c.negativeTtlSecs ≠ 0)
    (hnow : now ≤ u64Max) : (c.noteAbsent ord cid now).knows cid now = true := by
  have hexp : now ≤ satAdd now c.negativeTtlSecs := le_min (Nat.le_add_right _ _) hnow
  rw [knows, isNegative_fst]
  simp [noteAbsent, httl, AList.lookup_insert, hexp]

/-- Where the cache knows nothing, neither look finds anything. -/
theorem unknown (h : c.knows cid now = false) :
    c.containsFresh cid now = false ∧ (c.get cid now).1 = none ∧ (c.isNegative cid now).1 = false := by
  obtain ⟨hfresh, hneg⟩ := Bool.or_eq_false_iff.1 h
  refine ⟨hfresh, ?_, hneg⟩
  rw [← Option.not_isSome_iff_eq_none, get_isSome, hfresh]
  exact Bool.false_ne_true

end EdgeCache

/-! ## What one piece does -/

/-- The size limit `serve_cid` reads. -/
def ServerEnv.objectLimit (env : ServerEnv) (c : EdgeCache) : Nat :=
  if env.maxObjectBytes = 0 then c.maxBytes else env.maxObjectBytes

/-- The size limit a request has read. -/
def Phase.limit : Phase → Option Nat
  | .lookup max | .flight max | .wait _ max | .recheck _ max | .call _ max | .fetching _ max
  | .fetched _ max _ => some max
  | _ => none

/-- On the way through the fetch, under the lock. -/
def Phase.Calling (p : Phase) : Prop := 4 ≤ p.rank ∧ p.rank ≤ 6

theorem Phase.holds_of_calling {p : Phase} (h : p.Calling) : ∃ l, p.holds = some l := by
  unfold Calling at h
  cases p <;> simp [Phase.rank, holds] at h ⊢

/-- The request does not have the object, and has yet to call the origin. -/
def Task.ahead (t : Task) : Bool := !t.req.revalidates && decide (5 < t.phase.rank)

namespace Task

variable {env : ServerEnv} {o : Orders} {s s' : ServerState} {t t' : Task}

theorem Piece.now (h : Piece env o s t s' t') : t'.now = t.now := by
  cases h <;> rfl

theorem Piece.config (h : Piece env o s t s' t') :
    s'.edge.cache.config = s.edge.cache.config := by
  obtain ⟨-, h | ⟨-, h⟩ | h | ⟨-, h⟩ | ⟨_, _, _, -, -, h⟩ | ⟨_, _, -, h⟩⟩ := h.edge_cases
  · rw [h]
  · simp [h]
  · simp [h]
  · simp [h]
  · simp [h, EdgeCache.insert]
  · simp [h]

/-- Only what a fetch came to changes what the cache knows. -/
theorem Piece.knows (h : Piece env o s t s' t') (hp : ∀ l max res, t.phase ≠ .fetched l max res) :
    s'.edge.cache.knows t.req.cid t.now = s.edge.cache.knows t.req.cid t.now := by
  obtain ⟨-, h | ⟨-, h⟩ | h | ⟨-, h⟩ | ⟨_, _, _, hf, -⟩ | ⟨_, _, hf, -⟩⟩ := h.edge_cases
  · rw [h]
  · rw [h, EdgeCache.knows_isNegative]
  · rw [h, EdgeCache.knows_get]
  · rw [h, EdgeCache.knows_isNegative, EdgeCache.knows_get]
  · exact absurd hf (hp _ _ _)
  · exact absurd hf (hp _ _ _)

/-- Only a call calls the origin. -/
theorem Piece.calls_cases (h : Piece env o s t s' t') :
    (∃ l max, t.phase = .call l max ∧ t'.phase = .fetching l max ∧
      s'.originCalls = s.originCalls ++ [t.req.cid]) ∨
    ((∀ l max, t.phase ≠ .call l max) ∧ s'.originCalls = s.originCalls) := by
  have hflight : (s.inflightLock t.req.cid).2.originCalls = s.originCalls := by
    unfold ServerState.inflightLock
    split
    · rfl
    · rfl
  cases h with
  | call hp => exact .inl ⟨_, _, hp, rfl, rfl⟩
  | flight hp => exact .inr ⟨fun l max hc => (nomatch hp.symm.trans hc), hflight⟩
  | denied hp | granted hp | popAndCap hp | letThrough hp | replayed hp | notModified hp
  | modified hp | fresh hp | negative hp | notNegative hp | budget hp | hit hp | miss hp
  | acquire hp | rehit hp | renegative hp | remiss hp | tooLarge hp | stored hp | absent hp
  | unlock hp | unrefBytes hp | unrefReply hp | shape hp =>
    exact .inr ⟨fun l max hc => (nomatch hp.symm.trans hc), rfl⟩

/-- What a fetch came to is refused as too large, stored, or remembered as
absent. -/
theorem Piece.fetched_cases {l max : Nat} {res : Option Bytes} (h : Piece env o s t s' t')
    (hp : t.phase = .fetched l max res) :
    t'.phase.rank = 3 ∧
    ((∃ b, res = some b ∧ max < b.length ∧ s' = s) ∨
      (∃ b, res = some b ∧ b.length ≤ max ∧
        s' = s.setCache (s.edge.cache.insert o.entries t.req.cid b t.now).2) ∨
      (res = none ∧ s' = s.setCache (s.edge.cache.noteAbsent o.tombstones t.req.cid t.now))) := by
  cases h with
  | tooLarge hp' hlen => cases hp.symm.trans hp'; exact ⟨rfl, .inl ⟨_, rfl, hlen, rfl⟩⟩
  | stored hp' hlen => cases hp.symm.trans hp'; exact ⟨rfl, .inr (.inl ⟨_, rfl, hlen, rfl⟩)⟩
  | absent hp' => cases hp.symm.trans hp'; exact ⟨rfl, .inr (.inr ⟨rfl, rfl⟩)⟩
  | denied hp' | granted hp' | popAndCap hp' | letThrough hp' | replayed hp' | notModified hp'
  | modified hp' | fresh hp' | negative hp' | notNegative hp' | budget hp' | hit hp' | miss hp'
  | flight hp' | acquire hp' | rehit hp' | renegative hp' | remiss hp' | call hp' | unlock hp'
  | unrefBytes hp' | unrefReply hp' | shape hp' => cases hp.symm.trans hp'

/-- Only a request that looked again and found nothing starts to call. -/
theorem Piece.calling (h : Piece env o s t s' t') (hc : t'.phase.Calling) :
    t.phase.Calling ∨
      ((∃ l max, t.phase = .recheck l max) ∧ s.edge.cache.knows t.req.cid t.now = false) := by
  unfold Phase.Calling at hc ⊢
  cases h with
  | remiss hp hget hn =>
    have hfresh : s.edge.cache.containsFresh t.req.cid t.now = false := by
      rw [← EdgeCache.get_isSome, hget]
      rfl
    rw [EdgeCache.isNegative_fst, EdgeCache.get_tombstones, ← EdgeCache.isNegative_fst] at hn
    exact .inr ⟨⟨_, _, hp⟩, by rw [EdgeCache.knows, hfresh, hn]; rfl⟩
  | call hp => exact .inl (by simp [hp, Phase.rank])
  | _ => simp [Phase.rank, readBudget] at hc

/-- A request keeps the size limit it read. -/
theorem Piece.limit (h : Piece env o s t s' t') {max : Nat} (hm : t'.phase.limit = some max) :
    t.phase.limit = some max ∨ max = env.objectLimit s.edge.cache := by
  cases h with
  | budget hp => exact .inr (Option.some.inj hm).symm
  | miss hp | flight hp | acquire hp | remiss hp | call hp => rw [hp]; exact .inl hm
  | _ => cases hm

/-- A client that has the object gets no further than the 304. -/
theorem Piece.early (h : Piece env o s t s' t') (hr : t.req.revalidates = true)
    (ht : 12 < t.phase.rank) : t'.phase.rank = 0 ∨ 12 < t'.phase.rank := by
  cases h with
  | modified hp hm => rw [hr] at hm; cases hm
  | denied | replayed | notModified => exact .inl rfl
  | granted | popAndCap | letThrough => exact .inr (by simp [Phase.rank])
  | _ => simp [*, Phase.rank] at ht

/-- Where the cache knows nothing, a request that is let through and does not
have the object gets as far as the origin. -/
theorem Piece.ahead (h : Piece env o s t s' t') (hr : t.req.revalidates = false)
    (ht : 5 < t.phase.rank)
    (haccess : t.phase = .access → env.grantOf s.edge.publicSet t.req t.now ≠ .denied)
    (hreplay : t.phase = .replay → (env.popOnce t.req t.now s.replay).1 = .ok ())
    (hcold : s.edge.cache.knows t.req.cid t.now = false) :
    5 < t'.phase.rank ∨ ∃ l max, t.phase = .call l max := by
  obtain ⟨hfresh, hmiss, hneg⟩ := EdgeCache.unknown hcold
  have hneg' : ((s.edge.cache.get t.req.cid t.now).2.isNegative t.req.cid t.now).1 = false := by
    rw [EdgeCache.isNegative_fst, EdgeCache.get_tombstones, ← EdgeCache.isNegative_fst]
    exact hneg
  cases h with
  | call hp => exact .inr ⟨_, _, hp⟩
  | denied hp hg => exact absurd hg (haccess hp)
  | replayed hp hpop => cases hpop.symm.trans (hreplay hp)
  | notModified hp hm => cases hm.symm.trans hr
  | fresh hp hf => cases hf.symm.trans hfresh
  | negative hp hf hn => cases hn.symm.trans hneg
  | hit hp hget | rehit hp hget => cases hget.symm.trans hmiss
  | renegative hp hget hn => cases hn.symm.trans hneg'
  | tooLarge hp | stored hp | absent hp | unlock hp | unrefBytes hp | unrefReply hp | shape hp =>
    simp [hp, Phase.rank] at ht
  | _ => exact .inl (by simp [Phase.rank, readBudget])

end Task

/-! ## A herd -/

/-- What the guard remembers of a request that comes in by proof of possession. -/
def ServerEnv.popKey (env : ServerEnv) (publicSet : Finset String) (now : Nat) (req : HttpReq) :
    Option ReplayKey :=
  if env.grantOf publicSet req now = .popAndCap then
    (proofOf req.proofHeader).map fun proof => req.requesterId.append proof.nonce
  else none

/-- Requests for one CID that all read the clock second `now`, on an edge that
neither holds nor has tombstoned it. -/
structure Herd (env : ServerEnv) (cid : String) (now : Nat) (s : ServerState)
    (reqs : List HttpReq) : Prop where
  cid_eq : ∀ r ∈ reqs, r.cid = cid
  permitted : ∀ r ∈ reqs, ¬ env.Refused s.edge.publicSet s.replay r now
  /-- No two use one nonce. -/
  distinct : reqs.Pairwise fun r r' => ∀ k, env.popKey s.edge.publicSet now r = some k →
    env.popKey s.edge.publicSet now r' ≠ some k
  /-- Some client does not have the object. -/
  miss : ∃ r ∈ reqs, r.revalidates = false
  /-- No request is under way. -/
  idle : Flights (Sys.start s)
  unknown : s.edge.cache.knows cid now = false
  negativeTtl : s.edge.cache.negativeTtlSecs ≠ 0
  clock : now ≤ u64Max

/-- The clients that do not have the object. -/
def misses (reqs : List HttpReq) : Nat := reqs.countP fun r => !r.revalidates

/-- What holds while a herd is served. -/
structure Herded (env : ServerEnv) (cid : String) (now : Nat) (s : ServerState)
    (reqs : List HttpReq) (y : Sys) : Prop where
  reqs_eq : y.tasks.map Task.req = reqs
  now_eq : ∀ t ∈ y.tasks, t.now = now
  flights : Flights y
  publicSet : y.shared.edge.publicSet = s.edge.publicSet
  config : y.shared.edge.cache.config = s.edge.cache.config
  pending : ∀ (i : Nat) (t : Task), y.tasks[i]? = some t → t.phase = .access ∨ t.phase = .replay →
    ¬ env.Refused s.edge.publicSet y.shared.replay t.req now
  replay : ∀ t ∈ y.tasks, t.phase = .replay → env.grantOf s.edge.publicSet t.req now = .popAndCap
  limit : ∀ t ∈ y.tasks, ∀ max, t.phase.limit = some max → max = env.objectLimit s.edge.cache
  early : ∀ t ∈ y.tasks, t.req.revalidates = true → t.phase.rank = 0 ∨ 12 < t.phase.rank
  calls : ∃ n, y.shared.originCalls = s.originCalls ++ List.replicate n cid ∧
    n + y.tasks.countP Task.ahead ≤ misses reqs
  ahead : y.shared.originCalls = s.originCalls → y.shared.edge.cache.knows cid now = false ∧
    ∀ t ∈ y.tasks, t.req.revalidates = false → 5 < t.phase.rank

/-- A request stays permitted when one with another nonce is let through. -/
theorem ServerEnv.not_refused_popOnce {env : ServerEnv} {publicSet : Finset String} {now : Nat}
    {guard : ReplayGuard} {r r' : HttpReq} (hg : env.grantOf publicSet r now = .popAndCap)
    (hpop : (env.popOnce r now guard).1 = .ok ())
    (hne : ∀ k, env.popKey publicSet now r = some k → env.popKey publicSet now r' ≠ some k)
    (h : ¬ env.Refused publicSet guard r' now) :
    ¬ env.Refused publicSet (env.popOnce r now guard).2 r' now := by
  rintro (hdenied | ⟨hg', hno⟩)
  · exact h (.inl hdenied)
  · have hpop' : (env.popOnce r' now guard).1 = .ok () := by
      by_contra hno
      exact h (.inr ⟨hg', hno⟩)
    obtain ⟨-, proof, hproof, -⟩ := verifyPopOnce_ok_iff.1 hpop
    obtain ⟨hv', proof', hproof', hnew'⟩ := verifyPopOnce_ok_iff.1 hpop'
    refine hno (verifyPopOnce_ok_iff.2 ⟨hv', proof', hproof', ?_⟩)
    unfold popOnce
    rw [verifyPopOnce_ok_snd hpop hproof]
    refine KeyRing.insert_fst_of_ne (fun heq => ?_) hnew'
    refine hne (r.requesterId.append proof.nonce) ?_ ?_
    · simp [popKey, hg, hproof]
    · simp [popKey, hg', hproof', heq]

namespace Herded

variable {env : ServerEnv} {o : Orders} {cid : String} {now : Nat} {s s' : ServerState}
  {reqs : List HttpReq} {y : Sys} {i : Nat} {t t' : Task}

theorem cid_eq (h : Herded env cid now s reqs y) (hh : Herd env cid now s reqs) (ht : t ∈ y.tasks) :
    t.req.cid = cid := by
  refine hh.cid_eq t.req ?_
  rw [← h.reqs_eq]
  exact List.mem_map_of_mem ht

theorem keys_ne (h : Herded env cid now s reqs y) (hh : Herd env cid now s reqs) {j : Nat} {u : Task}
    (hi : y.tasks[i]? = some t) (hj : y.tasks[j]? = some u) (hji : j ≠ i) (k : ReplayKey)
    (hk : env.popKey s.edge.publicSet now t.req = some k) :
    env.popKey s.edge.publicSet now u.req ≠ some k := by
  have hpair := hh.distinct
  rw [← h.reqs_eq, List.pairwise_map, List.pairwise_iff_getElem] at hpair
  obtain ⟨hilt, rfl⟩ := List.getElem?_eq_some_iff.1 hi
  obtain ⟨hjlt, rfl⟩ := List.getElem?_eq_some_iff.1 hj
  obtain hlt | hlt := Nat.lt_or_gt_of_ne hji
  · intro hk'
    exact hpair j i hjlt hilt hlt k hk' hk
  · exact hpair i j hilt hjlt hlt k hk

/-- No request of the herd is refused. -/
theorem granted (h : Herded env cid now s reqs y) (hi : y.tasks[i]? = some t) :
    (t.phase = .access → env.grantOf y.shared.edge.publicSet t.req t.now ≠ .denied) ∧
    (t.phase = .replay → (env.popOnce t.req t.now y.shared.replay).1 = .ok ()) := by
  have hmem := List.mem_of_getElem? hi
  rw [h.now_eq t hmem, h.publicSet]
  refine ⟨fun hp hdenied => h.pending i t hi (.inl hp) (.inl hdenied), fun hp => ?_⟩
  by_contra hno
  exact h.pending i t hi (.inr hp) (.inr ⟨h.replay t hmem hp, hno⟩)

/-! ## The steps of a herd -/

theorem pending_piece (h : Herded env cid now s reqs y) (hh : Herd env cid now s reqs)
    (hi : y.tasks[i]? = some t) (hpiece : Task.Piece env o y.shared t s' t') (j : Nat) (u : Task)
    (hj : (y.tasks.set i t')[j]? = some u) (hu : u.phase = .access ∨ u.phase = .replay) :
    ¬ env.Refused s.edge.publicSet s'.replay u.req now := by
  have hmem := List.mem_of_getElem? hi
  have hnow := h.now_eq t hmem
  obtain ⟨hsame, hno⟩ | ⟨hp, hpop, hguard⟩ := hpiece.replay_cases
  · rw [hsame]
    obtain ⟨rfl, rfl⟩ | ⟨-, hj⟩ := Places.getElem?_set_cases hj
    · cases hpiece with
      | popAndCap hp => exact h.pending j t hi (.inl hp)
      | _ => simp [Task.readBudget] at hu
    · exact h.pending j u hj hu
  · rw [hguard, hnow]
    rw [hnow] at hpop
    obtain ⟨rfl, rfl⟩ | ⟨hji, hj⟩ := Places.getElem?_set_cases hj
    · cases hpiece with
      | letThrough => simp at hu
      | replayed => simp at hu
      | _ => simp_all
    · exact ServerEnv.not_refused_popOnce (h.replay t hmem hp) hpop (h.keys_ne hh hi hj hji)
        (h.pending j u hj hu)

theorem calls_piece (h : Herded env cid now s reqs y) (hh : Herd env cid now s reqs)
    (hi : y.tasks[i]? = some t) (hpiece : Task.Piece env o y.shared t s' t') :
    ∃ n, s'.originCalls = s.originCalls ++ List.replicate n cid ∧
      n + (y.tasks.set i t').countP Task.ahead ≤ misses reqs := by
  have hmem := List.mem_of_getElem? hi
  obtain ⟨n, hcalls, hle⟩ := h.calls
  have hcount := Places.countP_set_add (p := Task.ahead) hi t'
  have hlt := hpiece.rank_lt
  obtain ⟨l, max, hp, hp', hcall⟩ | ⟨-, hcall⟩ := hpiece.calls_cases
  · refine ⟨n + 1, ?_, ?_⟩
    · rw [hcall, hcalls, h.cid_eq hh hmem, List.append_assoc, List.replicate_succ']
    · have hr : t.req.revalidates = false := by
        cases hr : t.req.revalidates with
        | false => rfl
        | true =>
          have hearly := h.early t hmem hr
          simp [hp, Phase.rank] at hearly
      have ht : t.ahead = true := by simp [Task.ahead, hr, hp, Phase.rank]
      have ht' : t'.ahead = false := by simp [Task.ahead, hp', Phase.rank]
      rw [ht, ht'] at hcount
      simp only [Bool.toNat_true, Bool.toNat_false] at hcount
      omega
  · refine ⟨n, hcall.trans hcalls, ?_⟩
    have hahead : t'.ahead.toNat ≤ t.ahead.toNat := by
      unfold Task.ahead
      rw [hpiece.req]
      cases t.req.revalidates with
      | true => exact le_refl _
      | false =>
        by_cases hrank : 5 < t'.phase.rank
        · simp [hrank, hrank.trans hlt]
        · simp [hrank]
    omega

theorem ahead_piece (h : Herded env cid now s reqs y) (hh : Herd env cid now s reqs)
    (hi : y.tasks[i]? = some t) (hpiece : Task.Piece env o y.shared t s' t')
    (hcalls : s'.originCalls = s.originCalls) :
    s'.edge.cache.knows cid now = false ∧
      ∀ u ∈ y.tasks.set i t', u.req.revalidates = false → 5 < u.phase.rank := by
  have hmem := List.mem_of_getElem? hi
  have hcid := h.cid_eq hh hmem
  have hnow := h.now_eq t hmem
  have hnocall : ∀ l max, t.phase ≠ .call l max := by
    obtain ⟨n, heq, -⟩ := h.calls
    obtain ⟨l, max, -, -, hcall⟩ | ⟨hno, -⟩ := hpiece.calls_cases
    · rw [hcall, heq, List.append_assoc] at hcalls
      have hlen := congrArg List.length hcalls
      simp at hlen
    · exact hno
  have hold : y.shared.originCalls = s.originCalls := by
    obtain ⟨l, max, hp, -⟩ | ⟨-, hsame⟩ := hpiece.calls_cases
    · exact absurd hp (hnocall l max)
    · rw [← hsame]; exact hcalls
  obtain ⟨hcold, hahead⟩ := h.ahead hold
  have hfar : ∀ l max res, t.phase ≠ .fetched l max res := by
    intro l max res hp
    cases hr : t.req.revalidates with
    | false =>
      have hrank := hahead t hmem hr
      simp [hp, Phase.rank] at hrank
    | true =>
      have hrank := h.early t hmem hr
      simp [hp, Phase.rank] at hrank
  rw [← hcid, ← hnow] at hcold ⊢
  refine ⟨(hpiece.knows hfar).trans hcold, Places.forall_mem_set hahead fun hr => ?_⟩
  rw [hpiece.req] at hr
  obtain ⟨haccess, hreplay⟩ := h.granted hi
  obtain hrank | ⟨l, max, hp⟩ := hpiece.ahead hr (hahead t hmem hr) haccess hreplay hcold
  · exact hrank
  · exact absurd hp (hnocall l max)

theorem piece (h : Herded env cid now s reqs y) (hh : Herd env cid now s reqs)
    (hi : y.tasks[i]? = some t) (hpiece : Task.Piece env o y.shared t s' t') :
    Herded env cid now s reqs ⟨s', y.tasks.set i t'⟩ := by
  have hmem := List.mem_of_getElem? hi
  refine ⟨?_, ?_, h.flights.piece hi hpiece, ?_, ?_, h.pending_piece hh hi hpiece, ?_, ?_, ?_,
    h.calls_piece hh hi hpiece, h.ahead_piece hh hi hpiece⟩
  · rw [← h.reqs_eq]
    exact Places.map_set_of_eq hi hpiece.req
  · exact Places.forall_mem_set h.now_eq (hpiece.now.trans (h.now_eq t hmem))
  · exact hpiece.edge_cases.1.trans h.publicSet
  · exact hpiece.config.trans h.config
  · refine Places.forall_mem_set h.replay fun hp' => ?_
    rw [hpiece.req]
    cases hpiece with
    | popAndCap hp hg => rw [← h.publicSet, ← h.now_eq t hmem]; exact hg
    | _ => simp [Task.readBudget] at hp'
  · refine Places.forall_mem_set h.limit fun max hmax => ?_
    obtain hm | rfl := hpiece.limit hmax
    · exact h.limit t hmem max hm
    · have hbytes : y.shared.edge.cache.maxBytes = s.edge.cache.maxBytes :=
        congrArg Prod.fst h.config
      unfold ServerEnv.objectLimit
      rw [hbytes]
  · refine Places.forall_mem_set h.early fun hr => ?_
    rw [hpiece.req] at hr
    obtain hzero | hrank := h.early t hmem hr
    · have hlt := hpiece.rank_lt
      omega
    · exact hpiece.early hr hrank

theorem answered {l max : Nat} (h : Herded env cid now s reqs y) (hi : y.tasks[i]? = some t)
    (hp : t.phase = .fetching l max) (res : Option Bytes) :
    Herded env cid now s reqs ⟨y.shared, y.tasks.set i (t.goto (.fetched l max res))⟩ := by
  have hmem := List.mem_of_getElem? hi
  refine ⟨?_, Places.forall_mem_set h.now_eq (h.now_eq t hmem), ?_, h.publicSet, h.config,
    fun j u hj hu => ?_, Places.forall_mem_set h.replay nofun, Places.forall_mem_set h.limit ?_,
    Places.forall_mem_set h.early fun hr => ?_, ?_, fun hcalls => ?_⟩
  · rw [← h.reqs_eq]
    exact Places.map_set_of_eq hi rfl
  · exact h.flights.quiet hi rfl rfl rfl rfl (by rw [hp]; rfl) (by rw [hp]; rfl)
  · obtain ⟨-, rfl⟩ | ⟨-, hj⟩ := Places.getElem?_set_cases hj
    · simp at hu
    · exact h.pending j u hj hu
  · intro m hm
    exact h.limit t hmem m (by rw [hp]; exact hm)
  · have hearly := h.early t hmem hr
    simp [hp, Phase.rank] at hearly
  · obtain ⟨n, hcalls, hle⟩ := h.calls
    have hcount := Places.countP_set_add (p := Task.ahead) hi (t.goto (.fetched l max res))
    have hsame : (t.goto (.fetched l max res)).ahead = t.ahead := by
      simp [Task.ahead, hp, Phase.rank]
    rw [hsame] at hcount
    refine ⟨n, hcalls, ?_⟩
    simp only
    omega
  · obtain ⟨hcold, hahead⟩ := h.ahead hcalls
    refine ⟨hcold, Places.forall_mem_set hahead fun hr => ?_⟩
    have hrank := hahead t hmem hr
    simp [hp, Phase.rank] at hrank

end Herded

/-- A step of a request or an answer of the origin. -/
def Label.Serves : Label → Prop
  | .step _ _ | .answer _ _ => True
  | _ => False

theorem Herded.step {env : ServerEnv} {cid : String} {now : Nat} {s : ServerState}
    {reqs : List HttpReq} {y y' : Sys} {l : Label} (hh : Herd env cid now s reqs)
    (h : Herded env cid now s reqs y) (hl : l.Serves) (hs : Sys.step env y l = some y') :
    Herded env cid now s reqs y' := by
  cases Sys.moves_of_step hs with
  | piece hi hpiece => exact h.piece hh hi hpiece
  | answered res hi hp => exact h.answered hi hp res
  | _ => cases hl

end CeCdn
