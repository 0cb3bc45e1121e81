/-
Where the entries of the edge cache go, and what its counters count. An entry
comes by an insert and leaves by an eviction, an expiry, a purge or another
insert of its CID; on every run these balance (`cache_flow`), and the counters
are the numbers of reads, and of hits, in the run's trace.
-/
import CeCdn.CacheInvariant
import Mathlib.Data.List.DropRight

namespace CeCdn

open Lib Word

/-- The hits on a CID since its last successful insert. -/
def hitsSince (cid : String) (past : List CacheStep) : Nat :=
  (past.rtakeWhile fun t => t.inserted? ≠ some cid).countP fun t => t.hit? = some cid

theorem hitsSince_concat (cid : String) (past : List CacheStep) (t : CacheStep) :
    hitsSince cid (past ++ [t]) =
      if t.inserted? = some cid then 0
      else hitsSince cid past + if t.hit? = some cid then 1 else 0 := by
  unfold hitsSince
  rw [List.rtakeWhile_concat]
  by_cases hin : t.inserted? = some cid
  · simp [hin]
  · simp only [hin, ne_eq, not_false_eq_true, decide_true, if_true, if_false, List.countP_append,
      List.countP_singleton, decide_eq_true_eq]

namespace EdgeCache

/-! ## The balance of an operation -/

/-- The entries there are and the ones that left by a counted door. -/
def flow (c : EdgeCache) : Nat := c.entries.entries.length + c.evictions + c.expirations

section

variable {c : EdgeCache} {cid : String}

/-- Dropping an entry takes one away, if it was there. -/
theorem flow_dropEntry (cid : String) (c : EdgeCache) :
    flow (dropEntry cid c).2 + (if (c.entries.lookup cid).isSome then 1 else 0) = flow c := by
  rw [dropEntry_snd]
  simp only [flow]
  by_cases hmem : cid ∈ c.entries
  · have hone := HashMap.length_erase_of_mem hmem
    simp only [AList.lookup_isSome.2 hmem, if_true]
    omega
  · have hnone : c.entries.lookup cid = none := AList.lookup_eq_none.2 hmem
    have hsame : c.entries.erase cid = c.entries :=
      AList.ext (List.kerase_of_notMem_keys hmem)
    simp [hnone, hsame]

/-- An eviction moves an entry to its counter. -/
theorem flow_evictOne (ord : IterOrder String CacheEntry) (c : EdgeCache) :
    flow (evictOne ord c).2 = flow c := by
  unfold evictOne
  split
  · rfl
  · next victim hv =>
    obtain ⟨e, he, -⟩ := HashMap.minByKey_eq_some hv
    have hdrop := flow_dropEntry victim c
    rw [HashMap.lookup_eq_some_iff.2 he, Option.isSome_some, if_pos rfl] at hdrop
    simp only [flow] at hdrop ⊢
    omega

theorem flow_evictUntilFits (ord : IterOrder String CacheEntry) (len : Nat) :
    ∀ (n : Nat) (c : EdgeCache), flow (evictUntilFits ord len n c) = flow c
  | 0, _ => rfl
  | n + 1, c => by
    simp only [evictUntilFits]
    split
    · split
      · rw [flow_evictUntilFits ord len n, flow_evictOne]
      · exact flow_evictOne ord c
    · rfl

/-- A successful insert adds one entry, and takes the CID's old one away. -/
theorem flow_insertWithTtl (ord : IterOrder String CacheEntry) {bytes : Bytes} (ttl now : Nat)
    (hlen : bytes.length ≤ c.maxBytes) :
    flow (insertWithTtl ord cid bytes ttl now c).2 +
      (if (c.entries.lookup cid).isSome then 1 else 0) = flow c + 1 := by
  obtain ⟨c', hev, hloop, heq⟩ := insertWithTtl_eq ord cid ttl now hlen
  have hdrop := flow_dropEntry cid c
  have hevict : flow c' = flow (dropEntry cid c).2 := by rw [hloop, flow_evictUntilFits]
  -- the old entry is gone, so the new one replaces nothing
  have hgone : cid ∉ c'.entries := by
    rw [← AList.lookup_eq_none]
    refine hev.none ?_
    rw [dropEntry_snd]
    exact AList.lookup_erase _ _
  have hsame : c'.entries.erase cid = c'.entries := AList.ext (List.kerase_of_notMem_keys hgone)
  rw [heq]
  simp only [flow, HashMap.length_insert, hsame] at hevict hdrop ⊢
  omega

/-- A read moves an entry it finds expired to its counter. -/
theorem flow_get (cid : String) (now : Nat) (c : EdgeCache) : flow (get cid now c).2 = flow c := by
  rcases get_cases cid now c with ⟨e, he, -, hg⟩ | ⟨e, he, -, hg⟩ | ⟨-, hg⟩
  · have hmem : cid ∈ c.entries := AList.lookup_isSome.1 (by rw [he]; rfl)
    have hone := HashMap.length_erase_of_mem hmem
    rw [hg]
    simp only [flow, HashMap.length_insert]
    omega
  · have hdrop := flow_dropEntry cid c
    rw [he, Option.isSome_some, if_pos rfl] at hdrop
    rw [hg]
    simp only [flow, dropEntry_snd] at hdrop ⊢
    omega
  · rw [hg]; rfl

/-- Sweeping moves each key it goes through to its counter, if the keys are
distinct and held. -/
theorem flow_foldl_expireOne : ∀ {ks : List String} {c : EdgeCache}, ks.Nodup →
    (∀ k ∈ ks, (c.entries.lookup k).isSome) → flow (ks.foldl expireOne c) = flow c
  | [], _, _, _ => rfl
  | k :: ks, c, hnd, hheld => by
    obtain ⟨hk, hnd⟩ := List.nodup_cons.1 hnd
    have hdrop := flow_dropEntry k c
    rw [hheld k List.mem_cons_self, if_pos rfl] at hdrop
    have hrest : ∀ x ∈ ks, ((expireOne c k).entries.lookup x).isSome := by
      intro x hx
      have hne : x ≠ k := fun h => hk (h ▸ hx)
      simp only [expireOne, dropEntry_snd, AList.lookup_erase_ne hne]
      exact hheld x (List.mem_cons_of_mem _ hx)
    rw [List.foldl_cons, flow_foldl_expireOne hnd hrest]
    simp only [flow, expireOne] at hdrop ⊢
    omega

theorem flow_sweepExpired (ord : IterOrder String CacheEntry) (now : Nat) (c : EdgeCache) :
    flow (sweepExpired ord now c).2 = flow c := by
  have hnd : (dead ord now c).Nodup := by
    have hkeys : ((ord.iter c.entries).map Sigma.fst).Nodup :=
      ((ord.perm c.entries).map Sigma.fst).nodup_iff.2 c.entries.nodupKeys
    exact (List.filter_sublist.map Sigma.fst).nodup hkeys
  have hheld : ∀ k ∈ dead ord now c, (c.entries.lookup k).isSome := by
    intro k hk
    obtain ⟨e, he, rfl⟩ := List.mem_map.1 hk
    have hmem := (ord.perm c.entries).mem_iff.1 (List.mem_filter.1 he).1
    rw [HashMap.lookup_eq_some_iff.2 hmem]
    rfl
  exact flow_foldl_expireOne hnd hheld

end

/-! ## The counts of a step -/

/-- What a run has counted: entries that came are there or left by one of the
doors, and reads hit or missed. -/
structure Counted (c : EdgeCache) (past : List CacheStep) : Prop where
  balance : past.countP (·.inserted?.isSome) =
    flow c + past.countP CacheStep.purges + past.countP CacheStep.replaces
  reads : c.reads = past.countP CacheStep.isRead
  hits : c.hits = past.countP (·.hit?.isSome)

/-- What a step adds to the counts. -/
structure CountsStep (c c' : EdgeCache) (t : CacheStep) : Prop where
  balance : flow c' + (if t.purges then 1 else 0) + (if t.replaces then 1 else 0) =
    flow c + if t.inserted?.isSome then 1 else 0
  reads : c'.reads = c.reads + if t.isRead then 1 else 0
  hits : c'.hits = c.hits + if t.hit?.isSome then 1 else 0

theorem Counted.concat {c c' : EdgeCache} {past : List CacheStep} {t : CacheStep}
    (h : Counted c past) (ht : CountsStep c c' t) : Counted c' (past ++ [t]) := by
  obtain ⟨hbalance, hreads, hhits⟩ := h
  obtain ⟨hb, hr, hh⟩ := ht
  refine ⟨?_, ?_, ?_⟩
  · simp only [List.countP_append, List.countP_singleton]
    omega
  · simp only [List.countP_append, List.countP_singleton]
    omega
  · simp only [List.countP_append, List.countP_singleton]
    omega

section

variable (c : EdgeCache) (o : Orders)

/-- A step that neither moves an entry nor reads counts nothing. -/
theorem CountsStep.of_frame {c c' : EdgeCache} {t : CacheStep} (hflow : flow c' = flow c)
    (hreads : c'.reads = c.reads) (hhits : c'.hits = c.hits) (hin : t.inserted? = none)
    (hhit : t.hit? = none) (hread : t.isRead = false) (hpurge : t.purges = false) :
    CountsStep c c' t := by
  refine ⟨?_, ?_, ?_⟩
  · simp [hflow, hin, hpurge, CacheStep.replaces]
  · simp [hreads, hread]
  · simp [hhits, hhit]

theorem hits_insertWithTtl (ord : IterOrder String CacheEntry) (cid : String) (bytes : Bytes)
    (ttl now : Nat) : (insertWithTtl ord cid bytes ttl now c).2.hits = c.hits ∧
      (insertWithTtl ord cid bytes ttl now c).2.reads = c.reads := by
  obtain ⟨es, ts, n, t, k, h⟩ := insertWithTtl_frame ord cid bytes ttl now c
  rw [h]
  exact ⟨rfl, rfl⟩

/-- An insert counts one that came, and one that was replaced if it was held. -/
theorem countsStep_insert (cid : String) (bytes : Bytes) (ttl now : Nat) {op : CacheOp}
    (hin : ∀ b, CacheStep.inserted? (c, (o, op), .done b) = if b then some cid else none)
    (hhit : ∀ a, CacheStep.hit? (c, (o, op), a) = none)
    (hread : ∀ a, CacheStep.isRead (c, (o, op), a) = false)
    (hpurge : ∀ a, CacheStep.purges (c, (o, op), a) = false) :
    CountsStep c (insertWithTtl o.entries cid bytes ttl now c).2
      (c, (o, op), .done (insertWithTtl o.entries cid bytes ttl now c).1) := by
  obtain ⟨hhits, hreads⟩ := hits_insertWithTtl c o.entries cid bytes ttl now
  by_cases hlen : bytes.length ≤ c.maxBytes
  · have hflow : flow (insertWithTtl o.entries cid bytes ttl now c).2 +
        (if (c.entries.lookup cid).isSome then 1 else 0) = flow c + 1 :=
      flow_insertWithTtl o.entries ttl now hlen
    refine ⟨?_, ?_, ?_⟩
    · simp only [insertWithTtl_of_le o.entries cid ttl now hlen, hin, hpurge, CacheStep.replaces,
        Option.any_some, Option.isSome_some, if_true, if_false, Bool.false_eq_true]
      omega
    · simp [hreads, hread]
    · simp [hhits, hhit]
  · rw [insertWithTtl_of_lt o.entries cid ttl now (Nat.not_le.1 hlen)]
    exact .of_frame rfl rfl rfl (by simp [hin]) (hhit _) (hread _) (hpurge _)

theorem countsStep_get (cid : String) (now : Nat) :
    CountsStep c (get cid now c).2 (c, (o, .get cid now), .bytes (get cid now c).1) := by
  refine ⟨?_, ?_, ?_⟩
  · simp [flow_get, CacheStep.inserted?, CacheStep.purges, CacheStep.replaces]
  · simp [CacheStep.isRead]
  · rcases get_cases cid now c with ⟨e, -, -, hg⟩ | ⟨e, -, -, hg⟩ | ⟨-, hg⟩
    · simp [hg, CacheStep.hit?]
    · simp [hg, CacheStep.hit?, dropEntry_snd]
    · simp [hg, CacheStep.hit?]

theorem countsStep_purge (cid : String) :
    CountsStep c (purge cid c).2 (c, (o, .purge cid), .done (purge cid c).1) := by
  have hdrop := flow_dropEntry cid c
  rw [purge, dropEntry_fst]
  refine ⟨?_, ?_, ?_⟩
  · cases h : (c.entries.lookup cid).isSome with
    | true => simpa [h, CacheStep.inserted?, CacheStep.purges, CacheStep.replaces] using hdrop
    | false => simpa [h, CacheStep.inserted?, CacheStep.purges, CacheStep.replaces] using hdrop
  · simp [CacheStep.isRead]
  · simp [CacheStep.hit?, dropEntry_snd]

/-- Each operation counts what it does. -/
theorem countsStep (i : Orders × CacheOp) :
    CountsStep c (c.step i).2 (c, i, (c.step i).1) := by
  obtain ⟨o, op⟩ := i
  cases op with
  | insert cid bytes now =>
    exact countsStep_insert c o cid bytes _ now (fun b => by cases b <;> rfl) (fun _ => rfl)
      (fun _ => rfl) (fun _ => rfl)
  | insertWithTtl cid bytes ttl now =>
    exact countsStep_insert c o cid bytes ttl now (fun b => by cases b <;> rfl) (fun _ => rfl)
      (fun _ => rfl) (fun _ => rfl)
  | get cid now => exact countsStep_get c o cid now
  | purge cid => exact countsStep_purge c o cid
  | sweepExpired now =>
    obtain ⟨es, n, k, hf⟩ := sweepExpired_frame o.entries now c
    refine .of_frame (flow_sweepExpired o.entries now c) (reads_sweepExpired o.entries now c) ?_
      rfl rfl rfl rfl
    change (sweepExpired o.entries now c).2.hits = c.hits
    rw [hf]
  | noteAbsent cid now =>
    obtain ⟨ts, hf⟩ := noteAbsent_frame o.tombstones cid now c
    have hstep : (c.step (o, .noteAbsent cid now)).2 = { c with tombstones := ts } := hf
    rw [hstep]
    exact .of_frame rfl rfl rfl rfl rfl rfl rfl
  | isNegative cid now =>
    obtain ⟨ts, n, hf⟩ := isNegative_frame cid now c
    have hstep : (c.step (o, .isNegative cid now)).2 =
      { c with tombstones := ts, negativeHits := n } := hf
    rw [hstep]
    exact .of_frame rfl rfl rfl rfl rfl rfl rfl
  | containsFresh cid now | byteLen cid | age cid now | ttlRemaining cid now =>
    exact .of_frame rfl rfl rfl rfl rfl rfl rfl

end

/-! ## The hits of an entry -/

/-- Each entry's hits are those on its CID since the insert that made it. -/
def HitsCounted (c : EdgeCache) (past : List CacheStep) : Prop :=
  ∀ cid e, c.entries.lookup cid = some e →
    (∃ t ∈ past, t.inserted? = some cid) ∧ e.hits = hitsSince cid past

/-- Where an entry's hits come from: the insert that made it, or the entry
before the step and the read of this step. -/
def HitsFrom (c : EdgeCache) (t : CacheStep) (cid : String) (e : CacheEntry) : Prop :=
  (t.inserted? = some cid ∧ e.hits = 0) ∨
  (t.inserted? ≠ some cid ∧ ∃ e₀, c.entries.lookup cid = some e₀ ∧
    e.hits = e₀.hits + if t.hit? = some cid then 1 else 0)

section

variable {c : EdgeCache} {o : Orders} {t : CacheStep} {k : String} {e : CacheEntry}

/-- An entry that a step leaves alone. -/
theorem HitsFrom.of_lookup (h : c.entries.lookup k = some e) (hin : t.inserted? ≠ some k)
    (hhit : t.hit? ≠ some k) : HitsFrom c t k e :=
  .inr ⟨hin, e, h, by rw [if_neg hhit, Nat.add_zero]⟩

/-- After an insert its CID's entry has no hits, and every other is as it was. -/
theorem hitsFrom_insert {cid : String} {bytes : Bytes} {ttl now : Nat} {op : CacheOp}
    (hin : ∀ b, CacheStep.inserted? (c, (o, op), .done b) = if b then some cid else none)
    (hhit : ∀ a, CacheStep.hit? (c, (o, op), a) = none)
    (h : (insertWithTtl o.entries cid bytes ttl now c).2.entries.lookup k = some e) :
    HitsFrom c (c, (o, op), .done (insertWithTtl o.entries cid bytes ttl now c).1) k e := by
  have hnohit : ∀ a, CacheStep.hit? (c, (o, op), a) ≠ some k := by
    intro a
    simp [hhit]
  by_cases hlen : bytes.length ≤ c.maxBytes
  · rw [insertWithTtl_of_le o.entries cid ttl now hlen]
    obtain ⟨c', hev, -, heq⟩ := insertWithTtl_eq o.entries cid ttl now hlen
    rw [heq] at h
    obtain ⟨rfl, rfl⟩ | ⟨hk, hkept⟩ := HashMap.lookup_insert_eq_some.1 h
    · exact .inl ⟨by rw [hin, if_pos rfl], rfl⟩
    · have hold := (evicts_dropEntry cid c).sub k e (hev.sub k e hkept)
      refine .of_lookup hold ?_ (hnohit _)
      rw [hin, if_pos rfl]
      exact fun heq => hk (Option.some.inj heq).symm
  · rw [insertWithTtl_of_lt o.entries cid ttl now (Nat.not_le.1 hlen)] at h ⊢
    exact .of_lookup h (by simp [hin]) (hnohit _)

/-- A hit counts one for its CID; a miss leaves the entries of the others. -/
theorem hitsFrom_get {cid : String} {now : Nat}
    (h : (get cid now c).2.entries.lookup k = some e) :
    HitsFrom c (c, (o, .get cid now), .bytes (get cid now c).1) k e := by
  have hin : ∀ a, CacheStep.inserted? (c, (o, .get cid now), .bytes a) ≠ some k :=
    fun _ => nofun
  rcases get_cases cid now c with ⟨e₀, he, -, hg⟩ | ⟨e₀, he, -, hg⟩ | ⟨hno, hg⟩
  · rw [hg] at h ⊢
    obtain ⟨rfl, rfl⟩ | ⟨hk, hold⟩ := HashMap.lookup_insert_eq_some.1 h
    · refine .inr ⟨hin _, e₀, he, ?_⟩
      simp [CacheStep.hit?]
    · exact .of_lookup hold (hin _) (by simpa [CacheStep.hit?] using Ne.symm hk)
  · rw [hg] at h ⊢
    exact .of_lookup ((evicts_dropEntry cid c).sub k e h) (hin _) (by simp [CacheStep.hit?])
  · rw [hg] at h ⊢
    exact .of_lookup h (hin _) (by simp [CacheStep.hit?])

theorem hitsFrom_step {i : Orders × CacheOp} (h : (c.step i).2.entries.lookup k = some e) :
    HitsFrom c (c, i, (c.step i).1) k e := by
  obtain ⟨o, op⟩ := i
  cases op with
  | insert cid bytes now =>
    exact hitsFrom_insert (fun b => by cases b <;> rfl) (fun _ => rfl) h
  | insertWithTtl cid bytes ttl now =>
    exact hitsFrom_insert (fun b => by cases b <;> rfl) (fun _ => rfl) h
  | get cid now => exact hitsFrom_get h
  | purge cid => exact .of_lookup ((evicts_dropEntry cid c).sub k e h) nofun nofun
  | sweepExpired now => exact .of_lookup (lookup_sweepExpired h) nofun nofun
  | noteAbsent cid now =>
    obtain ⟨ts, hf⟩ := noteAbsent_frame o.tombstones cid now c
    have hstep : (c.step (o, .noteAbsent cid now)).2 = { c with tombstones := ts } := hf
    rw [hstep] at h
    exact .of_lookup h nofun nofun
  | isNegative cid now =>
    obtain ⟨ts, n, hf⟩ := isNegative_frame cid now c
    have hstep : (c.step (o, .isNegative cid now)).2 =
      { c with tombstones := ts, negativeHits := n } := hf
    rw [hstep] at h
    exact .of_lookup h nofun nofun
  | containsFresh cid now | byteLen cid | age cid now | ttlRemaining cid now =>
    exact .of_lookup h nofun nofun

theorem HitsCounted.step {past : List CacheStep} (h : HitsCounted c past) (i : Orders × CacheOp) :
    HitsCounted (c.step i).2 (past ++ [(c, i, (c.step i).1)]) := by
  intro cid e he
  rw [hitsSince_concat]
  rcases hitsFrom_step he with ⟨hin, hzero⟩ | ⟨hin, e₀, he₀, hhits⟩
  · rw [if_pos hin]
    exact ⟨⟨_, List.mem_append_right _ (List.mem_singleton_self _), hin⟩, hzero⟩
  · obtain ⟨⟨t, ht, htin⟩, hcount⟩ := h cid e₀ he₀
    rw [if_neg hin, hhits, hcount]
    exact ⟨⟨t, List.mem_append_left _ ht, htin⟩, rfl⟩

end

/-! ## Runs -/

theorem hitsSince_le (cid : String) (past : List CacheStep) :
    hitsSince cid past ≤ past.countP fun t => t.hit? = some cid :=
  (List.rtakeWhile_suffix _ _).sublist.countP_le

/-- The hits of all entries are at most the hits of the run. -/
theorem HitsCounted.total_le {c : EdgeCache} {past : List CacheStep} (h : HitsCounted c past) :
    HashMap.total CacheEntry.hits c.entries ≤ past.countP (·.hit?.isSome) := by
  calc HashMap.total CacheEntry.hits c.entries
      = (c.entries.entries.map fun e => hitsSince e.1 past).sum := by
        refine congrArg List.sum (List.map_congr_left fun e he => ?_)
        exact (h e.1 e.2 (HashMap.lookup_eq_some_iff.2 he)).2
    _ ≤ (c.entries.keys.map fun k => past.countP fun t => t.hit? = some k).sum := by
        rw [AList.keys, List.keys, List.map_map]
        exact List.sum_le_sum fun e _ => hitsSince_le e.1 past
    _ ≤ past.countP (·.hit?.isSome) := HashMap.sum_countP_le CacheStep.hit? past c.entries.nodupKeys

/-- The counters of the entries are those the cache lists. -/
theorem sum_objectStats_hits (ord : IterOrder String CacheEntry) (c : EdgeCache) :
    ((c.objectStats ord).map fun p => p.2.hits).sum = HashMap.total CacheEntry.hits c.entries := by
  have hperm := (List.perm_insertionSort (fun a b : String × ObjectStat => a.1 ≤ b.1)
    ((ord.iter c.entries).map fun e =>
      (e.1, { bytes := e.2.bytes.length, hits := e.2.hits, misses := e.2.misses }))).map
    fun p => p.2.hits
  rw [objectStats, hperm.sum_nat, List.map_map]
  exact HashMap.total_of_perm (f := CacheEntry.hits) (ord.perm c.entries)

/-- **What goes in comes out or stays, and every read is counted.** From a new
cache, for every sequence of operations with any clock values and iteration
orders: the successful inserts are the entries, the evictions, the expirations,
the purges and the replacements together; hits and misses are the reads; each
entry's hits are those on its CID since its last successful insert, so all
entries together have at most the hits of the cache. -/
theorem cache_flow (maxBytes ttl negativeTtl : Nat) (ops : List (Orders × CacheOp)) :
    let start := (new maxBytes ttl).withNegativeTtl negativeTtl
    let c := Machine.final EdgeCache.step start ops
    let past : List CacheStep := Machine.trace EdgeCache.step start ops
    past.countP (·.inserted?.isSome) =
        c.stats.entries + c.stats.evictions + c.stats.expirations +
          past.countP CacheStep.purges + past.countP CacheStep.replaces ∧
      c.stats.hits + c.stats.misses = past.countP CacheStep.isRead ∧
      (∀ cid e, c.entries.lookup cid = some e →
        (∃ t ∈ past, t.inserted? = some cid) ∧ e.hits = hitsSince cid past) ∧
      ∀ ord, ((c.objectStats ord).map fun p => p.2.hits).sum ≤ c.stats.hits := by
  intro start c past
  have hstart : Counted start [] ∧ HitsCounted start [] :=
    ⟨⟨rfl, rfl, rfl⟩, fun cid e he => nomatch he⟩
  obtain ⟨hcounted, hhits⟩ : Counted c past ∧ HitsCounted c past :=
    Machine.history_invariant (I := fun c past => Counted c past ∧ HitsCounted c past)
      (fun c i past h => ⟨h.1.concat (countsStep c i), h.2.step i⟩) hstart ops
  refine ⟨hcounted.balance, hcounted.reads, hhits, fun ord => ?_⟩
  calc ((c.objectStats ord).map fun p => p.2.hits).sum
      = HashMap.total CacheEntry.hits c.entries := sum_objectStats_hits ord c
    _ ≤ past.countP (·.hit?.isSome) := hhits.total_le
    _ = c.stats.hits := hcounted.hits.symm

end EdgeCache

end CeCdn
