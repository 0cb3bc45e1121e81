/-
What holds of the edge cache after any run (`cache_invariant`): the byte count
is the total of the entries and within the budget, and the tombstones are
within their bound. So in no operation does the saturating subtraction of
`drop_entry` saturate, and the eviction loop of an insert ends because the
object fits, not because nothing is left to evict (`Exact`).

Byte counts are `Nat`: what is in memory stays below `2 ^ 64`.
-/
import CeCdn.CacheStep

namespace CeCdn.EdgeCache

open Lib Word

/-- The subtraction of `drop_entry` does not saturate. -/
def DropExact (cid : String) (c : EdgeCache) : Prop := heldBytes cid c ≤ c.curBytes

/-- The eviction loop as it runs: it ends when `len` more bytes fit. No round
finds the cache empty, and each one's subtraction is exact. -/
inductive EvictLoop (ord : IterOrder String CacheEntry) (len : Nat) :
    EdgeCache → EdgeCache → Prop
  | fits {c : EdgeCache} (h : c.curBytes + len ≤ c.maxBytes) : EvictLoop ord len c c
  | evict {c c' : EdgeCache} {victim : String} (h : c.curBytes + len > c.maxBytes)
    (hv : evictVictim ord c = some victim) (hd : DropExact victim c)
    (rest : EvictLoop ord len (evictOne ord c).2 c') : EvictLoop ord len c c'

/-- The subtractions of an operation are exact, and its loop ends as it should. -/
def Exact (c : EdgeCache) : Orders × CacheOp → Prop
  | (o, .insert cid bytes _) | (o, .insertWithTtl cid bytes _ _) =>
    bytes.length ≤ c.maxBytes → DropExact cid c ∧
      EvictLoop o.entries bytes.length (dropEntry cid c).2
        (evictUntilFits o.entries bytes.length (dropEntry cid c).2.entries.entries.length
          (dropEntry cid c).2)
  | (_, .get cid _) | (_, .purge cid) => DropExact cid c
  | (o, .sweepExpired now) =>
    ∀ ks k rest, dead o.entries now c = ks ++ k :: rest → DropExact k (ks.foldl expireOne c)
  | _ => True

/-- What every run of operations keeps. -/
structure Invariant (c : EdgeCache) : Prop where
  recency : ∃ l, Recency c l
  budget : c.curBytes ≤ c.maxBytes
  tombstones : c.tombstones.entries.length ≤ c.maxTombstones
  room : 0 < c.maxTombstones

/-! ## Exact subtractions -/

section

variable {c : EdgeCache} {l : List Item}

theorem Recency.dropExact (h : Recency c l) (cid : String) : DropExact cid c := by
  unfold DropExact heldBytes
  cases hl : c.entries.lookup cid with
  | some e =>
    have htotal := HashMap.total_erase (f := fun e : CacheEntry => e.bytes.length) hl
    have hcur := h.total_eq
    simp only
    omega
  | none => exact Nat.zero_le _

/-- With an object that fits the budget the loop ends, and not for want of entries. -/
theorem Recency.evictLoop (ord : IterOrder String CacheEntry) {len : Nat} :
    ∀ {n : Nat} {c : EdgeCache} {l : List Item}, Recency c l → l.length ≤ n → len ≤ c.maxBytes →
      EvictLoop ord len c (EdgeCache.evictUntilFits ord len n c)
  | 0, c, l, h, hn, hlen => by
    obtain rfl : l = [] := List.length_eq_zero_iff.1 (Nat.le_zero.1 hn)
    have hcur : c.curBytes = 0 := h.bytes
    exact .fits (by omega)
  | n + 1, c, l, h, hn, hlen => by
    simp only [EdgeCache.evictUntilFits]
    by_cases hfits : c.curBytes + len > c.maxBytes
    · rw [if_pos hfits]
      cases l with
      | nil =>
        have hcur : c.curBytes = 0 := h.bytes
        omega
      | cons a l =>
        obtain ⟨he, hr⟩ := h.evictOne ord
        obtain ⟨⟨es, m, k, hf⟩, -⟩ := evicts_evictOne ord c
        have hmax : (EdgeCache.evictOne ord c).2.maxBytes = c.maxBytes := by rw [hf]
        rw [if_pos he]
        exact .evict hfits (h.evictVictim_eq ord) (h.dropExact a.1)
          (hr.evictLoop ord (Nat.le_of_succ_le_succ hn) (hmax.symm ▸ hlen))
    · rw [if_neg hfits]
      exact .fits (Nat.not_lt.1 hfits)

/-- When the loop ends the newcomer fits. -/
theorem EvictLoop.fits_end {ord : IterOrder String CacheEntry} {len : Nat} {c c' : EdgeCache}
    (h : EvictLoop ord len c c') : c'.curBytes + len ≤ c'.maxBytes := by
  induction h with
  | fits h => exact h
  | evict _ _ _ _ ih => exact ih

/-- An insert drops the old entry, and evicts until the object fits. -/
theorem Recency.insertExact (h : Recency c l) (ord : IterOrder String CacheEntry) (cid : String)
    {bytes : Bytes} (hlen : bytes.length ≤ c.maxBytes) :
    DropExact cid c ∧ EvictLoop ord bytes.length (dropEntry cid c).2
      (EdgeCache.evictUntilFits ord bytes.length (dropEntry cid c).2.entries.entries.length
        (dropEntry cid c).2) := by
  have hd := h.drop cid
  have hmax : (dropEntry cid c).2.maxBytes = c.maxBytes := by rw [dropEntry_snd]
  exact ⟨h.dropExact cid, hd.evictLoop ord (Nat.le_of_eq hd.perm.length_eq) (hmax.symm ▸ hlen)⟩

theorem Recency.exact (h : Recency c l) (o : Orders) (op : CacheOp) : Exact c (o, op) := by
  cases op with
  | insert cid bytes now => exact fun hlen => h.insertExact o.entries cid hlen
  | insertWithTtl cid bytes ttl now => exact fun hlen => h.insertExact o.entries cid hlen
  | get cid now => exact h.dropExact cid
  | purge cid => exact h.dropExact cid
  | sweepExpired now =>
    intro ks k rest _
    exact (Refines.foldl_expireOne ks h).dropExact k
  | _ => trivial

/-- Every operation keeps some order of recency. -/
theorem Recency.step (h : Recency c l) (o : Orders) (op : CacheOp) :
    ∃ l', Recency (c.step (o, op)).2 l' := by
  have hrefines : Refines c ⟨c.maxBytes, c.defaultTtlSecs, l.map refEntry⟩ l := ⟨h, rfl, rfl, rfl⟩
  obtain ⟨-, l', hl'⟩ := hrefines.step o op
  exact ⟨l', hl'.recency⟩

end

/-! ## The bounds -/

section

variable {c : EdgeCache}

theorem curBytes_dropEntry_le (cid : String) (c : EdgeCache) :
    (dropEntry cid c).2.curBytes ≤ c.curBytes := by
  rw [dropEntry_snd]
  exact Nat.sub_le _ _

theorem curBytes_get_le (cid : String) (now : Nat) (c : EdgeCache) :
    (get cid now c).2.curBytes ≤ c.curBytes := by
  rcases get_cases cid now c with ⟨e, -, -, hg⟩ | ⟨e, -, -, hg⟩ | ⟨-, hg⟩
  · rw [hg]
  · rw [hg]
    exact curBytes_dropEntry_le cid c
  · rw [hg]

theorem curBytes_foldl_expireOne_le : ∀ (ks : List String) (c : EdgeCache),
    (ks.foldl expireOne c).curBytes ≤ c.curBytes
  | [], _ => le_rfl
  | k :: ks, c =>
    (curBytes_foldl_expireOne_le ks (expireOne c k)).trans (curBytes_dropEntry_le k c)

theorem config_step (o : Orders) (op : CacheOp) (c : EdgeCache) :
    (c.step (o, op)).2.config = c.config := by
  cases op with
  | insert cid bytes now => exact config_insertWithTtl _ _ _ _ _ _
  | insertWithTtl cid bytes ttl now => exact config_insertWithTtl _ _ _ _ _ _
  | get cid now => exact config_get _ _ _
  | purge cid => exact config_dropEntry _ _
  | sweepExpired now => exact config_sweepExpired _ _ _
  | noteAbsent cid now => exact config_noteAbsent _ _ _ _
  | isNegative cid now => exact config_isNegative _ _ _
  | _ => rfl

/-- The bytes a cache holds after an insert fit its budget. -/
theorem Recency.curBytes_insertWithTtl_le {l : List Item} (h : Recency c l)
    (hbudget : c.curBytes ≤ c.maxBytes) (ord : IterOrder String CacheEntry) (cid : String)
    (bytes : Bytes) (ttl now : Nat) :
    (insertWithTtl ord cid bytes ttl now c).2.curBytes ≤ c.maxBytes := by
  by_cases hlen : bytes.length ≤ c.maxBytes
  · obtain ⟨c', ⟨⟨es, n, k, he⟩, -⟩, hloop, heq⟩ := insertWithTtl_eq ord cid ttl now hlen
    have hfits := (h.insertExact ord cid hlen).2.fits_end
    rw [← hloop] at hfits
    have hmax : c'.maxBytes = c.maxBytes := by rw [he, dropEntry_snd]
    rw [heq, ← hmax]
    exact hfits
  · rw [insertWithTtl_of_lt ord cid ttl now (Nat.not_le.1 hlen)]
    exact hbudget

theorem Recency.curBytes_step_le {l : List Item} (h : Recency c l)
    (hbudget : c.curBytes ≤ c.maxBytes) (o : Orders) (op : CacheOp) :
    (c.step (o, op)).2.curBytes ≤ c.maxBytes := by
  cases op with
  | insert cid bytes now => exact h.curBytes_insertWithTtl_le hbudget _ _ _ _ _
  | insertWithTtl cid bytes ttl now => exact h.curBytes_insertWithTtl_le hbudget _ _ _ _ _
  | get cid now => exact (curBytes_get_le cid now c).trans hbudget
  | purge cid => exact (curBytes_dropEntry_le cid c).trans hbudget
  | sweepExpired now => exact (curBytes_foldl_expireOne_le _ c).trans hbudget
  | noteAbsent cid now =>
    simp only [EdgeCache.step, noteAbsent]
    split
    · exact hbudget
    · exact hbudget
  | isNegative cid now =>
    simp only [EdgeCache.step, isNegative]
    split
    · split
      · exact hbudget
      · exact hbudget
    · exact hbudget
  | _ => exact hbudget

theorem tombstones_step_le (o : Orders) (op : CacheOp)
    (h : c.tombstones.entries.length ≤ c.maxTombstones) (hroom : 0 < c.maxTombstones) :
    (c.step (o, op)).2.tombstones.entries.length ≤ c.maxTombstones := by
  have hstep := tombstoneStep c (o, op)
  generalize (c.step (o, op)).2.tombstones = m at hstep ⊢
  cases hstep with
  | same => exact h
  | inserted | expired => exact (HashMap.length_erase_le _ _).trans h
  | swept => exact (HashMap.length_retain_le _ _).trans h
  | @noted _ _ cid _ hfits =>
    rw [HashMap.length_insert]
    obtain hlt | hmem | hnil := hfits
    · have hle := HashMap.length_erase_le c.tombstones cid
      omega
    · have hone := HashMap.length_erase_of_mem hmem
      omega
    · have hle := HashMap.length_erase_le c.tombstones cid
      rw [hnil] at hle
      exact Nat.succ_le_of_lt (Nat.lt_of_le_of_lt hle hroom)
  | @displaced _ _ cid _ victim ts hfull hnew hvictim =>
    -- the oldest tombstone makes room
    have hone : (c.tombstones.erase victim).entries.length + 1 = c.tombstones.entries.length :=
      HashMap.length_erase_of_mem (AList.lookup_isSome.1 (by rw [hvictim]; rfl))
    have hle := HashMap.length_erase_le (c.tombstones.erase victim) cid
    rw [HashMap.length_insert]
    omega

/-- One operation keeps the invariant. -/
theorem Invariant.step (h : Invariant c) (o : Orders) (op : CacheOp) :
    Invariant (c.step (o, op)).2 := by
  obtain ⟨l, hl⟩ := h.recency
  have hconfig := config_step o op c
  have hmax : (c.step (o, op)).2.maxBytes = c.maxBytes := congrArg Prod.fst hconfig
  have htomb : (c.step (o, op)).2.maxTombstones = c.maxTombstones :=
    congrArg (fun t => t.2.2.2) hconfig
  refine ⟨hl.step o op, ?_, ?_, ?_⟩
  · rw [hmax]
    exact hl.curBytes_step_le h.budget o op
  · rw [htomb]
    exact tombstones_step_le o op h.tombstones h.room
  · rw [htomb]
    exact h.room

end

theorem invariant_new (maxBytes ttl negativeTtl : Nat) :
    Invariant ((new maxBytes ttl).withNegativeTtl negativeTtl) :=
  ⟨⟨[], .refl _, .nil, nofun, rfl⟩, Nat.zero_le _, Nat.zero_le _,
    show 0 < DEFAULT_MAX_TOMBSTONES by decide⟩

/-- **The cache after any run.** From a new cache, for every sequence of
operations with any clock values and iteration orders: the byte count is the
total length of the entries and at most the budget, the tombstones are at most
their bound, and in any next operation the subtractions of the byte count are
exact and the eviction loop ends with room for the object. -/
theorem cache_invariant (maxBytes ttl negativeTtl : Nat) (ops : List (Orders × CacheOp)) :
    let start := (new maxBytes ttl).withNegativeTtl negativeTtl
    let c := Machine.final EdgeCache.step start ops
    c.curBytes = HashMap.total (fun e => e.bytes.length) c.entries ∧ c.curBytes ≤ maxBytes ∧
      c.tombstones.entries.length ≤ DEFAULT_MAX_TOMBSTONES ∧
      ∀ next : Orders × CacheOp, Exact c next := by
  intro start c
  have hstart := invariant_new maxBytes ttl negativeTtl
  obtain ⟨hc, hconfig⟩ : Invariant c ∧ c.config = start.config :=
    Machine.final_invariant (I := fun c => Invariant c ∧ c.config = start.config)
      (fun c op h => ⟨h.1.step op.1 op.2, (config_step op.1 op.2 c).trans h.2⟩)
      ⟨hstart, rfl⟩ ops
  obtain ⟨l, hl⟩ := hc.recency
  have hmax : c.maxBytes = maxBytes := congrArg Prod.fst hconfig
  have htomb : c.maxTombstones = DEFAULT_MAX_TOMBSTONES := congrArg (fun t => t.2.2.2) hconfig
  refine ⟨hl.total_eq, ?_, ?_, fun next => hl.exact next.1 next.2⟩
  · rw [← hmax]
    exact hc.budget
  · rw [← htomb]
    exact hc.tombstones

end CeCdn.EdgeCache
