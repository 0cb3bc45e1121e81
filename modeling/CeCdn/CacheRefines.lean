/-
What the edge cache is for, and that it does it: `RefCache` is a list of
(cid, bytes, inserted_at, expires_at), the least recently used first, with no
ticks, no counters and no hash map. Every run of the hash-map cache, whatever
the iteration orders, answers as the reference does, holds the same entries and
picks the same victims (`cache_refines_reference`).
-/
import CeCdn.CacheFacts
import CeCdn.Lib.Machine

namespace CeCdn

open Lib Word

structure RefEntry where
  cid : String
  bytes : Bytes
  insertedAt : Nat
  expiresAt : Nat
deriving DecidableEq

structure RefCache where
  maxBytes : Nat
  defaultTtlSecs : Nat
  /-- The least recently used first. -/
  entries : List RefEntry

namespace RefCache

def new (maxBytes defaultTtlSecs : Nat) : RefCache := ⟨maxBytes, defaultTtlSecs, []⟩

def find (cid : String) (r : RefCache) : Option RefEntry :=
  r.entries.find? fun e => decide (e.cid = cid)

def without (cid : String) (r : RefCache) : List RefEntry :=
  r.entries.filter fun e => decide (e.cid ≠ cid)

def insertWithTtl (cid : String) (bytes : Bytes) (ttlSecs now : Nat) (r : RefCache) :
    Bool × RefCache :=
  if bytes.length > r.maxBytes then (false, r)
  else
    let kept := Lru.evictFor (fun e => e.bytes.length) r.maxBytes bytes.length (r.without cid)
    let expiresAt := if ttlSecs = 0 then u64Max else satAdd now ttlSecs
    (true, { r with entries := kept ++ [⟨cid, bytes, now, expiresAt⟩] })

def get (cid : String) (now : Nat) (r : RefCache) : Option Bytes × RefCache :=
  match r.find cid with
  | some e =>
    if now ≤ e.expiresAt then (some e.bytes, { r with entries := r.without cid ++ [e] })
    else (none, { r with entries := r.without cid })
  | none => (none, r)

def purge (cid : String) (r : RefCache) : Bool × RefCache :=
  ((r.find cid).isSome, { r with entries := r.without cid })

def sweepExpired (now : Nat) (r : RefCache) : Nat × RefCache :=
  ((r.entries.filter fun e => decide (now > e.expiresAt)).length,
    { r with entries := r.entries.filter fun e => decide ¬ now > e.expiresAt })

end RefCache

/-! ## Operations -/

inductive CacheOp where
  | insert (cid : String) (bytes : Bytes) (now : Nat)
  | insertWithTtl (cid : String) (bytes : Bytes) (ttlSecs now : Nat)
  | get (cid : String) (now : Nat)
  | purge (cid : String)
  | sweepExpired (now : Nat)
  | containsFresh (cid : String) (now : Nat)
  | byteLen (cid : String)
  | age (cid : String) (now : Nat)
  | ttlRemaining (cid : String) (now : Nat)
  | noteAbsent (cid : String) (now : Nat)
  | isNegative (cid : String) (now : Nat)

inductive CacheAnswer where
  | done (b : Bool)
  | bytes (b : Option Bytes)
  | count (n : Nat)
  | number (n : Option Nat)
  /-- The tombstone operations: the reference has no tombstones. -/
  | silent
deriving DecidableEq

def EdgeCache.step (c : EdgeCache) : Orders × CacheOp → CacheAnswer × EdgeCache
  | (o, .insert cid bytes now) => (c.insert o.entries cid bytes now).map .done id
  | (o, .insertWithTtl cid bytes ttl now) =>
    (c.insertWithTtl o.entries cid bytes ttl now).map .done id
  | (_, .get cid now) => (c.get cid now).map .bytes id
  | (_, .purge cid) => (c.purge cid).map .done id
  | (o, .sweepExpired now) => (c.sweepExpired o.entries now).map .count id
  | (_, .containsFresh cid now) => (.done (c.containsFresh cid now), c)
  | (_, .byteLen cid) => (.number (c.byteLen cid), c)
  | (_, .age cid now) => (.number (c.age cid now), c)
  | (_, .ttlRemaining cid now) => (.number (c.ttlRemaining cid now), c)
  | (o, .noteAbsent cid now) => (.silent, c.noteAbsent o.tombstones cid now)
  | (_, .isNegative cid now) => (.silent, (c.isNegative cid now).2)

def RefCache.step (r : RefCache) : CacheOp → CacheAnswer × RefCache
  | .insert cid bytes now => (r.insertWithTtl cid bytes r.defaultTtlSecs now).map .done id
  | .insertWithTtl cid bytes ttl now => (r.insertWithTtl cid bytes ttl now).map .done id
  | .get cid now => (r.get cid now).map .bytes id
  | .purge cid => (r.purge cid).map .done id
  | .sweepExpired now => (r.sweepExpired now).map .count id
  | .containsFresh cid now =>
    (.done ((r.find cid).elim false fun e => decide (now ≤ e.expiresAt)), r)
  | .byteLen cid => (.number ((r.find cid).map fun e => e.bytes.length), r)
  | .age cid now => (.number ((r.find cid).map fun e => now - e.insertedAt), r)
  | .ttlRemaining cid now =>
    (.number ((r.find cid).map fun e =>
      if e.expiresAt = u64Max then u64Max else e.expiresAt - now), r)
  | .noteAbsent _ _ => (.silent, r)
  | .isNegative _ _ => (.silent, r)

/-- The CIDs that evictions under the given iteration orders take, in turn. -/
def EdgeCache.evictVictims : List (IterOrder String CacheEntry) → EdgeCache → List String
  | [], _ => []
  | o :: os, c =>
    match c.evictVictim o with
    | some v => v :: evictVictims os (c.evictOne o).2
    | none => []

/-! ## The simulation -/

/-- An entry without its tick and counters. -/
def refEntry (e : EdgeCache.Item) : RefEntry := ⟨e.1, e.2.bytes, e.2.insertedAt, e.2.expiresAt⟩

/-- The reference holds the cache's entries in the order of their ticks. -/
structure Refines (c : EdgeCache) (r : RefCache) (l : List EdgeCache.Item) : Prop where
  recency : c.Recency l
  entries : r.entries = l.map refEntry
  maxBytes : r.maxBytes = c.maxBytes
  ttl : r.defaultTtlSecs = c.defaultTtlSecs

namespace Refines

variable {c : EdgeCache} {r : RefCache} {l : List EdgeCache.Item}

theorem find (h : Refines c r l) (cid : String) :
    r.find cid = (c.entries.lookup cid).map fun e => refEntry ⟨cid, e⟩ := by
  have hl := h.recency.find? cid
  rw [RefCache.find, h.entries, List.find?_map]
  change (l.find? fun e => decide (e.1 = cid)).map refEntry = _
  rw [hl, Option.map_map]; rfl

theorem without (h : Refines c r l) (cid : String) :
    r.without cid = (l.filter fun e => decide (e.1 ≠ cid)).map refEntry := by
  rw [RefCache.without, h.entries, List.filter_map]; rfl

/-- The item an operation appends at the recent end. -/
theorem append {c c' : EdgeCache} {l : List EdgeCache.Item} {m : HashMap String CacheEntry}
    {cid : String} {e : CacheEntry} (hr : c.Recency l) (hp : l.Perm (m.erase cid).entries)
    (he : c'.entries = m.insert cid e) (htick : e.lastTick = c.tick + 1)
    (hc : c'.tick = c.tick + 1) (hb : c'.curBytes = c.curBytes + e.bytes.length) :
    c'.Recency (l ++ [⟨cid, e⟩]) := by
  refine ⟨?_, ?_, ?_, ?_⟩
  · rw [he, HashMap.entries_insert]
    exact List.perm_append_comm.trans (hp.cons _)
  · refine List.pairwise_append.2 ⟨hr.sorted, List.pairwise_singleton _ _, fun a ha b hb => ?_⟩
    obtain rfl := List.mem_singleton.1 hb
    have := hr.bounded a ha
    simp only [htick]; omega
  · intro x hx
    rcases List.mem_append.1 hx with hx | hx
    · have := hr.bounded x hx; omega
    · obtain rfl := List.mem_singleton.1 hx
      simp only [htick, hc, Nat.le_refl]
  · rw [hb, hr.bytes, Lru.size_append]; simp [EdgeCache.weight]

theorem insertWithTtl (h : Refines c r l) (ord : IterOrder String CacheEntry) (cid : String)
    (bytes : Bytes) (ttl now : Nat) :
    (c.insertWithTtl ord cid bytes ttl now).1 = (r.insertWithTtl cid bytes ttl now).1 ∧
      ∃ l', Refines (c.insertWithTtl ord cid bytes ttl now).2
        (r.insertWithTtl cid bytes ttl now).2 l' := by
  by_cases hlen : bytes.length ≤ c.maxBytes
  · obtain ⟨c', hev, hloop, heq⟩ := EdgeCache.insertWithTtl_eq ord cid ttl now hlen
    have hd := h.recency.drop cid
    have hmax : (c.dropEntry cid).2.maxBytes = c.maxBytes := by rw [EdgeCache.dropEntry_snd]
    have hn := hd.perm.length_eq
    have hkept := hd.evictUntilFits ord (n := (c.dropEntry cid).2.entries.entries.length)
      (by omega) (hmax.symm ▸ hlen)
    rw [← hloop, hmax] at hkept
    generalize hk : Lru.evictFor EdgeCache.weight c.maxBytes bytes.length
      (l.filter fun e => decide (e.1 ≠ cid)) = kept at hkept
    -- The old entry for the CID is gone, so the new one is the only one.
    have hfresh : ∀ x ∈ kept, decide (x.1 ≠ cid) = true := by
      intro x hx
      rw [← hk] at hx
      exact (List.mem_filter.1 ((Lru.evictFor_suffix _ _ _).subset hx)).2
    have hp := HashMap.perm_erase_of_perm hkept.perm cid
    rw [List.filter_eq_self.2 hfresh] at hp
    have href : r.insertWithTtl cid bytes ttl now =
        (true, ⟨r.maxBytes, r.defaultTtlSecs, kept.map refEntry ++
          [⟨cid, bytes, now, if ttl = 0 then u64Max else satAdd now ttl⟩]⟩) := by
      simp only [RefCache.insertWithTtl, h.maxBytes, gt_iff_lt, Nat.not_lt.2 hlen, if_false,
        h.without, Lru.evictFor_map, ← hk]
      rfl
    obtain ⟨⟨es, n, k, hf⟩, -⟩ := hev
    rw [EdgeCache.dropEntry_snd] at hf
    have ht : c'.tick = c.tick := by rw [hf]
    rw [heq, href]
    refine ⟨rfl, kept ++ [⟨cid, _⟩], append hkept hp rfl ?_ ?_ rfl, ?_, ?_, ?_⟩
    · simp only [ht]
    · simp only [ht]
    · rw [List.map_append]; rfl
    · simp only [hf]; exact h.maxBytes
    · simp only [hf]; exact h.ttl
  · have hgt := Nat.not_le.1 hlen
    simp only [EdgeCache.insertWithTtl, RefCache.insertWithTtl, h.maxBytes, gt_iff_lt, hgt, if_true]
    exact ⟨trivial, l, h⟩

/-- Dropping an entry, whatever counters change with it. -/
theorem drop {c' : EdgeCache} (h : Refines c r l) (cid : String) (d : EdgeCache)
    (hd : d = (c.dropEntry cid).2) (he : c'.entries = d.entries) (hb : c'.curBytes = d.curBytes)
    (ht : d.tick ≤ c'.tick) (hm : c'.maxBytes = d.maxBytes)
    (hdt : c'.defaultTtlSecs = d.defaultTtlSecs) :
    ∃ l', Refines c' { r with entries := r.without cid } l' := by
  have hdrop := h.recency.drop cid
  rw [← hd] at hdrop
  refine ⟨_, ⟨he ▸ hdrop.perm, hdrop.sorted, fun e hx => (hdrop.bounded e hx).trans ht, ?_⟩,
    h.without cid, ?_, ?_⟩
  · rw [hb, hdrop.bytes]
  · rw [hm, hd, EdgeCache.dropEntry_snd]; exact h.maxBytes
  · rw [hdt, hd, EdgeCache.dropEntry_snd]; exact h.ttl

theorem get (h : Refines c r l) (cid : String) (now : Nat) :
    (c.get cid now).1 = (r.get cid now).1 ∧
      ∃ l', Refines (c.get cid now).2 (r.get cid now).2 l' := by
  have hfind := h.find cid
  rcases EdgeCache.get_cases cid now c with ⟨e, he, hn, hg⟩ | ⟨e, he, hn, hg⟩ | ⟨he, hg⟩ <;>
    rw [he] at hfind <;> simp only [Option.map_some, Option.map_none] at hfind
  · have hd := h.recency.drop cid
    rw [EdgeCache.dropEntry_snd] at hd
    have hheld : EdgeCache.heldBytes cid c = e.bytes.length := by
      simp only [EdgeCache.heldBytes, he]
    have htot := HashMap.total_erase (f := fun e : CacheEntry => e.bytes.length) he
    have hcur := h.recency.total_eq
    have hr : r.get cid now = (some e.bytes,
        ⟨r.maxBytes, r.defaultTtlSecs, r.without cid ++ [refEntry ⟨cid, e⟩]⟩) := by
      simp only [RefCache.get, hfind, refEntry, if_pos hn]
    rw [hg, hr]
    refine ⟨rfl, _, append hd (HashMap.perm_erase_of_perm h.recency.perm cid) rfl rfl rfl ?_,
      ?_, h.maxBytes, h.ttl⟩
    · simp only [hheld]; omega
    · rw [h.without, List.map_append]; rfl
  · have hr : r.get cid now = (none, { r with entries := r.without cid }) := by
      simp only [RefCache.get, hfind, refEntry, if_neg (Nat.not_le.2 hn)]
    rw [hg, hr]
    exact ⟨rfl, h.drop cid _ rfl rfl rfl (by rw [EdgeCache.dropEntry_snd]; simp) rfl rfl⟩
  · have hr : r.get cid now = (none, r) := by simp only [RefCache.get, hfind]
    rw [hg, hr]
    refine ⟨rfl, l, ⟨h.recency.perm, h.recency.sorted, fun e hx => ?_, h.recency.bytes⟩,
      h.entries, h.maxBytes, h.ttl⟩
    exact (h.recency.bounded e hx).trans (Nat.le_succ _)

theorem purge (h : Refines c r l) (cid : String) :
    (c.purge cid).1 = (r.purge cid).1 ∧ ∃ l', Refines (c.purge cid).2 (r.purge cid).2 l' := by
  refine ⟨?_, h.drop cid _ rfl rfl rfl (Nat.le_refl _) rfl rfl⟩
  rw [EdgeCache.purge, RefCache.purge, EdgeCache.dropEntry_fst, h.find, Option.isSome_map]

/-! ## Sweeping -/

theorem foldl_expireOne : ∀ (ks : List String) {c : EdgeCache} {l : List EdgeCache.Item},
    c.Recency l →
      (ks.foldl EdgeCache.expireOne c).Recency (l.filter fun e => decide (e.1 ∉ ks))
  | [], c, l, h => by
    rw [List.filter_eq_self.2 (by simp)]; exact h
  | k :: ks, c, l, h => by
    have hd := h.drop k
    have he : (EdgeCache.expireOne c k).Recency (l.filter fun e => decide (e.1 ≠ k)) :=
      ⟨hd.perm, hd.sorted, hd.bounded, hd.bytes⟩
    have ih := foldl_expireOne ks he
    rw [List.filter_filter] at ih
    rw [List.foldl_cons]
    convert ih using 3 with e
    simp [Bool.and_comm]

theorem mem_dead (hr : c.Recency l) (ord : IterOrder String CacheEntry) (now : Nat)
    {e : EdgeCache.Item} (he : e ∈ l) :
    e.1 ∈ EdgeCache.dead ord now c ↔ now > e.2.expiresAt := by
  have hmem := hr.perm.mem_iff.1 he
  simp only [EdgeCache.dead, List.mem_map, List.mem_filter, decide_eq_true_eq]
  constructor
  · rintro ⟨x, ⟨hx, hnow⟩, hk⟩
    have hx' := (ord.perm _).mem_iff.1 hx
    rwa [c.entries.nodupKeys.eq_of_fst_eq hx' hmem hk] at hnow
  · exact fun hnow => ⟨e, ⟨(ord.perm _).mem_iff.2 hmem, hnow⟩, rfl⟩

theorem sweepExpired (h : Refines c r l) (ord : IterOrder String CacheEntry) (now : Nat) :
    (c.sweepExpired ord now).1 = (r.sweepExpired now).1 ∧
      ∃ l', Refines (c.sweepExpired ord now).2 (r.sweepExpired now).2 l' := by
  have hs := foldl_expireOne (EdgeCache.dead ord now c) h.recency
  obtain ⟨es, n, k, hf⟩ := EdgeCache.foldl_expireOne_frame (EdgeCache.dead ord now c) c
  refine ⟨?_, _, ⟨hs.perm, hs.sorted, hs.bounded, hs.bytes⟩, ?_, ?_, ?_⟩
  · have hp := ((ord.perm c.entries).trans h.recency.perm.symm).filter
      fun e => decide (now > e.2.expiresAt)
    simp only [EdgeCache.sweepExpired, EdgeCache.dead, RefCache.sweepExpired, List.length_map,
      h.entries, List.filter_map]
    exact hp.length_eq
  · have hfresh : l.filter (fun e => decide (e.1 ∉ EdgeCache.dead ord now c)) =
        l.filter (fun e => decide ¬ now > e.2.expiresAt) :=
      List.filter_congr fun e he => by simp only [mem_dead h.recency ord now he]
    simp only [RefCache.sweepExpired, h.entries, List.filter_map]
    rw [hfresh]
    rfl
  · simp only [EdgeCache.sweepExpired, hf]; exact h.maxBytes
  · simp only [EdgeCache.sweepExpired, hf]; exact h.ttl

/-- Tombstone operations and counters leave the entries alone. -/
theorem frame {c' : EdgeCache} (h : Refines c r l)
    (hf : ∃ ts n, c' = { c with tombstones := ts, negativeHits := n }) : Refines c' r l := by
  obtain ⟨ts, n, rfl⟩ := hf
  exact ⟨⟨h.recency.perm, h.recency.sorted, h.recency.bounded, h.recency.bytes⟩,
    h.entries, h.maxBytes, h.ttl⟩

theorem noteAbsent (h : Refines c r l) (ord : IterOrder String Tombstone) (cid : String)
    (now : Nat) : Refines (c.noteAbsent ord cid now) r l := by
  refine h.frame ?_
  unfold EdgeCache.noteAbsent
  split
  · exact ⟨_, _, rfl⟩
  · exact ⟨_, _, rfl⟩

theorem isNegative (h : Refines c r l) (cid : String) (now : Nat) :
    Refines (c.isNegative cid now).2 r l := by
  refine h.frame ?_
  unfold EdgeCache.isNegative
  split
  · split
    · exact ⟨_, _, rfl⟩
    · exact ⟨_, _, rfl⟩
  · exact ⟨_, _, rfl⟩

/-- One operation: the same answer, and the simulation again. -/
theorem step (h : Refines c r l) (o : Orders) (op : CacheOp) :
    (c.step (o, op)).1 = (r.step op).1 ∧ ∃ l', Refines (c.step (o, op)).2 (r.step op).2 l' := by
  cases op with
  | insert cid bytes now =>
    have := h.insertWithTtl o.entries cid bytes c.defaultTtlSecs now
    simp only [EdgeCache.step, RefCache.step, EdgeCache.insert, h.ttl, Prod.map, id]
    exact ⟨congrArg _ this.1, this.2⟩
  | insertWithTtl cid bytes ttl now =>
    have := h.insertWithTtl o.entries cid bytes ttl now
    exact ⟨congrArg _ this.1, this.2⟩
  | get cid now => exact ⟨congrArg _ (h.get cid now).1, (h.get cid now).2⟩
  | purge cid => exact ⟨congrArg _ (h.purge cid).1, (h.purge cid).2⟩
  | sweepExpired now =>
    have := h.sweepExpired o.entries now
    exact ⟨congrArg _ this.1, this.2⟩
  | containsFresh cid now =>
    refine ⟨?_, l, h⟩
    simp only [EdgeCache.step, RefCache.step, EdgeCache.containsFresh, h.find]
    cases c.entries.lookup cid <;> rfl
  | byteLen cid =>
    refine ⟨?_, l, h⟩
    simp only [EdgeCache.step, RefCache.step, EdgeCache.byteLen, h.find, Option.map_map]; rfl
  | age cid now =>
    refine ⟨?_, l, h⟩
    simp only [EdgeCache.step, RefCache.step, EdgeCache.age, h.find, Option.map_map]; rfl
  | ttlRemaining cid now =>
    refine ⟨?_, l, h⟩
    simp only [EdgeCache.step, RefCache.step, EdgeCache.ttlRemaining, h.find, Option.map_map]; rfl
  | noteAbsent cid now => exact ⟨rfl, l, h.noteAbsent o.tombstones cid now⟩
  | isNegative cid now => exact ⟨rfl, l, h.isNegative cid now⟩

end Refines

/-- Evictions take the least recently used entry each time, whatever the
iteration order of each. -/
theorem evictVictims_eq : ∀ (os : List (IterOrder String CacheEntry)) {c : EdgeCache}
    {l : List EdgeCache.Item}, c.Recency l →
      c.evictVictims os = (l.take os.length).map (·.1)
  | [], _, _, _ => rfl
  | o :: os, c, [], h => by
    have hv := h.evictVictim_eq o
    simp only [List.head?_nil, Option.map_none] at hv
    simp only [EdgeCache.evictVictims, hv, List.take_nil, List.map_nil]
  | o :: os, c, a :: l, h => by
    have hv := h.evictVictim_eq o
    simp only [List.head?_cons, Option.map_some] at hv
    have ih := evictVictims_eq os (h.evictOne o).2
    simp only [EdgeCache.evictVictims, hv, ih, List.length_cons, List.take_succ_cons, List.map_cons]

/-- **The edge cache refines the reference.** From new caches, for every
sequence of operations with any clock values and any iteration orders, the
answers are the reference's; the entries are the reference's; and evictions
from the state reached would take the reference's entries from the least
recent end, whatever orders they iterate in. -/
theorem cache_refines_reference (maxBytes ttl negativeTtl : Nat) (ops : List (Orders × CacheOp)) :
    let start := (EdgeCache.new maxBytes ttl).withNegativeTtl negativeTtl
    let c := Machine.final EdgeCache.step start ops
    let r := Machine.final (fun r i => RefCache.step r i.2) (RefCache.new maxBytes ttl) ops
    Machine.outputs EdgeCache.step start ops =
        Machine.outputs (fun r i => RefCache.step r i.2) (RefCache.new maxBytes ttl) ops ∧
      (c.entries.entries.map refEntry).Perm r.entries ∧
      ∀ os, c.evictVictims os = (r.entries.take os.length).map (·.cid) := by
  intro start c r
  have h₀ : Refines start (RefCache.new maxBytes ttl) [] :=
    ⟨⟨.refl _, .nil, by simp, rfl⟩, rfl, rfl, rfl⟩
  obtain ⟨hout, l, hl⟩ := Machine.outputs_eq_of_sim EdgeCache.step
    (fun r (i : Orders × CacheOp) => RefCache.step r i.2)
    (R := fun c r => ∃ l, Refines c r l) (fun c r i ⟨l, h⟩ => h.step i.1 i.2) ⟨[], h₀⟩ ops
  refine ⟨hout, ?_, fun os => ?_⟩
  · rw [show r.entries = l.map refEntry from hl.entries]
    exact (hl.recency.perm.map refEntry).symm
  · rw [evictVictims_eq os hl.recency, show r.entries = l.map refEntry from hl.entries,
      ← List.map_take, List.map_map]
    rfl

end CeCdn
