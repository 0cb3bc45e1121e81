/-
Facts about the edge cache. Two views of an operation: which entries it
leaves (`lookup_dropEntry`, `lookup_insertWithTtl`, `lookup_get`), and what it
does to the list of entries in order of recency (`Recency`), of which the
ticks and the byte count are a representation.
-/
import CeCdn.Cache
import CeCdn.Lib.Lru

namespace CeCdn.EdgeCache

open Lib Word

/-! ## Which entries an operation leaves -/

/-- The bytes the cache holds under a key. -/
def heldBytes (cid : String) (c : EdgeCache) : Nat :=
  match c.entries.lookup cid with
  | some e => e.bytes.length
  | none => 0

theorem dropEntry_snd (cid : String) (c : EdgeCache) :
    (dropEntry cid c).2 =
      { c with entries := c.entries.erase cid, curBytes := c.curBytes - heldBytes cid c } := by
  unfold dropEntry heldBytes
  cases h : c.entries.lookup cid with
  | some e => rfl
  | none =>
    have hk : c.entries.erase cid = c.entries :=
      AList.ext (List.kerase_of_notMem_keys (AList.lookup_eq_none.1 h))
    simp only [hk, Nat.sub_zero]

theorem dropEntry_fst (cid : String) (c : EdgeCache) :
    (dropEntry cid c).1 = (c.entries.lookup cid).isSome := by
  unfold dropEntry
  cases h : c.entries.lookup cid <;> rfl

/-- Evicting changes the entries, the byte count and one counter, and only
takes entries away. -/
structure Evicts (c c' : EdgeCache) : Prop where
  frame : ∃ es n k, c' = { c with entries := es, curBytes := n, evictions := k }
  sub : ∀ k e, c'.entries.lookup k = some e → c.entries.lookup k = some e

theorem Evicts.refl (c : EdgeCache) : Evicts c c := ⟨⟨_, _, _, rfl⟩, fun _ _ h => h⟩

theorem Evicts.trans {a b c : EdgeCache} (h : Evicts a b) (h' : Evicts b c) : Evicts a c := by
  obtain ⟨⟨es, n, k, rfl⟩, hs⟩ := h
  obtain ⟨⟨es', n', k', rfl⟩, hs'⟩ := h'
  exact ⟨⟨es', n', k', rfl⟩, fun x e hx => hs x e (hs' x e hx)⟩

/-- What is not held is not held after an eviction. -/
theorem Evicts.none {c c' : EdgeCache} (h : Evicts c c') {k : String}
    (hn : c.entries.lookup k = none) : c'.entries.lookup k = none := by
  refine Option.eq_none_iff_forall_ne_some.2 fun e he => ?_
  rw [h.sub k e he] at hn
  cases hn

theorem evicts_dropEntry (cid : String) (c : EdgeCache) : Evicts c (dropEntry cid c).2 := by
  rw [dropEntry_snd]
  exact ⟨⟨_, _, _, rfl⟩, fun k e h => (HashMap.lookup_erase_eq_some.1 h).2⟩

theorem evicts_evictOne (ord : IterOrder String CacheEntry) (c : EdgeCache) :
    Evicts c (evictOne ord c).2 := by
  unfold evictOne
  split
  · exact Evicts.refl c
  · next victim _ =>
    obtain ⟨⟨es, n, k, he⟩, hs⟩ := evicts_dropEntry victim c
    exact ⟨⟨es, n, k + 1, by simp only [he]⟩, hs⟩

theorem evicts_evictUntilFits (ord : IterOrder String CacheEntry) (len : Nat) :
    ∀ (n : Nat) (c : EdgeCache), Evicts c (evictUntilFits ord len n c)
  | 0, c => Evicts.refl c
  | n + 1, c => by
    simp only [evictUntilFits]
    split
    · split
      · exact (evicts_evictOne ord c).trans (evicts_evictUntilFits ord len n _)
      · exact evicts_evictOne ord c
    · exact Evicts.refl c

/-- The cache an insert of an object within the budget leaves: the evicted
cache, the CID's tombstone gone, and the new entry. -/
theorem insertWithTtl_eq (ord : IterOrder String CacheEntry) (cid : String) {bytes : Bytes}
    (ttlSecs now : Nat) {c : EdgeCache} (hlen : bytes.length ≤ c.maxBytes) :
    ∃ c', Evicts (dropEntry cid c).2 c' ∧
      c' = evictUntilFits ord bytes.length (dropEntry cid c).2.entries.entries.length
        (dropEntry cid c).2 ∧
      insertWithTtl ord cid bytes ttlSecs now c = (true, { c' with
        tombstones := c.tombstones.erase cid
        tick := c.tick + 1
        curBytes := c'.curBytes + bytes.length
        entries := c'.entries.insert cid
          { bytes, insertedAt := now,
            expiresAt := if ttlSecs = 0 then u64Max else satAdd now ttlSecs,
            lastTick := c.tick + 1, hits := 0, misses := 0 } }) := by
  refine ⟨_, evicts_evictUntilFits ord _ _ _, rfl, ?_⟩
  have hev := evicts_evictUntilFits ord bytes.length
    (dropEntry cid c).2.entries.entries.length (dropEntry cid c).2
  obtain ⟨⟨es, n, k, he⟩, -⟩ := hev
  simp only [insertWithTtl, gt_iff_lt, Nat.not_lt.2 hlen, if_false, nextTick, he]
  rw [dropEntry_snd]

/-- An object within the budget is accepted. -/
theorem insertWithTtl_of_le (ord : IterOrder String CacheEntry) (cid : String) {bytes : Bytes}
    (ttlSecs now : Nat) {c : EdgeCache} (hlen : bytes.length ≤ c.maxBytes) :
    (insertWithTtl ord cid bytes ttlSecs now c).1 = true := by
  obtain ⟨c', -, -, heq⟩ := insertWithTtl_eq ord cid ttlSecs now hlen
  rw [heq]

/-- A larger one is refused, and nothing changes. -/
theorem insertWithTtl_of_lt (ord : IterOrder String CacheEntry) (cid : String) {bytes : Bytes}
    (ttlSecs now : Nat) {c : EdgeCache} (hlen : c.maxBytes < bytes.length) :
    insertWithTtl ord cid bytes ttlSecs now c = (false, c) := by
  simp only [insertWithTtl, gt_iff_lt, hlen, if_true]

/-- After an insert a key holds the new bytes or what it held before. -/
theorem lookup_insertWithTtl {ord : IterOrder String CacheEntry} {cid : String} {bytes : Bytes}
    {ttlSecs now : Nat} {c : EdgeCache} {k : String} {e : CacheEntry}
    (h : (insertWithTtl ord cid bytes ttlSecs now c).2.entries.lookup k = some e) :
    (k = cid ∧ e.bytes = bytes ∧ bytes.length ≤ c.maxBytes) ∨ c.entries.lookup k = some e := by
  by_cases hlen : bytes.length ≤ c.maxBytes
  · obtain ⟨c', hev, -, heq⟩ := insertWithTtl_eq ord cid ttlSecs now hlen
    rw [heq] at h
    obtain ⟨hk, rfl⟩ | ⟨-, hold⟩ := HashMap.lookup_insert_eq_some.1 h
    · exact .inl ⟨hk, rfl, hlen⟩
    · exact .inr ((evicts_dropEntry cid c).sub k e (hev.sub k e hold))
  · rw [insertWithTtl_of_lt ord cid ttlSecs now (Nat.not_le.1 hlen)] at h
    exact .inr h

/-- The object just inserted is what a read finds until it expires. -/
theorem get_insertWithTtl {ord : IterOrder String CacheEntry} {cid : String} {bytes : Bytes}
    {ttlSecs now now' : Nat} {c : EdgeCache} (hlen : bytes.length ≤ c.maxBytes)
    (hnow : now' ≤ if ttlSecs = 0 then u64Max else satAdd now ttlSecs) :
    (get cid now' (insertWithTtl ord cid bytes ttlSecs now c).2).1 = some bytes := by
  obtain ⟨c', -, -, heq⟩ := insertWithTtl_eq ord cid ttlSecs now hlen
  rw [heq]
  simp only [get, nextTick, AList.lookup_insert, if_pos hnow]

/-- A read: the fresh entry's bytes with its recency and hits bumped, or a
miss that leaves no entry under the key. -/
theorem get_cases (cid : String) (now : Nat) (c : EdgeCache) :
    (∃ e, c.entries.lookup cid = some e ∧ now ≤ e.expiresAt ∧
      get cid now c = (some e.bytes, { c with
        tick := c.tick + 1
        entries := c.entries.insert cid { e with lastTick := c.tick + 1, hits := e.hits + 1 }
        hits := c.hits + 1 })) ∨
    (∃ e, c.entries.lookup cid = some e ∧ e.expiresAt < now ∧
      get cid now c = (none, { (dropEntry cid c).2 with
        tick := c.tick + 1
        expirations := c.expirations + 1
        misses := c.misses + 1 })) ∨
    (c.entries.lookup cid = none ∧
      get cid now c = (none, { c with tick := c.tick + 1, misses := c.misses + 1 })) := by
  cases h : c.entries.lookup cid with
  | none =>
    refine .inr (.inr ⟨rfl, ?_⟩)
    simp only [get, nextTick, h]
  | some e =>
    by_cases hfresh : now ≤ e.expiresAt
    · refine .inl ⟨e, rfl, hfresh, ?_⟩
      simp only [get, nextTick, h, if_pos hfresh]
    · refine .inr (.inl ⟨e, rfl, Nat.not_le.1 hfresh, ?_⟩)
      simp only [get, nextTick, h, if_neg hfresh, dropEntry_snd, heldBytes, AList.lookup_insert,
        HashMap.erase_insert_self]

/-- A read returns the bytes stored under the key. -/
theorem get_eq_some {cid : String} {now : Nat} {c : EdgeCache} {b : Bytes}
    (h : (get cid now c).1 = some b) :
    ∃ e, c.entries.lookup cid = some e ∧ e.bytes = b ∧ now ≤ e.expiresAt := by
  rcases get_cases cid now c with ⟨e, he, hn, hg⟩ | ⟨e, -, -, hg⟩ | ⟨-, hg⟩
  · rw [hg] at h; cases h; exact ⟨e, he, rfl, hn⟩
  · rw [hg] at h; cases h
  · rw [hg] at h; cases h

/-- A read hits exactly when the cache says the key is fresh. -/
theorem get_isSome (cid : String) (now : Nat) (c : EdgeCache) :
    (get cid now c).1.isSome = containsFresh cid now c := by
  rcases get_cases cid now c with ⟨e, he, hn, hg⟩ | ⟨e, he, hn, hg⟩ | ⟨he, hg⟩
  · simp [hg, containsFresh, he, hn]
  · simp [hg, containsFresh, he, Nat.not_le.2 hn]
  · simp [hg, containsFresh, he]

/-- A read changes the bytes under no key. -/
theorem lookup_get {cid : String} {now : Nat} {c : EdgeCache} {k : String} {e : CacheEntry}
    (h : (get cid now c).2.entries.lookup k = some e) :
    ∃ e', c.entries.lookup k = some e' ∧ e'.bytes = e.bytes := by
  rcases get_cases cid now c with ⟨e', he', -, hg⟩ | ⟨e', -, -, hg⟩ | ⟨-, hg⟩
  · rw [hg] at h
    obtain ⟨rfl, rfl⟩ | ⟨-, hold⟩ := HashMap.lookup_insert_eq_some.1 h
    · exact ⟨e', he', rfl⟩
    · exact ⟨e, hold, rfl⟩
  · rw [hg] at h
    exact ⟨e, (evicts_dropEntry cid c).sub k e h, rfl⟩
  · rw [hg] at h; exact ⟨e, h, rfl⟩

/-- Sweeping only takes entries away. -/
theorem lookup_foldl_expireOne {k : String} {e : CacheEntry} : ∀ {ks : List String} {c : EdgeCache},
    (ks.foldl expireOne c).entries.lookup k = some e → c.entries.lookup k = some e
  | [], _, h => h
  | x :: _, c, h => (evicts_dropEntry x c).sub k e (lookup_foldl_expireOne (c := expireOne c x) h)

theorem lookup_sweepExpired {ord : IterOrder String CacheEntry} {now : Nat} {c : EdgeCache}
    {k : String} {e : CacheEntry} (h : (sweepExpired ord now c).2.entries.lookup k = some e) :
    c.entries.lookup k = some e := lookup_foldl_expireOne h

theorem lookup_sweepExpired_of_none {ord : IterOrder String CacheEntry} {now : Nat} {c : EdgeCache}
    {k : String} (hn : c.entries.lookup k = none) :
    (sweepExpired ord now c).2.entries.lookup k = none := by
  refine Option.eq_none_iff_forall_ne_some.2 fun e he => ?_
  rw [lookup_sweepExpired he] at hn
  cases hn

theorem foldl_expireOne_frame : ∀ (ks : List String) (c : EdgeCache),
    ∃ es n k, ks.foldl expireOne c = { c with entries := es, curBytes := n, expirations := k }
  | [], c => ⟨_, _, _, rfl⟩
  | x :: ks, c => by
    obtain ⟨es, n, k, he⟩ := foldl_expireOne_frame ks (expireOne c x)
    refine ⟨es, n, k, ?_⟩
    rw [List.foldl_cons, he, expireOne, dropEntry_snd]

/-! ## What the operations leave alone -/

theorem insertWithTtl_frame (ord : IterOrder String CacheEntry) (cid : String) (bytes : Bytes)
    (ttlSecs now : Nat) (c : EdgeCache) :
    ∃ es ts n t k, (insertWithTtl ord cid bytes ttlSecs now c).2 =
      { c with entries := es, tombstones := ts, curBytes := n, tick := t, evictions := k } := by
  by_cases hlen : bytes.length ≤ c.maxBytes
  · obtain ⟨c', ⟨⟨es, n, k, he⟩, -⟩, -, heq⟩ := insertWithTtl_eq ord cid ttlSecs now hlen
    rw [heq, he, dropEntry_snd]
    exact ⟨_, _, _, _, _, rfl⟩
  · rw [insertWithTtl_of_lt ord cid ttlSecs now (Nat.not_le.1 hlen)]
    exact ⟨_, _, _, _, _, rfl⟩

theorem sweepExpired_frame (ord : IterOrder String CacheEntry) (now : Nat) (c : EdgeCache) :
    ∃ es n k, (sweepExpired ord now c).2 = { c with
      entries := es
      tombstones := c.tombstones.retain fun _ t => now ≤ t.expiresAt
      curBytes := n
      expirations := k } := by
  obtain ⟨es, n, k, hf⟩ := foldl_expireOne_frame (dead ord now c) c
  simp only [sweepExpired, hf]
  exact ⟨_, _, _, rfl⟩

theorem noteAbsent_frame (ord : IterOrder String Tombstone) (cid : String) (now : Nat)
    (c : EdgeCache) : ∃ ts, noteAbsent ord cid now c = { c with tombstones := ts } := by
  unfold noteAbsent
  split
  · exact ⟨_, rfl⟩
  · exact ⟨_, rfl⟩

theorem isNegative_frame (cid : String) (now : Nat) (c : EdgeCache) :
    ∃ ts n, (isNegative cid now c).2 = { c with tombstones := ts, negativeHits := n } := by
  unfold isNegative
  split
  · split
    · exact ⟨_, _, rfl⟩
    · exact ⟨_, _, rfl⟩
  · exact ⟨_, _, rfl⟩

/-- A key is negative while its tombstone has not expired. -/
theorem isNegative_fst (cid : String) (now : Nat) (c : EdgeCache) :
    (isNegative cid now c).1 = (c.tombstones.lookup cid).any fun t => decide (now ≤ t.expiresAt) := by
  unfold isNegative
  split
  · next t ht =>
    by_cases hnow : now ≤ t.expiresAt
    · simp [ht, hnow]
    · simp [ht, hnow]
  · next ht => simp [ht]

/-- Asking for one key drops the tombstone of no other, nor one that has not
expired. -/
theorem tombstones_isNegative {cid k : String} {now : Nat} {c : EdgeCache} {t : Tombstone}
    (ht : c.tombstones.lookup k = some t) (h : k ≠ cid ∨ now ≤ t.expiresAt) :
    (isNegative cid now c).2.tombstones.lookup k = some t := by
  unfold isNegative
  split
  · next t' ht' =>
    split
    · exact ht
    · next hlate =>
      simp only [HashMap.lookup_erase_eq]
      split
      · next hk =>
        subst hk
        cases ht.symm.trans ht'
        exact absurd (h.resolve_left fun hne => hne rfl) hlate
      · exact ht
  · exact ht

theorem tombstones_insert {ord : IterOrder String CacheEntry} {cid k : String} {b : Bytes} {now : Nat}
    {c : EdgeCache} (hne : k ≠ cid) :
    (insert ord cid b now c).2.tombstones.lookup k = c.tombstones.lookup k := by
  by_cases hlen : b.length ≤ c.maxBytes
  · obtain ⟨c', -, -, heq⟩ := insertWithTtl_eq ord cid c.defaultTtlSecs now hlen
    rw [insert, heq]
    exact AList.lookup_erase_ne hne
  · rw [insert, insertWithTtl_of_lt ord cid _ now (Nat.not_le.1 hlen)]

/-- While there is room, remembering one key evicts no other. -/
theorem tombstones_noteAbsent {ord : IterOrder String Tombstone} {cid k : String} {now : Nat}
    {c : EdgeCache} (hroom : c.tombstones.entries.length < c.maxTombstones) (hne : k ≠ cid) :
    (noteAbsent ord cid now c).tombstones.lookup k = c.tombstones.lookup k := by
  unfold noteAbsent
  split
  · rfl
  · rw [if_neg fun h => absurd h.1 (Nat.not_le.2 hroom)]
    exact AList.lookup_insert_ne hne

theorem get_tombstones (cid : String) (now : Nat) (c : EdgeCache) :
    (get cid now c).2.tombstones = c.tombstones := by
  rcases get_cases cid now c with ⟨e, -, -, hg⟩ | ⟨e, -, -, hg⟩ | ⟨-, hg⟩
  · rw [hg]
  · rw [hg, dropEntry_snd]
  · rw [hg]

/-- How a cache is configured. -/
def config (c : EdgeCache) : Nat × Nat × Nat × Nat :=
  (c.maxBytes, c.defaultTtlSecs, c.negativeTtlSecs, c.maxTombstones)

/-- The reads a cache has counted. -/
def reads (c : EdgeCache) : Nat := c.hits + c.misses

@[simp] theorem config_dropEntry (cid : String) (c : EdgeCache) :
    (dropEntry cid c).2.config = c.config := by rw [dropEntry_snd]; rfl

@[simp] theorem reads_dropEntry (cid : String) (c : EdgeCache) :
    (dropEntry cid c).2.reads = c.reads := by rw [dropEntry_snd]; rfl

@[simp] theorem config_insertWithTtl (ord : IterOrder String CacheEntry) (cid : String)
    (bytes : Bytes) (ttlSecs now : Nat) (c : EdgeCache) :
    (insertWithTtl ord cid bytes ttlSecs now c).2.config = c.config := by
  obtain ⟨es, ts, n, t, k, h⟩ := insertWithTtl_frame ord cid bytes ttlSecs now c
  rw [h]; rfl

@[simp] theorem reads_insert (ord : IterOrder String CacheEntry) (cid : String) (bytes : Bytes)
    (now : Nat) (c : EdgeCache) : (insert ord cid bytes now c).2.reads = c.reads := by
  obtain ⟨es, ts, n, t, k, h⟩ := insertWithTtl_frame ord cid bytes c.defaultTtlSecs now c
  rw [insert, h]; rfl

@[simp] theorem config_sweepExpired (ord : IterOrder String CacheEntry) (now : Nat)
    (c : EdgeCache) : (sweepExpired ord now c).2.config = c.config := by
  obtain ⟨es, n, k, h⟩ := sweepExpired_frame ord now c
  rw [h]; rfl

@[simp] theorem reads_sweepExpired (ord : IterOrder String CacheEntry) (now : Nat)
    (c : EdgeCache) : (sweepExpired ord now c).2.reads = c.reads := by
  obtain ⟨es, n, k, h⟩ := sweepExpired_frame ord now c
  rw [h]; rfl

@[simp] theorem config_noteAbsent (ord : IterOrder String Tombstone) (cid : String) (now : Nat)
    (c : EdgeCache) : (noteAbsent ord cid now c).config = c.config := by
  obtain ⟨ts, h⟩ := noteAbsent_frame ord cid now c
  rw [h]; rfl

@[simp] theorem reads_noteAbsent (ord : IterOrder String Tombstone) (cid : String) (now : Nat)
    (c : EdgeCache) : (noteAbsent ord cid now c).reads = c.reads := by
  obtain ⟨ts, h⟩ := noteAbsent_frame ord cid now c
  rw [h]; rfl

@[simp] theorem config_isNegative (cid : String) (now : Nat) (c : EdgeCache) :
    (isNegative cid now c).2.config = c.config := by
  obtain ⟨ts, n, h⟩ := isNegative_frame cid now c
  rw [h]; rfl

@[simp] theorem reads_isNegative (cid : String) (now : Nat) (c : EdgeCache) :
    (isNegative cid now c).2.reads = c.reads := by
  obtain ⟨ts, n, h⟩ := isNegative_frame cid now c
  rw [h]; rfl

@[simp] theorem config_get (cid : String) (now : Nat) (c : EdgeCache) :
    (get cid now c).2.config = c.config := by
  rcases get_cases cid now c with ⟨e, -, -, hg⟩ | ⟨e, -, -, hg⟩ | ⟨-, hg⟩
  · rw [hg]; rfl
  · rw [hg, dropEntry_snd]; rfl
  · rw [hg]; rfl

/-- Each `get` counts one read. -/
@[simp] theorem reads_get (cid : String) (now : Nat) (c : EdgeCache) :
    (get cid now c).2.reads = c.reads + 1 := by
  rcases get_cases cid now c with ⟨e, -, -, hg⟩ | ⟨e, -, -, hg⟩ | ⟨-, hg⟩
  · rw [hg]; exact Nat.add_right_comm _ _ _
  · rw [hg, dropEntry_snd]; exact (Nat.add_assoc _ _ _).symm
  · rw [hg]; exact (Nat.add_assoc _ _ _).symm

/-! ## Recency -/

abbrev Item := Σ _ : String, CacheEntry

def weight (e : Item) : Nat := e.2.bytes.length

/-- `l` lists the entries, the least recently used first, and the byte count
is their total. -/
structure Recency (c : EdgeCache) (l : List Item) : Prop where
  perm : l.Perm c.entries.entries
  sorted : l.Pairwise fun a b => a.2.lastTick < b.2.lastTick
  bounded : ∀ e ∈ l, e.2.lastTick ≤ c.tick
  bytes : c.curBytes = Lru.size weight l

namespace Recency

variable {c : EdgeCache} {l : List Item}

theorem total_eq (h : Recency c l) :
    c.curBytes = HashMap.total (fun e => e.bytes.length) c.entries := by
  rw [h.bytes, ← HashMap.total_of_perm h.perm]; rfl

/-- Distinct entries have distinct keys. -/
theorem keys (h : Recency c l) {a : Item} {l₁ l₂ : List Item} (hl : l = l₁ ++ a :: l₂) :
    ∀ e ∈ l₁ ++ l₂, e.1 ≠ a.1 := by
  have hn : l.NodupKeys := (List.perm_nodupKeys h.perm).2 c.entries.nodupKeys
  rw [hl, List.nodupKeys_middle] at hn
  intro e he hk
  exact (List.nodupKeys_cons.1 hn).1 (hk ▸ List.mem_keys_of_mem he)

theorem find? (h : Recency c l) (cid : String) :
    l.find? (fun e => decide (e.1 = cid)) = (c.entries.lookup cid).map fun e => ⟨cid, e⟩ :=
  HashMap.find?_of_perm h.perm cid

theorem drop (h : Recency c l) (cid : String) :
    Recency (dropEntry cid c).2 (l.filter fun e => decide (e.1 ≠ cid)) := by
  have hp := HashMap.perm_erase_of_perm h.perm cid
  rw [dropEntry_snd]
  refine ⟨hp, h.sorted.filter _, fun e he => h.bounded e (List.mem_filter.1 he).1, ?_⟩
  have hsize : Lru.size weight (l.filter fun e => decide (e.1 ≠ cid)) =
      HashMap.total (fun e => e.bytes.length) (c.entries.erase cid) :=
    HashMap.total_of_perm (f := fun e : CacheEntry => e.bytes.length) hp
  rw [hsize, h.total_eq, heldBytes]
  cases hl : c.entries.lookup cid with
  | some e =>
    have := HashMap.total_erase (f := fun e : CacheEntry => e.bytes.length) hl
    change HashMap.total _ c.entries - e.bytes.length = _
    omega
  | none =>
    have hk : c.entries.erase cid = c.entries :=
      AList.ext (List.kerase_of_notMem_keys (AList.lookup_eq_none.1 hl))
    rw [hk]; rfl

/-- Whatever the iteration order, the victim is the least recently used. -/
theorem evictVictim_eq (h : Recency c l) (ord : IterOrder String CacheEntry) :
    evictVictim ord c = l.head?.map (·.1) := by
  cases l with
  | nil =>
    have : c.entries.entries = [] := by simpa using h.perm
    exact HashMap.minByKey_eq_none.2 this
  | cons a l =>
    refine HashMap.minByKey_of_lt (h.perm.mem_iff.1 (by simp)) fun x hx hne => ?_
    rcases List.mem_cons.1 (h.perm.mem_iff.2 hx) with rfl | hx
    · exact absurd rfl hne
    · exact List.rel_of_pairwise_cons h.sorted hx

theorem evictOne {a : Item} (h : Recency c (a :: l)) (ord : IterOrder String CacheEntry) :
    (EdgeCache.evictOne ord c).1 = true ∧ Recency (EdgeCache.evictOne ord c).2 l := by
  have hv := h.evictVictim_eq ord
  have hrest : (a :: l).filter (fun e => decide (e.1 ≠ a.1)) = l := by
    have hk : ∀ e ∈ [] ++ l, e.1 ≠ a.1 := h.keys rfl
    rw [List.filter_cons, if_neg (by simp)]
    exact List.filter_eq_self.2 fun e he => decide_eq_true (hk e he)
  have hd := h.drop a.1
  rw [hrest] at hd
  simp only [List.head?_cons, Option.map_some] at hv
  simp only [EdgeCache.evictOne, hv, true_and]
  exact ⟨hd.perm, hd.sorted, hd.bounded, hd.bytes⟩

/-- The eviction loop removes exactly what LRU eviction removes. -/
theorem evictUntilFits (ord : IterOrder String CacheEntry) {len : Nat} :
    ∀ {n : Nat} {c : EdgeCache} {l : List Item}, Recency c l → l.length ≤ n →
      len ≤ c.maxBytes →
      Recency (EdgeCache.evictUntilFits ord len n c) (Lru.evictFor weight c.maxBytes len l)
  | 0, c, l, h, hn, _ => by
    obtain rfl : l = [] := List.length_eq_zero_iff.1 (Nat.le_zero.1 hn)
    exact h
  | n + 1, c, [], h, _, hlen => by
    have hcur : c.curBytes = 0 := h.bytes
    simp only [EdgeCache.evictUntilFits, hcur, Nat.zero_add, gt_iff_lt, Nat.not_lt.2 hlen, if_false]
    exact h
  | n + 1, c, a :: l, h, hn, hlen => by
    obtain ⟨he, hr⟩ := h.evictOne ord
    obtain ⟨⟨es, m, k, hf⟩, -⟩ := evicts_evictOne ord c
    have hmax : (EdgeCache.evictOne ord c).2.maxBytes = c.maxBytes := by rw [hf]
    have ih := evictUntilFits ord (n := n) hr (Nat.le_of_succ_le_succ hn) (hmax.symm ▸ hlen)
    rw [hmax] at ih
    simp only [EdgeCache.evictUntilFits, Lru.evictFor, h.bytes, he, if_true]
    split
    · exact ih
    · exact h

end Recency

end CeCdn.EdgeCache
