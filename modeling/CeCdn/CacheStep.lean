/-
One operation of the edge cache, as the runs see it: what it inserts and reads,
and what it may do to the tombstones (`tombstoneStep`).
-/
import CeCdn.CacheRefines

namespace CeCdn

open Lib Word

/-- A step of a run: the cache it found, the operation, the answer. -/
abbrev CacheStep := EdgeCache × (Orders × CacheOp) × CacheAnswer

namespace CacheStep

/-- The CID a step inserts, if it is an insert that succeeds. -/
def inserted? : CacheStep → Option String
  | (_, (_, .insert cid _ _), .done true) => some cid
  | (_, (_, .insertWithTtl cid _ _ _), .done true) => some cid
  | _ => none

/-- The CID a step reads, if it is a read that hits. -/
def hit? : CacheStep → Option String
  | (_, (_, .get cid _), .bytes (some _)) => some cid
  | _ => none

def isRead : CacheStep → Bool
  | (_, (_, .get _ _), _) => true
  | _ => false

/-- A successful insert of a CID that is held. -/
def replaces (t : CacheStep) : Bool := t.inserted?.any fun cid => (t.1.entries.lookup cid).isSome

/-- A purge that returns `true`. -/
def purges : CacheStep → Bool
  | (_, (_, .purge _), .done true) => true
  | _ => false

end CacheStep

namespace EdgeCache

/-! ## What an operation does to the tombstones -/

section

variable {c : EdgeCache} {o : Orders}

/-- Noting a CID sets its tombstone, and drops one that expires first when there
are too many. -/
theorem noteAbsent_cases (ord : IterOrder String Tombstone) (cid : String) (now : Nat)
    (c : EdgeCache) :
    (c.negativeTtlSecs = 0 ∧ noteAbsent ord cid now c = c) ∨
    (noteAbsent ord cid now c =
        { c with tombstones := c.tombstones.insert cid ⟨satAdd now c.negativeTtlSecs⟩ } ∧
      (c.tombstones.entries.length < c.maxTombstones ∨ cid ∈ c.tombstones ∨
        c.tombstones.entries = [])) ∨
    ∃ victim ts, noteAbsent ord cid now c =
        { c with tombstones :=
          (c.tombstones.erase victim).insert cid ⟨satAdd now c.negativeTtlSecs⟩ } ∧
      c.maxTombstones ≤ c.tombstones.entries.length ∧ cid ∉ c.tombstones ∧
      c.tombstones.lookup victim = some ts ∧
      ∀ k' ts', c.tombstones.lookup k' = some ts' → ts.expiresAt ≤ ts'.expiresAt := by
  unfold noteAbsent
  split
  · next hoff => exact .inl ⟨hoff, rfl⟩
  · refine .inr ?_
    by_cases hfull : c.tombstones.entries.length ≥ c.maxTombstones ∧ cid ∉ c.tombstones
    · rw [if_pos hfull]
      cases hv : c.tombstones.minByKey ord Tombstone.expiresAt with
      | none => exact .inl ⟨rfl, .inr (.inr (HashMap.minByKey_eq_none.1 hv))⟩
      | some victim =>
        obtain ⟨ts, hts, hleast⟩ := HashMap.minByKey_eq_some hv
        exact .inr ⟨victim, ts, rfl, hfull.1, hfull.2, HashMap.lookup_eq_some_iff.2 hts,
          fun k' ts' h => hleast _ (HashMap.lookup_eq_some_iff.1 h)⟩
    · rw [if_neg hfull]
      refine .inl ⟨rfl, ?_⟩
      by_cases hmem : cid ∈ c.tombstones
      · exact .inr (.inl hmem)
      · exact .inl (Nat.not_le.1 fun hle => hfull ⟨hle, hmem⟩)

theorem tombstones_insertWithTtl (ord : IterOrder String CacheEntry) (cid : String) {bytes : Bytes}
    (ttl now : Nat) (hlen : bytes.length ≤ c.maxBytes) :
    (insertWithTtl ord cid bytes ttl now c).2.tombstones = c.tombstones.erase cid := by
  obtain ⟨c', -, -, heq⟩ := insertWithTtl_eq ord cid ttl now hlen
  rw [heq]

/-- Reading a tombstone leaves it, or drops it when it has expired. -/
theorem isNegative_cases (cid : String) (now : Nat) (c : EdgeCache) :
    (isNegative cid now c).2.tombstones = c.tombstones ∨
    ∃ ts, c.tombstones.lookup cid = some ts ∧ ts.expiresAt < now ∧
      (isNegative cid now c).2.tombstones = c.tombstones.erase cid := by
  unfold isNegative
  split
  · next ts hts =>
    split
    · exact .inl rfl
    · next hlate => exact .inr ⟨ts, hts, Nat.not_le.1 hlate, rfl⟩
  · exact .inl rfl

/-- What a step may do to the tombstones. -/
inductive TombstoneStep (c : EdgeCache) :
    Orders × CacheOp → CacheAnswer → HashMap String Tombstone → Prop where
  | same {i a} (hin : CacheStep.inserted? (c, i, a) = none) : TombstoneStep c i a c.tombstones
  | inserted {i a cid} (hin : CacheStep.inserted? (c, i, a) = some cid) :
    TombstoneStep c i a (c.tombstones.erase cid)
  | expired {o a cid now ts} (hts : c.tombstones.lookup cid = some ts) (hlate : ts.expiresAt < now) :
    TombstoneStep c (o, .isNegative cid now) a (c.tombstones.erase cid)
  | swept {o a now} :
    TombstoneStep c (o, .sweepExpired now) a (c.tombstones.retain fun _ t => now ≤ t.expiresAt)
  | noted {o a cid now} (hroom : c.tombstones.entries.length < c.maxTombstones ∨
      cid ∈ c.tombstones ∨ c.tombstones.entries = []) :
    TombstoneStep c (o, .noteAbsent cid now) a
      (c.tombstones.insert cid ⟨satAdd now c.negativeTtlSecs⟩)
  | displaced {o a cid now victim ts} (hfull : c.maxTombstones ≤ c.tombstones.entries.length)
    (hnew : cid ∉ c.tombstones) (hvictim : c.tombstones.lookup victim = some ts)
    (hleast : ∀ k' ts', c.tombstones.lookup k' = some ts' → ts.expiresAt ≤ ts'.expiresAt) :
    TombstoneStep c (o, .noteAbsent cid now) a
      ((c.tombstones.erase victim).insert cid ⟨satAdd now c.negativeTtlSecs⟩)

theorem tombstoneStep_insert {cid : String} {bytes : Bytes} {ttl now : Nat} {op : CacheOp}
    (hin : ∀ b, CacheStep.inserted? (c, (o, op), .done b) = if b then some cid else none) :
    TombstoneStep c (o, op) (.done (insertWithTtl o.entries cid bytes ttl now c).1)
      (insertWithTtl o.entries cid bytes ttl now c).2.tombstones := by
  by_cases hlen : bytes.length ≤ c.maxBytes
  · rw [tombstones_insertWithTtl _ _ _ _ hlen, insertWithTtl_of_le o.entries cid ttl now hlen]
    exact .inserted (by rw [hin, if_pos rfl])
  · rw [insertWithTtl_of_lt o.entries cid ttl now (Nat.not_le.1 hlen)]
    exact .same (by simp [hin])

theorem tombstoneStep (c : EdgeCache) (i : Orders × CacheOp) :
    TombstoneStep c i (c.step i).1 (c.step i).2.tombstones := by
  obtain ⟨o, op⟩ := i
  cases op with
  | insert cid bytes now => exact tombstoneStep_insert fun b => by cases b <;> rfl
  | insertWithTtl cid bytes ttl now => exact tombstoneStep_insert fun b => by cases b <;> rfl
  | get cid now =>
    change TombstoneStep c _ (.bytes (get cid now c).1) (get cid now c).2.tombstones
    rw [get_tombstones]
    exact .same rfl
  | purge cid =>
    change TombstoneStep c _ (.done (dropEntry cid c).1) (dropEntry cid c).2.tombstones
    rw [dropEntry_snd]
    exact .same rfl
  | sweepExpired now =>
    obtain ⟨es, n, m, hf⟩ := sweepExpired_frame o.entries now c
    have hstep : (c.step (o, .sweepExpired now)).2 = _ := hf
    rw [hstep]
    exact .swept
  | noteAbsent cid now =>
    change TombstoneStep c _ _ (noteAbsent o.tombstones cid now c).tombstones
    rcases noteAbsent_cases o.tombstones cid now c with
      ⟨-, heq⟩ | ⟨heq, hroom⟩ | ⟨victim, ts, heq, hfull, hnew, hvictim, hleast⟩
    · rw [heq]
      exact .same rfl
    · rw [heq]
      exact .noted hroom
    · rw [heq]
      exact .displaced hfull hnew hvictim hleast
  | isNegative cid now =>
    change TombstoneStep c _ _ (isNegative cid now c).2.tombstones
    rcases isNegative_cases cid now c with heq | ⟨ts, hts, hlate, heq⟩
    · rw [heq]
      exact .same rfl
    · rw [heq]
      exact .expired hts hlate
  | containsFresh cid now | byteLen cid | age cid now | ttlRemaining cid now => exact .same rfl

end

end EdgeCache

end CeCdn
