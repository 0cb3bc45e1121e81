/-
Negative caching over whole runs: a CID is reported absent only after the origin
was found not to have it, and a tombstone leaves by an insert of its CID, by its
expiry, or to make room for another, in which case none expires before it
(`tombstones_sound`).
-/
import CeCdn.CacheFlow
import Mathlib.Data.Finset.Card

namespace CeCdn

open Lib Word

/-- The CID an operation notes as absent. -/
def CacheOp.noted? : CacheOp → Option String
  | .noteAbsent cid _ => some cid
  | _ => none

/-- The CIDs that a list of operations notes as absent. -/
def notedCids (ops : List (Orders × CacheOp)) : Finset String :=
  (ops.filterMap fun i => i.2.noted?).toFinset

theorem notedCids_concat (ops : List (Orders × CacheOp)) (o : Orders) (cid : String) (now : Nat) :
    notedCids (ops ++ [(o, .noteAbsent cid now)]) = insert cid (notedCids ops) := by
  ext k
  simp [notedCids, CacheOp.noted?]

/-- `cid` was noted as absent at time `t`, and not inserted since. -/
def NotedSince (past : List CacheStep) (cid : String) (t : Nat) : Prop :=
  ∃ (before : List CacheStep) (c : EdgeCache) (o : Orders) (a : CacheAnswer)
    (after : List CacheStep), past = before ++ (c, (o, .noteAbsent cid t), a) :: after ∧
      ∀ u ∈ after, u.inserted? ≠ some cid

namespace EdgeCache

/-- Why an operation may drop the tombstone of `k`. -/
def DropReason (c : EdgeCache) (k : String) (ts : Tombstone) : CacheOp → Prop
  | .insert cid _ _ | .insertWithTtl cid _ _ _ => cid = k
  | .isNegative cid now => cid = k ∧ ts.expiresAt < now
  | .sweepExpired now => ts.expiresAt < now
  | .noteAbsent _ _ => c.maxTombstones ≤ c.tombstones.entries.length ∧
    ∀ k' ts', c.tombstones.lookup k' = some ts' → ts.expiresAt ≤ ts'.expiresAt
  | _ => False

/-- An operation drops the tombstone of `k` to make room for that of another. -/
def DropsForRoom (c : EdgeCache) (i : Orders × CacheOp) (k : String) : Prop :=
  i.2.noted?.isSome ∧ k ∈ c.tombstones ∧ k ∉ (c.step i).2.tombstones

/-! ## How a tombstone comes, and how it leaves -/

section

variable {c : EdgeCache} {o : Orders} {k : String} {ts : Tombstone}

/-- Where a tombstone comes from: it was noted in this step, or it was there and
the step did not insert its CID. -/
def TombstoneFrom (c : EdgeCache) (t : CacheStep) (k : String) (ts : Tombstone) : Prop :=
  (∃ now, t.2.1.2 = .noteAbsent k now ∧ ts.expiresAt = satAdd now c.negativeTtlSecs) ∨
  (c.tombstones.lookup k = some ts ∧ t.inserted? ≠ some k)

/-- The tombstones after a step. -/
theorem tombstoneFrom_step {i : Orders × CacheOp}
    (h : (c.step i).2.tombstones.lookup k = some ts) :
    TombstoneFrom c (c, i, (c.step i).1) k ts := by
  have hstep := tombstoneStep c i
  generalize (c.step i).2.tombstones = m at h hstep
  generalize (c.step i).1 = a at hstep ⊢
  cases hstep with
  | same hin => exact .inr ⟨h, by rw [hin]; nofun⟩
  | inserted hin =>
    obtain ⟨hk, hold⟩ := HashMap.lookup_erase_eq_some.1 h
    exact .inr ⟨hold, fun heq => hk (Option.some.inj (heq.symm.trans hin))⟩
  | expired => exact .inr ⟨(HashMap.lookup_erase_eq_some.1 h).2, nofun⟩
  | swept => exact .inr ⟨(HashMap.lookup_retain.1 h).1, nofun⟩
  | @noted o a cid now =>
    obtain ⟨rfl, rfl⟩ | ⟨-, hold⟩ := HashMap.lookup_insert_eq_some.1 h
    · exact .inl ⟨now, rfl, rfl⟩
    · exact .inr ⟨hold, nofun⟩
  | @displaced o a cid now =>
    obtain ⟨rfl, rfl⟩ | ⟨-, hold⟩ := HashMap.lookup_insert_eq_some.1 h
    · exact .inl ⟨now, rfl, rfl⟩
    · exact .inr ⟨(HashMap.lookup_erase_eq_some.1 hold).2, nofun⟩

theorem dropReason_of_inserted {i : Orders × CacheOp} {a : CacheAnswer}
    (h : CacheStep.inserted? (c, i, a) = some k) : DropReason c k ts i.2 := by
  unfold CacheStep.inserted? at h
  split at h
  · next heq => cases heq; exact Option.some.inj h
  · next heq => cases heq; exact Option.some.inj h
  · cases h

/-- A note that drops another tombstone displaces one that expires first. -/
theorem dropReason_noteAbsent {cid : String} {now : Nat} (h : c.tombstones.lookup k = some ts)
    (hgone : (c.step (o, .noteAbsent cid now)).2.tombstones.lookup k = none) :
    c.maxTombstones ≤ c.tombstones.entries.length ∧ cid ∉ c.tombstones ∧
      ∀ k' ts', c.tombstones.lookup k' = some ts' → ts.expiresAt ≤ ts'.expiresAt := by
  have hstep := tombstoneStep c (o, .noteAbsent cid now)
  generalize (c.step (o, .noteAbsent cid now)).2.tombstones = m at hgone hstep
  cases hstep with
  | same => rw [h] at hgone; cases hgone
  | inserted hin => cases hin
  | noted => rw [(HashMap.lookup_insert_eq_none.1 hgone).2] at h; cases h
  | displaced hfull hnew hvictim hleast =>
    have herased := (HashMap.lookup_insert_eq_none.1 hgone).2
    obtain rfl : k = _ := (HashMap.lookup_erase_eq_none.1 herased).resolve_right (by simp [h])
    rw [h] at hvictim
    cases hvictim
    exact ⟨hfull, hnew, hleast⟩

/-- A tombstone that a step drops was dropped for a reason. -/
theorem dropReason_step {i : Orders × CacheOp} (h : c.tombstones.lookup k = some ts)
    (hgone : (c.step i).2.tombstones.lookup k = none) : DropReason c k ts i.2 := by
  obtain ⟨o, op⟩ := i
  by_cases hnote : ∃ cid now, op = .noteAbsent cid now
  · obtain ⟨cid, now, rfl⟩ := hnote
    obtain ⟨hfull, -, hleast⟩ := dropReason_noteAbsent h hgone
    exact ⟨hfull, hleast⟩
  · have hstep := tombstoneStep c (o, op)
    generalize (c.step (o, op)).2.tombstones = m at hgone hstep
    cases hstep with
    | same => rw [h] at hgone; cases hgone
    | inserted hin =>
      obtain rfl : k = _ := (HashMap.lookup_erase_eq_none.1 hgone).resolve_right (by simp [h])
      exact dropReason_of_inserted hin
    | expired hts hlate =>
      obtain rfl : k = _ := (HashMap.lookup_erase_eq_none.1 hgone).resolve_right (by simp [h])
      rw [h] at hts
      cases hts
      exact ⟨rfl, hlate⟩
    | @swept _ _ now =>
      by_contra hlive
      have hkept : (c.tombstones.retain fun _ t => now ≤ t.expiresAt).lookup k = some ts :=
        HashMap.lookup_retain.2 ⟨h, decide_eq_true (Nat.not_lt.1 hlive)⟩
      rw [hkept] at hgone
      cases hgone
    | noted => exact absurd ⟨_, _, rfl⟩ hnote
    | displaced => exact absurd ⟨_, _, rfl⟩ hnote

end

/-! ## Runs -/

section

variable {c : EdgeCache} {past : List CacheStep}

/-- What a run leaves: every tombstone was noted, with the expiry it has, and
its CID was not inserted since. -/
def TombstonesNoted (negativeTtl : Nat) (c : EdgeCache) (past : List CacheStep) : Prop :=
  ∀ k ts, c.tombstones.lookup k = some ts →
    ∃ t, NotedSince past k t ∧ ts.expiresAt = satAdd t negativeTtl

theorem TombstonesNoted.step (h : TombstonesNoted c.negativeTtlSecs c past)
    (i : Orders × CacheOp) :
    TombstonesNoted c.negativeTtlSecs (c.step i).2 (past ++ [(c, i, (c.step i).1)]) := by
  intro k ts hts
  rcases tombstoneFrom_step hts with ⟨now, hop, hexp⟩ | ⟨hold, hin⟩
  · obtain ⟨o, op⟩ := i
    obtain rfl : op = .noteAbsent k now := hop
    exact ⟨now, ⟨past, c, o, _, [], rfl, nofun⟩, hexp⟩
  · obtain ⟨t, ⟨before, c', o, a, after, rfl, hafter⟩, hexp⟩ := h k ts hold
    refine ⟨t, ⟨before, c', o, a, after ++ [(c, i, (c.step i).1)], by simp, ?_⟩, hexp⟩
    intro u hu
    rcases List.mem_append.1 hu with hu | hu
    · exact hafter u hu
    · rw [List.mem_singleton.1 hu]
      exact hin

/-- After `note_absent` a CID is negative until its tombstone expires. -/
theorem isNegative_noteAbsent (ord : IterOrder String Tombstone) (cid : String) (t now : Nat)
    (hon : c.negativeTtlSecs ≠ 0) :
    (isNegative cid now (noteAbsent ord cid t c)).1 = true ↔ now ≤ satAdd t c.negativeTtlSecs := by
  rcases noteAbsent_cases ord cid t c with ⟨hoff, -⟩ | ⟨heq, -⟩ | ⟨victim, ts, heq, -⟩
  · exact absurd hoff hon
  · rw [heq, isNegative_fst]
    simp
  · rw [heq, isNegative_fst]
    simp

/-- A tombstone is there only of a CID that was noted. -/
theorem TombstonesNoted.mem_notedCids {negativeTtl : Nat} {start : EdgeCache}
    {ops : List (Orders × CacheOp)} {k : String}
    (h : TombstonesNoted negativeTtl (Machine.final EdgeCache.step start ops)
      (Machine.trace EdgeCache.step start ops))
    (hk : k ∈ (Machine.final EdgeCache.step start ops).tombstones) : k ∈ notedCids ops := by
  obtain ⟨ts, hts⟩ := Option.isSome_iff_exists.1 (AList.lookup_isSome.2 hk)
  obtain ⟨t, ⟨before, c, o, a, after, hpast, -⟩, -⟩ := h k ts hts
  have hstep : (c, (o, CacheOp.noteAbsent k t), a) ∈ Machine.trace EdgeCache.step start ops := by
    rw [hpast]
    simp
  exact List.mem_toFinset.2 (List.mem_filterMap.2 ⟨_, Machine.trace_input hstep, rfl⟩)

/-- While the CIDs noted fit, the tombstone of one more fits without dropping
another. -/
theorem TombstonesNoted.not_dropsForRoom {negativeTtl : Nat} {start : EdgeCache}
    {ops : List (Orders × CacheOp)} {i : Orders × CacheOp} {k : String}
    (h : TombstonesNoted negativeTtl (Machine.final EdgeCache.step start ops)
      (Machine.trace EdgeCache.step start ops))
    (hroom : (notedCids (ops ++ [i])).card ≤
      (Machine.final EdgeCache.step start ops).maxTombstones) :
    ¬ DropsForRoom (Machine.final EdgeCache.step start ops) i k := by
  intro ⟨hnote, hk, hgone⟩
  have hmem {x : String} (hx : x ∈ (Machine.final EdgeCache.step start ops).tombstones) :
      x ∈ notedCids ops := h.mem_notedCids hx
  generalize Machine.final EdgeCache.step start ops = c at *
  obtain ⟨ts, hts⟩ := Option.isSome_iff_exists.1 (AList.lookup_isSome.2 hk)
  obtain ⟨o, op⟩ := i
  cases op with
  | noteAbsent cid now =>
    obtain ⟨hfull, hnew, -⟩ := dropReason_noteAbsent hts (AList.lookup_eq_none.2 hgone)
    -- the tombstones and the new one are among the CIDs noted
    have hsub : Insert.insert cid c.tombstones.keys.toFinset ⊆
        notedCids (ops ++ [(o, .noteAbsent cid now)]) := by
      rw [notedCids_concat]
      exact Finset.insert_subset_insert _ fun x hx => hmem (List.mem_toFinset.1 hx)
    have hcard := Finset.card_le_card hsub
    have hnotin : cid ∉ c.tombstones.keys.toFinset := fun hin => hnew (List.mem_toFinset.1 hin)
    have hkeys : c.tombstones.keys.toFinset.card = c.tombstones.entries.length :=
      (List.toFinset_card_of_nodup c.tombstones.keys_nodup).trans (List.length_map _)
    rw [Finset.card_insert_of_notMem hnotin, hkeys] at hcard
    omega
  | _ => simp [CacheOp.noted?] at hnote

end

/-- **Negative caching is sound, and keeps the right tombstones.** With any
negative TTL and bound, for every sequence of operations with any clock values
and iteration orders: a CID is negative only if it was noted as absent, no
longer ago than the TTL, and not inserted since; it is negative from the moment
it is noted until the TTL has passed; whatever the next operation, it drops a
tombstone for a reason, and for lack of room only one that no other expires
before; and no operation drops one for lack of room while the CIDs noted are no
more than the bound. -/
theorem tombstones_sound (maxBytes ttl negativeTtl maxTombstones : Nat)
    (ops : List (Orders × CacheOp)) :
    let start : EdgeCache := { new maxBytes ttl with
      negativeTtlSecs := negativeTtl
      maxTombstones := maxTombstones }
    let c := Machine.final EdgeCache.step start ops
    let past : List CacheStep := Machine.trace EdgeCache.step start ops
    (∀ cid now, (isNegative cid now c).1 = true →
      ∃ t, NotedSince past cid t ∧ now ≤ satAdd t negativeTtl) ∧
    (∀ ord cid t now, negativeTtl ≠ 0 →
      ((isNegative cid now (noteAbsent ord cid t c)).1 = true ↔ now ≤ satAdd t negativeTtl)) ∧
    (∀ i k ts, c.tombstones.lookup k = some ts → (c.step i).2.tombstones.lookup k = none →
      DropReason c k ts i.2) ∧
    ((notedCids ops).card ≤ maxTombstones → ∀ t ∈ past, ∀ k, ¬ DropsForRoom t.1 t.2.1 k) := by
  intro start c past
  have hrun (ops : List (Orders × CacheOp)) :
      (Machine.final EdgeCache.step start ops).config = start.config ∧
      TombstonesNoted negativeTtl (Machine.final EdgeCache.step start ops)
        (Machine.trace EdgeCache.step start ops) := by
    refine Machine.history_invariant
      (I := fun c past => c.config = start.config ∧ TombstonesNoted negativeTtl c past)
      (fun c i past h => ?_) ⟨rfl, fun k ts hts => nomatch hts⟩ ops
    have hneg : c.negativeTtlSecs = negativeTtl := congrArg (fun t => t.2.2.1) h.1
    exact ⟨(config_step i.1 i.2 c).trans h.1, hneg ▸ TombstonesNoted.step (hneg.symm ▸ h.2) i⟩
  have hneg : c.negativeTtlSecs = negativeTtl := congrArg (fun t => t.2.2.1) (hrun ops).1
  refine ⟨fun cid now hyes => ?_, fun ord cid t now hon => ?_, fun i k ts => dropReason_step,
    fun hroom t ht k => ?_⟩
  · rw [isNegative_fst, Option.any_eq_true] at hyes
    obtain ⟨ts, hts, hnow⟩ := hyes
    obtain ⟨t, hnoted, hexp⟩ := (hrun ops).2 cid ts hts
    exact ⟨t, hnoted, hexp ▸ of_decide_eq_true hnow⟩
  · rw [isNegative_noteAbsent ord cid t now (by rwa [hneg]), hneg]
  · obtain ⟨ops₁, i, ops₂, rfl, rfl⟩ := Machine.mem_trace_iff.1 ht
    have hmax : (Machine.final EdgeCache.step start ops₁).maxTombstones = maxTombstones :=
      congrArg (fun t => t.2.2.2) (hrun ops₁).1
    refine (hrun ops₁).2.not_dropsForRoom ?_
    rw [hmax]
    refine le_trans (Finset.card_le_card fun x hx => ?_) hroom
    rw [notedCids, List.mem_toFinset, List.mem_filterMap] at hx ⊢
    obtain ⟨j, hj, hx⟩ := hx
    refine ⟨j, ?_, hx⟩
    simp only [List.mem_append, List.mem_cons, List.not_mem_nil, or_false] at hj ⊢
    exact hj.imp_right Or.inl

end EdgeCache

end CeCdn
