/-
What a maintenance pass commits, read back from the answers it got: the edges
of an entry (`mem_recruit_iff`), and the entry of each CID after the commit
(`get_commit`).
-/
import CeCdn.Maintain

namespace CeCdn

open Lib Catalog

/-! ## The catalog's operations -/

namespace Catalog

@[simp] theorem get_saved (c : Catalog) (cid : String) : c.saved.get cid = c.get cid := rfl

@[simp] theorem get_upsert (c : Catalog) (entry : Entry) (cid : String) :
    (c.upsert entry).get cid = if cid = entry.content.cid then some entry else c.get cid := by
  by_cases h : cid = entry.content.cid
  · rw [if_pos h, h]
    exact Finmap.lookup_insert _
  · rw [if_neg h]
    exact Finmap.lookup_insert_of_ne _ h

@[simp] theorem get_modify (c : Catalog) (cid cid' : String) (f : Entry → Entry) :
    (c.modify cid f).get cid' = if cid' = cid then (c.get cid').map f else c.get cid' := by
  unfold modify
  by_cases h : cid' = cid
  · subst h
    cases hg : c.get cid' with
    | none => simp [hg]
    | some entry =>
      rw [if_pos rfl]
      exact Finmap.lookup_insert _
  · rw [if_neg h]
    cases hg : c.get cid with
    | none => rfl
    | some entry => exact Finmap.lookup_insert_of_ne _ h

theorem records_iff_of_get {c : Catalog} {cid : String} {entry : Entry}
    (h : c.get cid = some entry) (edge : String) : c.Records cid edge ↔ edge ∈ entry.edgeIds := by
  simp [Records, h]

theorem records_congr {c c' : Catalog} {cid : String} (h : c'.get cid = c.get cid)
    (edge : String) : c'.Records cid edge ↔ c.Records cid edge := by
  rw [Records, Records, h]

theorem get_isSome_of_records {c : Catalog} {cid edge : String} (h : c.Records cid edge) :
    ∃ entry, c.get cid = some entry := by
  obtain ⟨entry, hentry, -⟩ := h
  exact ⟨entry, hentry⟩

end Catalog

namespace Maintain

/-! ## The edges of an entry -/

section

variable {r : Recruits} {p : String × Except String CacheResp}

theorem Recruits.pick_of_mem (hex : p.1 ∈ r.exclude) : r.pick p = r := if_pos hex

theorem Recruits.pick_of_cached (hex : p.1 ∉ r.exclude) (hc : cached p.2 = true) :
    r.pick p = ⟨insert p.1 r.exclude, r.edges ++ [⟨p.1, true⟩], r.got + 1⟩ := by
  simp [Recruits.pick, hex, hc]

theorem Recruits.pick_of_not_cached (hc : ¬ cached p.2 = true) : r.pick p = r := by
  simp [Recruits.pick, hc]

end

/-- Which edges the loop over the picks ends with. -/
theorem mem_foldl_pick (ps : List (String × Except String CacheResp)) (r : Recruits)
    (edge : String) :
    edge ∈ (ps.foldl Recruits.pick r).edges.map EdgeReplica.edge ↔
      edge ∈ r.edges.map EdgeReplica.edge ∨
        (edge ∉ r.exclude ∧ ∃ answer, (edge, answer) ∈ ps ∧ cached answer = true) := by
  induction ps generalizing r with
  | nil => simp
  | cons p ps ih =>
    obtain ⟨pick, answer⟩ := p
    rw [List.foldl_cons, ih]
    by_cases hex : pick ∈ r.exclude
    · -- skipped: the answer is not asked for
      rw [Recruits.pick_of_mem hex]
      refine or_congr_right (and_congr_right fun hedge => ?_)
      have hne : edge ≠ pick := fun h => hedge (h ▸ hex)
      simp [hne]
    · by_cases hc : cached answer = true
      · rw [Recruits.pick_of_cached hex hc]
        by_cases he : edge = pick
        · subst he
          have hanswer : ∃ a, (edge, a) ∈ (edge, answer) :: ps ∧ cached a = true :=
            ⟨answer, List.mem_cons_self, hc⟩
          simp only [List.map_append, List.map_cons, List.map_nil, List.mem_append,
            List.mem_singleton]
          exact ⟨fun _ => .inr ⟨hex, hanswer⟩, fun _ => .inl (.inr trivial)⟩
        · simp [he]
      · rw [Recruits.pick_of_not_cached hc]
        refine or_congr_right (and_congr_right fun _ => exists_congr fun a => ?_)
        constructor
        · intro h
          exact ⟨List.mem_cons_of_mem _ h.1, h.2⟩
        · intro h
          refine ⟨(List.mem_cons.1 h.1).resolve_left fun he => ?_, h.2⟩
          cases he
          exact hc h.2

section

variable (client : CdnClient) (caps cid : String) (entry : Entry)

/-- The pass was answered that the edge holds the object: a recorded edge by its
probe, another one by the request to cache it. -/
def Measured (edge : String) : Prop :=
  (edge, true) ∈ probes client caps cid entry ∨
    edge ∉ entry.edgeIds ∧ ∃ answer, (edge, answer) ∈ picks client caps cid entry ∧
      cached answer = true

variable {client caps cid entry}

/-- The edges a pass commits for an entry are those it measured. -/
theorem mem_recruit_iff {edge : String} :
    edge ∈ (recruit client caps cid entry).edges.map EdgeReplica.edge ↔
      Measured client caps cid entry edge := by
  rw [recruit, mem_foldl_pick, Measured]
  refine or_congr ?_ (and_congr_left fun _ => by simp)
  simp [plan, planEntry]

end

/-! ## The commit -/

section

variable (client : CdnClient) (caps : String)

theorem survey_results (snapshot : Catalog) :
    (survey client caps snapshot).2 = (Ordered.entries snapshot.items).map fun e =>
      (e.1, (recruit client caps e.1 e.2).edges) := by
  have hfold : ∀ (es : List (String × Entry)) (acc : MaintainReport × Results),
      (es.foldl (examine client caps) acc).2 =
        acc.2 ++ es.map fun e => (e.1, (recruit client caps e.1 e.2).edges) := by
    intro es
    induction es with
    | nil => intro acc; simp
    | cons e es ih =>
      intro acc
      rw [List.foldl_cons, ih]
      simp [examine]
  exact hfold _ _

end

/-- The assignments of a commit do not touch the entries they do not name. -/
theorem get_foldl_modify_of_not_mem {results : Results} {cid : String}
    (h : cid ∉ results.map Prod.fst) (c : Catalog) :
    (results.foldl (fun cat r => cat.modify r.1 fun entry => { entry with edges := r.2 }) c).get
      cid = c.get cid := by
  induction results generalizing c with
  | nil => rfl
  | cons r results ih =>
    simp only [List.map_cons, List.mem_cons, not_or] at h
    rw [List.foldl_cons, ih h.2, get_modify, if_neg h.1]

theorem get_foldl_modify_of_mem {results : Results} {cid : String} {edges : List EdgeReplica}
    (hnd : (results.map Prod.fst).Nodup) (h : (cid, edges) ∈ results) (c : Catalog) :
    (results.foldl (fun cat r => cat.modify r.1 fun entry => { entry with edges := r.2 }) c).get
      cid = (c.get cid).map fun entry => { entry with edges := edges } := by
  induction results generalizing c with
  | nil => cases h
  | cons r results ih =>
    simp only [List.map_cons, List.nodup_cons] at hnd
    rw [List.foldl_cons]
    rcases List.mem_cons.1 h with rfl | h
    · rw [get_foldl_modify_of_not_mem hnd.1, get_modify, if_pos rfl]
    · have hne : cid ≠ r.1 := fun he => hnd.1 (he ▸ List.mem_map_of_mem h)
      rw [ih hnd.2 h, get_modify, if_neg hne]

section

variable {client : CdnClient} {caps : String} {snapshot now after : Catalog}

/-- What the commit of a pass makes of an entry: where the snapshot had the
entry, the edges measured replace whatever is recorded now. -/
theorem get_commit (h : apply (commit (survey client caps snapshot).2) now = .ok after)
    (cid : String) :
    after.get cid = match snapshot.get cid with
      | none => now.get cid
      | some entry => (now.get cid).map fun e =>
          { e with edges := (recruit client caps cid entry).edges } := by
  cases h
  have hkeys : ((survey client caps snapshot).2.map Prod.fst) =
      (Ordered.entries snapshot.items).map Prod.fst := by
    rw [survey_results, List.map_map]
    rfl
  rw [get_saved]
  cases hs : snapshot.get cid with
  | none =>
    apply get_foldl_modify_of_not_mem
    rw [hkeys]
    intro hmem
    obtain ⟨⟨cid', entry⟩, hentry, rfl⟩ := List.mem_map.1 hmem
    have hs' : snapshot.get cid' = some entry := Ordered.mem_entries.1 hentry
    rw [hs] at hs'
    cases hs'
  | some entry =>
    apply get_foldl_modify_of_mem
    · rw [hkeys]
      exact Ordered.nodup_keys_entries _
    · rw [survey_results]
      exact List.mem_map.2 ⟨(cid, entry), Ordered.mem_entries.2 hs, rfl⟩

/-- What is recorded after the commit. -/
theorem records_commit_iff
    (h : apply (commit (survey client caps snapshot).2) now = .ok after) {cid edge : String} :
    after.Records cid edge ↔ match snapshot.get cid with
      | none => now.Records cid edge
      | some entry => (now.get cid).isSome ∧ Measured client caps cid entry edge := by
  have hget := get_commit h cid
  cases hs : snapshot.get cid with
  | none =>
    rw [hs] at hget
    exact records_congr hget edge
  | some entry =>
    rw [hs] at hget
    cases hn : now.get cid with
    | none =>
      rw [hn] at hget
      simp [Records, hget]
    | some e =>
      rw [hn] at hget
      rw [records_iff_of_get hget, Entry.edgeIds, mem_recruit_iff]
      simp

end

end Maintain

end CeCdn
