/-
What a maintenance pass reports is what it did (`pass_exact`). With no other
writer, whatever the probes, the picks and the edges answer: each entry keeps
its recorded edges that answered that they hold the object, in their order, and
gets those recruited, up to its target; and the counters of the report are those
of what was committed.
-/
import CeCdn.Shortfall

namespace CeCdn

open Lib Catalog

namespace Maintain

section

variable (client : CdnClient) (caps cid : String) (entry : Entry)

/-- The recorded edges whose probe answered that they hold the object, in the
order in which they are recorded. -/
def heldEdges : List String :=
  (entry.edgeIds.zipIdx.filter fun p => held (client.probe p.2 p.1 ⟨caps, cid⟩)).map Prod.fst

/-- What a pass makes of an entry: the content as it was; the edges it measured,
then the ones it recruited, which were not recorded and cached the object. -/
structure Reconciled (left : Entry) (recruited : List String) : Prop where
  content : left.content = entry.content
  edges : left.edges = (heldEdges client caps cid entry ++ recruited).map fun e => ⟨e, true⟩
  recruits : ∀ edge ∈ recruited, edge ∉ entry.edgeIds ∧
    ∃ answer, (edge, answer) ∈ picks client caps cid entry ∧ cached answer = true
  distinct : left.edgeIds.Nodup
  length : left.edges.length ≤
    max entry.content.replication (heldEdges client caps cid entry).length

end

/-! ## One entry -/

/-- The loop over the picks appends the edges it counts: different ones that
were not excluded and that answered that they cached the object. -/
theorem foldl_pick_spec (ps : List (String × Except String CacheResp)) (r : Recruits) :
    ∃ recruited : List String,
      (ps.foldl Recruits.pick r).edges = r.edges ++ recruited.map (fun e => ⟨e, true⟩) ∧
      (ps.foldl Recruits.pick r).got = r.got + recruited.length ∧
      recruited.length ≤ ps.length ∧ recruited.Nodup ∧
      ∀ edge ∈ recruited, edge ∉ r.exclude ∧ ∃ answer, (edge, answer) ∈ ps ∧ cached answer = true := by
  induction ps generalizing r with
  | nil => exact ⟨[], by simp⟩
  | cons p ps ih =>
    obtain ⟨recruited, hedges, hgot, hlen, hnd, hnew⟩ := ih (r.pick p)
    rw [List.foldl_cons]
    by_cases hex : p.1 ∈ r.exclude
    · rw [Recruits.pick_of_mem hex] at hedges hgot hnew ⊢
      refine ⟨recruited, hedges, hgot, Nat.le_succ_of_le hlen, hnd, fun edge he => ?_⟩
      obtain ⟨hout, answer, hanswer, hc⟩ := hnew edge he
      exact ⟨hout, answer, List.mem_cons_of_mem _ hanswer, hc⟩
    · by_cases hc : cached p.2 = true
      · rw [Recruits.pick_of_cached hex hc] at hedges hgot hnew ⊢
        have hfirst : p.1 ∉ recruited := fun he => (hnew _ he).1 (Finset.mem_insert_self _ _)
        refine ⟨p.1 :: recruited, ?_, ?_, Nat.succ_le_succ hlen, List.nodup_cons.2 ⟨hfirst, hnd⟩, ?_⟩
        · rw [hedges]
          simp
        · simp only [hgot, List.length_cons]
          omega
        · intro edge he
          rcases List.mem_cons.1 he with rfl | he
          · exact ⟨hex, p.2, List.mem_cons_self, hc⟩
          · obtain ⟨hout, answer, hanswer, hc⟩ := hnew edge he
            exact ⟨fun hin => hout (Finset.mem_insert_of_mem hin), answer,
              List.mem_cons_of_mem _ hanswer, hc⟩
      · rw [Recruits.pick_of_not_cached hc] at hedges hgot hnew ⊢
        refine ⟨recruited, hedges, hgot, Nat.le_succ_of_le hlen, hnd, fun edge he => ?_⟩
        obtain ⟨hout, answer, hanswer, hc⟩ := hnew edge he
        exact ⟨hout, answer, List.mem_cons_of_mem _ hanswer, hc⟩

section

variable {client : CdnClient} {caps cid : String} {entry : Entry}

theorem healthy_plan : (plan client caps cid entry).healthy = heldEdges client caps cid entry := by
  simp only [plan, planEntry, probes, heldEdges, List.mapIdx_eq_zipIdx_map, List.filter_map,
    List.map_map]
  rfl

theorem heldEdges_sublist : (heldEdges client caps cid entry).Sublist entry.edgeIds := by
  have hsub := (List.filter_sublist
    (p := fun p : String × Nat => held (client.probe p.2 p.1 ⟨caps, cid⟩))
    (l := entry.edgeIds.zipIdx)).map Prod.fst
  rwa [List.zipIdx_map_fst] at hsub

theorem length_heldEdges : (heldEdges client caps cid entry).length = healthyNow client caps cid entry := by
  rw [← healthy_plan]
  simp [plan, planEntry, healthyNow, List.countP_eq_length_filter]

/-- No more picks come than edges are needed. -/
theorem length_picks_le
    (hpicks : ∀ cid n exclude picks, client.pickEdges cid n exclude = .ok picks → picks.length ≤ n) :
    (picks client caps cid entry).length ≤ needed client caps cid entry := by
  rw [picks, plan_recruit]
  split
  · rw [List.length_mapIdx]
    cases h : client.pickEdges cid (needed client caps cid entry)
      (Ordered.toList entry.edgeIds.toFinset) with
    | error e => exact Nat.zero_le _
    | ok ids => exact hpicks _ _ _ _ h
  · exact Nat.zero_le _

/-- What a pass makes of an entry, and how many edges it counts for it. -/
theorem reconciled_recruit (hnd : entry.edgeIds.Nodup)
    (hpicks : ∀ cid n exclude picks, client.pickEdges cid n exclude = .ok picks → picks.length ≤ n) :
    ∃ recruited : List String,
      (recruit client caps cid entry).got = recruited.length ∧
      Reconciled client caps cid entry
        { entry with edges := (recruit client caps cid entry).edges } recruited := by
  obtain ⟨recruited, hedges, hgot, hlen, hdistinct, hnew⟩ :=
    foldl_pick_spec (picks client caps cid entry) ⟨entry.edgeIds.toFinset,
      (plan client caps cid entry).healthy.map fun e => ⟨e, true⟩, 0⟩
  have hout : ∀ edge ∈ recruited, edge ∉ entry.edgeIds := by
    intro edge he
    simpa using (hnew edge he).1
  have hall : (recruit client caps cid entry).edges =
      (heldEdges client caps cid entry ++ recruited).map fun e => ⟨e, true⟩ := by
    rw [recruit, hedges, healthy_plan, List.map_append]
  refine ⟨recruited, by simpa [recruit] using hgot, rfl, hall, ?_, ?_, ?_⟩
  · intro edge he
    exact ⟨hout edge he, (hnew edge he).2⟩
  · have hids : Entry.edgeIds { entry with edges := (recruit client caps cid entry).edges } =
        heldEdges client caps cid entry ++ recruited := by
      simp [Entry.edgeIds, hall, Function.comp_def]
    rw [hids, List.nodup_append]
    refine ⟨heldEdges_sublist.nodup hnd, hdistinct, fun a ha b hb hab => ?_⟩
    exact hout b hb (hab ▸ heldEdges_sublist.subset ha)
  · have hneed := hlen.trans (length_picks_le hpicks)
    simp only [hall, List.length_map, List.length_append]
    rw [needed, replicasNeeded, ← length_heldEdges] at hneed
    omega

end

/-! ## The pass -/

section

variable (client : CdnClient) (caps : String) (snapshot : Catalog)

theorem survey_examined : (survey client caps snapshot).1.examined =
    (Ordered.entries snapshot.items).length := by
  have hfold : ∀ (es : List (String × Entry)) (acc : MaintainReport × Results),
      (es.foldl (examine client caps) acc).1.examined = acc.1.examined + es.length := by
    intro es
    induction es with
    | nil => intro acc; rfl
    | cons e es ih =>
      intro acc
      rw [List.foldl_cons, ih, List.length_cons]
      simp only [examine]
      omega
  rw [survey, hfold, Nat.zero_add]

theorem survey_recruited : (survey client caps snapshot).1.recruited =
    ((Ordered.entries snapshot.items).map fun e => (recruit client caps e.1 e.2).got).sum := by
  have hfold : ∀ (es : List (String × Entry)) (acc : MaintainReport × Results),
      (es.foldl (examine client caps) acc).1.recruited =
        acc.1.recruited + (es.map fun e => (recruit client caps e.1 e.2).got).sum := by
    intro es
    induction es with
    | nil => intro acc; rfl
    | cons e es ih =>
      intro acc
      rw [List.foldl_cons, ih, List.map_cons, List.sum_cons]
      simp only [examine]
      omega
  rw [survey, hfold, Nat.zero_add]

/-- With no other writer a pass commits to its snapshot. -/
theorem runOnce_alone {file : Option File} (hload : load file = .ok snapshot) :
    ∃ after, apply (commit (survey client caps snapshot).2) snapshot = .ok after ∧
      runOnce client caps file [] = .ok ((survey client caps snapshot).1, after) := by
  refine ⟨_, rfl, ?_⟩
  simp only [runOnce, hload, bind, Except.bind]
  rfl

/-- What a pass makes of an entry. -/
def left (cid : String) (entry : Entry) : Entry :=
  { entry with edges := (recruit client caps cid entry).edges }

end

section

variable {client : CdnClient} {caps : String} {snapshot after : Catalog}

/-- Alone, a pass replaces the edges of each entry, and nothing else. -/
theorem get_commit_alone (h : apply (commit (survey client caps snapshot).2) snapshot = .ok after)
    (cid : String) : after.get cid = (snapshot.get cid).map (left client caps cid) := by
  rw [get_commit h]
  cases hs : snapshot.get cid with
  | none => rfl
  | some entry => rfl

theorem entries_commit_alone
    (h : apply (commit (survey client caps snapshot).2) snapshot = .ok after) :
    Ordered.entries after.items =
      (Ordered.entries snapshot.items).map fun e => (e.1, left client caps e.1 e.2) :=
  Ordered.entries_eq_map (get_commit_alone h)

end

/-- **A pass does exactly what it reports.** With no other writer, for every
catalog whose entries record distinct edges, and whatever is answered to the
probes, the lookups of edges (at most as many as asked for) and the requests to
cache: the pass succeeds and keeps the set of entries; each entry has its
content, the recorded edges that held the object in their order, and the edges
recruited; and the report counts the entries, the edges recruited, and the
entries left with fewer edges than their target. -/
theorem pass_exact (client : CdnClient) (caps : String) (file : Option File) (snapshot : Catalog)
    (hload : load file = .ok snapshot)
    (hdistinct : ∀ cid entry, snapshot.get cid = some entry → entry.edgeIds.Nodup)
    (hpicks : ∀ cid n exclude picks, client.pickEdges cid n exclude = .ok picks →
      picks.length ≤ n) :
    ∃ (report : MaintainReport) (after : Catalog) (recruited : String → List String),
      runOnce client caps file [] = .ok (report, after) ∧
      (∀ cid, after.get cid = none ↔ snapshot.get cid = none) ∧
      (∀ cid entry final, snapshot.get cid = some entry → after.get cid = some final →
        Reconciled client caps cid entry final (recruited cid)) ∧
      report.examined = (Ordered.entries after.items).length ∧
      report.recruited =
        ((Ordered.entries after.items).map fun e => (recruited e.1).length).sum ∧
      report.shortfalls = (Ordered.entries after.items).countP fun e =>
        e.2.edges.length < e.2.content.replication := by
  obtain ⟨after, hafter, hrun⟩ := runOnce_alone client caps snapshot hload
  have hget := get_commit_alone hafter
  have hentries := entries_commit_alone hafter
  -- the edges recruited for each entry of the snapshot
  have hentry : ∀ cid, ∃ recruited : List String, ∀ entry, snapshot.get cid = some entry →
      (recruit client caps cid entry).got = recruited.length ∧
      Reconciled client caps cid entry (left client caps cid entry) recruited := by
    intro cid
    cases hs : snapshot.get cid with
    | none => exact ⟨[], nofun⟩
    | some entry =>
      obtain ⟨recruited, hspec⟩ : ∃ recruited : List String,
          (recruit client caps cid entry).got = recruited.length ∧
          Reconciled client caps cid entry (left client caps cid entry) recruited :=
        reconciled_recruit (hdistinct cid entry hs) hpicks
      exact ⟨recruited, fun entry' he => by cases he; exact hspec⟩
  choose recruited hrecruited using hentry
  refine ⟨_, after, recruited, hrun, ?_, ?_, ?_, ?_, ?_⟩
  · intro cid
    rw [hget, Option.map_eq_none_iff]
  · intro cid entry final hs hf
    rw [hget, hs] at hf
    cases hf
    exact (hrecruited cid entry hs).2
  · rw [hentries, List.length_map, survey_examined]
  · rw [hentries, List.map_map, survey_recruited]
    refine congrArg List.sum (List.map_congr_left fun e he => ?_)
    exact (hrecruited e.1 e.2 (Ordered.mem_entries.1 he)).1
  · rw [hentries, List.countP_map, survey_shortfalls]
    rfl

/-- An object that no edge has cached, and one edge to recruit. -/
theorem pass_exact_sample :
    ∃ recruited, Reconciled (sampleClient ["edge-a"]) "" "cid-1" (sampleEntry [])
      (sampleEntry [⟨"edge-a", true⟩]) recruited := by
  have hdistinct : ∀ cid entry, (default.upsert (sampleEntry [])).get cid = some entry →
      entry.edgeIds.Nodup := by
    intro cid entry hentry
    rw [get_upsert] at hentry
    split at hentry
    · cases hentry
      exact List.nodup_nil
    · cases hentry
  have hpicks : ∀ cid n exclude picks,
      (sampleClient ["edge-a"]).pickEdges cid n exclude = .ok picks → picks.length ≤ n := by
    intro cid n exclude picks h
    cases h
    exact List.length_take_le n _
  obtain ⟨report, after, recruited, hrun, -, hentries, -⟩ :=
    pass_exact (sampleClient ["edge-a"]) "" sampleFile _ rfl hdistinct hpicks
  have hafter : runOnce (sampleClient ["edge-a"]) "" sampleFile [] =
      .ok (⟨1, 1, 0⟩, (default.upsert (sampleEntry [⟨"edge-a", true⟩])).saved) := by
    decide +kernel
  cases hrun.symm.trans hafter
  exact ⟨_, hentries "cid-1" _ _ (get_upsert _ _ _) (get_upsert _ _ _)⟩

end Maintain

end CeCdn
