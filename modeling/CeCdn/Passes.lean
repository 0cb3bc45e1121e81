/-
Pass after pass of the maintenance loop (`run_forever` of `maintain.rs`), over
edges that lose replicas between the passes, or come back with them. What a pass
recruits it owes to a replica that was short at the start or was lost since
(`passes_bounded`), if no entry records an edge twice: the loop does not churn.

An edge counts as live for an object while it answers probes that it holds it.
Whatever else is answered, and whether the catalog can be written, may differ
from pass to pass.
-/
import CeCdn.PassReport
import CeCdn.Lib.Machine

namespace CeCdn

open Lib Catalog Machine

namespace Maintain

/-- What a pass is answered besides whether an edge holds an object. -/
structure PassAnswers where
  client : CdnClient
  /-- What `pick_edges` finds out for each CID. -/
  discovery : String → Discovery
  caps : String
  /-- Whether the pass gets the lock and can write the catalog. -/
  writable : Bool

/-- The client of a pass over edges of which `live` says what they hold. -/
def PassAnswers.over (p : PassAnswers) (live : Finset (String × String)) : CdnClient :=
  { p.client with
    probe := fun i edge req =>
      if (edge, req.cid) ∈ live then
        .ok { (p.client.probe i edge req).toOption.getD ⟨true, 0, 0⟩ with held := true }
      else (p.client.probe i edge req).map fun s => { s with held := false }
    pickEdges := fun cid n exclude => .ok ((p.discovery cid).pickEdges n exclude) }

/-- The catalog and the edges. -/
structure Fleet where
  catalog : Catalog
  /-- The edges that hold an object, with its CID. -/
  live : Finset (String × String)
  /-- The recruits of all reports so far. -/
  recruited : Nat
  lost : Nat

inductive FleetEvent where
  | pass (p : PassAnswers)
  | lose (edge cid : String)
  | gain (edge cid : String)

/-- The edges recorded, with the CIDs. -/
def recordedPairs (c : Catalog) : Finset (String × String) :=
  ((Ordered.entries c.items).flatMap fun e => e.2.edgeIds.map fun edge => (edge, e.1)).toFinset

namespace Fleet

def step (f : Fleet) : FleetEvent → Option Fleet
  | .pass p =>
    match runOnce (p.over f.live) p.caps (some (.ok f.catalog)) [] with
    | .error _ => none
    | .ok (report, after) =>
      -- an edge that cached an object holds it, also when the commit fails
      let live := f.live ∪ recordedPairs after
      if p.writable then some { f with catalog := after, live, recruited := f.recruited + report.recruited }
      else some { f with live }
  | .lose edge cid =>
    if (edge, cid) ∈ f.live then
      some { f with live := f.live.erase (edge, cid), lost := f.lost + 1 }
    else some f
  | .gain edge cid => some { f with live := insert (edge, cid) f.live }

end Fleet

/-- How many live replicas an entry is short of its target. -/
def shortOf (live : Finset (String × String)) (cid : String) (entry : Entry) : Nat :=
  entry.content.replication - entry.edgeIds.countP fun edge => decide ((edge, cid) ∈ live)

def Fleet.deficit (f : Fleet) : Nat :=
  ((Ordered.entries f.catalog.items).map fun e => shortOf f.live e.1 e.2).sum

/-! ## One entry -/

section

variable {p : PassAnswers} {live : Finset (String × String)} {cid edge : String} {entry : Entry}

theorem held_over (i : Nat) (req : StatusReq) :
    held ((p.over live).probe i edge req) = decide ((edge, req.cid) ∈ live) := by
  simp only [PassAnswers.over]
  split
  · next h => simp [held, h]
  · next h =>
    cases p.client.probe i edge req with
    | error e => simp [held, Except.map, h]
    | ok s => simp [held, Except.map, h]

/-- A pass keeps the recorded edges that are live. -/
theorem heldEdges_over : heldEdges (p.over live) p.caps cid entry =
    entry.edgeIds.filter fun edge => decide ((edge, cid) ∈ live) := by
  have hfst := List.filter_map (p := fun edge => decide ((edge, cid) ∈ live)) (f := Prod.fst)
    (l := entry.edgeIds.zipIdx)
  rw [List.zipIdx_map_fst] at hfst
  rw [heldEdges, hfst]
  refine congrArg (List.map Prod.fst) (List.filter_congr fun e _ => ?_)
  exact held_over e.2 ⟨p.caps, cid⟩

theorem length_pickEdges_over {n : Nat} {exclude picks : List String} {cid : String}
    (h : (p.over live).pickEdges cid n exclude = .ok picks) : picks.length ≤ n := by
  cases h
  exact List.length_take_le n _

variable (p live cid) in
/-- What a pass makes of an entry with distinct edges. -/
theorem left_over (hnd : entry.edgeIds.Nodup) :
    ∃ recruited : List String,
      (recruit (p.over live) p.caps cid entry).got = recruited.length ∧
      (left (p.over live) p.caps cid entry).edgeIds =
        (entry.edgeIds.filter fun edge => decide ((edge, cid) ∈ live)) ++ recruited ∧
      (left (p.over live) p.caps cid entry).edgeIds.Nodup ∧
      (left (p.over live) p.caps cid entry).edgeIds.length ≤ max entry.content.replication
        (entry.edgeIds.countP fun edge => decide ((edge, cid) ∈ live)) := by
  obtain ⟨recruited, hgot, hrec⟩ : ∃ recruited : List String,
      (recruit (p.over live) p.caps cid entry).got = recruited.length ∧
      Reconciled (p.over live) p.caps cid entry (left (p.over live) p.caps cid entry) recruited :=
    reconciled_recruit hnd fun _ _ _ _ h => length_pickEdges_over h
  have hids : (left (p.over live) p.caps cid entry).edgeIds =
      heldEdges (p.over live) p.caps cid entry ++ recruited := by
    have hedges : (left (p.over live) p.caps cid entry).edges =
        (heldEdges (p.over live) p.caps cid entry ++ recruited).map fun e => ⟨e, true⟩ := hrec.edges
    rw [Entry.edgeIds, hedges, List.map_map]
    exact List.map_id' _
  have hlen := hrec.length
  rw [heldEdges_over] at hids hlen
  refine ⟨recruited, hgot, hids, hrec.distinct, ?_⟩
  rw [List.countP_eq_length_filter, Entry.edgeIds, List.length_map]
  exact hlen

end

/-! ## One event -/

theorem mem_recordedPairs {c : Catalog} {edge cid : String} :
    (edge, cid) ∈ recordedPairs c ↔ c.Records cid edge := by
  simp only [recordedPairs, List.mem_toFinset, List.mem_flatMap, List.mem_map, Prod.mk.injEq]
  constructor
  · intro ⟨e, he, edge', hedge, hpair, hcid⟩
    exact ⟨e.2, hcid ▸ Ordered.mem_entries.1 he, hpair ▸ hedge⟩
  · intro ⟨entry, hget, hedge⟩
    exact ⟨(cid, entry), Ordered.mem_entries.2 hget, edge, hedge, rfl, rfl⟩

/-- The recorded edges of each entry are different. -/
def Distinct (c : Catalog) : Prop := ∀ cid entry, c.get cid = some entry → entry.edgeIds.Nodup

theorem shortOf_mono {live live' : Finset (String × String)} (h : live ⊆ live') (cid : String)
    (entry : Entry) : shortOf live' cid entry ≤ shortOf live cid entry := by
  refine Nat.sub_le_sub_left (List.countP_mono_left fun edge _ hedge => ?_) _
  simpa using h (by simpa using hedge)

/-- What a pass recruits for an entry the entry is no longer short of. -/
theorem shortOf_left {p : PassAnswers} {live live' : Finset (String × String)} {cid : String}
    {entry : Entry} (hnd : entry.edgeIds.Nodup)
    (hlive : ∀ edge ∈ (left (p.over live) p.caps cid entry).edgeIds, (edge, cid) ∈ live') :
    shortOf live' cid (left (p.over live) p.caps cid entry) +
      (recruit (p.over live) p.caps cid entry).got = shortOf live cid entry := by
  obtain ⟨recruited, hgot, hids, -, hlen⟩ := left_over p live cid hnd
  have hall : ((left (p.over live) p.caps cid entry).edgeIds.countP fun edge =>
      decide ((edge, cid) ∈ live')) = (left (p.over live) p.caps cid entry).edgeIds.length :=
    List.countP_eq_length.2 fun edge hedge => by simpa using hlive edge hedge
  have hcontent : (left (p.over live) p.caps cid entry).content = entry.content := rfl
  rw [shortOf, hall, hcontent, shortOf]
  rw [hids, List.length_append, ← List.countP_eq_length_filter] at hlen ⊢
  omega

/-- What a pass does: it commits, or it only makes edges hold objects. -/
theorem Fleet.pass_cases {f f' : Fleet} {p : PassAnswers} (h : f.step (.pass p) = some f') :
    ∃ after, apply (commit (survey (p.over f.live) p.caps f.catalog).2) f.catalog = .ok after ∧
      f'.live = f.live ∪ recordedPairs after ∧ f'.lost = f.lost ∧
      ((f'.catalog = after ∧ f'.recruited = f.recruited +
          (survey (p.over f.live) p.caps f.catalog).1.recruited) ∨
        (f'.catalog = f.catalog ∧ f'.recruited = f.recruited)) := by
  have hload : load (some (.ok f.catalog)) = .ok f.catalog := rfl
  obtain ⟨after, hafter, hrun⟩ := runOnce_alone (p.over f.live) p.caps f.catalog hload
  simp only [Fleet.step, hrun] at h
  refine ⟨after, hafter, ?_⟩
  split at h
  · cases h
    exact ⟨rfl, rfl, .inl ⟨rfl, rfl⟩⟩
  · cases h
    exact ⟨rfl, rfl, .inr ⟨rfl, rfl⟩⟩

/-- The loop goes on after every pass. -/
theorem Fleet.step_isSome (f : Fleet) (e : FleetEvent) : (f.step e).isSome = true := by
  cases e with
  | pass p =>
    have hload : load (some (.ok f.catalog)) = .ok f.catalog := rfl
    obtain ⟨after, -, hrun⟩ := runOnce_alone (p.over f.live) p.caps f.catalog hload
    simp only [Fleet.step, hrun]
    split
    · rfl
    · rfl
  | lose edge cid =>
    simp only [Fleet.step]
    split
    · rfl
    · rfl
  | gain edge cid => rfl

section

variable {f f' : Fleet}

/-- A pass turns what is short into recruits. -/
theorem Fleet.deficit_pass {p : PassAnswers} (hnd : Distinct f.catalog)
    (h : f.step (.pass p) = some f') :
    f'.recruited + f'.deficit ≤ f.recruited + f.deficit := by
  obtain ⟨after, hafter, hlive, -, ⟨hcat, hrec⟩ | ⟨hcat, hrec⟩⟩ := Fleet.pass_cases h
  · have hsum : f'.deficit + ((Ordered.entries f.catalog.items).map fun e =>
        (recruit (p.over f.live) p.caps e.1 e.2).got).sum = f.deficit := by
      rw [Fleet.deficit, hcat, entries_commit_alone hafter, List.map_map, ← List.sum_map_add]
      refine congrArg List.sum (List.map_congr_left fun e he => ?_)
      refine shortOf_left (hnd e.1 e.2 (Ordered.mem_entries.1 he)) fun edge hedge => ?_
      rw [hlive]
      refine Finset.mem_union_right _ (mem_recordedPairs.2 ?_)
      refine ⟨left (p.over f.live) p.caps e.1 e.2, ?_, hedge⟩
      rw [get_commit_alone hafter, show f.catalog.get e.1 = some e.2 from Ordered.mem_entries.1 he]
      rfl
    rw [hrec, survey_recruited]
    omega
  · rw [hrec, Fleet.deficit, hcat]
    refine Nat.add_le_add_left (List.sum_le_sum fun e _ => shortOf_mono ?_ e.1 e.2) _
    rw [hlive]
    exact Finset.subset_union_left

/-- Without one pair, an edge counts fewer by as often as it is listed. -/
theorem countP_erase_le (live : Finset (String × String)) (edge k cid : String)
    (ids : List String) :
    (ids.countP fun x => decide ((x, k) ∈ live)) ≤
      (ids.countP fun x => decide ((x, k) ∈ live.erase (edge, cid))) + ids.count edge := by
  induction ids with
  | nil => exact Nat.zero_le _
  | cons x ids ih =>
    rw [List.countP_cons, List.countP_cons, List.count_cons]
    by_cases hx : x = edge
    · subst hx
      simp only [beq_self_eq_true, if_true]
      split <;> split <;> omega
    · have hsame : decide ((x, k) ∈ live.erase (edge, cid)) = decide ((x, k) ∈ live) := by
        simp [hx]
      rw [hsame]
      split <;> split <;> omega

/-- A lost replica is one more to recruit. -/
theorem deficit_lose (live : Finset (String × String)) {c : Catalog} (hnd : Distinct c)
    (edge cid : String) :
    ((Ordered.entries c.items).map fun e => shortOf (live.erase (edge, cid)) e.1 e.2).sum ≤
      ((Ordered.entries c.items).map fun e => shortOf live e.1 e.2).sum + 1 := by
  refine Ordered.sum_entries_le_succ (k := cid) (fun e he hk => ?_) fun e _ hk => ?_
  · -- the edge is recorded once, so one replica fewer is counted
    have hone := List.nodup_iff_count_le_one.1 (hnd e.1 e.2 (Ordered.mem_entries.1 he)) edge
    have hcount := countP_erase_le live edge e.1 cid e.2.edgeIds
    unfold shortOf
    omega
  · have hsame : ∀ x, decide ((x, e.1) ∈ live.erase (edge, cid)) = decide ((x, e.1) ∈ live) := by
      intro x
      simp [hk]
    simp only [shortOf, hsame]
    exact Nat.le_refl _

/-- No event makes recorded edges repeat. -/
theorem Fleet.distinct_step {e : FleetEvent} (hnd : Distinct f.catalog) (h : f.step e = some f') :
    Distinct f'.catalog := by
  cases e with
  | pass p =>
    obtain ⟨after, hafter, -, -, ⟨hcat, -⟩ | ⟨hcat, -⟩⟩ := Fleet.pass_cases h
    · intro cid entry hentry
      rw [hcat, get_commit_alone hafter] at hentry
      obtain ⟨entry₀, h₀, rfl⟩ := Option.map_eq_some_iff.1 hentry
      obtain ⟨recruited, -, -, hdistinct, -⟩ := left_over p f.live cid (hnd cid entry₀ h₀)
      exact hdistinct
    · rw [hcat]
      exact hnd
  | lose edge cid =>
    simp only [Fleet.step] at h
    split at h
    · cases h; exact hnd
    · cases h; exact hnd
  | gain edge cid => cases h; exact hnd

/-- What was recruited and what is still short grow by what was lost. -/
theorem Fleet.work_step {e : FleetEvent} (hnd : Distinct f.catalog) (h : f.step e = some f') :
    f'.recruited + f'.deficit + f.lost ≤ f.recruited + f.deficit + f'.lost := by
  cases e with
  | pass p =>
    have hwork := Fleet.deficit_pass hnd h
    obtain ⟨-, -, -, hlost, -⟩ := Fleet.pass_cases h
    omega
  | lose edge cid =>
    simp only [Fleet.step] at h
    split at h
    · cases h
      have hone := deficit_lose f.live hnd edge cid
      simp only [Fleet.deficit] at hone ⊢
      omega
    · cases h
      exact Nat.le_refl _
  | gain edge cid =>
    cases h
    have hle : ((Ordered.entries f.catalog.items).map fun e =>
        shortOf (insert (edge, cid) f.live) e.1 e.2).sum ≤
        ((Ordered.entries f.catalog.items).map fun e => shortOf f.live e.1 e.2).sum :=
      List.sum_le_sum fun e _ => shortOf_mono (Finset.subset_insert _ _) e.1 e.2
    simp only [Fleet.deficit]
    omega

/-- An entry's content stays, and its edges grow up to the target at most. -/
theorem Fleet.entry_step {e : FleetEvent} (hnd : Distinct f.catalog) (h : f.step e = some f')
    {cid : String} {entry : Entry} (hentry : f'.catalog.get cid = some entry) :
    ∃ entry₀, f.catalog.get cid = some entry₀ ∧ entry.content = entry₀.content ∧
      entry.edgeIds.length ≤ max entry₀.content.replication entry₀.edgeIds.length := by
  have hsame : f'.catalog = f.catalog → ∃ entry₀, f.catalog.get cid = some entry₀ ∧
      entry.content = entry₀.content ∧
      entry.edgeIds.length ≤ max entry₀.content.replication entry₀.edgeIds.length := fun hcat =>
    ⟨entry, hcat ▸ hentry, rfl, Nat.le_max_right _ _⟩
  cases e with
  | pass p =>
    obtain ⟨after, hafter, -, -, ⟨hcat, -⟩ | ⟨hcat, -⟩⟩ := Fleet.pass_cases h
    · rw [hcat, get_commit_alone hafter] at hentry
      obtain ⟨entry₀, h₀, rfl⟩ := Option.map_eq_some_iff.1 hentry
      obtain ⟨recruited, -, -, -, hlen⟩ := left_over p f.live cid (hnd cid entry₀ h₀)
      refine ⟨entry₀, h₀, rfl, hlen.trans (max_le_max_left _ ?_)⟩
      exact List.countP_le_length
    · exact hsame hcat
  | lose edge cid' =>
    refine hsame ?_
    simp only [Fleet.step] at h
    split at h
    · cases h; rfl
    · cases h; rfl
  | gain edge cid' => exact hsame (by cases h; rfl)

/-- A replica that is not lost stays recorded. -/
theorem Fleet.kept_step {e : FleetEvent} {edge cid : String} (hnd : Distinct f.catalog)
    (hrec : f.catalog.Records cid edge) (hlive : (edge, cid) ∈ f.live) (he : e ≠ .lose edge cid)
    (h : f.step e = some f') : f'.catalog.Records cid edge ∧ (edge, cid) ∈ f'.live := by
  cases e with
  | pass p =>
    obtain ⟨after, hafter, hlive', -, hcat⟩ := Fleet.pass_cases h
    refine ⟨?_, hlive' ▸ Finset.mem_union_left _ hlive⟩
    obtain ⟨hcat, -⟩ | ⟨hcat, -⟩ := hcat
    · obtain ⟨entry, hentry, hedge⟩ := hrec
      obtain ⟨recruited, -, hids, -⟩ := left_over p f.live cid
        (hnd cid entry (Option.mem_def.1 hentry))
      refine ⟨left (p.over f.live) p.caps cid entry, ?_, ?_⟩
      · rw [hcat, Option.mem_def, get_commit_alone hafter, Option.mem_def.1 hentry]
        rfl
      · rw [hids]
        exact List.mem_append_left _ (List.mem_filter.2 ⟨hedge, by simpa using hlive⟩)
    · rwa [hcat]
  | lose edge' cid' =>
    simp only [Fleet.step] at h
    split at h
    · cases h
      refine ⟨hrec, Finset.mem_erase.2 ⟨fun heq => he ?_, hlive⟩⟩
      cases heq
      rfl
    · cases h
      exact ⟨hrec, hlive⟩
  | gain edge' cid' =>
    cases h
    exact ⟨hrec, Finset.mem_insert_of_mem hlive⟩

end

/-! ## Pass after pass -/

/-- **Maintenance recruits only what is missing.** From a catalog each entry of
which records different edges, over every sequence of passes and of replicas
that edges lose or come back with, whatever the passes are answered, and whether
their commits succeed or fail: what all reports count as recruited, with what is
short in the end, is at most what was short at the start and the replicas lost;
no entry gets more edges than its target or than it had; and an edge that keeps
an object stays recorded for it. An edge that is recorded twice counts as two
replicas, which are lost as one. -/
theorem passes_bounded (catalog : Catalog) (live : Finset (String × String))
    (hdistinct : Distinct catalog) (es : List FleetEvent) :
    ∃ f, run Fleet.step ⟨catalog, live, 0, 0⟩ es = some f ∧
      f.recruited + f.deficit ≤ (Fleet.mk catalog live 0 0).deficit + f.lost ∧
      (∀ cid entry, f.catalog.get cid = some entry → ∃ entry₀, catalog.get cid = some entry₀ ∧
        entry.content = entry₀.content ∧
        entry.edgeIds.length ≤ max entry₀.content.replication entry₀.edgeIds.length) ∧
      ∀ cid edge, catalog.Records cid edge → (edge, cid) ∈ live → .lose edge cid ∉ es →
        f.catalog.Records cid edge := by
  obtain ⟨f, hrun⟩ := Option.isSome_iff_exists.1
    (run_isSome Fleet.step_isSome ⟨catalog, live, 0, 0⟩ es)
  have hstart : Distinct (Fleet.mk catalog live 0 0).catalog := hdistinct
  refine ⟨f, hrun, ?_, ?_, ?_⟩
  · have hinv := run_invariant (I := fun f => Distinct f.catalog ∧
      f.recruited + f.deficit ≤ (Fleet.mk catalog live 0 0).deficit + f.lost)
      (fun f e f' hI hs => ⟨Fleet.distinct_step hI.1 hs, ?_⟩) ⟨hstart, Nat.le_of_eq (Nat.zero_add _)⟩ hrun
    · exact hinv.2
    · have hwork := Fleet.work_step hI.1 hs
      have hI := hI.2
      omega
  · have hinv := run_invariant (I := fun f => Distinct f.catalog ∧ ∀ cid entry,
      f.catalog.get cid = some entry → ∃ entry₀, catalog.get cid = some entry₀ ∧
        entry.content = entry₀.content ∧
        entry.edgeIds.length ≤ max entry₀.content.replication entry₀.edgeIds.length)
      (fun f e f' hI hs => ⟨Fleet.distinct_step hI.1 hs, fun cid entry hentry => ?_⟩)
      ⟨hstart, fun cid entry h => ⟨entry, h, rfl, Nat.le_max_right _ _⟩⟩ hrun
    · exact hinv.2
    · obtain ⟨entry₁, h₁, hcontent₁, hlen₁⟩ := Fleet.entry_step hI.1 hs hentry
      obtain ⟨entry₀, h₀, hcontent₀, hlen₀⟩ := hI.2 cid entry₁ h₁
      refine ⟨entry₀, h₀, hcontent₁.trans hcontent₀, hlen₁.trans ?_⟩
      rw [hcontent₀]
      exact max_le (Nat.le_max_left _ _) hlen₀
  · intro cid edge hrec hlive hlose
    have hguard : Guarded Fleet.step (fun _ e => e ≠ .lose edge cid) ⟨catalog, live, 0, 0⟩ es := by
      apply guarded_of_forall
      intro e he _ heq
      rw [heq] at he
      exact hlose he
    have hinv := guarded_invariant
      (I := fun f => Distinct f.catalog ∧ f.catalog.Records cid edge ∧ (edge, cid) ∈ f.live)
      (fun f e f' hI he hs => ⟨Fleet.distinct_step hI.1 hs, Fleet.kept_step hI.1 hI.2.1 hI.2.2 he hs⟩)
      ⟨hstart, hrec, hlive⟩ hguard hrun
    exact hinv.2.1

def twoReplicas : Entry :=
  ⟨⟨"cid-1", 5, .publicAccess, 2, 0, none, []⟩, [⟨"edge-a", true⟩, ⟨"edge-b", true⟩]⟩

def samplePass : PassAnswers := ⟨sampleClient [], fun _ => sampleDiscovery ["edge-c"], "", true⟩

/-- Between two passes an edge loses the object. -/
def sampleEvents : List FleetEvent :=
  [.pass samplePass, .lose "edge-b" "cid-1", .pass samplePass]

/-- The second pass recruits another edge. -/
theorem passes_bounded_sample :
    ∃ f, run Fleet.step
        ⟨default.upsert twoReplicas, {("edge-a", "cid-1"), ("edge-b", "cid-1")}, 0, 0⟩
        sampleEvents = some f ∧
      f.recruited = 1 ∧ f.recruited + f.deficit ≤ 0 + f.lost ∧
      f.catalog.Records "cid-1" "edge-a" := by
  have hdistinct : Distinct (default.upsert twoReplicas) := by
    intro cid entry hentry
    rw [get_upsert] at hentry
    split at hentry
    · cases hentry
      decide
    · cases hentry
  have hcount : (run Fleet.step
      ⟨default.upsert twoReplicas, {("edge-a", "cid-1"), ("edge-b", "cid-1")}, 0, 0⟩
      sampleEvents).map Fleet.recruited = some 1 := by decide +kernel
  obtain ⟨f, hrun, hwork, -, hkept⟩ := passes_bounded (default.upsert twoReplicas)
    {("edge-a", "cid-1"), ("edge-b", "cid-1")} hdistinct sampleEvents
  rw [hrun] at hcount
  have hstart : (Fleet.mk (default.upsert twoReplicas)
      {("edge-a", "cid-1"), ("edge-b", "cid-1")} 0 0).deficit = 0 := by decide +kernel
  rw [hstart] at hwork
  exact ⟨f, hrun, Option.some_inj.1 hcount, hwork, hkept "cid-1" "edge-a" (by decide) (by decide)
    (by simp [sampleEvents])⟩

end Maintain

end CeCdn
