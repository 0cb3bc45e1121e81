/-
The health flags that `status` writes. The command probes every edge it knows
for a CID, and then sets the flag of each recorded edge to whether the edge is
advertised. So the catalog says what was measured exactly when being advertised
and holding the object come to the same for the recorded edges
(`status_records_measured_iff`).
-/
import CeCdn.Cli
import CeCdn.MaintainRace

namespace CeCdn.Cli

open Lib Text Catalog Maintain

/-- The edges that are advertised for a CID; none if they cannot be found out. -/
def advertised (client : CdnClient) (cid : String) : List String :=
  (client.findService (serviceFor cid)).toOption.getD []

/-- The edges that `status` probes: the advertised ones, then the recorded ones. -/
def known (client : CdnClient) (cid : String) (entry : Entry) : List String :=
  entry.edgeIds.foldl (fun all id => if id ∈ all then all else all ++ [id]) (advertised client cid)

/-- The edges with what their probes in this run of the command came to. -/
def probed (client : CdnClient) (caps cid : String) (entry : Entry) : List (String × Bool) :=
  (known client cid entry).mapIdx fun i edge => (edge, held (client.probe i edge ⟨caps, cid⟩))

/-- The catalog after the command: what it saved, or what there was. -/
def afterStatus (client : CdnClient) (caps cid : String) (catalog : Option File) (c : Catalog) :
    Catalog :=
  (cmdStatus client caps cid catalog).2.getD c

/-- `after` records the edges of the entry as `c` does, each marked healthy
exactly if its probe answered that it holds the object, and is otherwise as `c`
(but for the schema version, which every save writes anew). -/
structure RecordsMeasured (c after : Catalog) (cid : String) (entry : Entry)
    (probed : List (String × Bool)) : Prop where
  entry : ∃ left, after.get cid = some left ∧ left.content = entry.content ∧
    left.edgeIds = entry.edgeIds ∧ ∀ r ∈ left.edges, r.healthy = true ↔ (r.edge, true) ∈ probed
  others : ∀ cid', cid' ≠ cid → after.get cid' = c.get cid'
  version : after.version = c.version ∨ after.version = CATALOG_SCHEMA_VERSION

/-! ## What the command probes -/

theorem mem_foldl_push (ids all : List String) (id : String) :
    id ∈ ids.foldl (fun all id => if id ∈ all then all else all ++ [id]) all ↔
      id ∈ all ∨ id ∈ ids := by
  induction ids generalizing all with
  | nil => simp
  | cons x ids ih =>
    rw [List.foldl_cons, ih, List.mem_cons, ← or_assoc]
    by_cases hx : x ∈ all
    · rw [if_pos hx]
      refine or_congr_left ⟨Or.inl, fun h => ?_⟩
      rcases h with h | rfl
      · exact h
      · exact hx
    · rw [if_neg hx, List.mem_append, List.mem_singleton]

section

variable (client : CdnClient) (caps cid : String) {catalog : Option File} {c : Catalog}
  {entry : Entry}

/-- Every recorded edge is probed. -/
theorem mem_known {r : EdgeReplica} (hr : r ∈ entry.edges) : r.edge ∈ known client cid entry :=
  (mem_foldl_push _ _ _).2 (.inr (List.mem_map_of_mem hr))

/-- An edge's probe comes to what the edge answers. -/
theorem mem_probed_iff {outcome : String → Except String StatusResp}
    (hprobe : ∀ i edge, client.probe i edge ⟨caps, cid⟩ = outcome edge) {r : EdgeReplica}
    (hr : r ∈ entry.edges) :
    (r.edge, true) ∈ probed client caps cid entry ↔ held (outcome r.edge) = true := by
  simp only [probed, List.mem_mapIdx, hprobe, Prod.mk.injEq]
  constructor
  · intro ⟨i, _, hedge, hheld⟩
    rwa [hedge] at hheld
  · intro hheld
    obtain ⟨i, hi, hedge⟩ := List.getElem_of_mem (mem_known client cid hr)
    exact ⟨i, hi, hedge, hedge ▸ hheld⟩

/-! ## What it saves -/

/-- The recorded edges with the flags that `status` gives them. -/
def reflected (entry : Entry) : Entry :=
  { entry with edges := entry.edges.map fun r =>
      { r with healthy := decide (r.edge ∈ advertised client cid) } }

/-- The command saves nothing only if it knows no edge at all. -/
theorem afterStatus_cases (hload : load catalog = .ok c) (hentry : c.get cid = some entry) :
    (entry.edges = [] ∧ afterStatus client caps cid catalog c = c) ∨
    afterStatus client caps cid catalog c = (c.modify cid (reflected client cid)).saved := by
  have hrecorded : ((load catalog).toOption.bind (Catalog.get cid)).elim [] Entry.edgeIds =
      entry.edgeIds := by
    simp [hload, Except.toOption, hentry]
  simp only [afterStatus, cmdStatus, hrecorded]
  split
  · next hempty =>
    refine .inl ⟨?_, rfl⟩
    by_contra hne
    obtain ⟨r, hr⟩ := List.exists_mem_of_ne_nil _ hne
    have hknown := mem_known client cid hr
    rw [known, advertised, List.isEmpty_iff.1 hempty] at hknown
    cases hknown
  · refine .inr ?_
    rw [hload]
    rfl

/-- Each recorded edge ends with the flag that `status` gives it. -/
theorem get_afterStatus (hload : load catalog = .ok c) (hentry : c.get cid = some entry) :
    (afterStatus client caps cid catalog c).get cid = some (reflected client cid entry) := by
  rcases afterStatus_cases client caps cid hload hentry with ⟨hnil, hsame⟩ | heq
  · rw [hsame, hentry, reflected]
    obtain ⟨content, edges⟩ := entry
    obtain rfl : edges = [] := hnil
    rfl
  · rw [heq, get_saved, get_modify, if_pos rfl, hentry]
    rfl

/-- The rest of the catalog stays. -/
theorem afterStatus_rest (hload : load catalog = .ok c) (hentry : c.get cid = some entry) :
    (∀ cid', cid' ≠ cid → (afterStatus client caps cid catalog c).get cid' = c.get cid') ∧
    ((afterStatus client caps cid catalog c).version = c.version ∨
      (afterStatus client caps cid catalog c).version = CATALOG_SCHEMA_VERSION) := by
  rcases afterStatus_cases client caps cid hload hentry with ⟨-, hsame⟩ | heq
  · rw [hsame]
    exact ⟨fun _ _ => rfl, .inl rfl⟩
  · rw [heq]
    refine ⟨fun cid' hne => ?_, .inr rfl⟩
    rw [get_saved, get_modify, if_neg hne]

end

/-- **When `status` records what it measured.** For every catalog entry, list of
advertised edges and outcome of each edge's probe: exactly when each recorded
edge is advertised if and only if its probe answers that it holds the object. -/
theorem status_records_measured_iff (client : CdnClient) (caps cid : String)
    (catalog : Option File) (c : Catalog) (entry : Entry)
    (outcome : String → Except String StatusResp) (hload : load catalog = .ok c)
    (hentry : c.get cid = some entry)
    (hprobe : ∀ i edge, client.probe i edge ⟨caps, cid⟩ = outcome edge) :
    RecordsMeasured c (afterStatus client caps cid catalog c) cid entry
        (probed client caps cid entry) ↔
      ∀ r ∈ entry.edges, r.edge ∈ advertised client cid ↔ held (outcome r.edge) = true := by
  have hget := get_afterStatus client caps cid hload hentry
  constructor
  · rintro ⟨⟨left, hleft, -, -, hflags⟩, -, -⟩ r hr
    rw [hget] at hleft
    cases hleft
    have hflag := hflags ⟨r.edge, decide (r.edge ∈ advertised client cid)⟩
      (List.mem_map.2 ⟨r, hr, rfl⟩)
    rw [← mem_probed_iff client caps cid hprobe hr, ← hflag]
    simp
  · intro hagree
    obtain ⟨hothers, hversion⟩ := afterStatus_rest client caps cid hload hentry
    refine ⟨⟨_, hget, rfl, ?_, ?_⟩, hothers, hversion⟩
    · simp [Entry.edgeIds, reflected]
    · intro r hr
      obtain ⟨r₀, hr₀, rfl⟩ := List.mem_map.1 hr
      rw [mem_probed_iff client caps cid hprobe hr₀, ← hagree r₀ hr₀]
      simp

/-! ## An edge that is advertised and lost the object -/

/-- The recorded edge of a catalog, and another one, are advertised; the edges
that hold the object are given. -/
def probedClient (holders : List String) : CdnClient where
  putObject _ := .ok "cid-1"
  findService _ := .ok ["edge-a", "edge-b"]
  probe _ edge _ := .ok ⟨decide (edge ∈ holders), 5, 0⟩
  pickEdges _ _ _ := .ok []
  replicateTo _ _ _ := .error "unreachable"

def trackedFile : Option File := some (.ok (default.upsert (sampleEntry [⟨"edge-a", false⟩])))

/-- The recorded edge is advertised and holds the object. -/
theorem status_records_measured_sample :
    RecordsMeasured (default.upsert (sampleEntry [⟨"edge-a", false⟩]))
      (afterStatus (probedClient ["edge-a"]) "" "cid-1" trackedFile
        (default.upsert (sampleEntry [⟨"edge-a", false⟩])))
      "cid-1" (sampleEntry [⟨"edge-a", false⟩])
      (probed (probedClient ["edge-a"]) "" "cid-1" (sampleEntry [⟨"edge-a", false⟩])) :=
  (status_records_measured_iff (probedClient ["edge-a"]) "" "cid-1" trackedFile _
    (sampleEntry [⟨"edge-a", false⟩])
    (fun edge => .ok ⟨decide (edge ∈ ["edge-a"]), 5, 0⟩) rfl (get_upsert _ _ _)
    (fun _ _ => rfl)).2 (by decide +kernel)

/-- It is advertised but answers that it does not hold the object, and is marked
healthy. -/
theorem status_marks_lost_healthy :
    ¬ RecordsMeasured (default.upsert (sampleEntry [⟨"edge-a", false⟩]))
      (afterStatus (probedClient []) "" "cid-1" trackedFile
        (default.upsert (sampleEntry [⟨"edge-a", false⟩])))
      "cid-1" (sampleEntry [⟨"edge-a", false⟩])
      (probed (probedClient []) "" "cid-1" (sampleEntry [⟨"edge-a", false⟩])) := by
  rintro ⟨⟨left, hleft, -, -, hflags⟩, -, -⟩
  have hafter : (afterStatus (probedClient []) "" "cid-1" trackedFile
      (default.upsert (sampleEntry [⟨"edge-a", false⟩]))).get "cid-1" =
      some (sampleEntry [⟨"edge-a", true⟩]) := by decide +kernel
  cases hafter.symm.trans hleft
  have hflag := (hflags ⟨"edge-a", true⟩ List.mem_cons_self).1 rfl
  revert hflag
  decide +kernel

end CeCdn.Cli
