/-
A maintenance pass among other processes. The pass commits edge lists that it
made from its snapshot, so what others recorded in the meantime is replaced: of
the edges that they added, exactly those stay recorded whose entry was not in
the snapshot or which the pass measured itself (`pass_keeps_added_iff`).
-/
import CeCdn.MaintainFacts

namespace CeCdn

open Lib Catalog Maintain

/-- One of the updates added the edge to the CID's entry, and no later one
removed it. -/
def Added (snapshot : Catalog) (others : List Update) (cid edge : String) : Prop :=
  ∃ (us : List Update) (u : Update) (us' : List Update), others = us ++ u :: us' ∧
    (∀ c, commits us snapshot = .ok c → ¬ c.Records cid edge) ∧
    ∀ us'', us'' <+: us' → ∀ c, commits (us ++ u :: us'') snapshot = .ok c → c.Records cid edge

theorem Added.records {snapshot now : Catalog} {others : List Update} {cid edge : String}
    (h : Added snapshot others cid edge) (hnow : commits others snapshot = .ok now) :
    now.Records cid edge := by
  obtain ⟨us, u, us', rfl, -, hkept⟩ := h
  exact hkept us' (List.prefix_refl us') now hnow

theorem runOnce_eq_ok {client : CdnClient} {caps : String} {file : Option File}
    {others : List Update} {report : MaintainReport} {after : Catalog}
    (h : runOnce client caps file others = .ok (report, after)) :
    ∃ snapshot now, load file = .ok snapshot ∧ commits others snapshot = .ok now ∧
      report = (survey client caps snapshot).1 ∧
      apply (commit (survey client caps snapshot).2) now = .ok after := by
  unfold runOnce at h
  simp only [bind, Except.bind] at h
  cases hl : load file with
  | error e => rw [hl] at h; cases h
  | ok snapshot =>
    rw [hl] at h
    cases hc : commits others snapshot with
    | error e => simp only [hc] at h; cases h
    | ok now =>
      simp only [hc] at h
      cases ha : apply (commit (survey client caps snapshot).2) now with
      | error e => simp only [ha] at h; cases h
      | ok after' =>
        simp only [ha] at h
        cases h
        exact ⟨snapshot, now, rfl, hc, rfl, ha⟩

/-- **A pass keeps the edges that other processes add meanwhile, exactly as far
as it had no entry for the CID in its snapshot, or measured the edge itself.** -/
theorem pass_keeps_added_iff (client : CdnClient) (caps : String) (file : Option File)
    (others : List Update) (snapshot : Catalog) (report : MaintainReport) (after : Catalog)
    (hload : load file = .ok snapshot)
    (hrun : runOnce client caps file others = .ok (report, after)) :
    (∀ cid edge, Added snapshot others cid edge → after.Records cid edge) ↔
      ∀ cid edge, Added snapshot others cid edge →
        ∀ entry ∈ snapshot.get cid, Measured client caps cid entry edge := by
  obtain ⟨snapshot', now, hload', hnow, -, hafter⟩ := runOnce_eq_ok hrun
  rw [hload] at hload'
  cases hload'
  refine forall_congr' fun cid => forall_congr' fun edge => forall_congr' fun hadded => ?_
  have hrec := hadded.records hnow
  obtain ⟨entry', hentry'⟩ := get_isSome_of_records hrec
  rw [records_commit_iff hafter]
  cases hs : snapshot.get cid with
  | none => simp [hrec]
  | some entry => simp [hentry']

/-! ## A publication during a pass -/

def sampleEntry (edges : List EdgeReplica) : Entry :=
  ⟨⟨"cid-1", 5, .publicAccess, 1, 0, none, []⟩, edges⟩

/-- An object that no edge has cached. -/
def sampleFile : Option File := some (.ok (default.upsert (sampleEntry [])))

/-- It is published again, and an edge caches it. -/
def republish : Update := fun cat => .ok (cat.upsert (sampleEntry [⟨"edge-a", true⟩]))

/-- These edges are advertised, and every edge answers what is hoped for. -/
def sampleClient (advertised : List String) : CdnClient where
  putObject _ := .ok "cid-1"
  findService _ := .ok advertised
  probe _ _ _ := .ok ⟨true, 5, 0⟩
  pickEdges _ n exclude := .ok ((advertised.filter fun e => e ∉ exclude).take n)
  replicateTo _ _ req := .ok { cached := true, storedBytes := req.bytesLen }

/-- The edge that the publication recorded is still the only one advertised: the
pass recruits it as well. -/
theorem pass_keeps_added_sample :
    (∀ cid edge, Added (default.upsert (sampleEntry [])) [republish] cid edge →
      (default.upsert (sampleEntry [⟨"edge-a", true⟩])).saved.Records cid edge) ↔
    ∀ cid edge, Added (default.upsert (sampleEntry [])) [republish] cid edge →
      ∀ entry ∈ (default.upsert (sampleEntry [])).get cid,
        Measured (sampleClient ["edge-a"]) "" cid entry edge :=
  pass_keeps_added_iff (sampleClient ["edge-a"]) "" sampleFile [republish]
    (default.upsert (sampleEntry [])) ⟨1, 1, 0⟩ _ rfl (by decide +kernel)

/-- No edge is advertised to the pass, and it forgets the one that the
publication recorded. -/
theorem pass_forgets_added :
    ¬ ∀ (client : CdnClient) (caps : String) (file : Option File) (others : List Update)
      (snapshot : Catalog) (report : MaintainReport) (after : Catalog),
      load file = .ok snapshot → runOnce client caps file others = .ok (report, after) →
      ∀ cid edge, Added snapshot others cid edge → after.Records cid edge := by
  intro h
  have hrun : runOnce (sampleClient []) "" sampleFile [republish] =
      .ok (⟨1, 0, 1⟩, (default.upsert (sampleEntry [])).saved) := by
    decide +kernel
  have hadded : Added (default.upsert (sampleEntry [])) [republish] "cid-1" "edge-a" := by
    refine ⟨[], republish, [], rfl, fun c hc => ?_, fun us hus c hc => ?_⟩
    · cases hc
      decide +kernel
    · rw [List.prefix_nil.1 hus] at hc
      cases hc
      decide +kernel
  have hkept := h _ _ _ _ _ _ _ rfl hrun "cid-1" "edge-a" hadded
  revert hkept
  decide +kernel

end CeCdn
