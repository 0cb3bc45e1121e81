/-
The edges that the catalog keeps track of, over runs of `put`, `maintain` and
`status`. An edge that is recorded stays recorded as far as each `put` of its
CID is answered by it again, and each pass of `maintain` finds it holding the
object (`holders_kept_iff`): a `put` replaces the edge list by the edges it
reached itself, and a pass drops the edges whose probe failed.
-/
import CeCdn.Cli
import CeCdn.MaintainRace

namespace CeCdn.Cli

open Lib Machine Text Catalog Maintain

def Recorded (catalog : Option File) (cid edge : String) : Prop :=
  ∃ c, load catalog = .ok c ∧ c.Records cid edge

/-- From whatever point of the run it is recorded, an edge stays recorded. -/
def StaysRecorded (catalog : Option File) (vs : List Invocation) (cid edge : String) : Prop :=
  ∀ vs₁ vs₂ vs₃, vs = vs₁ ++ vs₂ ++ vs₃ → Recorded (final step catalog vs₁) cid edge →
    Recorded (final step catalog (vs₁ ++ vs₂)) cid edge

/-- The edge answers the command that it holds the object, where the command
makes the CID's edge list anew. -/
def Invocation.Reaches (v : Invocation) (catalog : Option File) (cid edge : String) : Prop :=
  match v.command with
  | .put file o => ∀ bytes, file = .ok bytes → v.client.putObject bytes = .ok cid →
    ∃ answer, (edge, answer) ∈ putPicks v.client v.caps cid bytes.length o ∧ cached answer = true
  | .maintain => ∀ c, load catalog = .ok c → ∀ entry ∈ c.get cid,
    (edge, true) ∈ probes v.client v.caps cid entry
  | .status _ => True

/-! ## One command -/

section

variable {catalog : Option File} {c : Catalog} {cid edge : String} {client : CdnClient}
  {caps : String}

theorem recorded_iff_of_load (h : load catalog = .ok c) :
    Recorded catalog cid edge ↔ c.Records cid edge := by
  simp [Recorded, h]

/-- After a command, what was recorded is recorded unless the command saved a
catalog without it. -/
theorem recorded_step_iff {v : Invocation} (h : load catalog = .ok c) (hc : c.Records cid edge) :
    Recorded (step catalog v).2 cid edge ↔
      (v.writable = true → ∀ saved ∈ v.saves catalog, saved.Records cid edge) := by
  have hold : Recorded catalog cid edge := (recorded_iff_of_load h).2 hc
  unfold step
  cases v.writable with
  | false => simp [hold]
  | true =>
    cases hs : v.saves catalog with
    | none => simp [hold]
    | some saved => simp [Recorded, load]

theorem cmdPut_eq {file : Except String Bytes} {bytes : Bytes} {o : PutOptions}
    (hfile : file = .ok bytes) (hput : client.putObject bytes = .ok cid)
    (hload : load catalog = .ok c) :
    cmdPut client caps file o catalog = apply (record cid bytes.length o
      (((putPicks client caps cid bytes.length o).filter fun p => cached p.2).map
        fun p => ⟨p.1, true⟩)) c := by
  subst hfile
  simp [cmdPut, bind, Except.bind, hput, hload]

theorem saves_put {v : Invocation} {file : Except String Bytes} {o : PutOptions}
    (hv : v.command = .put file o) (hload : load catalog = .ok c) (hc : c.Records cid edge) :
    (∀ saved ∈ v.saves catalog, saved.Records cid edge) ↔ v.Reaches catalog cid edge := by
  simp only [Invocation.saves, Invocation.Reaches, hv]
  cases hfile : file with
  | error e => simp [cmdPut, bind, Except.bind, Except.toOption]
  | ok bytes =>
    cases hput : v.client.putObject bytes with
    | error e => simp [cmdPut, bind, Except.bind, Except.toOption, hput]
    | ok cid' =>
      rw [cmdPut_eq rfl hput hload]
      by_cases hcid : cid' = cid
      · subst hcid
        simp [apply, record, Except.map, Except.toOption, Records, Entry.edgeIds, hput]
      · have hget : cid ≠ cid' := Ne.symm hcid
        have hsame (entry : Entry) (he : entry.content.cid = cid') :
            (c.upsert entry).saved.Records cid edge := by
          refine (records_congr ?_ edge).2 hc
          rw [get_saved, get_upsert, he, if_neg hget]
        simp [apply, record, Except.map, Except.toOption, hput, hcid, hsame]

theorem saves_maintain {v : Invocation} (hv : v.command = .maintain) (hload : load catalog = .ok c)
    (hc : c.Records cid edge) :
    (∀ saved ∈ v.saves catalog, saved.Records cid edge) ↔ v.Reaches catalog cid edge := by
  obtain ⟨entry, hentry, hedge⟩ := hc
  obtain ⟨after, hafter⟩ : ∃ after, apply (commit (survey v.client v.caps c).2) c = .ok after :=
    ⟨_, rfl⟩
  have hsaves : v.saves catalog = some after := by
    simp [Invocation.saves, hv, runOnce, bind, Except.bind, hload, commits, pure, Except.pure,
      hafter, Except.toOption]
  have hkept : after.Records cid edge ↔ Measured v.client v.caps cid entry edge := by
    rw [records_commit_iff hafter]
    simp [Option.mem_def.1 hentry]
  have hprobe : Measured v.client v.caps cid entry edge ↔
      (edge, true) ∈ probes v.client v.caps cid entry := by
    simp [Measured, hedge]
  simp [hsaves, hkept, hprobe, Invocation.Reaches, hv, hload, Option.mem_def.1 hentry]

theorem saves_status {v : Invocation} {cid' : String} (hv : v.command = .status cid')
    (hload : load catalog = .ok c) (hc : c.Records cid edge) :
    ∀ saved ∈ v.saves catalog, saved.Records cid edge := by
  intro saved hsaved
  simp only [Invocation.saves, hv, cmdStatus] at hsaved
  split at hsaved
  · cases hsaved
  · simp only [hload, Except.bind, apply, reflect, Except.map, Except.toOption, Option.mem_def,
      Option.some.injEq] at hsaved
    subst hsaved
    obtain ⟨entry, hentry, hedge⟩ := hc
    -- only the health flags change
    refine ⟨if cid = cid' then { entry with edges := entry.edges.map fun r =>
        { r with healthy := decide (r.edge ∈ (v.client.findService (serviceFor cid')).toOption.getD
          []) } } else entry, ?_, ?_⟩
    · rw [get_saved, get_modify]
      by_cases h : cid = cid'
      · subst h
        rw [if_pos rfl, if_pos rfl, Option.mem_def.1 hentry]
        rfl
      · rw [if_neg h, if_neg h]
        exact hentry
    · by_cases h : cid = cid'
      · rw [if_pos h]
        simpa [Entry.edgeIds] using hedge
      · rw [if_neg h]
        exact hedge

/-- A command keeps an edge recorded that reaches it, and no other. -/
theorem recorded_step_iff_reaches {v : Invocation} (hc : Recorded catalog cid edge) :
    Recorded (step catalog v).2 cid edge ↔ (v.writable = true → v.Reaches catalog cid edge) := by
  obtain ⟨c, hload, hc⟩ := hc
  rw [recorded_step_iff hload hc]
  refine imp_congr_right fun _ => ?_
  cases hv : v.command with
  | put file o => exact saves_put hv hload hc
  | maintain => exact saves_maintain hv hload hc
  | status cid' =>
    refine iff_of_true (saves_status hv hload hc) ?_
    simp [Invocation.Reaches, hv]

end

/-- **The edges recorded for a CID stay recorded along a run exactly when each of
them reaches every command of the run that makes the CID's edge list anew.** -/
theorem holders_kept_iff (catalog : Option File) (vs : List Invocation) (cid edge : String) :
    StaysRecorded catalog vs cid edge ↔
      ∀ t ∈ trace step catalog vs, Recorded t.1 cid edge → t.2.1.writable = true →
        t.2.1.Reaches t.1 cid edge := by
  rw [StaysRecorded, ← trace_keeps_iff (P := fun catalog => Recorded catalog cid edge)]
  refine forall₂_congr fun t _ => forall_congr' fun hrec => ?_
  exact recorded_step_iff_reaches hrec

/-! ## An edge that is forgotten -/

/-- The bytes of a file are put, and an edge caches the object. -/
def firstPut : Invocation :=
  ⟨.put (.ok [1, 2, 3]) ⟨1, 0, false, none, [], false⟩, sampleClient ["edge-a"], "", true⟩

/-- The same bytes again, with `--no-replicate`. -/
def secondPut : Invocation :=
  ⟨.put (.ok [1, 2, 3]) ⟨1, 0, false, none, [], true⟩, sampleClient ["edge-a"], "", true⟩

/-- A pass that the edge does not answer in time. -/
def timedOutPass : Invocation :=
  ⟨.maintain, { sampleClient ["edge-a"] with probe := fun _ _ _ => .error "timeout" }, "", true⟩

/-- An edge that was recorded, and still holds the object, is forgotten by
another publication of the same bytes, and by a pass that it does not answer. -/
theorem holder_forgotten :
    ¬ StaysRecorded none [firstPut, secondPut] "cid-1" "edge-a" ∧
      ¬ StaysRecorded none [firstPut, timedOutPass] "cid-1" "edge-a" := by
  have hput : Recorded (step none firstPut).2 "cid-1" "edge-a" := ⟨_, rfl, by decide +kernel⟩
  have hsecond : ¬ Recorded (step (step none firstPut).2 secondPut).2 "cid-1" "edge-a" := by
    intro ⟨c, hc, hrec⟩
    cases hc
    revert hrec
    decide +kernel
  have hpass : ¬ Recorded (step (step none firstPut).2 timedOutPass).2 "cid-1" "edge-a" := by
    intro ⟨c, hc, hrec⟩
    cases hc
    revert hrec
    decide +kernel
  exact ⟨fun h => hsecond (h [firstPut] [secondPut] [] rfl hput),
    fun h => hpass (h [firstPut] [timedOutPass] [] rfl hput)⟩

end CeCdn.Cli
