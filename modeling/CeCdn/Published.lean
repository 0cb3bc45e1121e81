/-
The catalog over runs of all the commands that write it (`main.rs`): `put`,
`maintain`, `status`, `purge` and `forget`, in any order, whatever the network
answers. What it says of a CID is what the last command said that wrote it: the
last `put` that was recorded, or nothing since it was purged or forgotten
(`described_by_last_write`). Passes and probes never change it.
-/
import CeCdn.Holders
import CeCdn.Lib.Log
import CeCdn.Purge

namespace CeCdn.Cli

open Lib Log Machine Text Catalog Maintain

/-- A command, with what it meets outside its process. -/
inductive Job where
  | run (v : Invocation)
  | purge (net : PurgeNet) (caps : String) (cid tag edge : Option String) (keep : Bool)
    (edges : String → World)
  | forget (save : Except String Unit) (cid : String) (edges : String → World)

namespace Job

/-- The catalog file that a command leaves. -/
def leaves (file : Option File) : Job → Option File
  | .run v => (Cli.step file v).2
  | .purge net caps cid tag edge keep edges =>
    ((cmdPurge net caps cid tag edge keep).run ⟨file, edges⟩).2.file
  | .forget save cid edges => ((cmdForget save cid).run ⟨file, edges⟩).2.file

end Job

/-- What a `put` publishes, when it gets that far. -/
def Invocation.describes (v : Invocation) : Option Content :=
  match v.command with
  | .put (.ok bytes) o => (v.client.putObject bytes).toOption.map fun cid =>
      ⟨cid, bytes.length, if o.isPrivate then .privateAccess else .publicAccess, o.replication,
        o.ttl, o.label, o.tags⟩
  | _ => none

namespace Job

/-- What a command writes: of each CID that it names, the description it records,
or that there is none. -/
def writes (file : Option File) : Job → List (String × Option Content)
  | .run v => if v.writable then v.describes.toList.map fun c => (c.cid, some c) else []
  | .purge net _ cid tag _ keep _ =>
    if keep then []
    else (((targets cid tag file).toOption.getD []).takeWhile fun x => (net.save x).isOk).map
      fun x => (x, none)
  | .forget save cid _ => if save.isOk then [(cid, none)] else []

def step (file : Option File) (j : Job) : List (String × Option Content) × Option File :=
  (j.writes file, j.leaves file)

end Job

/-- What the catalog says of each CID. -/
def described (file : Option File) (cid : String) : Option Content :=
  ((load file).toOption.bind (Catalog.get cid)).map Entry.content

/-! ## One command -/

section

variable {file file' : Option File} {c c' : Catalog} {cid : String} {v : Invocation}

theorem described_of_load (h : load file = .ok c) :
    described file cid = (c.get cid).map Entry.content := by
  rw [described, h]
  rfl

/-- A `put` records the edges that answered that they cached the object. -/
theorem saves_of_put {file₀ : Except String Bytes} {o : PutOptions} (hload : load file = .ok c)
    (hv : v.command = .put file₀ o) :
    (v.describes = none ∧ v.saves file = none) ∨
    ∃ bytes content, file₀ = .ok bytes ∧ v.client.putObject bytes = .ok content.cid ∧
      content.bytesLen = bytes.length ∧ content.ttlSecs = o.ttl ∧ v.describes = some content ∧
      v.saves file = some (c.upsert ⟨content,
        ((putPicks v.client v.caps content.cid bytes.length o).filter fun p => cached p.2).map
          fun p => ⟨p.1, true⟩⟩).saved := by
  cases file₀ with
  | error e =>
    refine .inl ⟨by rw [Invocation.describes, hv], ?_⟩
    simp [Invocation.saves, hv, cmdPut, bind, Except.bind, Except.toOption]
  | ok bytes =>
    cases hput : v.client.putObject bytes with
    | error e =>
      refine .inl ⟨?_, ?_⟩
      · simp [Invocation.describes, hv, hput, Except.toOption]
      · simp [Invocation.saves, hv, cmdPut, bind, Except.bind, Except.toOption, hput]
    | ok cid =>
      refine .inr ⟨bytes, ⟨cid, bytes.length, if o.isPrivate then .privateAccess else .publicAccess,
        o.replication, o.ttl, o.label, o.tags⟩, rfl, hput, rfl, rfl, ?_, ?_⟩
      · simp [Invocation.describes, hv, hput, Except.toOption]
      · simp only [Invocation.saves, hv, cmdPut_eq rfl hput hload]
        rfl

theorem saves_of_maintain (hload : load file = .ok c) (hv : v.command = .maintain) :
    ∃ after, v.saves file = some after ∧
      apply (commit (survey v.client v.caps c).2) c = .ok after := by
  obtain ⟨after, hafter⟩ : ∃ after, apply (commit (survey v.client v.caps c).2) c = .ok after :=
    ⟨_, rfl⟩
  refine ⟨after, ?_, hafter⟩
  simp [Invocation.saves, hv, runOnce, bind, Except.bind, hload, commits, pure, Except.pure,
    hafter, Except.toOption]

/-- Only health flags change. -/
theorem saves_of_status {cid' : String} (hload : load file = .ok c)
    (hv : v.command = .status cid') {after : Catalog} (h : v.saves file = some after) (cid : String) :
    (after.get cid).map (fun e => (e.content, e.edgeIds)) =
      (c.get cid).map fun e => (e.content, e.edgeIds) := by
  simp only [Invocation.saves, hv, cmdStatus] at h
  split at h
  · cases h
  · simp only [hload, Except.bind, apply, reflect, Except.map, Except.toOption,
      Option.some.injEq] at h
    subst h
    rw [get_saved, get_modify]
    split
    · next hcid =>
      subst hcid
      cases c.get cid <;> simp [Entry.edgeIds]
    · rfl

theorem leaves_of_none (h : (if v.writable then v.saves file else none) = none) :
    Job.leaves file (.run v) = file := by
  rw [Job.leaves, Cli.step, h]

theorem leaves_of_some (h : (if v.writable then v.saves file else none) = some c') :
    Job.leaves file (.run v) = some (.ok c') := by
  rw [Job.leaves, Cli.step, h]

/-- A command that publishes, probes or maintains. -/
theorem run_step (hload : load file = .ok c) (v : Invocation) :
    (∃ c', load (Job.leaves file (.run v)) = .ok c') ∧
      described (Job.leaves file (.run v)) = replay (Job.writes file (.run v)) (described file) := by
  rw [Job.writes]
  cases hw : v.writable with
  | false =>
    rw [leaves_of_none (by rw [hw]; rfl)]
    exact ⟨⟨c, hload⟩, rfl⟩
  | true =>
    have hsaves : ∀ x, v.saves file = x → (if v.writable then v.saves file else none) = x := by
      intro x h
      rw [hw, if_pos rfl, h]
    have hsame : ∀ after, v.saves file = some after →
        (∀ cid, (after.get cid).map Entry.content = (c.get cid).map Entry.content) →
        (∃ c', load (Job.leaves file (.run v)) = .ok c') ∧
          described (Job.leaves file (.run v)) = described file := by
      intro after h hget
      rw [leaves_of_some (hsaves _ h)]
      refine ⟨⟨after, rfl⟩, funext fun cid => ?_⟩
      rw [described_of_load rfl, described_of_load hload, hget]
    have hnone : v.saves file = none → (∃ c', load (Job.leaves file (.run v)) = .ok c') ∧
        described (Job.leaves file (.run v)) = described file := by
      intro h
      rw [leaves_of_none (hsaves _ h)]
      exact ⟨⟨c, hload⟩, rfl⟩
    rw [if_pos rfl]
    cases hv : v.command with
    | put file₀ o =>
      obtain ⟨hdesc, hput⟩ | ⟨bytes, content, -, -, -, -, hdesc, hput⟩ := saves_of_put hload hv
      · rw [hdesc]
        exact hnone hput
      · rw [hdesc, leaves_of_some (hsaves _ hput)]
        refine ⟨⟨_, rfl⟩, funext fun cid => ?_⟩
        rw [described_of_load rfl, get_saved, get_upsert]
        by_cases hcid : cid = content.cid
        · simp [hcid, replay]
        · simp [hcid, replay, described_of_load hload]
    | maintain =>
      obtain ⟨after, hpass, hcommit⟩ := saves_of_maintain hload hv
      have hdesc : v.describes = none := by rw [Invocation.describes, hv]
      rw [hdesc]
      refine hsame after hpass fun cid => ?_
      rw [get_commit hcommit]
      cases hc : c.get cid with
      | none => rfl
      | some entry => rfl
    | status cid' =>
      have hdesc : v.describes = none := by rw [Invocation.describes, hv]
      rw [hdesc]
      cases hs : v.saves file with
      | none => exact hnone hs
      | some after =>
        refine hsame after hs fun cid => ?_
        simpa [Option.map_map, Function.comp_def] using
          congrArg (Option.map Prod.fst) (saves_of_status hload hv hs cid)

/-- Forgetting CIDs is writing that there is no description of them. -/
theorem Forgets.described_eq {cids : List String} (hload : load file = .ok c)
    (h : Forgets cids file file') :
    (∃ c', load file' = .ok c') ∧
      described file' = replay (cids.map fun x => (x, none)) (described file) := by
  by_cases hnil : cids = []
  · rw [Forgets, if_pos hnil] at h
    subst h hnil
    exact ⟨⟨c, hload⟩, rfl⟩
  · rw [Forgets, if_neg hnil] at h
    obtain ⟨c₀, c', hc, hc', hget⟩ := h
    rw [hload] at hc
    cases hc
    refine ⟨⟨c', hc'⟩, funext fun cid => ?_⟩
    rw [described_of_load hc', hget]
    have hmap : (cids.map fun x => (x, (none : Option Content))).map Prod.fst = cids := by
      rw [List.map_map]
      exact List.map_id cids
    by_cases hmem : cid ∈ cids
    · rw [if_pos hmem]
      rw [← hmap] at hmem
      obtain ⟨before, b, after, heq, hafter⟩ := exists_last hmem
      have hb : (cid, b) ∈ cids.map fun x => (x, (none : Option Content)) := by rw [heq]; simp
      obtain ⟨x, -, hx⟩ := List.mem_map.1 hb
      cases hx
      rw [heq, replay_of_last hafter]
      rfl
    · rw [if_neg hmem, replay_of_not_mem (by rwa [hmap]), described_of_load hload]

/-- A purge forgets the CIDs that it writes. -/
theorem forgets_purge (hload : load file = .ok c) (net : PurgeNet) (caps : String)
    (cid tag edge : Option String) (keep : Bool) (edges : String → World) :
    ∃ cids, Job.writes file (.purge net caps cid tag edge keep edges) = cids.map (fun x => (x, none)) ∧
      Forgets cids file (Job.leaves file (.purge net caps cid tag edge keep edges)) := by
  obtain ⟨r, d', through, rest, hrun, htargets, hout, hok, herr⟩ :=
    cmdPurge_cases net caps cid tag edge keep ⟨file, edges⟩
  refine ⟨if keep then [] else through, ?_, by rw [Job.leaves, hrun]; exact hout.forgets⟩
  rw [Job.writes, htargets]
  cases keep with
  | true => rfl
  | false =>
    -- the loop stops at the first target whose update cannot be saved
    have hthrough : ((through ++ rest).takeWhile fun x => (net.save x).isOk) = through := by
      rw [List.takeWhile_append_of_pos fun x hx => by rw [hout.saved rfl x hx]; rfl]
      have hrest : (rest.takeWhile fun x => (net.save x).isOk) = [] := by
        cases r with
        | ok reports =>
          rw [(hok reports rfl).1]
          rfl
        | error err =>
          obtain h | h | ⟨-, x, hx, hsave⟩ := herr err rfl
          · rw [h] at htargets
            have hnil : through ++ rest = [] := htargets.symm
            rw [(List.append_eq_nil_iff.1 hnil).2]
            rfl
          · rw [hload] at h
            cases h
          · cases rest with
            | nil => cases hx
            | cons y rest =>
              cases hx
              rw [List.takeWhile_cons_of_neg]
              rw [hsave]
              exact Bool.false_ne_true
      rw [hrest, List.append_nil]
    rw [if_neg Bool.false_ne_true, hthrough, if_neg Bool.false_ne_true]

theorem forgets_forget (hload : load file = .ok c) (save : Except String Unit) (cid : String)
    (edges : String → World) :
    ∃ cids, Job.writes file (.forget save cid edges) = cids.map (fun x => (x, none)) ∧
      Forgets cids file (Job.leaves file (.forget save cid edges)) := by
  rw [Job.leaves, Job.writes, cmdForget]
  obtain ⟨file', hrun, hforget, rfl⟩ | ⟨err, hrun, hwhy⟩ :=
    updateFile_remove_cases save cid ⟨file, edges⟩
  · refine ⟨[cid], rfl, ?_⟩
    rw [hrun]
    exact hforget
  · obtain h | rfl := hwhy
    · rw [hload] at h
      cases h
    · refine ⟨[], rfl, ?_⟩
      rw [hrun]
      exact forgets_nil file

/-- Every command leaves a catalog that can be read, and the descriptions that
it writes. -/
theorem describes_step (file : Option File) (j : Job) (hload : ∃ c, load file = .ok c) :
    (∃ c, load (Job.step file j).2 = .ok c) ∧
      described (Job.step file j).2 = replay (Job.step file j).1 (described file) := by
  obtain ⟨c, hc⟩ := hload
  cases j with
  | run v => exact run_step hc v
  | purge net caps cid tag edge keep edges =>
    obtain ⟨cids, hwrites, hforgets⟩ := forgets_purge hc net caps cid tag edge keep edges
    rw [Job.step, hwrites]
    exact hforgets.described_eq hc
  | forget save cid edges =>
    obtain ⟨cids, hwrites, hforgets⟩ := forgets_forget hc save cid edges
    rw [Job.step, hwrites]
    exact hforgets.described_eq hc

end

/-! ## Runs -/

/-- **What the catalog says of a CID is the last that was written of it.** After
any run of commands, a CID has the description that the last command gave it
which wrote one: the one of the last `put` of it that was saved, or none if a
`purge` or a `forget` came after. If no command wrote it, what was there at first
is there still. -/
theorem described_by_last_write (file : Option File) (c : Catalog) (js : List Job) (cid : String)
    (x : Option Content) (hload : load file = .ok c) :
    described (final Job.step file js) cid = x ↔
      (cid ∉ (outputs Job.step file js).flatten.map Prod.fst ∧ (c.get cid).map Entry.content = x) ∨
      ∃ before after, (outputs Job.step file js).flatten = before ++ (cid, x) :: after ∧
        cid ∉ after.map Prod.fst := by
  obtain ⟨-, hview⟩ := final_eq_replay described describes_step js ⟨c, hload⟩
  rw [hview, replay_apply_iff, described_of_load hload]

/-- An object is put, a pass finds nobody who holds it, and it is forgotten. -/
def sampleJobs : List Job :=
  [.run firstPut, .run timedOutPass, .forget (.ok ()) "cid-1" fun _ => sampleWorld]

theorem described_by_last_write_sample :
    described (final Job.step none sampleJobs) "cid-1" = none :=
  (described_by_last_write none Catalog.default sampleJobs "cid-1" none rfl).2
    (.inr ⟨[("cid-1", some ⟨"cid-1", 3, .publicAccess, 1, 0, none, []⟩)], [], rfl, by simp⟩)

end CeCdn.Cli
