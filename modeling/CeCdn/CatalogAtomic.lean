/-
Saving the catalog is crash-atomic. A save that is under way has the temporary
file of its process id to itself, and the file holds what was written of the
JSON so far (`Save.Holds`); so the rename puts a whole one in the catalog file's
place, and nothing else changes that file (`save_crash_atomic`). A reader that
has opened the catalog file goes on reading what it opened
(`opened_catalog_kept`).

This is what lets `CeCdn.Catalog` take a save for one step.
-/
import CeCdn.CatalogSave

namespace CeCdn.CatalogSave

open Lib Machine Directory

section

variable {toVecPretty : Catalog → Except String Bytes} {file : FileName} {d d' : Dir}
  {s : Save} {phase : Phase} {io : Option Nat}

/-! ## What one file operation does -/

/-- Under way, and not past its rename. -/
def Phase.unsaved : Phase → Bool
  | .mkdir | .create _ | .write _ _ | .rename | .remove => true
  | _ => false

/-- What a file operation of a save can do, and when. -/
inductive Save.Op (toVecPretty : Catalog → Except String Bytes) (file : FileName) (d : Dir)
    (s : Save) : Dir → Phase → Prop
  | call (hp : s.phase = .waiting) : Op toVecPretty file d s d .mkdir
  | gaveUp (hp : s.phase.unsaved = true) : Op toVecPretty file d s d (.returned false)
  | encoded {json : Bytes} (hp : s.phase = .mkdir) (hj : toVecPretty s.catalog.saved = .ok json) :
    Op toVecPretty file d s d (.create json)
  | created {json : Bytes} (hp : s.phase = .create json) :
    Op toVecPretty file d s (d.create (tempName file s.pid)).2
      (.write (d.create (tempName file s.pid)).1 json)
  | wrote {f : Nat} {done rest : Bytes} (hp : s.phase = .write f (done ++ rest)) :
    Op toVecPretty file d s (d.append f done) (.write f rest)
  | closed {f : Nat} (hp : s.phase = .write f []) : Op toVecPretty file d s d .rename
  | renamed {d' : Dir} (hp : s.phase = .rename)
    (hd : d.rename (tempName file s.pid) file = some d') :
    Op toVecPretty file d s d' .renamed
  | notRenamed (hp : s.phase = .rename) : Op toVecPretty file d s d .remove
  | removed (hp : s.phase = .remove) :
    Op toVecPretty file d s (d.unlink (tempName file s.pid)) (.returned false)
  | finished (hp : s.phase = .renamed) : Op toVecPretty file d s d (.returned true)

theorem Save.op_of_advance (h : s.advance toVecPretty file d io = some (d', phase)) :
    s.Op toVecPretty file d d' phase := by
  unfold advance at h
  split at h
  · next hp => cases h; exact .call hp
  · next hp =>
    split at h
    · cases h; exact .gaveUp (by rw [hp]; rfl)
    · split at h
      · cases h; exact .gaveUp (by rw [hp]; rfl)
      · next json hj => cases h; exact .encoded hp hj
  · next json hp =>
    split at h
    · cases h; exact .gaveUp (by rw [hp]; rfl)
    · cases h; exact .created hp
  · next f hp => cases h; exact .closed hp
  · next f b rest hp =>
    split at h
    · cases h; exact .gaveUp (by rw [hp]; rfl)
    · cases h; exact .gaveUp (by rw [hp]; rfl)
    · next n =>
      cases h
      exact .wrote (by rw [hp, List.take_append_drop])
  · next hp =>
    split at h
    · cases h; exact .notRenamed hp
    · split at h
      · cases h; exact .notRenamed hp
      · next d'' hd => cases h; exact .renamed hp hd
  · next hp =>
    split at h
    · cases h; exact .gaveUp (by rw [hp]; rfl)
    · cases h; exact .removed hp
  · next hp => cases h; exact .finished hp
  · cases h
  · cases h

/-! ## What a save has to itself -/

/-- The temporary file of a save holds what it wrote of its JSON so far. -/
def Save.Holds (toVecPretty : Catalog → Except String Bytes) (file : FileName) (d : Dir)
    (s : Save) : Prop :=
  match s.phase with
  | .create json => toVecPretty s.catalog.saved = .ok json
  | .write f rest => d.entry (tempName file s.pid) = some f ∧
    toVecPretty s.catalog.saved = .ok (d.data f ++ rest)
  | .rename => ∃ json, toVecPretty s.catalog.saved = .ok json ∧
    d.content (tempName file s.pid) = some json
  | _ => True

theorem Save.holds_of_not_running (h : s.phase.running = false) :
    s.Holds toVecPretty file d := by
  cases hp : s.phase with
  | waiting | returned ok | crashed => simp [Holds, hp]
  | _ => rw [hp] at h; cases h

/-- Only the save's own temporary file matters. -/
theorem Save.Holds.congr (h : s.Holds toVecPretty file d)
    (hentry : d'.entry (tempName file s.pid) = d.entry (tempName file s.pid))
    (hcontent : d'.content (tempName file s.pid) = d.content (tempName file s.pid)) :
    s.Holds toVecPretty file d' := by
  unfold Holds at h ⊢
  split
  · next hp => simpa [hp] using h
  · next f rest hp =>
    simp only [hp] at h
    obtain ⟨hf, hj⟩ := h
    have hdata : d'.data f = d.data f := by
      simpa [content, hentry, hf] using hcontent
    rw [hentry, hdata]
    exact ⟨hf, hj⟩
  · next hp => simpa [hp, hcontent] using h
  · trivial

/-- A save's operation keeps what the save holds. -/
theorem Save.Op.holds (h : s.Op toVecPretty file d d' phase) (hs : s.Holds toVecPretty file d) :
    Save.Holds toVecPretty file d' { s with phase := phase } := by
  cases h with
  | encoded hp hj => exact hj
  | created hp =>
    simp only [Holds, hp] at hs
    refine ⟨entry_create_self d _, ?_⟩
    rw [data_create_self]
    exact hs
  | @wrote f done rest hp =>
    simp only [Holds, hp] at hs
    refine ⟨hs.1, ?_⟩
    rw [data_append_self, List.append_assoc]
    exact hs.2
  | @closed f hp =>
    simp only [Holds, hp, List.append_nil] at hs
    exact ⟨d.data f, hs.2, by rw [content, hs.1]; rfl⟩
  | _ => trivial

/-- It does not touch other names than its temporary file's and the catalog's. -/
theorem Save.Op.frame (h : s.Op toVecPretty file d d' phase) (hs : s.Holds toVecPretty file d)
    {n : FileName} (htemp : n ≠ tempName file s.pid) (hfile : n ≠ file) :
    d'.entry n = d.entry n ∧ d'.content n = d.content n := by
  cases h with
  | created hp => exact ⟨entry_create_of_ne htemp, content_create_of_ne htemp⟩
  | @wrote f done rest hp =>
    simp only [Holds, hp] at hs
    exact ⟨rfl, content_append_of_ne (fun hn => htemp (d.linkedOnce hn hs.1)) done⟩
  | renamed hp hd =>
    obtain ⟨f, hf, rfl⟩ := rename_eq_some hd
    exact ⟨entry_replace_of_ne hfile htemp, content_replace_of_ne hfile htemp⟩
  | removed hp => exact ⟨entry_unlink_of_ne htemp, content_unlink_of_ne htemp⟩
  | _ => exact ⟨rfl, rfl⟩

/-- The catalog file changes at a rename, to the save's whole JSON. -/
theorem Save.Op.target (h : s.Op toVecPretty file d d' phase) (hs : s.Holds toVecPretty file d) :
    d'.content file = d.content file ∨
      (phase = .renamed ∧
        ∃ json, toVecPretty s.catalog.saved = .ok json ∧ d'.content file = some json) := by
  have htemp : file ≠ tempName file s.pid := (tempName_ne file s.pid).symm
  cases h with
  | created hp => exact .inl (content_create_of_ne htemp)
  | @wrote f done rest hp =>
    simp only [Holds, hp] at hs
    exact .inl (content_append_of_ne (fun hn => htemp (d.linkedOnce hn hs.1)) done)
  | renamed hp hd =>
    simp only [Holds, hp] at hs
    obtain ⟨json, hj, hc⟩ := hs
    obtain ⟨f, hf, rfl⟩ := rename_eq_some hd
    exact .inr ⟨rfl, json, hj, by rw [content_replace_self, hc]⟩
  | removed hp => exact .inl (content_unlink_of_ne htemp)
  | _ => exact .inl rfl

theorem Save.Op.enabled (h : s.Op toVecPretty file d d' phase) :
    s.phase = .waiting ∨ s.phase.running = true := by
  cases h with
  | call hp => exact .inl hp
  | gaveUp hp =>
    refine .inr ?_
    cases hs : s.phase with
    | waiting | returned ok | crashed => rw [hs] at hp; cases hp
    | _ => rfl
  | encoded hp hj => exact .inr (by rw [hp]; rfl)
  | renamed hp hd => exact .inr (by rw [hp]; rfl)
  | created hp | wrote hp | closed hp | notRenamed hp | removed hp | finished hp =>
    exact .inr (by rw [hp]; rfl)

/-- Past its rename, a save returns. -/
theorem Save.Op.returned_of_past (h : s.Op toVecPretty file d d' phase)
    (hpast : s.phase = .renamed ∨ s.phase = .returned true ∨ s.phase = .crashed) :
    phase = .returned true := by
  rcases hpast with hp' | hp' | hp'
  · cases h with
    | finished hp => rfl
    | gaveUp hp => rw [hp'] at hp; cases hp
    | call hp | encoded hp hj | created hp | wrote hp | closed hp | renamed hp hd | notRenamed hp
    | removed hp => rw [hp'] at hp; cases hp
  · rcases h.enabled with hp | hp
    · rw [hp'] at hp; cases hp
    · rw [hp'] at hp; cases hp
  · rcases h.enabled with hp | hp
    · rw [hp'] at hp; cases hp
    · rw [hp'] at hp; cases hp

end

/-! ## Any number of saves -/

section

variable {toVecPretty : Catalog → Except String Bytes} {file : FileName} {y y' : Sys} {l : Label}

/-- What one step does: a save's next operation, or its process's death. -/
theorem Sys.step_cases (h : y.step toVecPretty file l = some y') :
    ∃ s d phase, y.saves[l.save]? = some s ∧ y' = { y with dir := d }.setPhase l.save s phase ∧
      ((s.phase = .waiting → y.busy s.pid = false) ∧ s.Op toVecPretty file y.dir d phase ∨
        s.phase.running = true ∧ d = y.dir ∧ phase = .crashed) := by
  cases l with
  | run i io =>
    obtain ⟨s, hs, h⟩ := Option.bind_eq_some_iff.1 h
    split at h
    · cases h
    · next hfree =>
      obtain ⟨⟨d, phase⟩, hadv, rfl⟩ := Option.map_eq_some_iff.1 h
      have hbusy (hw : s.phase = .waiting) : y.busy s.pid = false := by
        cases hb : y.busy s.pid with
        | false => rfl
        | true => exact absurd ⟨hw, hb⟩ hfree
      exact ⟨s, d, phase, hs, rfl, .inl ⟨hbusy, Save.op_of_advance hadv⟩⟩
  | crash i =>
    obtain ⟨s, hs, h⟩ := Option.bind_eq_some_iff.1 h
    split at h
    · next hr =>
      cases h
      exact ⟨s, y.dir, .crashed, hs, rfl, .inr ⟨hr, rfl, rfl⟩⟩
    · cases h

/-- The content a file had at first, or the whole JSON of one of the catalogs. -/
def Whole (toVecPretty : Catalog → Except String Bytes) (initial : Option Bytes)
    (catalogs : List Catalog) (content : Option Bytes) : Prop :=
  content = initial ∨
    ∃ c ∈ catalogs, ∃ json, toVecPretty c.saved = .ok json ∧ content = some json

/-- Saves under way have distinct process ids, each holds its temporary file,
and the catalog file is whole. -/
structure Atomic (toVecPretty : Catalog → Except String Bytes) (file : FileName)
    (initial : Option Bytes) (catalogs : List Catalog) (y : Sys) : Prop where
  asked : y.saves.map Save.catalog = catalogs
  alone : ∀ (i j : Nat) (s t : Save), y.saves[i]? = some s → y.saves[j]? = some t →
    s.phase.running = true → t.phase.running = true → s.pid = t.pid → i = j
  holds : ∀ (i : Nat) (s : Save), y.saves[i]? = some s → s.Holds toVecPretty file y.dir
  target : Whole toVecPretty initial catalogs (y.dir.content file)

theorem Atomic.start (dir : Dir) (saves : List (Nat × Catalog)) :
    Atomic toVecPretty file (dir.content file) (saves.map Prod.snd) (.start dir saves) := by
  have hwaiting (i : Nat) (s : Save) (hs : (Sys.start dir saves).saves[i]? = some s) :
      s.phase = .waiting := by
    obtain ⟨t, -, rfl⟩ := List.mem_map.1 (List.mem_of_getElem? hs)
    rfl
  refine ⟨?_, fun i j s t hi _ hr => ?_, fun i s hi => ?_, .inl rfl⟩
  · simp [Sys.start]
  · rw [hwaiting i s hi] at hr
    cases hr
  · exact Save.holds_of_not_running (by rw [hwaiting i s hi]; rfl)

variable {initial : Option Bytes} {catalogs : List Catalog}

/-- A process that is alive has its id to itself. -/
theorem Atomic.pid_ne (h : Atomic toVecPretty file initial catalogs y) {i j : Nat} {s t : Save}
    (hi : y.saves[i]? = some s) (hj : y.saves[j]? = some t) (hne : j ≠ i)
    (hs : s.phase = .waiting ∧ y.busy s.pid = false ∨ s.phase.running = true)
    (ht : t.phase.running = true) : t.pid ≠ s.pid := by
  intro hpid
  rcases hs with ⟨-, hbusy⟩ | hs
  · have hany : y.busy s.pid = true :=
      List.any_eq_true.2 ⟨t, List.mem_of_getElem? hj, by simp [hpid, ht]⟩
    rw [hbusy] at hany
    cases hany
  · exact hne (h.alone j i t s hj hi ht hs hpid)

theorem Atomic.step (h : Atomic toVecPretty file initial catalogs y)
    (hstep : y.step toVecPretty file l = some y') :
    Atomic toVecPretty file initial catalogs y' := by
  obtain ⟨s, d, phase, hs, rfl, hop⟩ := Sys.step_cases hstep
  have hlive : s.phase = .waiting ∧ y.busy s.pid = false ∨ s.phase.running = true := by
    rcases hop with ⟨hbusy, hop⟩ | ⟨hr, -⟩
    · exact hop.enabled.imp_left fun hw => ⟨hw, hbusy hw⟩
    · exact .inr hr
  have hholds := h.holds _ s hs
  have hframe {n : FileName} (htemp : n ≠ tempName file s.pid) (hfile : n ≠ file) :
      d.entry n = y.dir.entry n ∧ d.content n = y.dir.content n := by
    rcases hop with ⟨-, hop⟩ | ⟨-, rfl, -⟩
    · exact hop.frame hholds htemp hfile
    · exact ⟨rfl, rfl⟩
  refine ⟨?_, fun i j t u hi hj ht hu hpid => ?_, fun j t hj => ?_, ?_⟩
  · rw [← h.asked]
    exact Places.map_set_of_eq hs rfl
  · rcases Places.getElem?_set_cases hi with ⟨rfl, rfl⟩ | ⟨hine, hi⟩
    · rcases Places.getElem?_set_cases hj with ⟨rfl, -⟩ | ⟨hjne, hj⟩
      · rfl
      · exact (h.pid_ne hs hj hjne hlive hu hpid.symm).elim
    · rcases Places.getElem?_set_cases hj with ⟨rfl, rfl⟩ | ⟨-, hj⟩
      · exact (h.pid_ne hs hi hine hlive ht hpid).elim
      · exact h.alone i j t u hi hj ht hu hpid
  · rcases Places.getElem?_set_cases hj with ⟨rfl, rfl⟩ | ⟨hjne, hj⟩
    · rcases hop with ⟨-, hop⟩ | ⟨-, rfl, rfl⟩
      · exact hop.holds hholds
      · exact Save.holds_of_not_running rfl
    · cases hr : t.phase.running with
      | false => exact Save.holds_of_not_running hr
      | true =>
        -- the other's temporary file has another name
        have hpid := h.pid_ne hs hj hjne hlive hr
        have hname : tempName file t.pid ≠ tempName file s.pid := fun he => hpid (tempName_inj he)
        obtain ⟨hentry, hcontent⟩ := hframe hname (tempName_ne file t.pid)
        exact (h.holds j t hj).congr hentry hcontent
  · rcases hop with ⟨-, hop⟩ | ⟨-, rfl, -⟩
    · rcases hop.target hholds with hsame | ⟨-, json, hj, hc⟩
      · exact hsame ▸ h.target
      · refine .inr ⟨s.catalog, ?_, json, hj, hc⟩
        rw [← h.asked]
        exact List.mem_map_of_mem (List.mem_of_getElem? hs)
    · exact h.target

theorem Atomic.of_run {dir : Dir} {saves : List (Nat × Catalog)} {ls : List Label}
    (hrun : run (Sys.step toVecPretty file) (.start dir saves) ls = some y) :
    Atomic toVecPretty file (dir.content file) (saves.map Prod.snd) y :=
  run_invariant (fun _ _ _ h hstep => h.step hstep) (.start dir saves) hrun

/-- A save that has renamed its file does not return an error any more. -/
def Past (i : Nat) (y : Sys) : Prop :=
  ∃ s, y.saves[i]? = some s ∧
    (s.phase = .renamed ∨ s.phase = .returned true ∨ s.phase = .crashed)

theorem Past.step {i : Nat} (h : Past i y) (hstep : y.step toVecPretty file l = some y') :
    Past i y' := by
  obtain ⟨t, ht, hpast⟩ := h
  obtain ⟨s, d, phase, hs, rfl, hop⟩ := Sys.step_cases hstep
  by_cases hi : l.save = i
  · subst hi
    rw [hs] at ht
    cases ht
    refine ⟨{ t with phase := phase }, Places.getElem?_set_of_some hs _, ?_⟩
    rcases hop with ⟨-, hop⟩ | ⟨-, -, rfl⟩
    · exact .inr (.inl (hop.returned_of_past hpast))
    · exact .inr (.inr rfl)
  · exact ⟨t, by rw [← ht]; exact List.getElem?_set_ne hi, hpast⟩

/-- A step that changes the catalog file is a rename. -/
theorem Atomic.past_of_change (h : Atomic toVecPretty file initial catalogs y)
    (hstep : y.step toVecPretty file l = some y')
    (hchange : y'.dir.content file ≠ y.dir.content file) : Past l.save y' := by
  obtain ⟨s, d, phase, hs, rfl, hop⟩ := Sys.step_cases hstep
  refine ⟨{ s with phase := phase }, Places.getElem?_set_of_some hs _, ?_⟩
  rcases hop with ⟨-, hop⟩ | ⟨-, -, rfl⟩
  · rcases hop.target (h.holds _ s hs) with hsame | ⟨hphase, -⟩
    · exact absurd hsame hchange
    · exact .inl hphase
  · exact .inr (.inr rfl)

end

/-- **However the file operations of the saves follow each other, and wherever a
save fails or dies, the catalog file is what it was at first or the whole JSON
of one of the catalogs; and a save that returns an error changed nothing.** -/
theorem save_crash_atomic (toVecPretty : Catalog → Except String Bytes) (file : FileName)
    (dir : Dir) (saves : List (Nat × Catalog)) (ls : List Label) (y : Sys)
    (hrun : run (Sys.step toVecPretty file) (.start dir saves) ls = some y) :
    Whole toVecPretty (dir.content file) (saves.map Prod.snd) (y.dir.content file) ∧
      ∀ (ls₁ : List Label) (l : Label) (ls₂ : List Label) (a b : Sys) (s : Save),
        ls = ls₁ ++ l :: ls₂ → run (Sys.step toVecPretty file) (.start dir saves) ls₁ = some a →
        a.step toVecPretty file l = some b → y.saves[l.save]? = some s →
        s.phase = .returned false → b.dir.content file = a.dir.content file := by
  refine ⟨(Atomic.of_run hrun).target, fun ls₁ l ls₂ a b s hls ha hb hs hreturned => ?_⟩
  by_contra hchange
  have hpast : Past l.save b := (Atomic.of_run ha).past_of_change hb hchange
  have hrest : run (Sys.step toVecPretty file) b ls₂ = some y := by
    rw [hls, run_append, ha, Option.bind_some] at hrun
    obtain ⟨b', hb', hrun⟩ := run_cons_eq_some.1 hrun
    rw [hb] at hb'
    cases hb'
    exact hrun
  obtain ⟨s', hs', hend⟩ := run_invariant (fun y l' y' h hstep => Past.step h hstep) hpast hrest
  rw [hs] at hs'
  cases hs'
  rw [hreturned] at hend
  simp at hend

def emptyDir : Dir := ⟨fun _ => none, fun _ => [], 0, nofun, nofun⟩

/-- A process dies in the middle of its write. -/
def diesWriting : List Label :=
  [.run 0 (some 0), .run 0 (some 0), .run 0 (some 0), .run 0 (some 1), .crash 0]

def savesAfter : List Label :=
  [.run 1 (some 0), .run 1 (some 0), .run 1 (some 0), .run 1 (some 1), .run 1 (some 8),
    .run 1 (some 0), .run 1 (some 0)]

/-- Another process, with the same id, saves the catalog after it. -/
theorem save_crash_atomic_sample :
    ∃ y, run (Sys.step (fun _ => .ok [123, 125]) (.unicode "catalog.json"))
        (.start emptyDir [(7, .default), (7, .default)]) (diesWriting ++ savesAfter) = some y ∧
      y.dir.content (.unicode "catalog.json") = some [123, 125] ∧
      Whole (fun _ => .ok [123, 125]) (emptyDir.content (.unicode "catalog.json"))
        [.default, .default] (y.dir.content (.unicode "catalog.json")) := by
  obtain ⟨y, hrun, hend⟩ : ∃ y, run (Sys.step (fun _ => .ok [123, 125]) (.unicode "catalog.json"))
      (.start emptyDir [(7, .default), (7, .default)]) (diesWriting ++ savesAfter) = some y ∧
      y.dir.content (.unicode "catalog.json") = some [123, 125] := ⟨_, rfl, rfl⟩
  exact ⟨y, hrun, hend, (save_crash_atomic _ _ _ _ _ _ hrun).1⟩

/-! ## Readers -/

section

variable {toVecPretty : Catalog → Except String Bytes} {file : FileName}

/-- A file that no save has open or will open: an older one of no temporary
file's name. -/
structure Settled (file : FileName) (f : Nat) (bytes : Bytes) (d : Dir) : Prop where
  old : f < d.next
  unnamed : ∀ pid, d.entry (tempName file pid) ≠ some f
  holds : d.data f = bytes

theorem Save.Op.settled {d d' : Dir} {s : Save} {phase : Phase} {f : Nat} {bytes : Bytes}
    (h : s.Op toVecPretty file d d' phase) (hs : s.Holds toVecPretty file d)
    (hf : Settled file f bytes d) : Settled file f bytes d' := by
  cases h with
  | created hp =>
    have hne := create_fst_ne hf.old (hf.unnamed s.pid)
    refine ⟨Nat.lt_of_lt_of_le hf.old (next_le_create d _), fun pid => ?_, ?_⟩
    · by_cases hpid : tempName file pid = tempName file s.pid
      · rw [hpid, entry_create_self]
        exact fun he => hne (Option.some.inj he)
      · rw [entry_create_of_ne hpid]
        exact hf.unnamed pid
    · rw [data_create_of_ne hne]
      exact hf.holds
  | @wrote g done rest hp =>
    simp only [Holds, hp] at hs
    have hne : f ≠ g := fun he => hf.unnamed s.pid (he ▸ hs.1)
    exact ⟨hf.old, hf.unnamed, by rw [data_append_of_ne hne]; exact hf.holds⟩
  | renamed hp hd =>
    obtain ⟨g, -, rfl⟩ := rename_eq_some hd
    refine ⟨hf.old, fun pid => ?_, hf.holds⟩
    by_cases hpid : tempName file pid = tempName file s.pid
    · simp [replace, hpid, tempName_ne]
    · rw [entry_replace_of_ne (tempName_ne file pid) hpid]
      exact hf.unnamed pid
  | removed hp =>
    refine ⟨hf.old, fun pid => ?_, hf.holds⟩
    by_cases hpid : tempName file pid = tempName file s.pid
    · simp [unlink, hpid]
    · rw [entry_unlink_of_ne hpid]
      exact hf.unnamed pid
  | _ => exact hf

/-- A reader that has opened the catalog file reads to the end what the file
held then, whatever is saved meanwhile. -/
theorem opened_catalog_kept {dir : Dir} {saves : List (Nat × Catalog)} {ls ls' : List Label}
    {y z : Sys} {f : Nat}
    (hrun : run (Sys.step toVecPretty file) (.start dir saves) ls = some y)
    (hopen : y.dir.entry file = some f) (hrest : run (Sys.step toVecPretty file) y ls' = some z) :
    z.dir.data f = y.dir.data f := by
  have hsettled : Settled file f (y.dir.data f) y.dir :=
    ⟨y.dir.used hopen, fun pid he => tempName_ne file pid (y.dir.linkedOnce he hopen), rfl⟩
  have hstep (a : Sys) (l : Label) (b : Sys)
      (h : Atomic toVecPretty file (dir.content file) (saves.map Prod.snd) a ∧
        Settled file f (y.dir.data f) a.dir) (hab : a.step toVecPretty file l = some b) :
      Atomic toVecPretty file (dir.content file) (saves.map Prod.snd) b ∧
        Settled file f (y.dir.data f) b.dir := by
    refine ⟨h.1.step hab, ?_⟩
    obtain ⟨s, d, phase, hs, rfl, hop⟩ := Sys.step_cases hab
    rcases hop with ⟨-, hop⟩ | ⟨-, rfl, -⟩
    · exact hop.settled (h.1.holds _ s hs) h.2
    · exact h.2
  exact (run_invariant hstep ⟨Atomic.of_run hrun, hsettled⟩ hrest).2.holds

end

end CeCdn.CatalogSave
