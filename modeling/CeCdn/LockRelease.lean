/-
Releasing the lock file. The drop of a lock removes whatever file is at the
path: nothing compares it with the file that the same acquisition created. So a
holder whose lock was reclaimed removes the file of the process that reclaimed
it (`drop_removes_other`). Every drop removes its own file, or none, in the runs
where nobody creates the lock file while another process is between acquire and
drop, and in these exactly could every holder drop at any moment
(`drops_own_iff`).

How long a holder takes is not bounded here.
-/
import CeCdn.CatalogKept

namespace CeCdn.Catalog

open Lib Machine

/-! ## What the property says -/

/-- About to drop the lock. -/
def Phase.releasing : Phase → Bool
  | .dropping _ _ => true
  | _ => false

/-- About to create the lock file. -/
def Phase.acquiring : Phase → Bool
  | .acquire (_ + 1) => true
  | _ => false

/-- A drop that removes a file removes the one that its acquisition created. -/
def DropsOwn (y : Sys) : Label → Prop
  | .run i false => ∀ p ∈ y.procs[i]?, p.phase.releasing = true →
    ∀ f ∈ y.disk.lock, f.owner = i
  | _ => True

namespace Sys

/-- Every live process between acquire and drop would remove its own file, or
none, if it dropped now. -/
def HoldersOwn (y : Sys) : Prop :=
  ∀ (i : Nat) (p : Process), y.procs[i]? = some p → p.phase.since?.isSome →
    ∀ f ∈ y.disk.lock, f.owner = i

def NobodyHolds (y : Sys) : Prop := ∀ p ∈ y.procs, p.phase.since? = none

end Sys

/-- A process that creates the lock file finds no live process between acquire
and drop. -/
def CreatesAlone (y : Sys) : Label → Prop
  | .run i false => ∀ p ∈ y.procs[i]?, p.phase.acquiring = true → y.disk.lock = none →
    y.NobodyHolds
  | _ => True

instance (y : Sys) : ∀ l : Label, Decidable (DropsOwn y l)
  | .run _ false => inferInstanceAs (Decidable (∀ p ∈ _, _ = _ → ∀ f ∈ _, _ = _))
  | .run _ true | .crash _ | .tick _ => inferInstanceAs (Decidable True)

instance (y : Sys) : Decidable y.NobodyHolds :=
  inferInstanceAs (Decidable (∀ p ∈ y.procs, p.phase.since? = none))

instance (y : Sys) : ∀ l : Label, Decidable (CreatesAlone y l)
  | .run _ false => inferInstanceAs (Decidable (∀ p ∈ _, _ = _ → _ = _ → _))
  | .run _ true | .crash _ | .tick _ => inferInstanceAs (Decidable True)

/-! ## One step -/

/-- A file operation that does not create the lock file makes no holder, and
leaves the lock file or removes it. -/
theorem Process.not_creating {d d' : Disk} {now i : Nat} {fails : Bool} {p : Process}
    {phase : Phase} (h : p.advance d now i fails = some (d', phase))
    (hno : ¬ (fails = false ∧ p.phase.acquiring = true ∧ d.lock = none)) :
    (phase.since?.isSome → p.phase.since?.isSome) ∧ (d'.lock = none ∨ d'.lock = d.lock) := by
  cases Process.op_of_advance h with
  | @create n hp hl =>
    cases n with
    | zero => simp [advance, hp] at h
    | succ n =>
      cases fails with
      | true => simp [advance, hp] at h
      | false => exact absurd ⟨rfl, by rw [hp]; rfl, hl⟩ hno
  | gaveUp | found | judgedFresh | judgedStale | stoleNot | notDropped => exact ⟨nofun, .inr rfl⟩
  | stole | dropped => exact ⟨nofun, .inl rfl⟩
  | notLoaded hp | loaded hp | notSaved hp | saved hp =>
    exact ⟨fun _ => by rw [hp]; rfl, .inr rfl⟩

section

variable {y y' : Sys} {l : Label}

theorem Sys.HoldersOwn.dropsOwn (h : y.HoldersOwn) (l : Label) : DropsOwn y l := by
  cases l with
  | run i fails =>
    cases fails with
    | true => trivial
    | false =>
      intro p hp hphase f hf
      refine h i p hp ?_ f hf
      cases hph : p.phase with
      | dropping since ok => rfl
      | _ => rw [hph] at hphase; cases hphase
  | crash i | tick ms => trivial

/-- A file operation of a process that was a holder already, or is none after
it, and which creates no file. -/
theorem Sys.HoldersOwn.quiet (h : y.HoldersOwn) {i : Nat} {p : Process} {phase : Phase} {d : Disk}
    (hi : y.procs[i]? = some p)
    (hphase : phase.since?.isSome → p.phase.since?.isSome)
    (hlock : d.lock = none ∨ d.lock = y.disk.lock) :
    ({ y with disk := d }.setPhase i p phase).HoldersOwn := by
  intro k q hk hs f hf
  have hold : f ∈ y.disk.lock := by
    change f ∈ d.lock at hf
    rcases hlock with hnone | hsame
    · rw [hnone] at hf
      cases hf
    · rwa [hsame] at hf
  rw [getElem?_setPhase (y := { y with disk := d }) hi] at hk
  split at hk
  · next hki =>
    cases hk
    exact hki ▸ h i p hi (hphase hs) f hold
  · exact h k q hk hs f hold

/-- After the lock file is created, every holder would still remove its own file
exactly when there was no other. -/
theorem Sys.HoldersOwn.create_iff {i n now : Nat} {p : Process} (hi : y.procs[i]? = some p)
    (hp : p.phase = .acquire (n + 1)) :
    ({ y with disk := { y.disk with lock := some ⟨i, now⟩ } }.setPhase i p
      (.hold now)).HoldersOwn ↔ y.NobodyHolds := by
  have hget := getElem?_setPhase (y := { y with disk := { y.disk with lock := some ⟨i, now⟩ } }) hi
    (.hold now)
  constructor
  · intro hown q hq
    obtain ⟨k, hk⟩ := List.mem_iff_getElem?.1 hq
    by_cases hki : k = i
    · subst hki
      cases hi.symm.trans hk
      rw [hp]
      rfl
    · cases hs : q.phase.since? with
      | none => rfl
      | some since =>
        have hsame : i = k := hown k q (by rw [hget, if_neg hki]; exact hk) (by rw [hs]; rfl) _ rfl
        exact absurd hsame.symm hki
  · intro hnobody k q hk hs f hf
    cases hf
    rw [hget] at hk
    split at hk
    · next hki => exact hki.symm
    · rw [hnobody q (List.mem_of_getElem? hk)] at hs
      cases hs

/-- **Holders go on to own the file they would remove exactly when it is created
by a process that is alone.** -/
theorem Sys.HoldersOwn.step_iff (h : y.HoldersOwn) (hstep : y.step l = some y') :
    y'.HoldersOwn ↔ CreatesAlone y l := by
  cases l with
  | tick ms => cases hstep; exact iff_of_true h trivial
  | crash i =>
    obtain ⟨p, hi, hstep⟩ := Option.bind_eq_some_iff.1 hstep
    obtain ⟨phase, hc, rfl⟩ := Option.map_eq_some_iff.1 hstep
    obtain ⟨-, rfl⟩ := Process.crash_eq_some hc
    exact iff_of_true (h.quiet hi nofun (.inr rfl)) trivial
  | run i fails =>
    obtain ⟨p, hi, hstep⟩ := Option.bind_eq_some_iff.1 hstep
    obtain ⟨⟨d, phase⟩, hadv, rfl⟩ := Option.map_eq_some_iff.1 hstep
    by_cases hcreate : fails = false ∧ p.phase.acquiring = true ∧ y.disk.lock = none
    · obtain ⟨rfl, hacq, hl⟩ := hcreate
      obtain ⟨n, hp⟩ : ∃ n, p.phase = .acquire (n + 1) := by
        cases hph : p.phase with
        | acquire n =>
          cases n with
          | zero => rw [hph] at hacq; cases hacq
          | succ n => exact ⟨n, rfl⟩
        | _ => rw [hph] at hacq; cases hacq
      simp only [Process.advance, hp, hl, Bool.false_eq_true, if_false, Option.some.injEq,
        Prod.mk.injEq] at hadv
      obtain ⟨rfl, rfl⟩ := hadv
      rw [Sys.HoldersOwn.create_iff hi hp]
      constructor
      · intro hnobody _ _ _ _
        exact hnobody
      · intro halone
        exact halone p hi hacq hl
    · obtain ⟨hphase, hlock⟩ := Process.not_creating hadv hcreate
      refine iff_of_true (h.quiet hi hphase hlock) ?_
      cases fails with
      | true => trivial
      | false =>
        intro q hq hacq hl
        cases hi.symm.trans hq
        exact absurd ⟨rfl, hacq, hl⟩ hcreate

/-- A creation is always possible where it is asked about. -/
theorem createsAlone_of_stuck (h : y.step l = none) : CreatesAlone y l := by
  cases l with
  | crash i | tick ms => trivial
  | run i fails =>
    cases fails with
    | true => trivial
    | false =>
      intro p hp hacq hl
      rw [Option.mem_def] at hp
      simp only [Sys.step, hp, Option.bind_some, Option.map_eq_none_iff] at h
      cases hph : p.phase with
      | acquire n => cases n <;> simp [Process.advance, hph, hl] at h
      | _ => rw [hph] at hacq; cases hacq

end

/-! ## Runs -/

theorem holdersOwn_start (updates : List Update) (target : Option File) (now : Nat) :
    (Sys.start updates target now).HoldersOwn := fun _ _ _ _ _ hf => nomatch hf

/-- **When a drop removes its own lock file.** For any number of processes that
acquire and drop the lock, interleaved at the granularity of file operations,
with crashes and holders of any slowness. In every run in which the lock file is
created only when no live process is between acquire and drop, each drop that
removes a file removes the one that its acquisition created; and exactly in
these runs this would hold of every holder that dropped in any state of the run. -/
theorem drops_own_iff (updates : List Update) (target : Option File) (now : Nat)
    (ls : List Label) :
    (Guarded Sys.step CreatesAlone (.start updates target now) ls →
      Guarded Sys.step DropsOwn (.start updates target now) ls) ∧
    (Guarded Sys.step CreatesAlone (.start updates target now) ls ↔
      ∀ ls' y, ls' <+: ls → run Sys.step (.start updates target now) ls' = some y →
        y.HoldersOwn) := by
  have hiff : Guarded Sys.step CreatesAlone (.start updates target now) ls ↔
      ∀ ls' y, ls' <+: ls → run Sys.step (.start updates target now) ls' = some y →
        y.HoldersOwn :=
    guarded_iff_invariant (fun y l y' h hstep => Sys.HoldersOwn.step_iff h hstep)
      (fun y l => createsAlone_of_stuck) (holdersOwn_start updates target now)
  refine ⟨fun hguard => ?_, hiff⟩
  exact hguard.mono_of_invariant (I := Sys.HoldersOwn)
    (fun y l y' h halone hstep => (h.step_iff hstep).2 halone) (fun y l h _ => h.dropsOwn l)
    (holdersOwn_start updates target now)

/-! ## A slow holder -/

/-- The first process locks, and is suspended for half a minute; the second
removes the lock, and creates its own once the first has returned. -/
def reclaimedInTime : List Label :=
  [.run 0 false, .tick 31000, .run 1 false, .run 1 false, .run 1 false, .run 0 false, .run 0 false,
    .run 0 false, .run 1 false, .run 1 false, .run 1 false, .run 1 false]

theorem drops_own_sample :
    Guarded Sys.step DropsOwn (.start stealOnceUpdates none 0) reclaimedInTime :=
  (drops_own_iff stealOnceUpdates none 0 reclaimedInTime).1 (by decide +kernel)

/-- The first process locks, and is suspended for half a minute; the second
removes the lock and creates its own; the first goes on and returns. -/
def slowHolder : List Label :=
  [.run 0 false, .tick 31000, .run 1 false, .run 1 false, .run 1 false, .run 1 false,
    .run 0 false, .run 0 false, .run 0 false]

/-- The drop of the first removes the lock file of the second. -/
theorem drop_removes_other :
    ¬ ∀ (updates : List Update) (target : Option File) (now : Nat) (ls : List Label),
      Guarded Sys.step DropsOwn (.start updates target now) ls := by
  intro h
  have hrun := h stealOnceUpdates none 0 slowHolder
  revert hrun
  decide +kernel

end CeCdn.Catalog
