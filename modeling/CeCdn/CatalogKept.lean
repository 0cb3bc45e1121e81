/-
Catalog updates under the lock file. As long as a process that removes a stale
lock removes the very file it judged, at most one live process is between
acquire and drop, and the catalog file holds the updates that were saved, one
after another (`Kept`, `catalog_updates_kept`).

The removal is a second look at the path, though: two processes can judge one
abandoned lock, and the slower of them removes the lock the faster one has
created since (`catalog_update_lost`).
-/
import CeCdn.Catalog
import CeCdn.Lib.Machine

namespace CeCdn.Catalog

open Lib Machine

/-! ## What the property says -/

namespace Phase

/-- Between acquire and drop: since when. -/
def since? : Phase → Option Nat
  | .hold since | .loaded since _ | .dropping since _ => some since
  | _ => none

/-- Before acquire. -/
def waiting : Phase → Bool
  | .acquire _ | .judge _ | .steal _ _ => true
  | _ => false

/-- Whose lock was judged stale. -/
def judged? : Phase → Option Nat
  | .steal _ j => some j
  | _ => none

def ended : Phase → Bool
  | .done _ | .crashed _ => true
  | _ => false

/-- Its update is in the catalog file. -/
def saved : Phase → Bool
  | .dropping _ ok | .done ok | .crashed ok => ok
  | _ => false

end Phase

namespace Sys

/-- At most one live process is between acquire and drop. -/
def Exclusive (y : Sys) : Prop :=
  ∀ (i j : Nat) (p q : Process) (s t : Nat), y.procs[i]? = some p → y.procs[j]? = some q →
    p.phase.since? = some s → q.phase.since? = some t → i = j

/-- The updates of the processes in some phases. -/
def updatesOf (f : Phase → Bool) (y : Sys) : List Update :=
  (y.procs.filter fun p => f p.phase).map Process.update

/-- The catalog file holds the initial catalog with these updates applied, one
after another in some order, and each of them succeeded in its turn. -/
def Holds (target : Option File) (y : Sys) (updates : List Update) : Prop :=
  ∃ order : List Update, order.Perm updates ∧
    load y.disk.target = (load target).bind fun c => order.foldlM (fun c u => apply u c) c

/-- When no process is left, the catalog file holds the updates that returned Ok. -/
def UpdatesKept (target : Option File) (y : Sys) : Prop :=
  (∀ p ∈ y.procs, p.phase.ended = true) →
    Holds target y (y.updatesOf fun phase => decide (phase = .done true))

/-- Every live process has held its lock for less than `LOCK_STALE_SECS`. -/
def Prompt (y : Sys) : Prop :=
  ∀ p ∈ y.procs, ∀ since ∈ p.phase.since?, y.now - since < LOCK_STALE_SECS * 1000

instance (y : Sys) : Decidable y.Prompt :=
  inferInstanceAs (Decidable (∀ p ∈ y.procs, ∀ since ∈ p.phase.since?, _))

end Sys

/-- A process that removes a stale lock finds there the one it judged, or none. -/
def StealsJudged (y : Sys) : Label → Prop
  | .run i false => ∀ p ∈ y.procs[i]?, ∀ j ∈ p.phase.judged?, ∀ f ∈ y.disk.lock, f.owner = j
  | _ => True

/-- No process dies between its save and its return. -/
def ReturnsOnceSaved (y : Sys) : Label → Prop
  | .crash i => ∀ p ∈ y.procs[i]?, p.phase.saved = false
  | _ => True

/-- The condition a run meets when no update of it is lost. -/
def Careful (y : Sys) (l : Label) : Prop := y.Prompt ∧ StealsJudged y l ∧ ReturnsOnceSaved y l

instance (y : Sys) : ∀ l : Label, Decidable (Careful y l)
  | .run _ false => inferInstanceAs (Decidable (_ ∧ (∀ p ∈ _, ∀ j ∈ _, ∀ f ∈ _, _ = _) ∧ True))
  | .run _ true => inferInstanceAs (Decidable (_ ∧ True ∧ True))
  | .crash _ => inferInstanceAs (Decidable (_ ∧ True ∧ (∀ p ∈ _, _ = _)))
  | .tick _ => inferInstanceAs (Decidable (_ ∧ True ∧ True))

/-! ## What one file operation does -/

/-- What a file operation of process `i` can do, and when. -/
inductive Process.Op (d : Disk) (now i : Nat) (fails : Bool) (p : Process) : Disk → Phase → Prop
  | gaveUp {n : Nat} (hp : p.phase = .acquire n) : Op d now i fails p d (.done false)
  | create {n : Nat} (hp : p.phase = .acquire n) (hl : d.lock = none) :
    Op d now i fails p { d with lock := some ⟨i, now⟩ } (.hold now)
  | found {n m : Nat} (hp : p.phase = .acquire n) : Op d now i fails p d (.judge m)
  | judgedFresh {n : Nat} (hp : p.phase = .judge n) : Op d now i fails p d (.acquire n)
  | judgedStale {n : Nat} {f : LockFile} (hp : p.phase = .judge n) (hl : d.lock = some f)
    (hs : f.isStale now = true) : Op d now i fails p d (.steal n f.owner)
  | stole {n j : Nat} (hp : p.phase = .steal n j) (hf : fails = false) :
    Op d now i fails p { d with lock := none } (.acquire n)
  | stoleNot {n j : Nat} (hp : p.phase = .steal n j) : Op d now i fails p d (.acquire n)
  | notLoaded {since : Nat} (hp : p.phase = .hold since) :
    Op d now i fails p d (.dropping since false)
  | loaded {since : Nat} {cat : Catalog} (hp : p.phase = .hold since)
    (hl : load d.target = .ok cat) : Op d now i fails p d (.loaded since cat)
  | notSaved {since : Nat} {cat : Catalog} (hp : p.phase = .loaded since cat) :
    Op d now i fails p d (.dropping since false)
  | saved {since : Nat} {cat cat' : Catalog} (hp : p.phase = .loaded since cat)
    (hu : apply p.update cat = .ok cat') :
    Op d now i fails p { d with target := some (.ok cat') } (.dropping since true)
  | dropped {since : Nat} {ok : Bool} (hp : p.phase = .dropping since ok) :
    Op d now i fails p { d with lock := none } (.done ok)
  | notDropped {since : Nat} {ok : Bool} (hp : p.phase = .dropping since ok) :
    Op d now i fails p d (.done ok)

theorem Process.op_of_advance {d d' : Disk} {now i : Nat} {fails : Bool} {p : Process}
    {phase : Phase} (h : p.advance d now i fails = some (d', phase)) :
    p.Op d now i fails d' phase := by
  unfold advance at h
  split at h
  · next hp => cases h; exact .gaveUp hp
  · next n hp =>
    split at h
    · cases h; exact .gaveUp hp
    · split at h
      · next hl => cases h; exact .create hp hl
      · cases h; exact .found hp
  · next n hp =>
    split at h
    · cases h; exact .judgedFresh hp
    · split at h
      · cases h; exact .judgedFresh hp
      · next f hl =>
        cases hs : f.isStale now with
        | true => simp only [hs, if_true] at h; cases h; exact .judgedStale hp hl hs
        | false =>
          simp only [hs, Bool.false_eq_true, if_false] at h
          cases h
          exact .judgedFresh hp
  · next n j hp =>
    cases fails with
    | true => cases h; exact .stoleNot hp
    | false => cases h; exact .stole hp rfl
  · next since hp =>
    split at h
    · cases h; exact .notLoaded hp
    · split at h
      · cases h; exact .notLoaded hp
      · next cat hl => cases h; exact .loaded hp hl
  · next since cat hp =>
    split at h
    · cases h; exact .notSaved hp
    · next cat' hu =>
      split at h
      · cases h; exact .notSaved hp
      · cases h; exact .saved hp hu
  · next since ok hp =>
    cases fails with
    | true => cases h; exact .notDropped hp
    | false => cases h; exact .dropped hp
  · cases h
  · cases h

/-- A process that dies stops waiting and holding; what it saved stays saved. -/
theorem Process.crash_eq_some {p : Process} {phase : Phase} (h : p.crash = some phase) :
    p.phase.ended = false ∧ phase = .crashed p.phase.saved := by
  unfold crash at h
  split at h
  · cases h
  · cases h
  · next hp => cases h; simp [hp, Phase.ended, Phase.saved]
  · cases h
    rename_i hnd hnc hnp
    cases hp : p.phase with
    | dropping since ok => exact absurd hp (hnp since ok)
    | done ok => exact absurd hp (hnd ok)
    | crashed s => exact absurd hp (hnc s)
    | _ => exact ⟨rfl, rfl⟩

/-! ## The invariant -/

/-- The live holder's lock file is there; whose lock file is there is past
acquire; who was judged stale is gone; what a holder loaded is still in the
catalog file; and that file holds the saved updates. -/
structure Kept (target : Option File) (y : Sys) : Prop where
  holder : ∀ (i : Nat) (p : Process) (since : Nat), y.procs[i]? = some p →
    p.phase.since? = some since → y.disk.lock = some ⟨i, since⟩
  owner : ∀ (f : LockFile) (p : Process), y.disk.lock = some f → y.procs[f.owner]? = some p →
    p.phase.waiting = false
  judged : ∀ (i : Nat) (p : Process) (n j : Nat) (q : Process), y.procs[i]? = some p →
    p.phase = .steal n j → y.procs[j]? = some q → q.phase.ended = true
  loaded : ∀ (i : Nat) (p : Process) (since : Nat) (cat : Catalog), y.procs[i]? = some p →
    p.phase = .loaded since cat → load y.disk.target = .ok cat
  holds : Sys.Holds target y (y.updatesOf Phase.saved)

section

variable {target : Option File} {y : Sys} {i : Nat} {p : Process} {phase : Phase}

theorem getElem?_setPhase (hi : y.procs[i]? = some p) (phase : Phase) (k : Nat) :
    (y.setPhase i p phase).procs[k]? =
      if k = i then some { p with phase := phase } else y.procs[k]? := by
  obtain ⟨hlt, -⟩ := List.getElem?_eq_some_iff.1 hi
  by_cases hk : k = i
  · subst hk
    rw [if_pos rfl]
    simp only [Sys.setPhase]
    rw [List.getElem?_set_self hlt]
  · rw [if_neg hk]
    simp only [Sys.setPhase]
    rw [List.getElem?_set_ne (Ne.symm hk)]

/-- What the updates in some phases become when one process changes its phase. -/
theorem updatesOf_setPhase (f : Phase → Bool) (hi : y.procs[i]? = some p) (phase : Phase) :
    ∃ l₁ l₂ : List Update,
      y.updatesOf f = l₁ ++ (if f p.phase then [p.update] else []) ++ l₂ ∧
      (y.setPhase i p phase).updatesOf f = l₁ ++ (if f phase then [p.update] else []) ++ l₂ := by
  obtain ⟨hlt, hget⟩ := List.getElem?_eq_some_iff.1 hi
  have hsplit : y.procs = y.procs.take i ++ p :: y.procs.drop (i + 1) := by
    rw [← hget, List.getElem_cons_drop, List.take_append_drop]
  have hset : y.procs.set i { p with phase := phase } =
      y.procs.take i ++ { p with phase := phase } :: y.procs.drop (i + 1) :=
    List.set_eq_take_append_cons_drop ▸ if_pos hlt
  refine ⟨((y.procs.take i).filter fun p => f p.phase).map Process.update,
    ((y.procs.drop (i + 1)).filter fun p => f p.phase).map Process.update, ?_, ?_⟩
  · rw [Sys.updatesOf]
    conv_lhs => rw [hsplit]
    rw [List.filter_append, List.filter_cons, List.map_append]
    split
    · simp
    · simp
  · simp only [Sys.updatesOf, Sys.setPhase]
    rw [hset, List.filter_append, List.filter_cons, List.map_append]
    split
    · simp
    · simp

theorem updatesOf_of_eq {f : Phase → Bool} (hi : y.procs[i]? = some p)
    (h : f phase = f p.phase) : (y.setPhase i p phase).updatesOf f = y.updatesOf f := by
  obtain ⟨l₁, l₂, hbefore, hafter⟩ := updatesOf_setPhase f hi phase
  rw [hafter, hbefore, h]

/-- A phase that asks for nothing new of the disk and of the other processes. -/
structure Quiet (y : Sys) (i : Nat) (old new : Phase) : Prop where
  since : ∀ since, new.since? = some since → old.since? = some since
  waiting : new.waiting = true → old.waiting = true
  ended : old.ended = true → new.ended = true
  steal : ∀ n j, new = .steal n j → j ≠ i ∧ ∀ q, y.procs[j]? = some q → q.phase.ended = true
  loaded : ∀ since cat, new = .loaded since cat → load y.disk.target = .ok cat
  saved : new.saved = old.saved

theorem Quiet.of_ended {old new : Phase} (h : new.ended = true) (hsaved : new.saved = old.saved) :
    Quiet y i old new := by
  cases new with
  | done ok | crashed ok => exact ⟨nofun, nofun, fun _ => rfl, nofun, nofun, hsaved⟩
  | _ => cases h

theorem Quiet.of_waiting {old new : Phase} (hold : old.waiting = true) (hnew : new.waiting = true)
    (hsteal : ∀ n j, new = .steal n j →
      j ≠ i ∧ ∀ q, y.procs[j]? = some q → q.phase.ended = true) : Quiet y i old new := by
  have hold' : old.ended = false ∧ old.saved = false := by
    cases old with
    | acquire n | judge n | steal n j => exact ⟨rfl, rfl⟩
    | _ => cases hold
  have hnew' : new.since? = none ∧ new.saved = false ∧ ∀ s c, new ≠ .loaded s c := by
    cases new with
    | acquire n | judge n | steal n j => exact ⟨rfl, rfl, nofun⟩
    | _ => cases hnew
  obtain ⟨hs, hsaved, hl⟩ := hnew'
  refine ⟨fun s h => ?_, fun _ => hold, fun h => ?_, hsteal, fun s c h => absurd h (hl s c), ?_⟩
  · rw [hs] at h; cases h
  · rw [hold'.1] at h; cases h
  · rw [hsaved, hold'.2]

theorem Quiet.of_holding {old new : Phase} {since : Nat} (hold : old.since? = some since)
    (hnew : new.since? = some since) (hsaved : new.saved = old.saved)
    (hload : ∀ s c, new = .loaded s c → load y.disk.target = .ok c) : Quiet y i old new := by
  have hold' : old.ended = false := by
    cases old with
    | hold s | loaded s c | dropping s ok => rfl
    | _ => cases hold
  have hnew' : new.waiting = false ∧ ∀ n j, new ≠ .steal n j := by
    cases new with
    | hold s | loaded s c | dropping s ok => exact ⟨rfl, nofun⟩
    | _ => cases hnew
  refine ⟨fun s h => ?_, fun h => ?_, fun h => ?_, fun n j h => absurd h (hnew'.2 n j), hload,
    hsaved⟩
  · rw [hold, ← hnew, h]
  · rw [hnew'.1] at h; cases h
  · rw [hold'] at h; cases h

/-- A step to a quiet phase keeps the invariant. -/
theorem Kept.quiet (h : Kept target y) (hi : y.procs[i]? = some p)
    (hq : Quiet y i p.phase phase) : Kept target (y.setPhase i p phase) := by
  have hget := getElem?_setPhase hi phase
  refine ⟨fun k q since hk hs => ?_, fun f q hf hk => ?_, fun k q n j r hk hs hj => ?_,
    fun k q since cat hk hl => ?_, ?_⟩
  · rw [hget] at hk
    split at hk
    · next hki => cases hk; subst hki; exact h.holder k p since hi (hq.since since hs)
    · exact h.holder k q since hk hs
  · rw [hget] at hk
    split at hk
    · next hfi =>
      cases hk
      have hold := h.owner f p hf (hfi ▸ hi)
      cases hw : phase.waiting with
      | false => rfl
      | true => rw [hq.waiting hw] at hold; cases hold
    · exact h.owner f q hf hk
  · rw [hget] at hk hj
    have hold : ∀ q', y.procs[j]? = some q' → q'.phase.ended = true := by
      split at hk
      · cases hk; exact (hq.steal n j hs).2
      · exact fun q' hq' => h.judged k q n j q' hk hs hq'
    split at hj
    · next hji => cases hj; exact hq.ended (hold p (hji ▸ hi))
    · exact hold r hj
  · rw [hget] at hk
    split at hk
    · cases hk; exact hq.loaded since cat hl
    · exact h.loaded k q since cat hk hl
  · rw [updatesOf_of_eq hi hq.saved]
    exact h.holds

/-- Nobody holds the lock: its file may go. -/
theorem Kept.unlock (h : Kept target y)
    (hnobody : ∀ (k : Nat) (q : Process), y.procs[k]? = some q → q.phase.since? = none) :
    Kept target { y with disk := { y.disk with lock := none } } := by
  refine ⟨fun k q since hk hs => ?_, nofun, h.judged, h.loaded, h.holds⟩
  rw [hnobody k q hk] at hs
  cases hs

/-- A live process that goes on, whatever it writes to the disk, leaves who was
judged stale gone. -/
theorem Kept.judged_setPhase (h : Kept target y) (d : Disk) (hi : y.procs[i]? = some p)
    (hlive : p.phase.ended = false) (hsteal : ∀ n j, phase ≠ .steal n j) (k : Nat) (q : Process)
    (n j : Nat) (r : Process) (hk : ({ y with disk := d }.setPhase i p phase).procs[k]? = some q)
    (hs : q.phase = .steal n j)
    (hj : ({ y with disk := d }.setPhase i p phase).procs[j]? = some r) : r.phase.ended = true := by
  have hget := getElem?_setPhase (y := { y with disk := d }) hi phase
  rw [hget] at hk hj
  split at hk
  · cases hk
    exact absurd hs (hsteal n j)
  · split at hj
    · next hji =>
      have hgone := h.judged k q n j p hk hs (hji ▸ hi)
      rw [hlive] at hgone
      cases hgone
    · exact h.judged k q n j r hk hs hj

/-- A new lock file, where there was none. -/
theorem Kept.create (h : Kept target y) (hi : y.procs[i]? = some p)
    (hp : p.phase.waiting = true) (hnl : y.disk.lock = none) (now : Nat) :
    Kept target ({ y with disk := { y.disk with lock := some ⟨i, now⟩ } }.setPhase i p
      (.hold now)) := by
  have hget := getElem?_setPhase (y := { y with disk := { y.disk with lock := some ⟨i, now⟩ } }) hi
    (.hold now)
  have hnot : p.phase.ended = false ∧ p.phase.saved = false := by
    cases hph : p.phase with
    | acquire n | judge n | steal n j => exact ⟨rfl, rfl⟩
    | _ => rw [hph] at hp; cases hp
  refine ⟨fun k q since hk hs => ?_, fun f q hf hk => ?_,
    h.judged_setPhase { y.disk with lock := some ⟨i, now⟩ } hi hnot.1 nofun,
    fun k q since cat hk hl => ?_, ?_⟩
  · rw [hget] at hk
    split at hk
    · next hki => cases hk; cases hs; rw [hki]; rfl
    · have := h.holder k q since hk hs
      rw [hnl] at this
      cases this
  · cases hf
    rw [hget, if_pos rfl] at hk
    cases hk
    rfl
  · rw [hget] at hk
    split at hk
    · cases hk; cases hl
    · exact h.loaded k q since cat hk hl
  · rw [updatesOf_of_eq (y := { y with disk := { y.disk with lock := some ⟨i, now⟩ } }) hi
      (by rw [hnot.2]; rfl)]
    exact h.holds

/-- The holder of the lock saves what its closure made of the catalog file. -/
theorem Kept.save (h : Kept target y) {since : Nat} {cat cat' : Catalog}
    (hi : y.procs[i]? = some p) (hp : p.phase = .loaded since cat)
    (hu : apply p.update cat = .ok cat') :
    Kept target ({ y with disk := { y.disk with target := some (.ok cat') } }.setPhase i p
      (.dropping since true)) := by
  have hget := getElem?_setPhase
    (y := { y with disk := { y.disk with target := some (.ok cat') } }) hi (.dropping since true)
  have hlock := h.holder i p since hi (by rw [hp]; rfl)
  refine ⟨fun k q s hk hs => ?_, fun f q hf hk => ?_,
    h.judged_setPhase { y.disk with target := some (.ok cat') } hi (by rw [hp]; rfl) nofun,
    fun k q s c hk hl => ?_, ?_⟩
  · rw [hget] at hk
    split at hk
    · next hki => cases hk; cases hs; rw [hki]; exact hlock
    · exact h.holder k q s hk hs
  · rw [hget] at hk
    split at hk
    · cases hk; rfl
    · exact h.owner f q hf hk
  · rw [hget] at hk
    split at hk
    · cases hk; cases hl
    · next hki =>
      have := h.holder k q s hk (by rw [hl]; rfl)
      rw [hlock] at this
      cases this
      exact absurd rfl hki
  · obtain ⟨order, hperm, hload⟩ := h.holds
    obtain ⟨l₁, l₂, hbefore, hafter⟩ := updatesOf_setPhase
      (y := { y with disk := { y.disk with target := some (.ok cat') } }) Phase.saved hi
      (.dropping since true)
    refine ⟨order ++ [p.update], ?_, ?_⟩
    · rw [hafter, show Phase.saved (.dropping since true) = true from rfl, if_pos rfl]
      rw [hp, show Phase.saved (.loaded since cat) = false from rfl, if_neg nofun,
        List.append_nil] at hbefore
      refine (List.Perm.append_right [p.update] hperm).trans ?_
      rw [show y.updatesOf Phase.saved = l₁ ++ l₂ from hbefore]
      rw [List.append_assoc, List.append_assoc]
      exact List.perm_append_comm.append_left l₁
    · have hnow := h.loaded i p since cat hi hp
      rw [hload] at hnow
      change Except.ok cat' = _
      cases hl : load target with
      | error e => rw [hl] at hnow; cases hnow
      | ok c =>
        rw [hl] at hnow
        change order.foldlM (fun c u => apply u c) c = .ok cat at hnow
        change Except.ok cat' = (order ++ [p.update]).foldlM (fun c u => apply u c) c
        rw [List.foldlM_append, hnow]
        change _ = [p.update].foldlM (fun c u => apply u c) cat
        simp [List.foldlM_cons, hu, pure, Except.pure, bind, Except.bind]

/-- Two holders have one lock file. -/
theorem Kept.exclusive (h : Kept target y) : y.Exclusive := by
  intro i j p q s t hi hj hs ht
  have hp := h.holder i p s hi hs
  rw [h.holder j q t hj ht] at hp
  cases hp
  rfl

/-- A lock file judged stale is of a process that is gone, if holders are prompt. -/
theorem Kept.stale (h : Kept target y) (hprompt : y.Prompt) {f : LockFile}
    (hl : y.disk.lock = some f) (hs : f.isStale y.now = true) {q : Process}
    (hq : y.procs[f.owner]? = some q) : q.phase.ended = true := by
  have hw := h.owner f q hl hq
  cases hsince : q.phase.since? with
  | none =>
    cases hph : q.phase with
    | done ok | crashed s => rfl
    | acquire n | judge n | steal n j => rw [hph] at hw; cases hw
    | hold s | loaded s c | dropping s ok => rw [hph] at hsince; cases hsince
  | some since =>
    have hlock := h.holder f.owner q since hq hsince
    rw [hl] at hlock
    have hcreated : f.created = since := congrArg LockFile.created (Option.some.inj hlock)
    have hage := hprompt q (List.mem_of_getElem? hq) since hsince
    have hold : (y.now - f.created) / 1000 > LOCK_STALE_SECS := by
      simpa [LockFile.isStale] using hs
    rw [hcreated] at hold
    simp only [LOCK_STALE_SECS] at hage hold
    omega

/-- The file of the lock that was judged stale goes. -/
theorem Kept.steal (h : Kept target y) {n j : Nat} (hi : y.procs[i]? = some p)
    (hp : p.phase = .steal n j) (howner : ∀ f ∈ y.disk.lock, f.owner = j) :
    Kept target ({ y with disk := { y.disk with lock := none } }.setPhase i p (.acquire n)) := by
  have hquiet : Kept target (y.setPhase i p (.acquire n)) :=
    h.quiet hi (.of_waiting (by rw [hp]; rfl) rfl nofun)
  refine hquiet.unlock fun k q hk => ?_
  cases hs : q.phase.since? with
  | none => rfl
  | some since =>
    -- the lock file is then the holder's, and whose it is was judged gone
    have hlock := hquiet.holder k q since hk hs
    rw [getElem?_setPhase hi] at hk
    split at hk
    · cases hk; cases hs
    · obtain rfl : k = j := howner _ hlock
      have hgone := h.judged i p n k q hi hp hk
      cases hph : q.phase with
      | done ok | crashed s => rw [hph] at hs; cases hs
      | _ => rw [hph] at hgone; cases hgone

/-- A holder removes its own lock file. -/
theorem Kept.drop (h : Kept target y) {since : Nat} {ok : Bool} (hi : y.procs[i]? = some p)
    (hp : p.phase = .dropping since ok) :
    Kept target ({ y with disk := { y.disk with lock := none } }.setPhase i p (.done ok)) := by
  have hlock := h.holder i p since hi (by rw [hp]; rfl)
  have hquiet : Kept target (y.setPhase i p (.done ok)) :=
    h.quiet hi (.of_ended rfl (by rw [hp]; rfl))
  refine hquiet.unlock fun k q hk => ?_
  cases hs : q.phase.since? with
  | none => rfl
  | some t =>
    -- the lock file is the one this process created
    have hlock' := hquiet.holder k q t hk hs
    rw [getElem?_setPhase hi] at hk
    split at hk
    · cases hk; cases hs
    · next hki =>
      rw [show (y.setPhase i p (.done ok)).disk = y.disk from rfl, hlock] at hlock'
      cases hlock'
      exact absurd rfl hki

theorem Kept.step {l : Label} {y' : Sys} (h : Kept target y) (hprompt : y.Prompt)
    (hsteal : StealsJudged y l) (hstep : y.step l = some y') : Kept target y' := by
  cases l with
  | tick ms => cases hstep; exact ⟨h.holder, h.owner, h.judged, h.loaded, h.holds⟩
  | crash i =>
    obtain ⟨p, hi, hstep⟩ := Option.bind_eq_some_iff.1 hstep
    obtain ⟨phase, hc, rfl⟩ := Option.map_eq_some_iff.1 hstep
    obtain ⟨hnot, rfl⟩ := Process.crash_eq_some hc
    exact h.quiet hi (.of_ended rfl rfl)
  | run i fails =>
    obtain ⟨p, hi, hstep⟩ := Option.bind_eq_some_iff.1 hstep
    obtain ⟨⟨d, phase⟩, hadv, rfl⟩ := Option.map_eq_some_iff.1 hstep
    cases Process.op_of_advance hadv with
    | gaveUp hp | notDropped hp => exact h.quiet hi (.of_ended rfl (by rw [hp]; rfl))
    | create hp hl => exact h.create hi (by rw [hp]; rfl) hl y.now
    | found hp | judgedFresh hp | stoleNot hp =>
      exact h.quiet hi (.of_waiting (by rw [hp]; rfl) rfl nofun)
    | @judgedStale n f hp hl hs =>
      have hw : p.phase.waiting = true := by rw [hp]; rfl
      refine h.quiet hi (.of_waiting hw rfl fun n j heq => ?_)
      cases heq
      refine ⟨fun hji => ?_, fun q hq => h.stale hprompt hl hs hq⟩
      have := h.owner f p hl (hji ▸ hi)
      rw [hw] at this
      cases this
    | @stole n j hp hf =>
      subst hf
      exact h.steal hi hp (hsteal p hi j (by rw [hp]; rfl))
    | @notLoaded since hp | @notSaved since _ hp =>
      exact h.quiet hi (.of_holding (show p.phase.since? = some since by rw [hp]; rfl) rfl
        (by rw [hp]; rfl) nofun)
    | @loaded since cat hp hl =>
      refine h.quiet hi (.of_holding (show p.phase.since? = some since by rw [hp]; rfl) rfl
        (by rw [hp]; rfl) fun s c heq => ?_)
      cases heq
      exact hl
    | saved hp hu => exact h.save hi hp hu
    | dropped hp => exact h.drop hi hp

end

/-! ## Runs -/

theorem kept_start (updates : List Update) (target : Option File) (now : Nat) :
    Kept target (.start updates target now) := by
  have hwait : ∀ {i : Nat} {p : Process}, (Sys.start updates target now).procs[i]? = some p →
      p.phase = .acquire LOCK_ATTEMPTS := by
    intro i p hp
    obtain ⟨u, -, rfl⟩ := List.mem_map.1 (List.mem_of_getElem? hp)
    rfl
  refine ⟨fun i p s hi hs => ?_, nofun, fun i p n j q hi hs => ?_, fun i p s c hi hl => ?_,
    [], ?_, ?_⟩
  · rw [hwait hi] at hs; cases hs
  · rw [hwait hi] at hs; cases hs
  · rw [hwait hi] at hl; cases hl
  · have hnone : (Sys.start updates target now).updatesOf Phase.saved = [] := by
      simp [Sys.updatesOf, Sys.start, Phase.saved]
    rw [hnone]
  · change load target = (load target).bind Except.ok
    cases load target with
    | ok c => rfl
    | error e => rfl

/-- No process died between its save and its return. -/
def AllReturn (y : Sys) : Prop := ∀ p ∈ y.procs, p.phase ≠ .crashed true

theorem AllReturn.step {y y' : Sys} {l : Label} (h : AllReturn y) (hl : ReturnsOnceSaved y l)
    (hstep : y.step l = some y') : AllReturn y' := by
  have hset : ∀ {i : Nat} {p : Process} {phase : Phase}, phase ≠ .crashed true →
      ∀ q ∈ y.procs.set i { p with phase := phase }, q.phase ≠ .crashed true := by
    intro i p phase hphase q hq
    obtain hq | rfl := List.mem_or_eq_of_mem_set hq
    · exact h q hq
    · exact hphase
  cases l with
  | tick ms => cases hstep; exact h
  | crash i =>
    obtain ⟨p, hi, hstep⟩ := Option.bind_eq_some_iff.1 hstep
    obtain ⟨phase, hc, rfl⟩ := Option.map_eq_some_iff.1 hstep
    obtain ⟨hnot, rfl⟩ := Process.crash_eq_some hc
    rw [hl p hi]
    exact hset nofun
  | run i fails =>
    obtain ⟨p, hi, hstep⟩ := Option.bind_eq_some_iff.1 hstep
    obtain ⟨⟨d, phase⟩, hadv, rfl⟩ := Option.map_eq_some_iff.1 hstep
    refine hset ?_
    cases Process.op_of_advance hadv <;> nofun

/-- When nobody died late, the saved updates of processes that are gone are
those that returned Ok. -/
theorem Kept.updatesKept {target : Option File} {y : Sys} (h : Kept target y)
    (hall : AllReturn y) : y.UpdatesKept target := by
  intro hended
  have hsame : y.updatesOf Phase.saved = y.updatesOf fun phase => decide (phase = .done true) := by
    unfold Sys.updatesOf
    congr 1
    refine List.filter_congr fun p hp => ?_
    have he := hended p hp
    have hc := hall p hp
    cases hph : p.phase with
    | done ok => cases ok <;> rfl
    | crashed s =>
      cases s with
      | true => exact absurd hph hc
      | false => rfl
    | _ => rw [hph] at he; cases he
  rw [← hsame]
  exact h.holds

/-- **No catalog update is lost.** In every run whose live holders are prompt,
whose steals remove only the lock that was judged, and in which no process dies
between its save and its return, at most one live process is between acquire
and drop, and once no process is left the catalog file holds the initial
catalog with the updates that returned Ok applied one after another. -/
theorem catalog_updates_kept (updates : List Update) (target : Option File) (now : Nat)
    (ls : List Label) (y : Sys)
    (hguard : Guarded Sys.step Careful (.start updates target now) ls)
    (hrun : run Sys.step (.start updates target now) ls = some y) :
    y.Exclusive ∧ y.UpdatesKept target := by
  have hstart : AllReturn (.start updates target now) := by
    intro p hp hc
    obtain ⟨u, -, rfl⟩ := List.mem_map.1 hp
    cases hc
  have hy : Kept target y ∧ AllReturn y :=
    guarded_invariant (I := fun y => Kept target y ∧ AllReturn y)
      (fun y l y' hI hG h => ⟨hI.1.step hG.1 hG.2.1 h, hI.2.step hG.2.2 h⟩)
      ⟨kept_start updates target now, hstart⟩ hguard hrun
  exact ⟨hy.1.exclusive, hy.1.updatesKept hy.2⟩

/-! ### One process after another -/

/-- Publish an entry under a CID. -/
def publish (cid : String) : Update := fun c =>
  .ok (c.upsert ⟨⟨cid, 1, .publicAccess, 1, 0, none, []⟩, []⟩)

/-- The first process locks and dies; the second waits until the lock is stale,
removes it and publishes. -/
def stealOnce : List Label :=
  [.run 0 false, .crash 0, .tick 31000, .run 1 false, .run 1 false, .run 1 false, .run 1 false,
    .run 1 false, .run 1 false, .run 1 false]

def stealOnceUpdates : List Update := [publish "a", publish "b"]

theorem stealOnce_careful :
    Guarded Sys.step Careful (.start stealOnceUpdates none 0) stealOnce := by
  decide +kernel

theorem catalog_updates_kept_sample :
    ∃ y, run Sys.step (.start stealOnceUpdates none 0) stealOnce = some y ∧
      y.procs.map Process.phase = [.crashed false, .done true] ∧
      y.Exclusive ∧ y.UpdatesKept none := by
  refine ⟨_, rfl, rfl, ?_⟩
  exact catalog_updates_kept stealOnceUpdates none 0 stealOnce _ stealOnce_careful rfl

/-! ### Three processes and one abandoned lock -/

def sampleUpdates : List Update := [publish "a", publish "b", publish "c"]

/-- The first process locks and dies; half a minute later the other two judge
its lock; one removes it, locks and loads, and then the other removes that
lock, locks and loads as well. -/
def stealTwice : List Label :=
  [.run 0 false, .crash 0, .tick 31000, .run 1 false, .run 2 false, .run 1 false, .run 2 false,
    .run 1 false, .run 1 false, .run 1 false, .run 2 false, .run 2 false, .run 2 false]

/-- Both save and return. -/
def bothReturn : List Label := [.run 1 false, .run 2 false, .run 1 false, .run 2 false]

theorem stealTwice_prompt : Guarded Sys.step (fun y _ => y.Prompt) (.start sampleUpdates none 0)
    (stealTwice ++ bothReturn) := by
  decide +kernel

/-- The second process returned Ok, and what it published is not there. -/
theorem stealTwice_end :
    ∃ y, run Sys.step (.start sampleUpdates none 0) (stealTwice ++ bothReturn) = some y ∧
      y.procs = [⟨publish "a", .crashed false⟩, ⟨publish "b", .done true⟩,
        ⟨publish "c", .done true⟩] ∧
      (load y.disk.target).map (fun c => (c.items.lookup "b").isSome) = .ok false :=
  ⟨_, rfl, rfl, rfl⟩

theorem publish_ne {a b : String} (h : a ≠ b) : publish a ≠ publish b := by
  intro heq
  have hitems := congrArg (fun u => (u default).map fun c => (c.items.lookup a).isSome) heq
  simp [publish, upsert, default, Except.map, Finmap.lookup_insert_of_ne, h] at hitems

/-- However `b` and `c` are published one after the other, `b` is there. -/
theorem published_after {order : List Update} (h : order.Perm [publish "b", publish "c"]) :
    (order.foldlM (fun c u => apply u c) default).map (fun c => (c.items.lookup "b").isSome) =
      .ok true := by
  obtain ⟨u, v, rfl⟩ := List.length_eq_two.1 h.length_eq
  have hu : u = publish "b" ∨ u = publish "c" := by simpa using h.mem_iff.1 List.mem_cons_self
  have hv : v = publish "b" ∨ v = publish "c" := by
    simpa using h.mem_iff.1 (List.mem_cons_of_mem u (List.mem_singleton_self v))
  rcases hu with rfl | rfl
  · rcases hv with rfl | rfl
    · rfl
    · rfl
  · rcases hv with rfl | rfl
    · rfl
    · have hb : publish "b" ∈ [publish "c", publish "c"] := h.mem_iff.2 List.mem_cons_self
      exact absurd (by simpa using hb) (publish_ne (show "b" ≠ "c" by decide))

/-- Prompt holders are not enough: a run of three loses an update that returned Ok. -/
theorem catalog_update_lost :
    ¬ ∀ (updates : List Update) (target : Option File) (now : Nat) (ls : List Label) (y : Sys),
      Guarded Sys.step (fun y _ => y.Prompt) (.start updates target now) ls →
      run Sys.step (.start updates target now) ls = some y →
      y.Exclusive ∧ y.UpdatesKept target := by
  intro h
  obtain ⟨y, hrun, hprocs, hend⟩ := stealTwice_end
  have hkept := (h sampleUpdates none 0 _ y stealTwice_prompt hrun).2
  obtain ⟨order, hperm, hload⟩ := hkept (by rw [hprocs]; decide)
  have hok : y.updatesOf (fun phase => decide (phase = .done true)) =
      [publish "b", publish "c"] := by
    simp [Sys.updatesOf, hprocs]
  rw [hok] at hperm
  have hthere := published_after hperm
  change load y.disk.target = order.foldlM (fun c u => apply u c) default at hload
  rw [← hload, hend] at hthere
  cases hthere

end CeCdn.Catalog
