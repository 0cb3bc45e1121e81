/-
Computations over a state that may fail, where a failure keeps the changes
made before it (`Eff`). The rules read a run of a `bind` back into the runs of
its parts (`run_bind_fst_ok_iff`, `run_bind_of_ok`), and carry through a program
a relation between the state before and the state after (`Keeps`) and what its
errors can be (`FailsIn`).
-/
import Mathlib.Data.List.Basic

namespace Lib

/-- From a state: a value or an error, and the state left. -/
structure Eff (σ ε α : Type) where
  run : σ → Except ε α × σ

namespace Eff

variable {σ ε ε' α β : Type}

protected def pure (a : α) : Eff σ ε α := ⟨fun s => (.ok a, s)⟩

protected def bind (m : Eff σ ε α) (f : α → Eff σ ε β) : Eff σ ε β := ⟨fun s =>
  match m.run s with
  | (.ok a, s') => (f a).run s'
  | (.error e, s') => (.error e, s')⟩

instance : Monad (Eff σ ε) where
  pure := Eff.pure
  bind := Eff.bind

def fail (e : ε) : Eff σ ε α := ⟨fun s => (.error e, s)⟩

def ofExcept (x : Except ε α) : Eff σ ε α := ⟨fun s => (x, s)⟩

/-- A step that does not fail. -/
def step (f : σ → α × σ) : Eff σ ε α := ⟨fun s => (.ok (f s).1, (f s).2)⟩

/-- The outcome of a computation, as a value. -/
def attempt (m : Eff σ ε α) : Eff σ ε' (Except ε α) := ⟨fun s => (.ok (m.run s).1, (m.run s).2)⟩

@[simp] theorem run_pure (a : α) (s : σ) : (pure a : Eff σ ε α).run s = (.ok a, s) := rfl

@[simp] theorem run_fail (e : ε) (s : σ) : (fail e : Eff σ ε α).run s = (.error e, s) := rfl

@[simp] theorem run_ofExcept (x : Except ε α) (s : σ) : (ofExcept x).run s = (x, s) := rfl

@[simp] theorem run_step (f : σ → α × σ) (s : σ) :
    (step f : Eff σ ε α).run s = (.ok (f s).1, (f s).2) := rfl

theorem run_bind_of_ok {m : Eff σ ε α} {f : α → Eff σ ε β} {s s' : σ} {a : α}
    (h : m.run s = (.ok a, s')) : (m >>= f).run s = (f a).run s' := by
  change (Eff.bind m f).run s = _
  simp only [Eff.bind, h]

theorem run_bind_of_error {m : Eff σ ε α} {f : α → Eff σ ε β} {s s' : σ} {e : ε}
    (h : m.run s = (.error e, s')) : (m >>= f).run s = (.error e, s') := by
  change (Eff.bind m f).run s = _
  simp only [Eff.bind, h]

@[simp] theorem run_attempt_bind (m : Eff σ ε α) (g : Except ε α → Eff σ ε' β) (s : σ) :
    (attempt m >>= g).run s = (g (m.run s).1).run (m.run s).2 := rfl

/-- A `bind` succeeds when both parts do. -/
theorem run_bind_fst_ok_iff {m : Eff σ ε α} {f : α → Eff σ ε β} {s : σ} {b : β} :
    ((m >>= f).run s).1 = .ok b ↔
      ∃ a, (m.run s).1 = .ok a ∧ ((f a).run (m.run s).2).1 = .ok b := by
  rcases h : m.run s with ⟨r, s'⟩
  cases r with
  | error e =>
    rw [run_bind_of_error h]
    refine ⟨nofun, fun h' => ?_⟩
    obtain ⟨_, h', -⟩ := h'
    cases h'
  | ok a =>
    rw [run_bind_of_ok h]
    refine ⟨fun h' => ⟨a, rfl, h'⟩, fun h' => ?_⟩
    obtain ⟨_, h', h''⟩ := h'
    cases h'
    exact h''

theorem run_bind_fst_of_ok {m : Eff σ ε α} {f : α → Eff σ ε β} {s : σ} {a : α}
    (h : (m.run s).1 = .ok a) : ((m >>= f).run s).1 = ((f a).run (m.run s).2).1 := by
  have hm : m.run s = (.ok a, (m.run s).2) := Prod.ext h rfl
  rw [run_bind_of_ok hm]

/-- A `bind` fails where its first part does, or where the second does. -/
theorem run_bind_fst_error_iff {m : Eff σ ε α} {f : α → Eff σ ε β} {s : σ} {e : ε} :
    ((m >>= f).run s).1 = .error e ↔
      (m.run s).1 = .error e ∨
        ∃ a, (m.run s).1 = .ok a ∧ ((f a).run (m.run s).2).1 = .error e := by
  rcases h : m.run s with ⟨r, s'⟩
  cases r with
  | error e' => rw [run_bind_of_error h]; simp
  | ok a => rw [run_bind_of_ok h]; simp

/-! ## Relations a computation keeps -/

/-- Whatever the outcome, the state left is related to the state found. -/
def Keeps (R : σ → σ → Prop) (m : Eff σ ε α) : Prop := ∀ s, R s (m.run s).2

variable {R : σ → σ → Prop}

theorem keeps_pure (hrefl : ∀ s, R s s) (a : α) : Keeps R (pure a : Eff σ ε α) := hrefl

theorem keeps_fail (hrefl : ∀ s, R s s) (e : ε) : Keeps R (fail e : Eff σ ε α) := hrefl

theorem keeps_ofExcept (hrefl : ∀ s, R s s) (x : Except ε α) : Keeps R (ofExcept x : Eff σ ε α) :=
  hrefl

theorem keeps_bind (htrans : ∀ a b c, R a b → R b c → R a c) {m : Eff σ ε α}
    {f : α → Eff σ ε β} (hm : Keeps R m) (hf : ∀ a, Keeps R (f a)) : Keeps R (m >>= f) := by
  intro s
  have h₁ := hm s
  rcases h : m.run s with ⟨r, s'⟩
  rw [h] at h₁
  cases r with
  | error e => rw [run_bind_of_error h]; exact h₁
  | ok a => rw [run_bind_of_ok h]; exact htrans _ _ _ h₁ (hf a s')

/-! ## The errors of a computation -/

/-- From every state, a computation that fails fails with an error in `P`. -/
def FailsIn (P : ε → Prop) (m : Eff σ ε α) : Prop := ∀ s e, (m.run s).1 = .error e → P e

variable {P : ε → Prop}

theorem failsIn_pure (a : α) : FailsIn P (pure a : Eff σ ε α) := fun _ _ h => nomatch h

theorem failsIn_fail {e : ε} (h : P e) : FailsIn P (fail e : Eff σ ε α) := by
  intro s e' he
  cases he
  exact h

theorem failsIn_step (f : σ → α × σ) : FailsIn P (step f : Eff σ ε α) := fun _ _ h => nomatch h

theorem failsIn_ofExcept {x : Except ε α} (h : ∀ e, x = .error e → P e) :
    FailsIn P (ofExcept x : Eff σ ε α) := fun _ e he => h e he

/-- The second part may assume a value the first returned from some state. -/
theorem failsIn_bind {m : Eff σ ε α} {f : α → Eff σ ε β} (hm : FailsIn P m)
    (hf : ∀ s a, (m.run s).1 = .ok a → FailsIn P (f a)) : FailsIn P (m >>= f) := by
  intro s e he
  obtain he | ⟨a, ha, he⟩ := run_bind_fst_error_iff.1 he
  · exact hm s e he
  · exact hf s a ha _ e he

end Eff

end Lib
