/-
Machines and their runs. A partial machine (`step : σ → ℓ → Option σ`) takes
a labelled step when the label is enabled; all of its nondeterminism is in the
labels, so a run is a list of labels and a property of every run is a property
of every list. A Mealy machine (`step : σ → ι → ω × σ`) answers every input.

The rules: an invariant of steps is an invariant of runs (`run_invariant`,
`guarded_invariant`, `trace_invariant`), also one that speaks of the steps so
far (`history_invariant`), a guard that is exact for steps is exact for runs
(`guarded_iff_invariant`), a measure bounds runs (`run_measure`) and lets a
machine settle (`exists_run_settled`), and two Mealy machines related by a
simulation give the same outputs (`outputs_eq_of_sim`).
-/
import Mathlib.Data.List.Induction

namespace Lib.Machine

section Partial

variable {σ ℓ : Type*} (step : σ → ℓ → Option σ)

/-- The state a list of labels leads to, when each is enabled in its turn. -/
def run : σ → List ℓ → Option σ
  | s, [] => some s
  | s, l :: ls => (step s l).bind fun s' => run s' ls

/-- Every step of the run meets a condition on its state and its label. -/
def Guarded (G : σ → ℓ → Prop) : σ → List ℓ → Prop
  | _, [] => True
  | s, l :: ls => G s l ∧ ∀ s', step s l = some s' → Guarded G s' ls

variable {step}

theorem run_cons_eq_some {s r : σ} {l : ℓ} {ls : List ℓ} :
    run step s (l :: ls) = some r ↔ ∃ s', step s l = some s' ∧ run step s' ls = some r := by
  simp only [run, Option.bind_eq_some_iff]

theorem run_append {s : σ} {ls ls' : List ℓ} :
    run step s (ls ++ ls') = (run step s ls).bind fun r => run step r ls' := by
  induction ls generalizing s with
  | nil => rfl
  | cons l ls ih => simp only [List.cons_append, run, Option.bind_assoc, ih]

/-- Whether a given run is guarded can be computed. -/
instance decidableGuarded {G : σ → ℓ → Prop} [∀ s l, Decidable (G s l)] :
    ∀ (s : σ) (ls : List ℓ), Decidable (Guarded step G s ls)
  | _, [] => isTrue trivial
  | s, l :: ls =>
    match hs : step s l with
    | none =>
      decidable_of_iff (G s l) ⟨fun h => ⟨h, fun s' hs' => by rw [hs] at hs'; cases hs'⟩, And.left⟩
    | some s' =>
      have : Decidable (Guarded step G s' ls) := decidableGuarded s' ls
      decidable_of_iff (G s l ∧ Guarded step G s' ls)
        ⟨fun h => ⟨h.1, fun r hr => by rw [hs] at hr; cases hr; exact h.2⟩,
          fun h => ⟨h.1, h.2 s' hs⟩⟩

/-- A run that is guarded is guarded from any state it passes. -/
theorem Guarded.of_append {G : σ → ℓ → Prop} {ls ls' : List ℓ} {s r : σ}
    (h : Guarded step G s (ls ++ ls')) (hrun : run step s ls = some r) : Guarded step G r ls' := by
  induction ls generalizing s with
  | nil => cases hrun; exact h
  | cons l ls ih =>
    obtain ⟨s', hs, hrun⟩ := run_cons_eq_some.1 hrun
    exact ih (h.2 s' hs) hrun

/-- A guard that follows from another in the states of an invariant. -/
theorem Guarded.mono_of_invariant {G G' : σ → ℓ → Prop} {I : σ → Prop}
    (hstep : ∀ s l s', I s → G s l → step s l = some s' → I s')
    (hG : ∀ s l, I s → G s l → G' s l) {ls : List ℓ} {s : σ} (hs : I s)
    (h : Guarded step G s ls) : Guarded step G' s ls := by
  induction ls generalizing s with
  | nil => trivial
  | cons l ls ih =>
    exact ⟨hG s l hs h.1, fun s' hs' => ih (hstep s l s' hs h.1 hs') (h.2 s' hs')⟩

theorem Guarded.mono {G G' : σ → ℓ → Prop} (hG : ∀ s l, G s l → G' s l) {ls : List ℓ} {s : σ}
    (h : Guarded step G s ls) : Guarded step G' s ls :=
  h.mono_of_invariant (I := fun _ => True) (fun _ _ _ _ _ _ => trivial) (fun s l _ => hG s l) trivial

/-- A guard that each label meets in every state is met along the run. -/
theorem guarded_of_forall {G : σ → ℓ → Prop} {ls : List ℓ} (h : ∀ l ∈ ls, ∀ s, G s l) (s : σ) :
    Guarded step G s ls := by
  induction ls generalizing s with
  | nil => trivial
  | cons l ls ih =>
    exact ⟨h l List.mem_cons_self s, fun s' _ => ih (fun l hl => h l (List.mem_cons_of_mem _ hl)) s'⟩

/-- What each enabled step that meets the guard preserves, each guarded run
preserves. -/
theorem guarded_invariant {G : σ → ℓ → Prop} {I : σ → Prop}
    (hstep : ∀ s l s', I s → G s l → step s l = some s' → I s') :
    ∀ {ls : List ℓ} {s r : σ}, I s → Guarded step G s ls → run step s ls = some r → I r
  | [], s, r, hs, _, h => by cases h; exact hs
  | l :: ls, s, r, hs, hg, h => by
    obtain ⟨s', h₁, h₂⟩ := run_cons_eq_some.1 h
    exact guarded_invariant hstep (hstep s l s' hs hg.1 h₁) (hg.2 s' h₁) h₂

/-- A guard that a step meets exactly when it keeps the invariant is met along a
run exactly when the invariant holds in every state the run reaches. -/
theorem guarded_iff_invariant {G : σ → ℓ → Prop} {I : σ → Prop}
    (hstep : ∀ s l s', I s → step s l = some s' → (I s' ↔ G s l))
    (hstuck : ∀ s l, step s l = none → G s l) :
    ∀ {ls : List ℓ} {s : σ}, I s →
      (Guarded step G s ls ↔ ∀ ls' r, ls' <+: ls → run step s ls' = some r → I r)
  | [], s, hs => by
    refine iff_of_true trivial fun ls' r hpre hrun => ?_
    rw [List.prefix_nil.1 hpre] at hrun
    cases hrun
    exact hs
  | l :: ls, s, hs => by
    constructor
    · intro hg ls' r hpre hrun
      cases ls' with
      | nil => cases hrun; exact hs
      | cons l' ls' =>
        obtain ⟨hl, hrest⟩ := List.cons_prefix_cons.1 hpre
        obtain ⟨s', hs', hrun'⟩ := run_cons_eq_some.1 hrun
        rw [hl] at hs'
        have hI := (hstep s l s' hs hs').2 hg.1
        exact (guarded_iff_invariant hstep hstuck hI).1 (hg.2 s' hs') ls' r hrest hrun'
    · intro hall
      have hnext : ∀ s', step s l = some s' → I s' := fun s' hs' =>
        hall [l] s' (by simp) (by simp [run, hs'])
      refine ⟨?_, fun s' hs' => ?_⟩
      · cases hs' : step s l with
        | none => exact hstuck s l hs'
        | some s' => exact (hstep s l s' hs hs').1 (hnext s' hs')
      · refine (guarded_iff_invariant hstep hstuck (hnext s' hs')).2 fun ls' r hpre hrun => ?_
        exact hall (l :: ls') r (by simpa using hpre) (run_cons_eq_some.2 ⟨s', hs', hrun⟩)

/-- Without a guard, what each enabled step preserves each run preserves. -/
theorem run_invariant {I : σ → Prop} (hstep : ∀ s l s', I s → step s l = some s' → I s')
    {ls : List ℓ} {s r : σ} (hs : I s) (h : run step s ls = some r) : I r :=
  guarded_invariant (G := fun _ _ => True) (fun s l s' hs _ => hstep s l s' hs) hs
    (guarded_of_forall (fun _ _ _ => trivial) s) h

/-- When every label is enabled in every state, every run goes through. -/
theorem run_isSome (h : ∀ s l, (step s l).isSome = true) (s : σ) (ls : List ℓ) :
    (run step s ls).isSome = true := by
  induction ls generalizing s with
  | nil => rfl
  | cons l ls ih =>
    obtain ⟨s', hs⟩ := Option.isSome_iff_exists.1 (h s l)
    rw [run, hs, Option.bind_some]
    exact ih s'

/-- Two machines whose steps are related, label by label, have related runs: the
one goes through when the other does. -/
theorem run_rel {τ ℓ' : Type*} {step' : τ → ℓ' → Option τ} {R : σ → τ → Prop} (f : ℓ → ℓ')
    (hstep : ∀ s t l, R s t → Option.Rel R (step s l) (step' t (f l))) {s : σ} {t : τ}
    (h : R s t) (ls : List ℓ) : Option.Rel R (run step s ls) (run step' t (ls.map f)) := by
  induction ls generalizing s t with
  | nil => exact .some h
  | cons l ls ih =>
    have hone := hstep s t l h
    rw [List.map_cons, run, run]
    generalize step s l = x at hone ⊢
    generalize step' t (f l) = y at hone ⊢
    cases hone with
    | some hR => exact ih hR
    | none => exact .none

/-! ### How long a run can be -/

/-- A measure that only some steps raise, each by so much at most, bounds how
many steps of a run lower it. -/
theorem run_measure {μ : σ → Nat} (lowers raises : ℓ → Bool) (k : Nat)
    (hstep : ∀ s l s', step s l = some s' →
      μ s' + (lowers l).toNat ≤ μ s + k * (raises l).toNat) {ls : List ℓ} {s r : σ}
    (hrun : run step s ls = some r) : μ r + ls.countP lowers ≤ μ s + k * ls.countP raises := by
  induction ls generalizing s with
  | nil => cases hrun; exact Nat.le_refl _
  | cons l ls ih =>
    obtain ⟨s', hs, hrun⟩ := run_cons_eq_some.1 hrun
    have hone := hstep s l s' hs
    have hrest := ih hrun
    have hlow : (l :: ls).countP lowers = ls.countP lowers + (lowers l).toNat := by
      rw [List.countP_cons]
      cases lowers l <;> rfl
    have hraise : (l :: ls).countP raises = ls.countP raises + (raises l).toNat := by
      rw [List.countP_cons]
      cases raises l <;> rfl
    rw [hlow, hraise, Nat.mul_add]
    omega

/-- A machine that can always move until it is settled, by steps that lower a
measure, has a run of such steps that settles it, no longer than the measure. -/
theorem exists_run_settled {I Settled : σ → Prop} {G : σ → ℓ → Prop} (μ : σ → Nat)
    (hstep : ∀ s l s', I s → G s l → step s l = some s' → I s' ∧ μ s' < μ s)
    (hmove : ∀ s, I s → Settled s ∨ ∃ l s', G s l ∧ step s l = some s') (s : σ) (hs : I s) :
    ∃ ls r, Guarded step G s ls ∧ run step s ls = some r ∧ ls.length ≤ μ s ∧ I r ∧ Settled r := by
  induction h : μ s using Nat.strongRecOn generalizing s with
  | ind n ih =>
    obtain hset | ⟨l, s', hg, hl⟩ := hmove s hs
    · exact ⟨[], s, trivial, rfl, Nat.zero_le _, hs, hset⟩
    · obtain ⟨hs', hlt⟩ := hstep s l s' hs hg hl
      obtain ⟨ls, r, hguard, hrun, hlen, hr, hset⟩ := ih (μ s') (h ▸ hlt) s' hs' rfl
      refine ⟨l :: ls, r, ⟨hg, fun s₁ hs₁ => ?_⟩, run_cons_eq_some.2 ⟨s', hl, hrun⟩,
        by rw [List.length_cons]; omega, hr, hset⟩
      rw [hl] at hs₁
      cases hs₁
      exact hguard

/-! ### What happens in a run -/

/-- What the steps of a run report, in order. -/
def events {β : Type*} (step : σ → ℓ → Option σ) (ev : σ → ℓ → Option β) : σ → List ℓ → List β
  | _, [] => []
  | s, l :: ls =>
    match step s l with
    | none => []
    | some s' => (ev s l).toList ++ events step ev s' ls

/-- A property of states and of what was reported so far, kept by every step,
holds of what a whole run reports. -/
theorem events_invariant {β : Type*} {ev : σ → ℓ → Option β} {I : σ → List β → Prop}
    (hstep : ∀ s l s' log, I s log → step s l = some s' → I s' (log ++ (ev s l).toList)) :
    ∀ (ls : List ℓ) {s : σ} {log : List β}, I s log → ∃ r, I r (log ++ events step ev s ls)
  | [], s, log, h => ⟨s, by simpa [events] using h⟩
  | l :: ls, s, log, h => by
    unfold events
    cases hs : step s l with
    | none => exact ⟨s, by simpa using h⟩
    | some s' =>
      obtain ⟨r, hr⟩ := events_invariant hstep ls (hstep s l s' log h hs)
      exact ⟨r, by simpa using hr⟩

/-- The same of a guarded run that ends, in the state it ends in. -/
theorem events_run_invariant {β : Type*} {ev : σ → ℓ → Option β} {I : σ → List β → Prop}
    {G : σ → ℓ → Prop}
    (hstep : ∀ s l s' log, I s log → G s l → step s l = some s' → I s' (log ++ (ev s l).toList)) :
    ∀ {ls : List ℓ} {s r : σ} {log : List β}, I s log → Guarded step G s ls →
      run step s ls = some r → I r (log ++ events step ev s ls)
  | [], s, r, log, h, _, hrun => by
    cases hrun
    simpa [events] using h
  | l :: ls, s, r, log, h, hg, hrun => by
    obtain ⟨s', hs, hrun⟩ := run_cons_eq_some.1 hrun
    have hr := events_run_invariant hstep (hstep s l s' log h hg.1 hs) (hg.2 s' hs) hrun
    simpa [events, hs] using hr

theorem events_append {β : Type*} {ev : σ → ℓ → Option β} {ls ls' : List ℓ} {s r : σ}
    (hrun : run step s ls = some r) :
    events step ev s (ls ++ ls') = events step ev s ls ++ events step ev r ls' := by
  induction ls generalizing s with
  | nil => cases hrun; rfl
  | cons l ls ih =>
    obtain ⟨s', hs, hrun⟩ := run_cons_eq_some.1 hrun
    simp only [List.cons_append, events, hs, ih hrun, List.append_assoc]

/-- Along a run, what the labels alone report. -/
theorem events_eq_filterMap {β : Type*} (f : ℓ → Option β) {ls : List ℓ} {s r : σ}
    (hrun : run step s ls = some r) : events step (fun _ l => f l) s ls = ls.filterMap f := by
  induction ls generalizing s with
  | nil => rfl
  | cons l ls ih =>
    obtain ⟨s', hs, hrun⟩ := run_cons_eq_some.1 hrun
    rw [events, hs]
    simp only [ih hrun]
    cases hf : f l with
    | none => simp [hf]
    | some b => simp [hf]

end Partial

section Mealy

variable {σ τ ι ω : Type*} (step : σ → ι → ω × σ)

/-- The state after a list of inputs. -/
def final (s : σ) (is : List ι) : σ := is.foldl (fun s i => (step s i).2) s

/-- The answers to a list of inputs. -/
def outputs : σ → List ι → List ω
  | _, [] => []
  | s, i :: is => (step s i).1 :: outputs (step s i).2 is

/-- The steps of a run: the state each input found, the input, the answer. -/
def trace : σ → List ι → List (σ × ι × ω)
  | _, [] => []
  | s, i :: is => (s, i, (step s i).1) :: trace (step s i).2 is

variable {step}

@[simp] theorem final_nil (s : σ) : final step s [] = s := rfl

@[simp] theorem final_cons (s : σ) (i : ι) (is : List ι) :
    final step s (i :: is) = final step (step s i).2 is := rfl

theorem final_concat (s : σ) (is : List ι) (i : ι) :
    final step s (is ++ [i]) = (step (final step s is) i).2 := by
  simp [final]

/-- The answer recorded in a trace is the machine's answer. -/
theorem trace_output {s : σ} {is : List ι} {t : σ × ι × ω} (h : t ∈ trace step s is) :
    t.2.2 = (step t.1 t.2.1).1 := by
  induction is generalizing s with
  | nil => cases h
  | cons i is ih =>
    rcases List.mem_cons.1 h with rfl | h
    · rfl
    · exact ih h

theorem trace_input {s : σ} {is : List ι} {t : σ × ι × ω} (h : t ∈ trace step s is) :
    t.2.1 ∈ is := by
  induction is generalizing s with
  | nil => cases h
  | cons i is ih =>
    rcases List.mem_cons.1 h with rfl | h
    · exact List.mem_cons_self
    · exact List.mem_cons_of_mem _ (ih h)

/-- The steps of a run, by the inputs before them. -/
theorem mem_trace_iff {s : σ} {is : List ι} {t : σ × ι × ω} :
    t ∈ trace step s is ↔ ∃ is₁ i is₂, is = is₁ ++ i :: is₂ ∧
      t = (final step s is₁, i, (step (final step s is₁) i).1) := by
  induction is generalizing s with
  | nil => simp [trace]
  | cons j is ih =>
    rw [trace, List.mem_cons, ih]
    constructor
    · intro h
      rcases h with rfl | ⟨is₁, i, is₂, rfl, rfl⟩
      · exact ⟨[], j, is, rfl, rfl⟩
      · exact ⟨j :: is₁, i, is₂, rfl, rfl⟩
    · intro ⟨is₁, i, is₂, his, ht⟩
      cases is₁ with
      | nil => cases his; exact .inl ht
      | cons j' is₁ => cases his; exact .inr ⟨is₁, i, is₂, rfl, ht⟩

/-- Each step of a run keeps a property when the property, wherever in the run
it holds, holds from there to the end. -/
theorem trace_keeps_iff {P : σ → Prop} {s : σ} {is : List ι} :
    (∀ t ∈ trace step s is, P t.1 → P (step t.1 t.2.1).2) ↔
      ∀ is₁ is₂ is₃, is = is₁ ++ is₂ ++ is₃ →
        P (final step s is₁) → P (final step s (is₁ ++ is₂)) := by
  constructor
  · intro h is₁ is₂ is₃ his hP
    induction is₂ generalizing is₁ with
    | nil => simpa using hP
    | cons i is₂ ih =>
      have ht := h _ (mem_trace_iff.2 ⟨is₁, i, is₂ ++ is₃, by simpa using his, rfl⟩) hP
      have hend := ih (is₁ ++ [i]) (by simpa using his) (by rw [final_concat]; exact ht)
      simpa using hend
  · intro h t ht hP
    obtain ⟨is₁, i, is₂, rfl, rfl⟩ := mem_trace_iff.1 ht
    have hend := h is₁ [i] is₂ (by simp) hP
    rwa [final_concat] at hend

/-- An invariant of steps holds in every state a trace passes through. The
steps may use a fact `J` about the inputs of the run. -/
theorem trace_invariant {I : σ → Prop} {J : σ → ι → Prop}
    (hstep : ∀ s i, I s → J s i → I (step s i).2) {is : List ι} {s : σ} (hs : I s)
    (hJ : ∀ t ∈ trace step s is, J t.1 t.2.1) : ∀ t ∈ trace step s is, I t.1 := by
  induction is generalizing s with
  | nil => intro t ht; cases ht
  | cons i is ih =>
    intro t ht
    have hi : J s i := hJ (s, i, (step s i).1) (by simp [trace])
    rcases List.mem_cons.1 ht with rfl | ht
    · exact hs
    · exact ih (hstep s i hs hi) (fun t ht => hJ t (List.mem_cons_of_mem _ ht)) t ht

theorem final_invariant {I : σ → Prop} (hstep : ∀ s i, I s → I (step s i).2) {s : σ}
    (hs : I s) (is : List ι) : I (final step s is) := by
  induction is generalizing s with
  | nil => exact hs
  | cons i is ih => exact ih (hstep s i hs)

/-! ### Histories -/

theorem trace_concat (s : σ) (is : List ι) (i : ι) :
    trace step s (is ++ [i]) =
      trace step s is ++ [(final step s is, i, (step (final step s is) i).1)] := by
  induction is generalizing s with
  | nil => rfl
  | cons j is ih => simp only [List.cons_append, trace, ih, final_cons]

/-- A property of states and of the steps so far, kept by every step, holds of
the state a run ends in and its trace. -/
theorem history_invariant {I : σ → List (σ × ι × ω) → Prop}
    (hstep : ∀ s i past, I s past → I (step s i).2 (past ++ [(s, i, (step s i).1)])) {s : σ}
    (hs : I s []) (is : List ι) : I (final step s is) (trace step s is) := by
  induction is using List.reverseRecOn with
  | nil => exact hs
  | append_singleton is i ih =>
    rw [final_concat, trace_concat]
    exact hstep _ i _ ih

/-- Machines that a simulation relates answer every run alike and end in
related states. -/
theorem outputs_eq_of_sim (step : σ → ι → ω × σ) (step' : τ → ι → ω × τ) {R : σ → τ → Prop}
    (hstep : ∀ s t i, R s t → (step s i).1 = (step' t i).1 ∧ R (step s i).2 (step' t i).2)
    {s : σ} {t : τ} (h : R s t) (is : List ι) :
    outputs step s is = outputs step' t is ∧ R (final step s is) (final step' t is) := by
  induction is generalizing s t with
  | nil => exact ⟨rfl, h⟩
  | cons i is ih =>
    obtain ⟨ho, hR⟩ := hstep s t i h
    obtain ⟨hos, hRs⟩ := ih hR
    exact ⟨by simp only [outputs, ho, hos], hRs⟩

end Mealy

end Lib.Machine
