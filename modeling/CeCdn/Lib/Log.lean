/-
Logs: lists that grow at the end, an event at a time. What a log says of the
present is that something happened and nothing since took it back (`Since`);
what it says of its events is what the log was when they came (`Each`).

A map that is written key by key has the log of its writes. Replaying it leaves
each key with its last write (`replay_apply_iff`), and a machine whose steps
report what they write holds, after a run, what the replay of the run's reports
gives (`final_eq_replay`).
-/
import CeCdn.Lib.Machine
import Mathlib.Logic.Function.Basic

namespace Lib.Log

open Machine

section

variable {α : Type*} {P Q : α → Prop} {R : List α → α → Prop} {log : List α} {x : α}

/-- Some event of the log is a `P`, and no later one a `Q`. -/
def Since (P Q : α → Prop) (log : List α) : Prop :=
  ∃ before x after, log = before ++ x :: after ∧ P x ∧ ∀ y ∈ after, ¬ Q y

theorem Since.concat (h : Since P Q log) (hx : ¬ Q x) : Since P Q (log ++ [x]) := by
  obtain ⟨before, y, after, rfl, hy, hafter⟩ := h
  refine ⟨before, y, after ++ [x], by simp, hy, fun z hz => ?_⟩
  obtain hz | hz := List.mem_append.1 hz
  · exact hafter z hz
  · rw [List.mem_singleton.1 hz]
    exact hx

theorem since_concat (h : P x) : Since P Q (log ++ [x]) := ⟨log, x, [], rfl, h, fun _ h => nomatch h⟩

theorem Since.exists (h : Since P Q log) : ∃ x ∈ log, P x := by
  obtain ⟨before, x, after, rfl, hx, -⟩ := h
  exact ⟨x, by simp, hx⟩

theorem Since.mono {P' : α → Prop} (hP : ∀ x ∈ log, P x → P' x) (h : Since P Q log) :
    Since P' Q log := by
  obtain ⟨before, x, after, rfl, hx, hafter⟩ := h
  exact ⟨before, x, after, rfl, hP x (by simp) hx, hafter⟩

/-- Each event is in relation to the log before it. -/
def Each (R : List α → α → Prop) (log : List α) : Prop :=
  ∀ before x after, log = before ++ x :: after → R before x

theorem each_nil (R : List α → α → Prop) : Each R [] := by
  intro before x after h
  cases List.append_eq_nil_iff.1 h.symm |>.2

theorem Each.concat (h : Each R log) (hx : R log x) : Each R (log ++ [x]) := by
  intro before y after heq
  rcases List.eq_nil_or_concat after with rfl | ⟨after, z, rfl⟩
  · obtain ⟨rfl, hy⟩ := List.append_inj' heq rfl
    cases hy
    exact hx
  · rw [List.concat_eq_append, ← List.cons_append, ← List.append_assoc] at heq
    exact h before y after (List.append_inj' heq rfl).1

end

variable {κ β : Type} [DecidableEq κ]

/-- The map after the writes, each a key and what the key is left with. -/
def replay (log : List (κ × β)) (m : κ → β) : κ → β :=
  log.foldl (fun m w => Function.update m w.1 w.2) m

@[simp] theorem replay_nil (m : κ → β) : replay [] m = m := rfl

theorem replay_append (log log' : List (κ × β)) (m : κ → β) :
    replay (log ++ log') m = replay log' (replay log m) := List.foldl_append

/-- A key that no write names keeps its value. -/
theorem replay_of_not_mem {log : List (κ × β)} {k : κ} (h : k ∉ log.map Prod.fst) (m : κ → β) :
    replay log m k = m k := by
  induction log generalizing m with
  | nil => rfl
  | cons w log ih =>
    rw [List.map_cons, List.mem_cons, not_or] at h
    rw [replay, List.foldl_cons]
    exact (ih h.2 _).trans (Function.update_of_ne h.1 _ _)

/-- A key holds the last of its writes. -/
theorem replay_of_last {before after : List (κ × β)} {k : κ} {b : β}
    (h : k ∉ after.map Prod.fst) (m : κ → β) : replay (before ++ (k, b) :: after) m k = b := by
  rw [replay_append, replay, List.foldl_cons]
  exact (replay_of_not_mem h _).trans (Function.update_self _ _ _)

/-- The last write of a key that some write names. -/
theorem exists_last {log : List (κ × β)} {k : κ} (h : k ∈ log.map Prod.fst) :
    ∃ before b after, log = before ++ (k, b) :: after ∧ k ∉ after.map Prod.fst := by
  induction log with
  | nil => cases h
  | cons w log ih =>
    by_cases hk : k ∈ log.map Prod.fst
    · obtain ⟨before, b, after, rfl, hafter⟩ := ih hk
      exact ⟨w :: before, b, after, rfl, hafter⟩
    · rw [List.map_cons, List.mem_cons] at h
      obtain rfl : k = w.1 := h.resolve_right hk
      exact ⟨[], w.2, log, rfl, hk⟩

theorem replay_apply_iff {log : List (κ × β)} {m : κ → β} {k : κ} {b : β} :
    replay log m k = b ↔ (k ∉ log.map Prod.fst ∧ m k = b) ∨
      ∃ before after, log = before ++ (k, b) :: after ∧ k ∉ after.map Prod.fst := by
  constructor
  · intro h
    by_cases hk : k ∈ log.map Prod.fst
    · obtain ⟨before, b', after, rfl, hafter⟩ := exists_last hk
      rw [replay_of_last hafter] at h
      exact .inr ⟨before, after, h ▸ rfl, hafter⟩
    · rw [replay_of_not_mem hk] at h
      exact .inl ⟨hk, h⟩
  · intro h
    obtain ⟨hk, h⟩ | ⟨before, after, rfl, hafter⟩ := h
    · rw [replay_of_not_mem hk, h]
    · exact replay_of_last hafter m

/-- A machine whose steps report their writes, in the states of an invariant. -/
theorem final_eq_replay {σ ι : Type*} {step : σ → ι → List (κ × β) × σ} {I : σ → Prop}
    (view : σ → κ → β)
    (hstep : ∀ s i, I s → I (step s i).2 ∧ view (step s i).2 = replay (step s i).1 (view s))
    (is : List ι) {s : σ} (hs : I s) :
    I (final step s is) ∧
      view (final step s is) = replay (outputs step s is).flatten (view s) := by
  induction is generalizing s with
  | nil => exact ⟨hs, rfl⟩
  | cons i is ih =>
    obtain ⟨hI, hview⟩ := hstep s i hs
    obtain ⟨hI', hview'⟩ := ih hI
    refine ⟨hI', ?_⟩
    rw [final_cons, hview', hview, outputs, List.flatten_cons, replay_append]

end Lib.Log
