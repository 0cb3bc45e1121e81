/-
Requests get on. A request waits for two things only, its single-flight lock
and the origin, and whoever holds a lock is never held up by another. So in
every run of the front-end some request that is not answered can go on, or
waits for the origin (`Flights.moves`), no run has more than fifteen pieces a
request, and once the origin answers every request that is not dropped is
answered (`requests_complete`).
-/
import CeCdn.SingleFlight

namespace CeCdn

open Lib Machine

/-- Answered or dropped. -/
def Phase.Finished : Phase → Prop
  | .done _ | .cancelled => True
  | _ => False

def Sys.Settled (y : Sys) : Prop := ∀ t ∈ y.tasks, t.phase.Finished

/-- How many pieces are left of all requests. -/
def Sys.work (y : Sys) : Nat := (y.tasks.map fun t => t.phase.rank).sum

/-- A request arrives. -/
def Label.arrives : Label → Bool
  | .arrive _ _ => true
  | _ => false

/-- A request takes a piece, is answered by the origin, or is dropped. -/
def Label.advances : Label → Bool
  | .step _ _ | .answer _ _ | .cancel _ => true
  | _ => false

/-! ## No run goes on for ever -/

section

variable {env : ServerEnv} {y y' : Sys} {i : Nat} {t t' : Task} {s' : ServerState}

theorem Sys.work_set (hi : y.tasks[i]? = some t) (s' : ServerState) (t' : Task) :
    (Sys.mk s' (y.tasks.set i t')).work + t.phase.rank = y.work + t'.phase.rank :=
  Places.sum_map_set_add hi t'

/-- A request that is dropped had something left. -/
theorem Task.rank_pos_of_cancel {s : ServerState} (h : t.cancel s = some (s', t')) :
    0 < t.phase.rank := by
  cases hp : t.phase with
  | done resp => simp [Task.cancel, hp] at h
  | cancelled => simp [Task.cancel, hp] at h
  | _ => simp [Phase.rank]

/-- Every label that concerns a request leaves less to do; only an arrival adds. -/
theorem Sys.work_step {l : Label} (h : Sys.step env y l = some y') :
    y'.work + l.advances.toNat ≤ y.work + 15 * l.arrives.toNat := by
  cases Sys.moves_of_step h with
  | arrive req now =>
    simp [Sys.work, Task.arrive, Phase.rank, Label.advances, Label.arrives]
  | @piece i o t t' s' hi hpiece =>
    have hwork := Sys.work_set hi s' t'
    have hlt := hpiece.rank_lt
    simp only [Label.advances, Label.arrives, Bool.toNat_true, Bool.toNat_false]
    omega
  | @answered i l max t res hi hp =>
    have hwork := Sys.work_set hi y.shared (t.goto (.fetched l max res))
    have hrank : t.phase.rank = (t.goto (.fetched l max res)).phase.rank + 1 := by
      rw [hp]
      rfl
    simp only [Label.advances, Label.arrives, Bool.toNat_true, Bool.toNat_false]
    omega
  | @cancelled i t t' s' hi hc =>
    have hwork := Sys.work_set hi s' t'
    have hpos := Task.rank_pos_of_cancel hc
    have hrank : t'.phase.rank = 0 := by
      rw [(Task.cancel_cases hc).1]
      rfl
    simp only [Label.advances, Label.arrives, Bool.toNat_true, Bool.toNat_false]
    omega
  | swept o now => exact Nat.le_refl _
  | purged cid => exact Nat.le_refl _

end

/-! ## No request waits for ever -/

namespace Task

variable (env : ServerEnv) (o : Orders) {s s' : ServerState} {t t' : Task}

/-- What holds a request up: the origin, or a lock that is held. -/
theorem advance_or_waits (s : ServerState) (t : Task) :
    t.phase.Finished ∨ (∃ l max, t.phase = .fetching l max) ∨
      (∃ l max, t.phase = .wait l max ∧ (s.flights l).locked = true) ∨
      (t.advance env o s).isSome = true := by
  cases hp : t.phase with
  | done resp => exact .inl trivial
  | cancelled => exact .inl trivial
  | fetching l max => exact .inr (.inl ⟨l, max, rfl⟩)
  | wait l max =>
    cases hl : (s.flights l).locked with
    | true => exact .inr (.inr (.inl ⟨l, max, rfl, hl⟩))
    | false => exact .inr (.inr (.inr (by simp [advance, hp, hl])))
  | _ => exact .inr (.inr (.inr (by simp [advance, hp])))

variable {env o}

theorem Piece.ne_cancelled (h : Piece env o s t s' t') : t'.phase ≠ .cancelled := by
  cases h <;> simp [Task.readBudget]

/-- The holder of a lock goes on, or waits for the origin. -/
theorem holder_moves (env : ServerEnv) (o : Orders) (s : ServerState) {l : Nat}
    (h : t.phase.holds = some l) :
    (∃ l max, t.phase = .fetching l max) ∨ (t.advance env o s).isSome = true := by
  obtain hfin | hfetch | ⟨l', max, hw, -⟩ | hadv := advance_or_waits env o s t
  · cases hp : t.phase <;> simp_all [Phase.Finished, Phase.holds]
  · exact .inl hfetch
  · rw [hw] at h
    cases h
  · exact .inr hadv

end Task

/-- Nothing is made up: the pieces are the requests' own and the origin answers
the CID it was asked for. -/
def Serving (o : Orders) (origin : String → Option Bytes) (y : Sys) : Label → Prop
  | .step _ o' => o' = o
  | .answer i res => ∀ t, y.tasks[i]? = some t → res = origin t.req.cid
  | _ => False

section

variable {env : ServerEnv} {o : Orders} {origin : String → Option Bytes} {y y' : Sys}

/-- A request that waits for the origin is answered. -/
theorem Sys.serves_fetching {i l max : Nat} {t : Task} (hi : y.tasks[i]? = some t)
    (hp : t.phase = .fetching l max) :
    ∃ lab y', Serving o origin y lab ∧ Sys.step env y lab = some y' := by
  refine ⟨.answer i (origin t.req.cid),
    { y with tasks := y.tasks.set i (t.goto (.fetched l max (origin t.req.cid))) },
    fun t' ht' => ?_, ?_⟩
  · rw [hi] at ht'
    cases ht'
    rfl
  · simp only [Sys.step, hi, Option.bind_some, Task.answered, hp, Option.map_some]

theorem Sys.serves_advance {i : Nat} {t : Task} (hi : y.tasks[i]? = some t)
    (hadv : (t.advance env o y.shared).isSome = true) :
    ∃ lab y', Serving o origin y lab ∧ Sys.step env y lab = some y' := by
  obtain ⟨⟨s', t'⟩, hadv⟩ := Option.isSome_iff_exists.1 hadv
  refine ⟨.step i o, ⟨s', y.tasks.set i t'⟩, rfl, ?_⟩
  simp only [Sys.step, hi, Option.bind_some, hadv, Option.map_some]

/-- **No deadlock.** Unless every request is answered or dropped, some request
takes its next piece or is answered by the origin: a lock that is waited for has
a holder, and its holder waits for no lock. -/
theorem Flights.moves (h : Flights y) :
    y.Settled ∨ ∃ lab y', Serving o origin y lab ∧ Sys.step env y lab = some y' := by
  by_cases hset : y.Settled
  · exact .inl hset
  · refine .inr ?_
    have hopen : ∃ t ∈ y.tasks, ¬ t.phase.Finished := by
      simpa [Sys.Settled] using hset
    obtain ⟨t, ht, hfin⟩ := hopen
    obtain ⟨i, hi⟩ := List.mem_iff_getElem?.1 ht
    obtain hf | ⟨l, max, hp⟩ | ⟨l, max, hp, hlocked⟩ | hadv :=
      Task.advance_or_waits env o y.shared t
    · exact absurd hf hfin
    · exact Sys.serves_fetching hi hp
    · -- the lock is counted as held by a request
      have hcount := h.locked _ l (h.handle t ht l (by rw [hp]; rfl))
      rw [hlocked] at hcount
      obtain ⟨u, hu, hholds⟩ := List.countP_pos_iff.1
        (show 0 < y.tasks.countP (Task.holdsLock l) by rw [← hcount]; exact Nat.one_pos)
      obtain ⟨j, hj⟩ := List.mem_iff_getElem?.1 hu
      obtain ⟨l', max', hp'⟩ | hadv :=
        Task.holder_moves env o y.shared (eq_of_beq hholds)
      · exact Sys.serves_fetching hj hp'
      · exact Sys.serves_advance hj hadv
    · exact Sys.serves_advance hi hadv

/-! ## Every request is answered -/

/-- The requests of `y` that are not dropped are there, and not dropped. -/
def Sys.Continues (y y' : Sys) : Prop :=
  ∀ (i : Nat) (t : Task), y.tasks[i]? = some t → t.phase ≠ .cancelled →
    ∃ t' : Task, y'.tasks[i]? = some t' ∧ t'.req = t.req ∧ t'.phase ≠ .cancelled

theorem Sys.continues_set {i : Nat} {t t' : Task} (s' : ServerState)
    (hi : y.tasks[i]? = some t) (hreq : t'.req = t.req) (hp : t'.phase ≠ .cancelled) :
    y.Continues ⟨s', y.tasks.set i t'⟩ := by
  intro j u hj hu
  by_cases hij : j = i
  · subst hij
    rw [hi] at hj
    cases hj
    exact ⟨t', Places.getElem?_set_of_some hi t', hreq, hp⟩
  · exact ⟨u, by rw [List.getElem?_set_ne (Ne.symm hij)]; exact hj, rfl, hu⟩

theorem Sys.Continues.trans {y₁ y₂ y₃ : Sys} (h : y₁.Continues y₂) (h' : y₂.Continues y₃) :
    y₁.Continues y₃ := by
  intro i t hi hp
  obtain ⟨t', hi', hreq, hp'⟩ := h i t hi hp
  obtain ⟨t'', hi'', hreq', hp''⟩ := h' i t' hi' hp'
  exact ⟨t'', hi'', hreq'.trans hreq, hp''⟩

theorem Sys.continues_step {lab : Label} (hg : Serving o origin y lab)
    (h : Sys.step env y lab = some y') : y.Continues y' ∧ y'.work < y.work := by
  have hwork := Sys.work_step h
  cases Sys.moves_of_step h with
  | piece hi hpiece =>
    refine ⟨Sys.continues_set _ hi hpiece.req hpiece.ne_cancelled, ?_⟩
    simp only [Label.advances, Label.arrives, Bool.toNat_true, Bool.toNat_false] at hwork
    omega
  | answered res hi hp =>
    refine ⟨Sys.continues_set _ hi rfl nofun, ?_⟩
    simp only [Label.advances, Label.arrives, Bool.toNat_true, Bool.toNat_false] at hwork
    omega
  | arrive | cancelled | swept | purged => cases hg

/-- **Every request is answered.** In every run of any number of requests, at
most fifteen labels a request take pieces, answer or drop it; and from the state
the run ends in, wherever the requests stand and whatever locks are held, the
requests and the origin's answers alone bring every request that was not dropped
to a response. -/
theorem requests_complete (env : ServerEnv) (o : Orders) (origin : String → Option Bytes)
    (s : ServerState) (hs : s.inflight = ∅) (ls : List Label) (y : Sys)
    (hrun : run (Sys.step env) (.start s) ls = some y) :
    ls.countP Label.advances + y.work ≤ 15 * ls.countP Label.arrives ∧
    ∃ ls' y', Guarded (Sys.step env) (Serving o origin) y ls' ∧
      run (Sys.step env) y ls' = some y' ∧ ls'.length ≤ y.work ∧
      ∀ (i : Nat) (t : Task), y.tasks[i]? = some t → t.phase ≠ .cancelled →
        ∃ t' resp, y'.tasks[i]? = some t' ∧ t'.req = t.req ∧ t'.phase = .done resp := by
  have hflights : Flights y :=
    run_invariant (fun _ _ _ hy hstep => hy.step hstep) (Flights.start hs) hrun
  have hmeasure := run_measure Label.advances Label.arrives 15 (fun _ _ _ h => Sys.work_step h) hrun
  have hstart : (Sys.start s).work = 0 := rfl
  obtain ⟨ls', y', hguard, hrun', hlen, ⟨-, hcont⟩, hset⟩ :=
    exists_run_settled (I := fun y' => Flights y' ∧ y.Continues y') Sys.work
      (fun y₁ lab y₂ hI hg hstep => by
        obtain ⟨hc, hlt⟩ := Sys.continues_step hg hstep
        exact ⟨⟨hI.1.step hstep, hI.2.trans hc⟩, hlt⟩)
      (fun y₁ hI => hI.1.moves) y
      ⟨hflights, fun i t hi hp => ⟨t, hi, rfl, hp⟩⟩
  refine ⟨by omega, ls', y', hguard, hrun', hlen, fun i t hi hp => ?_⟩
  obtain ⟨t', hi', hreq, hp'⟩ := hcont i t hi hp
  have hfin := hset t' (List.mem_of_getElem? hi')
  cases hdone : t'.phase with
  | done resp => exact ⟨t', resp, hi', hreq, hdone⟩
  | cancelled => exact absurd hdone hp'
  | _ => rw [hdone] at hfin; exact hfin.elim

end

/-- One request inside the fetch and one that waits for it are both answered. -/
theorem requests_complete_herd :
    ∃ y, run (Sys.step sampleEnv) (.start publicState) herdRun = some y ∧
      herdRun.countP Label.advances + y.work ≤ 15 * herdRun.countP Label.arrives ∧
      ∃ ls' y', run (Sys.step sampleEnv) y ls' = some y' ∧
        ∀ (i : Nat) (t : Task), y.tasks[i]? = some t → t.phase ≠ .cancelled →
          ∃ t' resp, y'.tasks[i]? = some t' ∧ t'.req = t.req ∧ t'.phase = .done resp := by
  obtain ⟨y, hrun, -⟩ := Option.map_eq_some_iff.1 handles_herdRun
  obtain ⟨hlen, ls', y', -, hrun', -, hdone⟩ := requests_complete sampleEnv sampleOrders
    (fun _ => some [1, 2]) publicState rfl herdRun y hrun
  exact ⟨y, hrun, hlen, ls', y', hrun', hdone⟩

end CeCdn
