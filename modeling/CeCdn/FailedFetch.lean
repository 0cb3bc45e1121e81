/-
How long a failed fetch is remembered. `serve_cid` reads the clock when the
request comes in and hands that second to `note_absent` when the fetch has
failed, so the tombstone lasts from the start of the request and not from the
failure. Requests in the window are answered 404 as long as they start by then
(`failed_fetch_remembered`); after a slow fetch the origin is called again
inside the window (`slow_failure_forgotten`).
-/
import CeCdn.Herd

namespace CeCdn

open Lib Word Machine

/-! ## The server and the wall clock -/

structure Timed where
  sys : Sys
  clock : Nat

inductive TimedLabel where
  | tick (secs : Nat)
  | act (l : Label)

/-- What reads the clock reads this second: requests and sweeps. -/
def Label.Reads (clock : Nat) : Label → Prop
  | .arrive _ now | .sweep _ now => now = clock
  | _ => True

instance (clock : Nat) : ∀ l : Label, Decidable (l.Reads clock)
  | .arrive _ now | .sweep _ now => inferInstanceAs (Decidable (now = clock))
  | .step _ _ | .answer _ _ | .cancel _ | .purge _ => inferInstanceAs (Decidable True)

namespace Timed

def start (s : ServerState) (clock : Nat) : Timed := ⟨.start s, clock⟩

def step (env : ServerEnv) (w : Timed) : TimedLabel → Option Timed
  | .tick secs => some { w with clock := w.clock + secs }
  | .act l =>
    if l.Reads w.clock then (Sys.step env w.sys l).map fun y => { w with sys := y } else none

/-- The request whose step calls the origin. -/
def caller (w : Timed) : TimedLabel → Option Nat
  | .act (.step i _) =>
    (w.sys.tasks[i]?).bind fun t =>
      match t.phase with
      | .call _ _ => some i
      | _ => none
  | _ => none

/-- The step stores what a fetch for the CID came to. -/
def inserts (cid : String) (w : Timed) : TimedLabel → Bool
  | .act (.step i _) =>
    (w.sys.tasks[i]?).any fun t =>
      match t.phase with
      | .fetched _ _ (some _) => t.req.cid == cid
      | _ => false
  | _ => false

/-- The requests that call the origin in a run. -/
def callers (env : ServerEnv) : Timed → List TimedLabel → List Nat := events (step env) caller

variable {env : ServerEnv} {w w' : Timed}

theorem step_cases {l : TimedLabel} (h : step env w l = some w') :
    (∃ secs, l = .tick secs ∧ w' = { w with clock := w.clock + secs }) ∨
    ∃ a y, l = .act a ∧ a.Reads w.clock ∧ Sys.step env w.sys a = some y ∧
      w' = { w with sys := y } := by
  cases l with
  | tick secs => cases h; exact .inl ⟨secs, rfl, rfl⟩
  | act a =>
    by_cases hr : a.Reads w.clock
    · simp only [step, if_pos hr] at h
      obtain ⟨y, hy, rfl⟩ := Option.map_eq_some_iff.1 h
      exact .inr ⟨a, y, rfl, hr, hy, rfl⟩
    · simp only [step, if_neg hr] at h
      cases h

end Timed

/-! ## While a fetch is under way -/

theorem EdgeCache.lookup_get_of_none {cid : String} {now : Nat} {c : EdgeCache}
    (h : (c.get cid now).1 = none) : (c.get cid now).2.entries.lookup cid = none := by
  rcases get_cases cid now c with ⟨e, -, -, hg⟩ | ⟨e, -, -, hg⟩ | ⟨he, hg⟩
  · rw [hg] at h; cases h
  · rw [hg, dropEntry_snd]; exact AList.lookup_erase _ _
  · rw [hg]; exact he

/-- Nothing comes into the cache for a key but what is inserted for it. -/
theorem Task.Piece.lookup_none {env : ServerEnv} {o : Orders} {s s' : ServerState} {t t' : Task}
    (h : Task.Piece env o s t s' t') {cid : String} (hn : s.edge.cache.entries.lookup cid = none)
    (hno : t.req.cid = cid → ∀ l max b, t.phase ≠ .fetched l max (some b)) :
    s'.edge.cache.entries.lookup cid = none := by
  have hget : (s.edge.cache.get t.req.cid t.now).2.entries.lookup cid = none := by
    refine Option.eq_none_iff_forall_ne_some.2 fun e he => ?_
    obtain ⟨e', he', -⟩ := EdgeCache.lookup_get he
    cases hn.symm.trans he'
  obtain ⟨-, h | ⟨-, h⟩ | h | ⟨-, h⟩ | ⟨l, max, b, hp, -, h⟩ | ⟨l, max, hp, h⟩⟩ := h.edge_cases
  · rw [h]; exact hn
  · obtain ⟨ts, n, he⟩ := EdgeCache.isNegative_frame t.req.cid t.now s.edge.cache
    rw [h, he]
    exact hn
  · rw [h]; exact hget
  · obtain ⟨ts, n, he⟩ := EdgeCache.isNegative_frame t.req.cid t.now
      (s.edge.cache.get t.req.cid t.now).2
    rw [h, he]
    exact hget
  · rw [h]
    refine Option.eq_none_iff_forall_ne_some.2 fun e he => ?_
    obtain ⟨rfl, -⟩ | he := EdgeCache.lookup_insertWithTtl he
    · exact hno rfl l max b hp
    · cases hn.symm.trans he
  · obtain ⟨ts, he⟩ := EdgeCache.noteAbsent_frame o.tombstones t.req.cid t.now s.edge.cache
    rw [h, he]
    exact hn

/-- No CID that is being fetched is in the cache. -/
structure Unheld (y : Sys) : Prop where
  flights : Flights y
  absent : ∀ t ∈ y.tasks, t.phase.Calling → y.shared.edge.cache.entries.lookup t.req.cid = none

namespace Unheld

variable {env : ServerEnv} {y y' : Sys} {s' : ServerState} {i : Nat} {t t' : Task}

theorem piece {o : Orders} (h : Unheld y) (hi : y.tasks[i]? = some t)
    (hpiece : Task.Piece env o y.shared t s' t') : Unheld ⟨s', y.tasks.set i t'⟩ := by
  refine ⟨h.flights.piece hi hpiece, fun u hu hc => ?_⟩
  obtain ⟨j, hj⟩ := List.mem_iff_getElem?.1 hu
  obtain ⟨-, rfl⟩ | ⟨hji, hj⟩ := Places.getElem?_set_cases hj
  · rw [hpiece.req]
    cases hpiece with
    | remiss hp hget hn =>
      obtain ⟨ts, n, he⟩ := EdgeCache.isNegative_frame t.req.cid t.now
        (y.shared.edge.cache.get t.req.cid t.now).2
      simp only [ServerState.setCache, he]
      exact EdgeCache.lookup_get_of_none hget
    | call hp =>
      exact h.absent t (List.mem_of_getElem? hi) (by simp [Phase.Calling, hp, Phase.rank])
    | _ => simp [Phase.Calling, Phase.rank, Task.readBudget] at hc
  · refine hpiece.lookup_none (h.absent u (List.mem_of_getElem? hj) hc) fun hcid l max b hp => hji ?_
    obtain ⟨k, hk⟩ := Phase.holds_of_calling hc
    exact h.flights.holds_unique hj hi hcid.symm hk (k := l) (by rw [hp]; rfl)

theorem step {l : Label} (h : Unheld y) (hs : Sys.step env y l = some y') : Unheld y' := by
  have hflights := h.flights.step hs
  cases Sys.moves_of_step hs with
  | arrive req now =>
    refine ⟨hflights, fun u hu hc => ?_⟩
    rcases List.mem_append.1 hu with hu | hu
    · exact h.absent u hu hc
    · obtain rfl := List.mem_singleton.1 hu
      simp [Phase.Calling, Task.arrive, Phase.rank] at hc
  | piece hi hpiece => exact h.piece hi hpiece
  | @answered i l max t res hi hp =>
    refine ⟨hflights, Places.forall_mem_set h.absent fun _ => ?_⟩
    exact h.absent t (List.mem_of_getElem? hi) (by simp [Phase.Calling, hp, Phase.rank])
  | @cancelled i t t' s' hi hc =>
    have hedge := Task.edge_cancel hc
    obtain ⟨rfl, -⟩ := Task.cancel_cases hc
    refine ⟨hflights, ?_⟩
    simp only [hedge]
    refine Places.forall_mem_set h.absent fun hc => ?_
    simp [Phase.Calling, Phase.rank] at hc
  | swept o now =>
    exact ⟨hflights, fun u hu hc => EdgeCache.lookup_sweepExpired_of_none (h.absent u hu hc)⟩
  | purged cid =>
    exact ⟨hflights, fun u hu hc => (EdgeCache.evicts_dropEntry cid _).none (h.absent u hu hc)⟩

end Unheld

/-! ## A failure, and what follows it -/

/-- A fetch that failed in a run, and the step that records it. -/
structure Failure (env : ServerEnv) (s : ServerState) where
  startClock : Nat
  ls : List TimedLabel
  before : Timed
  run_eq : run (Timed.step env) (Timed.start s startClock) ls = some before
  i : Nat
  o : Orders
  t : Task
  l : Nat
  max : Nat
  here : before.sys.tasks[i]? = some t
  failed : t.phase = .fetched l max none
  after : Timed
  step_eq : Timed.step env before (.act (.step i o)) = some after
  negativeTtl : before.sys.shared.edge.cache.negativeTtlSecs ≠ 0

namespace Failure

variable {env : ServerEnv} {s : ServerState} (f : Failure env s)

def cid : String := f.t.req.cid

/-- The second it is recorded at. -/
def recorded : Nat := f.before.clock

def ttl : Nat := f.before.sys.shared.edge.cache.negativeTtlSecs

/-- The last second its tombstone answers for. -/
def forgotten : Nat := satAdd f.t.now f.ttl

/-- Request `j` is for the same CID, started within the negative TTL from the
second of the record, and had not called the origin by then. -/
structure Window (j : Nat) (u : Task) : Prop where
  cid : u.req.cid = f.cid
  since : f.recorded ≤ u.now
  inTime : u.now ≤ f.recorded + f.ttl
  before : ∀ u₀ : Task, f.before.sys.tasks[j]? = some u₀ → 6 < u₀.phase.rank

/-- It starts before the tombstone expires, and does not have the object. -/
structure Covered (j : Nat) (u : Task) : Prop where
  window : f.Window j u
  inStone : u.now ≤ f.forgotten
  miss : u.req.revalidates = false

/-- The CID is not inserted, and fewer than `max_tombstones` CIDs are tombstoned. -/
structure Provided (w : Timed) (l : TimedLabel) : Prop where
  room : w.sys.shared.edge.cache.tombstones.entries.length < w.sys.shared.edge.cache.maxTombstones
  absent : w.inserts f.cid l = false

/-- A sweep or a look by a request that finds the tombstone expired. -/
inductive Drops (w : Timed) : TimedLabel → Prop
  | swept (o : Orders) (now : Nat) (hlate : f.forgotten < now) : Drops w (.act (.sweep o now))
  | looked {i : Nat} {t : Task} (o : Orders) (hi : w.sys.tasks[i]? = some t)
    (hcid : t.req.cid = f.cid) (hp : t.phase = .tombstone ∨ ∃ l max, t.phase = .recheck l max)
    (hlate : f.forgotten < t.now) : Drops w (.act (.step i o))

/-- The tombstone is dropped only when the requests it covers have been answered. -/
def Keeps (w : Timed) (l : TimedLabel) : Prop :=
  f.Drops w l → ∀ (j : Nat) (u : Task), w.sys.tasks[j]? = some u → f.Covered j u → u.phase.rank = 0

end Failure

/-- Where a request is that a tombstone answers, or the access checks refuse. -/
def Phase.Held : Phase → Prop
  | .unlock _ (.reply resp) | .unref _ (.reply resp) | .done resp =>
    resp.status = 403 ∨ resp.status = 404
  | .unlock _ (.bytes _ _) | .unref _ (.bytes _ _) | .call _ _ | .fetching _ _ | .fetched _ _ _
  | .shape _ _ => False
  | _ => True

theorem Phase.held_of_rank {p : Phase} (h : 6 < p.rank) : p.Held := by
  cases p <;> simp [Phase.rank, Held] at h ⊢

namespace Failure

variable {env : ServerEnv} {s : ServerState} (f : Failure env s)

/-- The tombstone stands and nobody fetches the CID, or it is gone and so are
the requests it was to answer. -/
inductive Stone (w : Timed) : Prop
  | stands
    (htomb : w.sys.shared.edge.cache.tombstones.lookup f.cid = some ⟨f.forgotten⟩)
    (habsent : w.sys.shared.edge.cache.entries.lookup f.cid = none)
    (hcalls : ∀ t ∈ w.sys.tasks, t.req.cid = f.cid → ¬ t.phase.Calling)
  | gone (hlate : f.forgotten < w.clock)
    (hdone : ∀ (j : Nat) (u : Task), w.sys.tasks[j]? = some u → f.Covered j u → u.phase.rank = 0)

/-- What holds after the failure is recorded, with the requests that have
called the origin since. -/
structure Remembered (w : Timed) (log : List Nat) : Prop where
  past : ∀ t ∈ w.sys.tasks, t.now ≤ w.clock
  held : ∀ (j : Nat) (u : Task), w.sys.tasks[j]? = some u → f.Covered j u → u.phase.Held
  stone : f.Stone w
  known : ∀ j ∈ log, j < w.sys.tasks.length
  silent : ∀ (j : Nat) (u : Task), w.sys.tasks[j]? = some u → f.Covered j u → j ∉ log

variable {f} {w : Timed} {i : Nat} {o : Orders} {t t' : Task} {s' : ServerState}

/-- What covers a request is about what it asked for, and when. -/
theorem Covered.congr {j : Nat} {u u' : Task} (h : f.Covered j u') (hreq : u'.req = u.req)
    (hnow : u'.now = u.now) : f.Covered j u := by
  obtain ⟨⟨hcid, hsince, hin, hbefore⟩, hstone, hmiss⟩ := h
  rw [hreq] at hcid hmiss
  rw [hnow] at hsince hin hstone
  exact ⟨⟨hcid, hsince, hin, hbefore⟩, hstone, hmiss⟩

/-! ## A piece while the tombstone stands -/

/-- The request finds the tombstone, and is answered with it. -/
theorem held_piece (h : Task.Piece env o w.sys.shared t s' t')
    (htomb : w.sys.shared.edge.cache.tombstones.lookup f.cid = some ⟨f.forgotten⟩)
    (habsent : w.sys.shared.edge.cache.entries.lookup f.cid = none) {j : Nat} (hc : f.Covered j t)
    (ht : t.phase.Held) : t'.phase.Held := by
  have hcid := hc.window.cid
  have hneg : ∀ c : EdgeCache, c.tombstones = w.sys.shared.edge.cache.tombstones →
      (c.isNegative t.req.cid t.now).1 = true := by
    intro c hts
    rw [EdgeCache.isNegative_fst, hts, hcid, htomb]
    simpa using hc.inStone
  have hfresh : w.sys.shared.edge.cache.containsFresh t.req.cid t.now = false := by
    rw [EdgeCache.containsFresh, hcid, habsent]
  have hmiss : (w.sys.shared.edge.cache.get t.req.cid t.now).1.isSome = false := by
    rw [EdgeCache.get_isSome, hfresh]
  cases h with
  | denied | replayed => exact .inl rfl
  | notModified hp hm => cases hm.symm.trans hc.miss
  | fresh hp hf => cases hf.symm.trans hfresh
  | negative => exact .inr rfl
  | notNegative hp hf hn => cases hn.symm.trans (hneg _ rfl)
  | hit hp hget | rehit hp hget => rw [hget] at hmiss; cases hmiss
  | renegative => exact .inr rfl
  | remiss hp hget hn => cases hn.symm.trans (hneg _ (EdgeCache.get_tombstones _ _ _))
  | call hp | tooLarge hp | stored hp | absent hp | unrefBytes hp | shape hp =>
    rw [hp] at ht; exact ht.elim
  | @unlock l found hp =>
    rw [hp] at ht
    cases found with
    | bytes => exact ht.elim
    | reply => exact ht
  | unrefReply hp => rw [hp] at ht; exact ht
  | _ => trivial

/-- The tombstone stands after a piece that does not find it expired. -/
theorem stands_piece (h : Task.Piece env o w.sys.shared t s' t')
    (hi : w.sys.tasks[i]? = some t)
    (hroom : w.sys.shared.edge.cache.tombstones.entries.length <
      w.sys.shared.edge.cache.maxTombstones)
    (hno : ¬ f.Drops w (.act (.step i o)))
    (htomb : w.sys.shared.edge.cache.tombstones.lookup f.cid = some ⟨f.forgotten⟩)
    (habsent : w.sys.shared.edge.cache.entries.lookup f.cid = none)
    (hcalls : ∀ t ∈ w.sys.tasks, t.req.cid = f.cid → ¬ t.phase.Calling) :
    f.Stone { w with sys := ⟨s', w.sys.tasks.set i t'⟩ } := by
  have hfar : t.req.cid = f.cid → ¬ t.phase.Calling := hcalls t (List.mem_of_getElem? hi)
  have hfetched : t.req.cid = f.cid → ∀ l max res, t.phase ≠ .fetched l max res :=
    fun hcid l max res hp => hfar hcid (by simp [Phase.Calling, hp, Phase.rank])
  have hlook : t.phase = .tombstone ∨ (∃ l max, t.phase = .recheck l max) →
      f.cid ≠ t.req.cid ∨ t.now ≤ f.forgotten := by
    intro hp
    by_cases hcid : t.req.cid = f.cid
    · exact .inr (Nat.not_lt.1 fun hlate => hno (.looked o hi hcid hp hlate))
    · exact .inl (Ne.symm hcid)
  refine .stands ?_ ?_ (Places.forall_mem_set hcalls fun hcid hc => ?_)
  · obtain ⟨-, hc | ⟨hp, hc⟩ | hc | ⟨hp, hc⟩ | ⟨l, max, b, hp, -, hc⟩ | ⟨l, max, hp, hc⟩⟩ :=
      h.edge_cases
    · simp only [hc]; exact htomb
    · simp only [hc]
      exact EdgeCache.tombstones_isNegative htomb (hlook (.inl hp))
    · simp only [hc, EdgeCache.get_tombstones]; exact htomb
    · simp only [hc]
      refine EdgeCache.tombstones_isNegative ?_ (hlook (.inr hp))
      rw [EdgeCache.get_tombstones]
      exact htomb
    · simp only [hc]
      rw [EdgeCache.tombstones_insert fun hcid => hfetched hcid.symm l max _ hp]
      exact htomb
    · simp only [hc]
      rw [EdgeCache.tombstones_noteAbsent hroom fun hcid => hfetched hcid.symm l max _ hp]
      exact htomb
  · exact h.lookup_none habsent fun hcid l max b => hfetched hcid l max _
  · rw [h.req] at hcid
    obtain hc | ⟨hp, hcold⟩ := h.calling hc
    · exact hfar hcid hc
    · have hnow : t.now ≤ f.forgotten := (hlook (.inr hp)).resolve_left fun hne => hne hcid.symm
      rw [EdgeCache.knows, EdgeCache.isNegative_fst, hcid, htomb] at hcold
      simp [hnow] at hcold

/-- Once it is dropped, no request is left that it was to answer. -/
theorem gone_piece (h : Task.Piece env o w.sys.shared t s' t') (hi : w.sys.tasks[i]? = some t)
    (hdone : ∀ (j : Nat) (u : Task), w.sys.tasks[j]? = some u → f.Covered j u → u.phase.rank = 0)
    (j : Nat) (u : Task) (hj : (w.sys.tasks.set i t')[j]? = some u) (hu : f.Covered j u) :
    u.phase.rank = 0 := by
  obtain ⟨rfl, rfl⟩ | ⟨-, hj⟩ := Places.getElem?_set_cases hj
  · have hzero := hdone j t hi (hu.congr h.req h.now)
    have hlt := h.rank_lt
    omega
  · exact hdone j u hj hu

/-! ## Every step -/

namespace Remembered

variable {log : List Nat}

theorem piece (h : f.Remembered w log) (hprov : f.Provided w (.act (.step i o)))
    (hkeeps : f.Keeps w (.act (.step i o))) (hi : w.sys.tasks[i]? = some t)
    (hpiece : Task.Piece env o w.sys.shared t s' t') :
    f.Remembered { w with sys := ⟨s', w.sys.tasks.set i t'⟩ }
      (log ++ (Timed.caller w (.act (.step i o))).toList) := by
  have hmem := List.mem_of_getElem? hi
  have hlt : i < w.sys.tasks.length := (List.getElem?_eq_some_iff.1 hi).1
  have hcaller : ∀ j ∈ (Timed.caller w (.act (.step i o))).toList,
      j = i ∧ ∃ l max, t.phase = .call l max := by
    intro j hj
    simp only [Timed.caller, hi, Option.bind_some] at hj
    split at hj
    · next hp => exact ⟨List.mem_singleton.1 hj, _, _, hp⟩
    · cases hj
  refine ⟨Places.forall_mem_set h.past ((le_of_eq hpiece.now).trans (h.past t hmem)),
    fun j u hj hu => ?_, ?_, fun j hj => ?_, fun j u hj hu hlog => ?_⟩
  · obtain ⟨rfl, rfl⟩ | ⟨-, hj⟩ := Places.getElem?_set_cases hj
    · have hc := hu.congr hpiece.req hpiece.now
      cases h.stone with
      | stands htomb habsent _ => exact held_piece hpiece htomb habsent hc (h.held j t hi hc)
      | gone _ hdone =>
        have hrank := hpiece.rank_lt
        have hzero := hdone j t hi hc
        omega
    · exact h.held j u hj hu
  · cases h.stone with
    | stands htomb habsent hcalls =>
      by_cases hdrop : f.Drops w (.act (.step i o))
      · refine .gone ?_ fun j u => gone_piece hpiece hi (hkeeps hdrop) j u
        cases hdrop with
        | looked o hi' _ _ hlate =>
          cases hi.symm.trans hi'
          exact hlate.trans_le (h.past t hmem)
      · exact stands_piece hpiece hi hprov.room hdrop htomb habsent hcalls
    | gone hlate hdone => exact .gone hlate fun j u => gone_piece hpiece hi hdone j u
  · simp only [List.length_set]
    rcases List.mem_append.1 hj with hj | hj
    · exact h.known j hj
    · rw [(hcaller j hj).1]; exact hlt
  · obtain ⟨rfl, rfl⟩ | ⟨hji, hj⟩ := Places.getElem?_set_cases hj
    · have hc := hu.congr hpiece.req hpiece.now
      rcases List.mem_append.1 hlog with hlog | hlog
      · exact h.silent j t hi hc hlog
      · obtain ⟨-, l, max, hp⟩ := hcaller j hlog
        have hheld := h.held j t hi hc
        rw [hp] at hheld
        exact hheld
    · rcases List.mem_append.1 hlog with hlog | hlog
      · exact h.silent j u hj hu hlog
      · exact hji (hcaller j hlog).1

/-- A request that is answered by the origin, or dropped. -/
theorem outside (h : f.Remembered w log) (hi : w.sys.tasks[i]? = some t) {p : Phase}
    (hedge : s'.edge = w.sys.shared.edge) (hheld : t.phase.Held → p.Held)
    (hrank : t.phase.rank = 0 → p.rank = 0) (hcalls : p.Calling → t.phase.Calling) :
    f.Remembered { w with sys := ⟨s', w.sys.tasks.set i (t.goto p)⟩ } log := by
  have hmem := List.mem_of_getElem? hi
  refine ⟨Places.forall_mem_set h.past (h.past t hmem), fun j u hj hu => ?_, ?_, fun j hj => ?_,
    fun j u hj hu => ?_⟩
  · obtain ⟨rfl, rfl⟩ | ⟨-, hj⟩ := Places.getElem?_set_cases hj
    · exact hheld (h.held j t hi (hu.congr rfl rfl))
    · exact h.held j u hj hu
  · cases h.stone with
    | stands htomb habsent hno =>
      refine .stands (by rw [hedge]; exact htomb) (by rw [hedge]; exact habsent)
        (Places.forall_mem_set hno fun hcid hc => hno t hmem hcid (hcalls hc))
    | gone hlate hdone =>
      refine .gone hlate fun j u hj hu => ?_
      obtain ⟨rfl, rfl⟩ | ⟨-, hj⟩ := Places.getElem?_set_cases hj
      · exact hrank (hdone j t hi (hu.congr rfl rfl))
      · exact hdone j u hj hu
  · simp only [List.length_set]
    exact h.known j hj
  · obtain ⟨rfl, rfl⟩ | ⟨-, hj⟩ := Places.getElem?_set_cases hj
    · exact h.silent j t hi (hu.congr rfl rfl)
    · exact h.silent j u hj hu

theorem arrive {req : HttpReq} {now : Nat} (h : f.Remembered w log) (hnow : now = w.clock) :
    f.Remembered { w with sys := { w.sys with tasks := w.sys.tasks ++ [.arrive req now] } } log := by
  have hplace : ∀ (j : Nat) (u : Task), (w.sys.tasks ++ [.arrive req now])[j]? = some u →
      w.sys.tasks[j]? = some u ∨ (w.sys.tasks.length ≤ j ∧ u = .arrive req now) := by
    intro j u hj
    rw [List.getElem?_append] at hj
    split at hj
    · exact .inl hj
    · next hlen => exact .inr ⟨Nat.not_lt.1 hlen, List.mem_singleton.1 (List.mem_of_getElem? hj)⟩
  refine ⟨fun u hu => ?_, fun j u hj hu => ?_, ?_, fun j hj => ?_, fun j u hj hu hlog => ?_⟩
  · rcases List.mem_append.1 hu with hu | hu
    · exact h.past u hu
    · obtain rfl := List.mem_singleton.1 hu
      exact le_of_eq hnow
  · obtain hj | ⟨-, rfl⟩ := hplace j u hj
    · exact h.held j u hj hu
    · trivial
  · cases h.stone with
    | stands htomb habsent hno =>
      refine .stands htomb habsent fun u hu hcid hc => ?_
      rcases List.mem_append.1 hu with hu | hu
      · exact hno u hu hcid hc
      · obtain rfl := List.mem_singleton.1 hu
        simp [Phase.Calling, Task.arrive, Phase.rank] at hc
    | gone hlate hdone =>
      refine .gone hlate fun j u hj hu => ?_
      obtain hj | ⟨-, rfl⟩ := hplace j u hj
      · exact hdone j u hj hu
      · exact absurd (hlate.trans_le (le_of_eq hnow.symm)) (Nat.not_lt.2 hu.inStone)
  · rw [List.length_append]
    exact Nat.lt_add_right _ (h.known j hj)
  · obtain hj | ⟨hlen, rfl⟩ := hplace j u hj
    · exact h.silent j u hj hu hlog
    · exact absurd (h.known j hlog) (Nat.not_lt.2 hlen)

/-- What changes the cache only. -/
theorem cache {c : EdgeCache} (h : f.Remembered w log)
    (hstone : f.Stone { w with sys := { w.sys with shared := w.sys.shared.setCache c } }) :
    f.Remembered { w with sys := { w.sys with shared := w.sys.shared.setCache c } } log :=
  ⟨h.past, h.held, hstone, h.known, h.silent⟩

/-- A sweep takes the tombstone when it has expired. -/
theorem swept {now : Nat} (h : f.Remembered w log) (o : Orders) (hnow : now = w.clock)
    (hkeeps : f.Keeps w (.act (.sweep o now))) :
    f.Remembered { w with sys := { w.sys with
      shared := w.sys.shared.setCache (w.sys.shared.edge.cache.sweepExpired o.entries now).2 } }
      log := by
  refine h.cache ?_
  cases h.stone with
  | gone hlate hdone => exact .gone hlate hdone
  | stands htomb habsent hno =>
    by_cases hlate : f.forgotten < now
    · exact .gone (hlate.trans_le (le_of_eq hnow)) (hkeeps (.swept o now hlate))
    · refine .stands ?_ (EdgeCache.lookup_sweepExpired_of_none habsent) hno
      obtain ⟨es, n, k, he⟩ := EdgeCache.sweepExpired_frame o.entries now w.sys.shared.edge.cache
      simp only [ServerState.setCache, he]
      exact HashMap.lookup_retain.2 ⟨htomb, decide_eq_true (Nat.not_lt.1 hlate)⟩

/-- A purge leaves the tombstones. -/
theorem purged (h : f.Remembered w log) (cid : String) :
    f.Remembered { w with sys := { w.sys with
      shared := w.sys.shared.setCache (w.sys.shared.edge.cache.purge cid).2 } } log := by
  refine h.cache ?_
  cases h.stone with
  | gone hlate hdone => exact .gone hlate hdone
  | stands htomb habsent hno =>
    refine .stands ?_ ((EdgeCache.evicts_dropEntry cid _).none habsent) hno
    simp only [ServerState.setCache, EdgeCache.purge, EdgeCache.dropEntry_snd]
    exact htomb

theorem step {w' : Timed} {l : TimedLabel} (h : f.Remembered w log) (hprov : f.Provided w l)
    (hkeeps : f.Keeps w l) (hs : Timed.step env w l = some w') :
    f.Remembered w' (log ++ (Timed.caller w l).toList) := by
  obtain ⟨secs, rfl, rfl⟩ | ⟨a, y, rfl, hreads, hstep, rfl⟩ := Timed.step_cases hs
  · simp only [Timed.caller, Option.toList_none, List.append_nil]
    refine ⟨fun u hu => (h.past u hu).trans (Nat.le_add_right _ _), h.held, ?_, h.known, h.silent⟩
    cases h.stone with
    | stands htomb habsent hno => exact .stands htomb habsent hno
    | gone hlate hdone => exact .gone (hlate.trans_le (Nat.le_add_right _ _)) hdone
  · cases Sys.moves_of_step hstep with
    | arrive req now =>
      simp only [Timed.caller, Option.toList_none, List.append_nil]
      exact h.arrive hreads
    | piece hi hpiece => exact h.piece hprov hkeeps hi hpiece
    | answered res hi hp =>
      simp only [Timed.caller, Option.toList_none, List.append_nil]
      refine h.outside hi rfl (fun ht => ?_) (fun hr => ?_) fun _ => ?_
      · rw [hp] at ht
        exact ht
      · simp [hp, Phase.rank] at hr
      · simp [Phase.Calling, hp, Phase.rank]
    | cancelled hi hc =>
      simp only [Timed.caller, Option.toList_none, List.append_nil]
      have hedge := Task.edge_cancel hc
      obtain ⟨rfl, -⟩ := Task.cancel_cases hc
      refine h.outside hi hedge (fun _ => trivial) (fun _ => rfl) fun hc => ?_
      simp [Phase.Calling, Phase.rank] at hc
    | swept o now =>
      simp only [Timed.caller, Option.toList_none, List.append_nil]
      exact h.swept o hreads hkeeps
    | purged cid =>
      simp only [Timed.caller, Option.toList_none, List.append_nil]
      exact h.purged cid

end Remembered

/-! ## Every run -/

/-- Before the failure: no clock is ahead, and no CID that is fetched is held. -/
structure Sound (w : Timed) : Prop where
  unheld : Unheld w.sys
  past : ∀ t ∈ w.sys.tasks, t.now ≤ w.clock

theorem Sound.start (hs : s.inflight = ∅) (clock : Nat) : Sound (Timed.start s clock) :=
  ⟨⟨Flights.start hs, fun _ ht => absurd ht List.not_mem_nil⟩,
    fun _ ht => absurd ht List.not_mem_nil⟩

theorem Sound.step {w' : Timed} {l : TimedLabel} (h : Sound w)
    (hs : Timed.step env w l = some w') : Sound w' := by
  obtain ⟨secs, rfl, rfl⟩ | ⟨a, y, rfl, hreads, hstep, rfl⟩ := Timed.step_cases hs
  · exact ⟨h.unheld, fun u hu => (h.past u hu).trans (Nat.le_add_right _ _)⟩
  · refine ⟨h.unheld.step hstep, ?_⟩
    cases Sys.moves_of_step hstep with
    | arrive req now =>
      intro u hu
      rcases List.mem_append.1 hu with hu | hu
      · exact h.past u hu
      · obtain rfl := List.mem_singleton.1 hu
        exact le_of_eq hreads
    | piece hi hpiece =>
      exact Places.forall_mem_set h.past
        ((le_of_eq hpiece.now).trans (h.past _ (List.mem_of_getElem? hi)))
    | @answered i l max t res hi hp =>
      exact Places.forall_mem_set h.past (h.past t (List.mem_of_getElem? hi))
    | @cancelled i t t' s' hi hc =>
      obtain ⟨rfl, -⟩ := Task.cancel_cases hc
      exact Places.forall_mem_set h.past (h.past t (List.mem_of_getElem? hi))
    | swept => exact h.past
    | purged => exact h.past

/-- The step that records the failure leaves the tombstone. -/
theorem remembered (f : Failure env s) (hs : s.inflight = ∅) : f.Remembered f.after [] := by
  have hsound : Sound f.before :=
    run_invariant (fun _ _ _ h hstep => h.step hstep) (Sound.start hs f.startClock) f.run_eq
  have hsound' := hsound.step f.step_eq
  obtain ⟨_, h, -⟩ | ⟨a, y, ha, -, hstep, hafter⟩ := Timed.step_cases f.step_eq
  · cases h
  · cases ha
    cases Sys.moves_of_step hstep with
    | @piece i o t t' s' hi hpiece =>
      cases f.here.symm.trans hi
      obtain ⟨hrank, ⟨_, h, -⟩ | ⟨_, h, -⟩ | ⟨-, rfl⟩⟩ := hpiece.fetched_cases f.failed
      · cases h
      · cases h
      · have hmem := List.mem_of_getElem? hi
        have hcalling : f.t.phase.Calling := by simp [Phase.Calling, f.failed, Phase.rank]
        refine ⟨hsound'.past, fun j u hj hc => ?_, ?_, fun j hj => absurd hj List.not_mem_nil,
          fun j u _ _ => List.not_mem_nil⟩
        · rw [hafter] at hj
          obtain ⟨rfl, rfl⟩ | ⟨-, hj⟩ := Places.getElem?_set_cases hj
          · have hshort := hc.window.before f.t hi
            simp [f.failed, Phase.rank] at hshort
          · exact Phase.held_of_rank (hc.window.before u hj)
        rw [hafter]
        refine .stands ?_ ?_ fun u hu hcid hc => ?_
        · simp only [ServerState.setCache, EdgeCache.noteAbsent, if_neg f.negativeTtl]
          exact AList.lookup_insert _
        · obtain ⟨ts, he⟩ := EdgeCache.noteAbsent_frame f.o.tombstones f.t.req.cid f.t.now
            f.before.sys.shared.edge.cache
          simp only [ServerState.setCache, he]
          exact hsound.unheld.absent f.t hmem hcalling
        · obtain ⟨j, hj⟩ := List.mem_iff_getElem?.1 hu
          obtain ⟨-, rfl⟩ | ⟨hji, hj⟩ := Places.getElem?_set_cases hj
          · have hle := hc.1
            omega
          · obtain ⟨k, hk⟩ := Phase.holds_of_calling hc
            obtain ⟨k', hk'⟩ := Phase.holds_of_calling hcalling
            exact hji (hsound.unheld.flights.holds_unique hj hi hcid hk hk')

end Failure

/-- **A failed fetch is remembered** as far as the tombstone covers: a request
for the CID that starts within the negative TTL, no later than the TTL after
the start of the request that failed, does not call the origin after the record
and is answered 404 unless it is refused. The runs are those in which the
tombstone is dropped only when such requests have been answered. -/
theorem failed_fetch_remembered (env : ServerEnv) (s : ServerState) (hs : s.inflight = ∅)
    (f : Failure env s) (ls : List TimedLabel) (w : Timed)
    (hrun : run (Timed.step env) f.after ls = some w)
    (hguard : Guarded (Timed.step env) (fun w l => f.Provided w l ∧ f.Keeps w l) f.after ls)
    (j : Nat) (u : Task) (hj : w.sys.tasks[j]? = some u) (hu : f.Covered j u) :
    j ∉ Timed.callers env f.after ls ∧
    ∀ resp, u.phase = .done resp → resp.status ≠ 403 → resp.status = 404 := by
  have h : f.Remembered w ([] ++ Timed.callers env f.after ls) :=
    events_run_invariant (fun _ _ _ _ h hg hstep => h.step hg.1 hg.2 hstep) (f.remembered hs) hguard
      hrun
  rw [List.nil_append] at h
  refine ⟨h.silent j u hj hu, fun resp hp hne => ?_⟩
  have hheld := h.held j u hj hu
  rw [hp] at hheld
  exact hheld.resolve_left hne

/-! ### A fetch that fails at once, and one that takes longer than the TTL -/

/-- A fetch that fails after some seconds. -/
def failingRun (secs : Nat) : List TimedLabel :=
  .act (.arrive plainReq 0) :: List.replicate 9 (.act (.step 0 sampleOrders)) ++
    [.tick secs, .act (.answer 0 none)]

/-- The request is answered, and five seconds later another one comes. -/
def nextRun (now steps : Nat) : List TimedLabel :=
  List.replicate 2 (.act (.step 0 sampleOrders)) ++ [.tick 5, .act (.arrive plainReq now)] ++
    List.replicate steps (.act (.step 1 sampleOrders))

/-- The request that waits to record that its fetch failed: CID and clock. -/
def Task.failedAt (t : Task) : Option (String × Nat) :=
  match t.phase with
  | .fetched _ _ none => some (t.req.cid, t.now)
  | _ => none

/-- What is recorded next: the request's CID and clock, the wall clock, the
negative TTL and how many requests came so far. -/
def Timed.failure (i : Nat) (w : Timed) : Option (String × Nat) × Nat × Nat × Nat :=
  ((w.sys.tasks[i]?).bind Task.failedAt, w.clock, w.sys.shared.edge.cache.negativeTtlSecs,
    w.sys.tasks.length)

/-- A run in which a fetch fails, and which goes on after that is recorded. -/
theorem exists_failure {env : ServerEnv} {s : ServerState} {clock now secs ttl n i : Nat}
    {cid : String} {o : Orders} {ls ls' : List TimedLabel} {w₂ : Timed}
    (hrun : run (Timed.step env) (Timed.start s clock) (ls ++ .act (.step i o) :: ls') = some w₂)
    (hfail : (run (Timed.step env) (Timed.start s clock) ls).map (Timed.failure i) =
      some (some (cid, now), secs, ttl, n)) (hneg : ttl ≠ 0) :
    ∃ f : Failure env s, run (Timed.step env) (Timed.start s clock)
        (ls ++ [.act (.step i o)]) = some f.after ∧
      run (Timed.step env) f.after ls' = some w₂ ∧ f.cid = cid ∧ f.t.now = now ∧
      f.recorded = secs ∧ f.ttl = ttl ∧ f.before.sys.tasks.length = n := by
  obtain ⟨w, hw, heq⟩ := Option.map_eq_some_iff.1 hfail
  simp only [Timed.failure, Prod.mk.injEq] at heq
  obtain ⟨hi, hclock, hneg', hlen⟩ := heq
  obtain ⟨t, ht, hfailed⟩ := Option.bind_eq_some_iff.1 hi
  rw [run_append, hw, Option.bind_some] at hrun
  obtain ⟨w', hstep, hrun'⟩ := run_cons_eq_some.1 hrun
  have hafter : run (Timed.step env) (Timed.start s clock) (ls ++ [.act (.step i o)]) = some w' := by
    rw [run_append, hw, Option.bind_some]
    exact run_cons_eq_some.2 ⟨w', hstep, rfl⟩
  unfold Task.failedAt at hfailed
  split at hfailed
  · next l max hp =>
    cases hfailed
    exact ⟨⟨clock, ls, w, hw, i, o, t, l, max, ht, hp, w', hstep, by rw [hneg']; exact hneg⟩, hafter,
      hrun', rfl, rfl, hclock, hneg', hlen⟩
  · cases hfailed

/-- Room for tombstones, and no insertion. -/
def Timed.roomy (cid : String) (w : Timed) (l : TimedLabel) : Bool :=
  decide (w.sys.shared.edge.cache.tombstones.entries.length <
    w.sys.shared.edge.cache.maxTombstones) && !w.inserts cid l

theorem Failure.provided_of_roomy {env : ServerEnv} {s : ServerState} (f : Failure env s)
    {w : Timed} {l : TimedLabel} (h : w.roomy f.cid l = true) : f.Provided w l := by
  simp only [Timed.roomy, Bool.and_eq_true, decide_eq_true_eq, Bool.not_eq_true'] at h
  exact ⟨h.1, h.2⟩

theorem slow_run :
    (run (Timed.step sampleEnv) (Timed.start publicState 0) (failingRun 100)).map
      (Timed.failure 0) = some (some ("a", 0), 100, 10, 1) ∧
    (run (Timed.step sampleEnv) (Timed.start publicState 0)
      (failingRun 100 ++ .act (.step 0 sampleOrders) :: nextRun 105 9)).map (fun w =>
        (w.sys.tasks[1]?).map fun t => (t.req.cid, t.now)) = some (some ("a", 105)) ∧
    Timed.callers sampleEnv (Timed.start publicState 0)
      (failingRun 100 ++ [.act (.step 0 sampleOrders)]) = [0] ∧
    Timed.callers sampleEnv (Timed.start publicState 0)
      (failingRun 100 ++ .act (.step 0 sampleOrders) :: nextRun 105 9) = [0, 1] ∧
    Guarded (Timed.step sampleEnv) (fun w l => w.roomy "a" l = true) (Timed.start publicState 0)
      (failingRun 100 ++ .act (.step 0 sampleOrders) :: nextRun 105 9) := by
  decide +kernel

/-- Five seconds after the failure the origin is called again. -/
theorem slow_failure_forgotten :
    ¬ ∀ (env : ServerEnv) (s : ServerState) (_ : s.inflight = ∅) (f : Failure env s)
      (ls : List TimedLabel) (w : Timed) (_ : run (Timed.step env) f.after ls = some w)
      (_ : Guarded (Timed.step env) f.Provided f.after ls)
      (j : Nat) (u : Task) (_ : w.sys.tasks[j]? = some u) (_ : f.Window j u),
      j ∉ Timed.callers env f.after ls ∧
      ∀ resp, u.phase = .done resp → resp.status ≠ 403 → resp.status = 404 := by
  intro h
  obtain ⟨hfail, hend, hbefore, hall, hroomy⟩ := slow_run
  obtain ⟨w, hrun, hu⟩ := Option.map_eq_some_iff.1 hend
  obtain ⟨u, hu, hreq⟩ := Option.map_eq_some_iff.1 hu
  obtain ⟨hcid, hnow⟩ := Prod.mk.inj hreq
  obtain ⟨f, hafter, hrun', hf, -, hrec, httl, hlen⟩ := exists_failure hrun hfail (by decide)
  have hsplit : failingRun 100 ++ .act (.step 0 sampleOrders) :: nextRun 105 9 =
      (failingRun 100 ++ [.act (.step 0 sampleOrders)]) ++ nextRun 105 9 := by
    rw [List.append_assoc]
    rfl
  rw [hsplit] at hall hroomy
  have hcallers : Timed.callers sampleEnv f.after (nextRun 105 9) = [1] := by
    have happ : Timed.callers sampleEnv (Timed.start publicState 0)
        ((failingRun 100 ++ [.act (.step 0 sampleOrders)]) ++ nextRun 105 9) =
          Timed.callers sampleEnv (Timed.start publicState 0)
            (failingRun 100 ++ [.act (.step 0 sampleOrders)]) ++
          Timed.callers sampleEnv f.after (nextRun 105 9) := events_append hafter
    rw [hall, hbefore] at happ
    exact (List.cons.inj happ).2.symm
  have hwindow : f.Window 1 u := by
    refine ⟨hcid.trans hf.symm, ?_, ?_, fun u₀ hu₀ => ?_⟩
    · rw [hnow, hrec]; decide
    · rw [hnow, hrec, httl]; decide
    · have hlt := (List.getElem?_eq_some_iff.1 hu₀).1
      omega
  have hguard : Guarded (Timed.step sampleEnv) f.Provided f.after (nextRun 105 9) := by
    refine (hroomy.of_append hafter).mono fun w l hw => f.provided_of_roomy ?_
    rw [hf]
    exact hw
  have hno := (h sampleEnv publicState rfl f _ w hrun' hguard 1 u hu hwindow).1
  rw [hcallers] at hno
  exact hno (List.mem_singleton_self 1)

/-- No request is later than a second, and nothing is swept. -/
def Timed.early (limit : Nat) (w : Timed) (l : TimedLabel) : Bool :=
  (w.sys.tasks.all fun t => decide (t.now ≤ limit)) &&
  match l with
  | .act (.sweep _ _) => false
  | _ => true

/-- Steps up to the last second of the tombstone do not drop it. -/
theorem Failure.keeps_of_early {env : ServerEnv} {s : ServerState} (f : Failure env s) {w : Timed}
    {l : TimedLabel} (h : w.early f.forgotten l = true) : f.Keeps w l := by
  unfold Timed.early at h
  rw [Bool.and_eq_true, List.all_eq_true] at h
  intro hdrop
  cases hdrop with
  | swept => cases h.2
  | looked o hi _ _ hlate =>
    have hle := of_decide_eq_true (h.1 _ (List.mem_of_getElem? hi))
    exact absurd hle (Nat.not_le.2 hlate)

theorem prompt_run :
    (run (Timed.step sampleEnv) (Timed.start publicState 0) (failingRun 0)).map
      (Timed.failure 0) = some (some ("a", 0), 0, 10, 1) ∧
    (run (Timed.step sampleEnv) (Timed.start publicState 0)
      (failingRun 0 ++ .act (.step 0 sampleOrders) :: nextRun 5 3)).map (fun w =>
        (w.sys.tasks[1]?).map fun t => (t.req.cid, t.req.revalidates, t.now)) =
      some (some ("a", false, 5)) ∧
    Guarded (Timed.step sampleEnv) (fun w l => w.roomy "a" l = true ∧ w.early 10 l = true)
      (Timed.start publicState 0)
      (failingRun 0 ++ .act (.step 0 sampleOrders) :: nextRun 5 3) := by
  decide +kernel

/-- A request five seconds after a fetch that failed at once. -/
theorem failed_fetch_remembered_sample :
    ∃ (f : Failure sampleEnv publicState) (w : Timed) (u : Task),
      run (Timed.step sampleEnv) f.after (nextRun 5 3) = some w ∧ w.sys.tasks[1]? = some u ∧
      u.now = 5 ∧ 1 ∉ Timed.callers sampleEnv f.after (nextRun 5 3) ∧
      ∀ resp, u.phase = .done resp → resp.status ≠ 403 → resp.status = 404 := by
  obtain ⟨hfail, hend, hquiet⟩ := prompt_run
  obtain ⟨w, hrun, hu⟩ := Option.map_eq_some_iff.1 hend
  obtain ⟨u, hu, hreq⟩ := Option.map_eq_some_iff.1 hu
  obtain ⟨hcid, hreq⟩ := Prod.mk.inj hreq
  obtain ⟨hmiss, hnow⟩ := Prod.mk.inj hreq
  obtain ⟨f, hafter, hrun', hf, hstart, hrec, httl, hlen⟩ := exists_failure hrun hfail (by decide)
  have hsplit : failingRun 0 ++ .act (.step 0 sampleOrders) :: nextRun 5 3 =
      (failingRun 0 ++ [.act (.step 0 sampleOrders)]) ++ nextRun 5 3 := by
    rw [List.append_assoc]
    rfl
  rw [hsplit] at hquiet
  have hforgotten : f.forgotten = 10 := by
    rw [Failure.forgotten, hstart, httl]
    decide
  have hguard : Guarded (Timed.step sampleEnv) (fun w l => f.Provided w l ∧ f.Keeps w l) f.after
      (nextRun 5 3) := by
    refine (hquiet.of_append hafter).mono fun w l hw => ⟨f.provided_of_roomy ?_, f.keeps_of_early ?_⟩
    · rw [hf]; exact hw.1
    · rw [hforgotten]; exact hw.2
  have hcovered : f.Covered 1 u := by
    refine ⟨⟨hcid.trans hf.symm, ?_, ?_, fun u₀ hu₀ => ?_⟩, ?_, hmiss⟩
    · rw [hnow, hrec]; decide
    · rw [hnow, hrec, httl]; decide
    · have hlt := (List.getElem?_eq_some_iff.1 hu₀).1
      omega
    · rw [hnow, hforgotten]; decide
  obtain ⟨hno, hstatus⟩ :=
    failed_fetch_remembered sampleEnv publicState rfl f _ w hrun' hguard 1 u hu hcovered
  exact ⟨f, w, u, hrun', hu, hnow, hno, hstatus⟩

end CeCdn
