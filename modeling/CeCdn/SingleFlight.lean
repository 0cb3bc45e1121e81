/-
The single-flight locks (`inflight_lock` and the miss path of `serve_cid`).
The in-flight map is pruned by reference count while requests hold, wait for
or ask for locks. In every run the map has the lock of each CID that some
request has a handle to, with the right count, so a CID has one lock at a time
and one request at most is inside its fetch (`single_flight`).
-/
import CeCdn.Lib.Places
import CeCdn.ServerFacts
import Mathlib.Data.Finset.Card

namespace CeCdn

open Lib Machine

namespace Phase

/-- The address of the lock a request has a handle to. -/
def handle : Phase → Option Nat
  | .wait l _ | .recheck l _ | .call l _ | .fetching l _ | .fetched l _ _ | .unlock l _
  | .unref l _ => some l
  | _ => none

/-- The lock it holds. -/
def holds : Phase → Option Nat
  | .recheck l _ | .call l _ | .fetching l _ | .fetched l _ _ | .unlock l _ => some l
  | _ => none

theorem handle_of_holds {p : Phase} {l : Nat} (h : p.holds = some l) : p.handle = some l := by
  cases p <;> simp_all [holds, handle]

end Phase

def Task.refersTo (l : Nat) (t : Task) : Bool := t.phase.handle == some l

def Task.holdsLock (l : Nat) (t : Task) : Bool := t.phase.holds == some l

/-- The request is inside the fetch from the origin. -/
def Task.Fetching (t : Task) : Prop := ∃ l max, t.phase = .fetching l max

/-- The CIDs whose lock some request has a handle to. -/
def Sys.referenced (y : Sys) : Finset String :=
  ((y.tasks.filter fun t => t.phase.handle.isSome).map fun t => t.req.cid).toFinset

/-- The in-flight map and the locks in it. -/
structure Flights (y : Sys) : Prop where
  alloc : ∀ cid l, y.shared.inflight.lookup cid = some l → l < y.shared.nextFlight
  inj : ∀ cid cid' l, y.shared.inflight.lookup cid = some l →
    y.shared.inflight.lookup cid' = some l → cid = cid'
  handle : ∀ t ∈ y.tasks, ∀ l, t.phase.handle = some l →
    y.shared.inflight.lookup t.req.cid = some l
  refs : ∀ cid l, y.shared.inflight.lookup cid = some l →
    (y.shared.flights l).refs = y.tasks.countP (Task.refersTo l)
  locked : ∀ cid l, y.shared.inflight.lookup cid = some l →
    (y.shared.flights l).locked.toNat = y.tasks.countP (Task.holdsLock l)

namespace Flights

variable {y : Sys} {s' : ServerState} {i l max : Nat} {t t' : Task}

/-! ## One request moves -/

/-- A request that keeps its handle or gives it up, with what it does to the
locks. -/
theorem update (h : Flights y) (hi : y.tasks[i]? = some t) (hreq : t'.req = t.req)
    (hinf : s'.inflight = y.shared.inflight) (hnext : s'.nextFlight = y.shared.nextFlight)
    (hh : t'.phase.handle = t.phase.handle ∨ t'.phase.handle = none)
    (hrefs : ∀ l, (s'.flights l).refs + (t.refersTo l).toNat =
      (y.shared.flights l).refs + (t'.refersTo l).toNat)
    (hlocked : ∀ l, (s'.flights l).locked.toNat + (t.holdsLock l).toNat =
      (y.shared.flights l).locked.toNat + (t'.holdsLock l).toNat) :
    Flights ⟨s', y.tasks.set i t'⟩ := by
  refine ⟨?_, ?_, fun u hu k hk => ?_, fun cid k hk => ?_, fun cid k hk => ?_⟩
  · simp only [hinf, hnext]
    exact h.alloc
  · simp only [hinf]
    exact h.inj
  · simp only [hinf]
    rcases List.mem_or_eq_of_mem_set hu with hu | rfl
    · exact h.handle u hu k hk
    · rw [hreq]
      rcases hh with hh | hh
      · exact h.handle t (List.mem_of_getElem? hi) k (hh ▸ hk)
      · rw [hh] at hk
        cases hk
  · simp only [hinf] at hk
    have hcount := Places.countP_set_add (p := Task.refersTo k) hi t'
    have hold := h.refs cid k hk
    have hnew := hrefs k
    simp only
    omega
  · simp only [hinf] at hk
    have hcount := Places.countP_set_add (p := Task.holdsLock k) hi t'
    have hold := h.locked cid k hk
    have hnew := hlocked k
    simp only
    omega

/-- A request that leaves the locks alone. -/
theorem quiet (h : Flights y) (hi : y.tasks[i]? = some t) (hreq : t'.req = t.req)
    (hinf : s'.inflight = y.shared.inflight) (hnext : s'.nextFlight = y.shared.nextFlight)
    (hfl : s'.flights = y.shared.flights) (hh : t'.phase.handle = t.phase.handle)
    (hl : t'.phase.holds = t.phase.holds) : Flights ⟨s', y.tasks.set i t'⟩ := by
  refine h.update hi hreq hinf hnext (.inl hh) (fun k => ?_) fun k => ?_
  · rw [hfl, Task.refersTo, Task.refersTo, hh]
  · rw [hfl, Task.holdsLock, Task.holdsLock, hl]

/-- A handle is counted. -/
theorem refs_pos (h : Flights y) (hi : y.tasks[i]? = some t) (ht : t.phase.handle = some l) :
    0 < (y.shared.flights l).refs := by
  have hlookup := h.handle t (List.mem_of_getElem? hi) l ht
  rw [h.refs _ l hlookup]
  exact List.countP_pos_iff.2 ⟨t, List.mem_of_getElem? hi, by simp [Task.refersTo, ht]⟩

/-- A lock that is held is locked. -/
theorem locked_of_holds (h : Flights y) (hi : y.tasks[i]? = some t) (ht : t.phase.holds = some l) :
    (y.shared.flights l).locked = true := by
  have hlookup := h.handle t (List.mem_of_getElem? hi) l (Phase.handle_of_holds ht)
  have hcount := h.locked _ l hlookup
  have hpos : 0 < y.tasks.countP (Task.holdsLock l) :=
    List.countP_pos_iff.2 ⟨t, List.mem_of_getElem? hi, by simp [Task.holdsLock, ht]⟩
  cases hb : (y.shared.flights l).locked with
  | true => rfl
  | false =>
    rw [hb] at hcount
    simp at hcount
    omega

theorem acquire (h : Flights y) (hi : y.tasks[i]? = some t) (hp : t.phase = .wait l max)
    (hfree : (y.shared.flights l).locked = false) :
    Flights ⟨y.shared.lockFlight l, y.tasks.set i (t.goto (.recheck l max))⟩ := by
  refine h.update hi rfl rfl rfl (.inl (by rw [hp]; rfl)) (fun k => ?_) fun k => ?_
  · by_cases hk : k = l
    · subst hk
      simp [ServerState.lockFlight, ServerState.setFlight, Task.refersTo, Phase.handle, hp]
    · simp [ServerState.lockFlight, ServerState.setFlight, Task.refersTo, Phase.handle, hp, hk]
  · by_cases hk : k = l
    · subst hk
      simp [ServerState.lockFlight, ServerState.setFlight, Task.holdsLock, Phase.holds, hp, hfree]
    · simp [ServerState.lockFlight, ServerState.setFlight, Task.holdsLock, Phase.holds, hp, hk,
        Ne.symm hk]

/-- A request that gives up the lock it holds. -/
theorem release (h : Flights y) (hi : y.tasks[i]? = some t) (ht : t.phase.holds = some l)
    (hreq : t'.req = t.req) (hh : t'.phase.handle = some l) (hnone : t'.phase.holds = none) :
    Flights ⟨y.shared.unlockFlight l, y.tasks.set i t'⟩ := by
  have hhandle := Phase.handle_of_holds ht
  refine h.update hi hreq rfl rfl (.inl (hh.trans hhandle.symm)) (fun k => ?_) fun k => ?_
  · rw [Task.refersTo, Task.refersTo, hh, hhandle]
    by_cases hk : k = l
    · simp [ServerState.unlockFlight, ServerState.setFlight, hk]
    · simp [ServerState.unlockFlight, ServerState.setFlight, hk]
  · rw [Task.holdsLock, Task.holdsLock, hnone, ht]
    by_cases hk : k = l
    · subst hk
      simp [ServerState.unlockFlight, ServerState.setFlight, h.locked_of_holds hi ht]
    · simp [ServerState.unlockFlight, ServerState.setFlight, hk, Ne.symm hk]

/-- A request that gives up its handle. -/
theorem drop (h : Flights y) (hi : y.tasks[i]? = some t) (ht : t.phase.handle = some l)
    (hnone : t.phase.holds = none) (hreq : t'.req = t.req) (hh : t'.phase.handle = none)
    (hnone' : t'.phase.holds = none) : Flights ⟨y.shared.dropRef l, y.tasks.set i t'⟩ := by
  have hpos := h.refs_pos hi ht
  refine h.update hi hreq rfl rfl (.inr hh) (fun k => ?_) fun k => ?_
  · rw [Task.refersTo, Task.refersTo, hh, ht]
    by_cases hk : k = l
    · subst hk
      simp [ServerState.dropRef, ServerState.setFlight]
      omega
    · simp [ServerState.dropRef, ServerState.setFlight, hk, Ne.symm hk]
  · rw [Task.holdsLock, Task.holdsLock, hnone, hnone']
    by_cases hk : k = l
    · simp [ServerState.dropRef, ServerState.setFlight, hk]
    · simp [ServerState.dropRef, ServerState.setFlight, hk]

/-! ## A request asks for its lock -/

/-- A lock with a handle outlives a prune. -/
theorem kept (h : Flights y) (ht : t ∈ y.tasks) (hl : t.phase.handle = some l) :
    y.shared.prunedInflight.lookup t.req.cid = some l := by
  have hlookup := h.handle t ht l hl
  unfold ServerState.prunedInflight
  split
  · refine HashMap.lookup_retain.2 ⟨hlookup, ?_⟩
    have hpos : 0 < y.tasks.countP (Task.refersTo l) :=
      List.countP_pos_iff.2 ⟨t, ht, by simp [Task.refersTo, hl]⟩
    have hrefs := h.refs _ l hlookup
    simp only [decide_eq_true_eq]
    omega
  · exact hlookup

/-- No request has a handle to a lock that is not there yet. -/
theorem countP_nextFlight (h : Flights y) :
    y.tasks.countP (Task.refersTo y.shared.nextFlight) = 0 ∧
      y.tasks.countP (Task.holdsLock y.shared.nextFlight) = 0 := by
  have hnone : ∀ t ∈ y.tasks, t.phase.handle ≠ some y.shared.nextFlight := fun t ht hh =>
    absurd (h.alloc _ _ (h.handle t ht _ hh)) (Nat.lt_irrefl _)
  constructor
  · rw [List.countP_eq_zero]
    intro t ht hp
    exact hnone t ht (eq_of_beq hp)
  · rw [List.countP_eq_zero]
    intro t ht hp
    exact hnone t ht (Phase.handle_of_holds (eq_of_beq hp))

/-- What a request that asks for a lock adds to the counts of the others. -/
theorem countP_ask (hi : y.tasks[i]? = some t) (hp : t.phase = .flight max) (k n : Nat) :
    (y.tasks.set i (t.goto (.wait n max))).countP (Task.refersTo k) =
        y.tasks.countP (Task.refersTo k) + (n == k).toNat ∧
      (y.tasks.set i (t.goto (.wait n max))).countP (Task.holdsLock k) =
        y.tasks.countP (Task.holdsLock k) := by
  have hr := Places.countP_set_add (p := Task.refersTo k) hi (t.goto (.wait n max))
  have hl := Places.countP_set_add (p := Task.holdsLock k) hi (t.goto (.wait n max))
  simp [Task.refersTo, Task.holdsLock, Phase.handle, Phase.holds, hp] at hr hl
  exact ⟨hr, hl⟩

/-- It asks for a lock that is in the map. -/
theorem ask_known (h : Flights y) (hi : y.tasks[i]? = some t) (hp : t.phase = .flight max)
    {n : Nat} (hn : y.shared.prunedInflight.lookup t.req.cid = some n) :
    Flights ⟨(y.shared.inflightLock t.req.cid).2,
      y.tasks.set i (t.goto (.wait (y.shared.inflightLock t.req.cid).1 max))⟩ := by
  simp only [ServerState.inflightLock, hn]
  refine ⟨fun cid k hk => ?_, fun cid cid' k hk hk' => ?_, fun u hu k hk => ?_,
    fun cid k hk => ?_, fun cid k hk => ?_⟩
  · exact h.alloc cid k (ServerState.lookup_prunedInflight hk)
  · exact h.inj cid cid' k (ServerState.lookup_prunedInflight hk)
      (ServerState.lookup_prunedInflight hk')
  · rcases List.mem_or_eq_of_mem_set hu with hu | rfl
    · exact h.kept hu hk
    · cases hk
      exact hn
  · have hrefs := h.refs cid k (ServerState.lookup_prunedInflight hk)
    rw [(countP_ask hi hp k n).1, ← hrefs]
    by_cases hkn : k = n
    · simp [ServerState.addRef, ServerState.setFlight, hkn]
    · simp [ServerState.addRef, ServerState.setFlight, hkn, Ne.symm hkn]
  · have hlocked := h.locked cid k (ServerState.lookup_prunedInflight hk)
    rw [(countP_ask hi hp k n).2, ← hlocked]
    by_cases hkn : k = n
    · simp [ServerState.addRef, ServerState.setFlight, hkn]
    · simp [ServerState.addRef, ServerState.setFlight, hkn]

/-- Its lock is not in the map: it gets a new one. -/
theorem ask_new (h : Flights y) (hi : y.tasks[i]? = some t) (hp : t.phase = .flight max)
    (hnone : y.shared.prunedInflight.lookup t.req.cid = none) :
    Flights ⟨(y.shared.inflightLock t.req.cid).2,
      y.tasks.set i (t.goto (.wait (y.shared.inflightLock t.req.cid).1 max))⟩ := by
  have hlt : ∀ cid k, y.shared.prunedInflight.lookup cid = some k → k < y.shared.nextFlight :=
    fun cid k hk => h.alloc cid k (ServerState.lookup_prunedInflight hk)
  have hcases : ∀ cid k, (y.shared.prunedInflight.insert t.req.cid y.shared.nextFlight).lookup
        cid = some k → (cid = t.req.cid ∧ k = y.shared.nextFlight) ∨
      (k ≠ y.shared.nextFlight ∧ y.shared.prunedInflight.lookup cid = some k) := by
    intro cid k hk
    obtain hnew | ⟨-, hold⟩ := HashMap.lookup_insert_eq_some.1 hk
    · exact .inl hnew
    · exact .inr ⟨(hlt cid k hold).ne, hold⟩
  simp only [ServerState.inflightLock, hnone]
  refine ⟨fun cid k hk => ?_, fun cid cid' k hk hk' => ?_, fun u hu k hk => ?_,
    fun cid k hk => ?_, fun cid k hk => ?_⟩
  · obtain ⟨-, rfl⟩ | ⟨-, hk⟩ := hcases cid k hk
    · exact Nat.lt_succ_self _
    · exact Nat.lt_succ_of_lt (hlt cid k hk)
  · obtain ⟨rfl, rfl⟩ | ⟨hne, hk⟩ := hcases cid k hk
    · obtain ⟨rfl, -⟩ | ⟨hne, -⟩ := hcases cid' _ hk'
      · rfl
      · exact absurd rfl hne
    · obtain ⟨-, heq⟩ | ⟨-, hk'⟩ := hcases cid' k hk'
      · exact absurd heq hne
      · exact h.inj cid cid' k (ServerState.lookup_prunedInflight hk)
          (ServerState.lookup_prunedInflight hk')
  · rcases List.mem_or_eq_of_mem_set hu with hu | rfl
    · have hkept := h.kept hu hk
      have hne : u.req.cid ≠ t.req.cid := by
        intro heq
        rw [heq, hnone] at hkept
        cases hkept
      simp only [HashMap.lookup_insert_eq, if_neg hne]
      exact hkept
    · cases hk
      exact AList.lookup_insert _
  · rw [(countP_ask hi hp k _).1]
    obtain ⟨-, rfl⟩ | ⟨hne, hk⟩ := hcases cid k hk
    · simp [h.countP_nextFlight.1]
    · have hb : (y.shared.nextFlight == k) = false := by simpa using Ne.symm hne
      simpa [hne, hb] using h.refs cid k (ServerState.lookup_prunedInflight hk)
  · rw [(countP_ask hi hp k _).2]
    obtain ⟨-, rfl⟩ | ⟨hne, hk⟩ := hcases cid k hk
    · simp [h.countP_nextFlight.2]
    · simpa [hne] using h.locked cid k (ServerState.lookup_prunedInflight hk)

theorem ask (h : Flights y) (hi : y.tasks[i]? = some t) (hp : t.phase = .flight max) :
    Flights ⟨(y.shared.inflightLock t.req.cid).2,
      y.tasks.set i (t.goto (.wait (y.shared.inflightLock t.req.cid).1 max))⟩ := by
  cases hl : y.shared.prunedInflight.lookup t.req.cid with
  | some n => exact h.ask_known hi hp hl
  | none => exact h.ask_new hi hp hl

/-! ## Every step -/

theorem piece {env : ServerEnv} {o : Orders} (h : Flights y) (hi : y.tasks[i]? = some t)
    (hpiece : Task.Piece env o y.shared t s' t') : Flights ⟨s', y.tasks.set i t'⟩ := by
  have hreq := hpiece.req
  cases hpiece with
  | flight hp => exact h.ask hi hp
  | acquire hp hfree => exact h.acquire hi hp hfree
  | unlock hp => exact h.release hi (by rw [hp]; rfl) hreq rfl rfl
  | unrefBytes hp => exact h.drop hi (by rw [hp]; rfl) (by rw [hp]; rfl) hreq rfl rfl
  | unrefReply hp => exact h.drop hi (by rw [hp]; rfl) (by rw [hp]; rfl) hreq rfl rfl
  | _ =>
    refine h.quiet hi hreq rfl rfl rfl ?_ ?_
    · simp [*, Phase.handle, Task.readBudget]
    · simp [*, Phase.holds, Task.readBudget]

/-- A request that is dropped lets go of the lock it holds, then of its handle. -/
theorem cancel (h : Flights y) (hi : y.tasks[i]? = some t)
    (hc : t.cancel y.shared = some (s', t')) : Flights ⟨s', y.tasks.set i t'⟩ := by
  have hlet : ∀ l, t.phase.holds = some l →
      Flights ⟨(y.shared.unlockFlight l).dropRef l, y.tasks.set i (t.goto .cancelled)⟩ := by
    intro l ht
    have hrel : Flights ⟨y.shared.unlockFlight l,
        y.tasks.set i (t.goto (.unref l (.reply t.absent)))⟩ := h.release hi ht rfl rfl rfl
    have hdrop : Flights ⟨(y.shared.unlockFlight l).dropRef l,
        (y.tasks.set i (t.goto (.unref l (.reply t.absent)))).set i (t.goto .cancelled)⟩ :=
      hrel.drop (Places.getElem?_set_of_some hi _) rfl rfl rfl rfl rfl
    rwa [List.set_set] at hdrop
  unfold Task.cancel at hc
  split at hc
  · next l _ hp =>
    cases hc
    exact h.drop hi (by rw [hp]; rfl) (by rw [hp]; rfl) rfl rfl rfl
  · next l _ hp => cases hc; exact hlet l (by rw [hp]; rfl)
  · next l _ hp => cases hc; exact hlet l (by rw [hp]; rfl)
  · next l _ hp => cases hc; exact hlet l (by rw [hp]; rfl)
  · next l _ _ hp => cases hc; exact hlet l (by rw [hp]; rfl)
  · cases hc
  · cases hc
  · cases hc
  · cases hc
  · cases hc
    refine h.quiet hi rfl rfl rfl rfl ?_ ?_
    · cases hp : t.phase <;> simp_all [Phase.handle]
    · cases hp : t.phase <;> simp_all [Phase.holds]

theorem step {env : ServerEnv} {y' : Sys} {lab : Label} (h : Flights y)
    (hs : Sys.step env y lab = some y') : Flights y' := by
  cases Sys.moves_of_step hs with
  | arrive req now =>
    refine ⟨h.alloc, h.inj, fun t ht k hk => ?_, fun cid k hk => ?_, fun cid k hk => ?_⟩
    · rcases List.mem_append.1 ht with ht | ht
      · exact h.handle t ht k hk
      · obtain rfl := List.mem_singleton.1 ht
        cases hk
    · simpa [List.countP_append, Task.refersTo, Task.arrive, Phase.handle] using h.refs cid k hk
    · simpa [List.countP_append, Task.holdsLock, Task.arrive, Phase.holds] using h.locked cid k hk
  | piece hi hpiece => exact h.piece hi hpiece
  | answered res hi hp =>
    exact h.quiet hi rfl rfl rfl rfl (by rw [hp]; rfl) (by rw [hp]; rfl)
  | cancelled hi hc => exact h.cancel hi hc
  | swept o now => exact ⟨h.alloc, h.inj, h.handle, h.refs, h.locked⟩
  | purged cid => exact ⟨h.alloc, h.inj, h.handle, h.refs, h.locked⟩

theorem start {s : ServerState} (hs : s.inflight = ∅) : Flights (Sys.start s) := by
  have hnone : ∀ cid l, s.inflight.lookup cid ≠ some l := by
    intro cid l hl
    rw [hs] at hl
    cases hl
  exact ⟨fun cid l hl => absurd hl (hnone cid l), fun cid _ l hl => absurd hl (hnone cid l), nofun,
    fun cid l hl => absurd hl (hnone cid l), fun cid l hl => absurd hl (hnone cid l)⟩

end Flights

/-! ## One lock, one holder -/

theorem Flights.handle_unique {y : Sys} {t t' : Task} {l l' : Nat} (h : Flights y)
    (ht : t ∈ y.tasks) (ht' : t' ∈ y.tasks) (hcid : t.req.cid = t'.req.cid)
    (hl : t.phase.handle = some l) (hl' : t'.phase.handle = some l') : l = l' := by
  have hlookup := h.handle t ht l hl
  rw [hcid, h.handle t' ht' l' hl'] at hlookup
  cases hlookup
  rfl

theorem Flights.holds_unique {y : Sys} {i j l k : Nat} {t t' : Task} (h : Flights y)
    (hi : y.tasks[i]? = some t) (hj : y.tasks[j]? = some t') (hcid : t.req.cid = t'.req.cid)
    (hl : t.phase.holds = some l) (hl' : t'.phase.holds = some k) : i = j := by
  have hmem := List.mem_of_getElem? hi
  obtain rfl : l = k := h.handle_unique hmem (List.mem_of_getElem? hj) hcid
    (Phase.handle_of_holds hl) (Phase.handle_of_holds hl')
  have hone : y.tasks.countP (Task.holdsLock l) ≤ 1 := by
    rw [← h.locked _ l (h.handle t hmem l (Phase.handle_of_holds hl))]
    exact Bool.toNat_le _
  exact Places.eq_of_countP_le_one hone hi (by simp [Task.holdsLock, hl]) hj
    (by simp [Task.holdsLock, hl'])

/-! ## How long the map is -/

/-- A prune leaves a lock for each CID whose lock is referred to. -/
theorem Flights.length_pruned_le {y : Sys} (h : Flights y) :
    y.shared.prunedInflight.entries.length ≤ max 1024 y.referenced.card := by
  unfold ServerState.prunedInflight
  split
  · refine le_max_of_le_right ?_
    have hkeys : ∀ cid ∈ (HashMap.retain (fun _ l => decide ((y.shared.flights l).refs + 1 > 1))
        y.shared.inflight).keys, cid ∈ y.referenced := by
      intro cid hcid
      obtain ⟨l, hl⟩ := Option.isSome_iff_exists.1 (AList.lookup_isSome.2 hcid)
      obtain ⟨hl, href⟩ := HashMap.lookup_retain.1 hl
      have hpos : 0 < (y.shared.flights l).refs := by simpa using href
      rw [h.refs cid l hl, List.countP_pos_iff] at hpos
      obtain ⟨t, ht, hp⟩ := hpos
      have hhandle : t.phase.handle = some l := eq_of_beq hp
      have heq := h.inj _ _ l hl (h.handle t ht l hhandle)
      simp only [Sys.referenced, List.mem_toFinset, List.mem_map, List.mem_filter]
      exact ⟨t, ⟨ht, by rw [hhandle]; rfl⟩, heq.symm⟩
    have hcard := Finset.card_le_card (s := (HashMap.retain
      (fun _ l => decide ((y.shared.flights l).refs + 1 > 1)) y.shared.inflight).keys.toFinset)
      fun cid hcid => hkeys cid (List.mem_toFinset.1 hcid)
    rw [List.toFinset_card_of_nodup (AList.keys_nodup _)] at hcard
    simpa [AList.keys, List.keys] using hcard
  · next hlen => exact le_max_of_le_left (Nat.not_lt.1 hlen)

theorem Flights.length_inflight_le {y : Sys} (h : Flights y) (cid : String) :
    (y.shared.inflightLock cid).2.inflight.entries.length ≤ max 1025 (y.referenced.card + 1) := by
  have hpruned := h.length_pruned_le
  unfold ServerState.inflightLock
  split
  · simp only [ServerState.addRef, ServerState.setFlight]
    omega
  · simp only [HashMap.length_insert]
    have herase := HashMap.length_erase_le y.shared.prunedInflight cid
    omega

/-! ## Every run -/

/-- **Single flight.** Whatever requests come, however their pieces follow each
other, whichever of them are dropped and however often the in-flight map is
pruned: requests with a handle to a lock of one CID have the same lock, one
request at most is inside the fetch of a CID, and a call of `inflight_lock`
leaves a map of `max(1025, r + 1)` entries at most, with `r` the CIDs whose lock
a request referred to when it began. -/
theorem single_flight (env : ServerEnv) (s : ServerState) (hs : s.inflight = ∅) (ls : List Label)
    (y : Sys) (hrun : run (Sys.step env) (Sys.start s) ls = some y) :
    (∀ t ∈ y.tasks, ∀ t' ∈ y.tasks, t.req.cid = t'.req.cid → ∀ l l',
      t.phase.handle = some l → t'.phase.handle = some l' → l = l') ∧
    (∀ (i j : Nat) (t t' : Task), y.tasks[i]? = some t → y.tasks[j]? = some t' →
      t.req.cid = t'.req.cid → t.Fetching → t'.Fetching → i = j) ∧
    ∀ cid, (y.shared.inflightLock cid).2.inflight.entries.length ≤
      max 1025 (y.referenced.card + 1) := by
  have h : Flights y := run_invariant (fun _ _ _ hy hstep => hy.step hstep) (Flights.start hs) hrun
  refine ⟨fun t ht t' ht' hcid l l' => h.handle_unique ht ht' hcid,
    fun i j t t' hi hj hcid ⟨l, max, hp⟩ ⟨l', max', hp'⟩ => ?_, h.length_inflight_le⟩
  exact h.holds_unique hi hj hcid (l := l) (k := l') (by rw [hp]; rfl) (by rw [hp']; rfl)

/-! ### Two requests for one CID -/

/-- One request inside the fetch, one that waits for it. -/
def herdRun : List Label :=
  [.arrive plainReq 50, .arrive plainReq 50] ++ List.replicate 9 (.step 0 sampleOrders) ++
    List.replicate 6 (.step 1 sampleOrders)

theorem handles_herdRun :
    (run (Sys.step sampleEnv) (.start publicState) herdRun).map
      (fun y => y.tasks.map fun t => t.phase.handle) = some [some 0, some 0] := by
  decide +kernel

theorem single_flight_sample :
    ∃ y, run (Sys.step sampleEnv) (.start publicState) herdRun = some y ∧
      y.tasks.map (fun t => t.phase.handle) = [some 0, some 0] ∧
      (∀ (i j : Nat) (t t' : Task), y.tasks[i]? = some t → y.tasks[j]? = some t' →
        t.req.cid = t'.req.cid → t.Fetching → t'.Fetching → i = j) ∧
      (y.shared.inflightLock "b").2.inflight.entries.length ≤ max 1025 (y.referenced.card + 1) := by
  obtain ⟨y, hrun, hy⟩ := Option.map_eq_some_iff.1 handles_herdRun
  have h := single_flight sampleEnv publicState rfl herdRun y hrun
  exact ⟨y, hrun, hy, h.2.1, h.2.2 "b"⟩

end CeCdn
