/-
How often a herd calls the origin. The fetches for a CID are serialized by its
lock, and a request that gets the lock looks again. What the first fetch left
decides what it finds: a stored object or a tombstone answers it, but an object
that was too large leaves neither (`herd_hits_origin_once_iff`).
-/
import CeCdn.Herd

namespace CeCdn

open Lib Word Machine

/-! ## One fetch -/

/-- What a fetch that came to this leaves answers the requests that wait. -/
def ServerEnv.Settles (env : ServerEnv) (c : EdgeCache) : Option Bytes → Prop
  | none => True
  | some b => b.length ≤ env.objectLimit c ∧ b.length ≤ c.maxBytes

/-- How far the fetch for a herd is, with what the origin has answered. -/
inductive Fetches (cid : String) (now : Nat) (s : ServerState) (y : Sys) :
    List (Option Bytes) → Prop
  | before (hcalls : y.shared.originCalls = s.originCalls) : Fetches cid now s y []
  | under {i l max : Nat} {t : Task} (hcalls : y.shared.originCalls = s.originCalls ++ [cid])
    (hcold : y.shared.edge.cache.knows cid now = false) (hi : y.tasks[i]? = some t)
    (hp : t.phase = .fetching l max) : Fetches cid now s y []
  | back {i l max : Nat} {t : Task} {res : Option Bytes}
    (hcalls : y.shared.originCalls = s.originCalls ++ [cid])
    (hcold : y.shared.edge.cache.knows cid now = false) (hi : y.tasks[i]? = some t)
    (hp : t.phase = .fetched l max res) : Fetches cid now s y [res]
  | settled {res : Option Bytes} (hcalls : y.shared.originCalls = s.originCalls ++ [cid])
    (hknown : y.shared.edge.cache.knows cid now = true)
    (hpast : ∀ t ∈ y.tasks, ¬ t.phase.Calling) : Fetches cid now s y [res]

section

variable {env : ServerEnv} {o : Orders} {cid : String} {now : Nat} {s s' : ServerState}
  {reqs : List HttpReq} {y : Sys} {i : Nat} {t t' : Task}

namespace Herded

/-- One request at most is on its way through the fetch. -/
theorem calling_unique (h : Herded env cid now s reqs y) (hh : Herd env cid now s reqs) {j : Nat}
    {u : Task} (hi : y.tasks[i]? = some t) (hj : y.tasks[j]? = some u) (ht : t.phase.Calling)
    {l : Nat} (hu : u.phase.holds = some l) : i = j := by
  obtain ⟨k, hk⟩ := Phase.holds_of_calling ht
  exact h.flights.holds_unique hi hj ((h.cid_eq hh (List.mem_of_getElem? hi)).trans
    (h.cid_eq hh (List.mem_of_getElem? hj)).symm) hk hu

/-- While one request is on its way through the fetch, the others change
nothing of it. -/
theorem other_piece (h : Herded env cid now s reqs y) (hh : Herd env cid now s reqs) {j : Nat}
    {u : Task} (hi : y.tasks[i]? = some t) (hj : y.tasks[j]? = some u) (hne : i ≠ j)
    (hu : u.phase.Calling) (hpiece : Task.Piece env o y.shared t s' t') :
    s'.originCalls = y.shared.originCalls ∧
      s'.edge.cache.knows cid now = y.shared.edge.cache.knows cid now ∧
      (y.tasks.set i t')[j]? = some u := by
  have hmem := List.mem_of_getElem? hi
  have hcall : ¬ t.phase.Calling := by
    intro ht
    obtain ⟨l, hl⟩ := Phase.holds_of_calling hu
    exact hne (h.calling_unique hh hi hj ht hl)
  refine ⟨?_, ?_, ?_⟩
  · obtain ⟨l, max, hp, -⟩ | ⟨-, hsame⟩ := hpiece.calls_cases
    · exact absurd (by simp [Phase.Calling, hp, Phase.rank]) hcall
    · exact hsame
  · rw [← h.cid_eq hh hmem, ← h.now_eq t hmem]
    refine hpiece.knows fun l max res hp => hcall ?_
    simp [Phase.Calling, hp, Phase.rank]
  · rw [List.getElem?_set_ne hne]
    exact hj

/-- What the fetch came to is stored, or remembered as absent. -/
theorem settle {l max : Nat} {res : Option Bytes} (h : Herded env cid now s reqs y)
    (hh : Herd env cid now s reqs) (hi : y.tasks[i]? = some t) (hp : t.phase = .fetched l max res)
    (hres : env.Settles s.edge.cache res) (hpiece : Task.Piece env o y.shared t s' t') :
    s'.edge.cache.knows cid now = true ∧ ∀ u ∈ y.tasks.set i t', ¬ u.phase.Calling := by
  have hmem := List.mem_of_getElem? hi
  have hbytes : y.shared.edge.cache.maxBytes = s.edge.cache.maxBytes := congrArg Prod.fst h.config
  have hnegative : y.shared.edge.cache.negativeTtlSecs = s.edge.cache.negativeTtlSecs :=
    congrArg (fun c => c.2.2.1) h.config
  have hmax := h.limit t hmem max (by rw [hp]; rfl)
  rw [← h.cid_eq hh hmem, ← h.now_eq t hmem]
  have hclock : t.now ≤ u64Max := (h.now_eq t hmem).trans_le hh.clock
  obtain ⟨hrank, hcases⟩ := hpiece.fetched_cases hp
  refine ⟨?_, fun u hu hcall => ?_⟩
  · obtain ⟨b, rfl, hlen, -⟩ | ⟨b, rfl, -, rfl⟩ | ⟨rfl, rfl⟩ := hcases
    · exact absurd (hmax ▸ hres.1) (Nat.not_le.2 hlen)
    · exact EdgeCache.knows_insert _ (hbytes ▸ hres.2) hclock
    · exact EdgeCache.knows_noteAbsent _ (hnegative ▸ hh.negativeTtl) hclock
  · obtain ⟨j, hj⟩ := List.mem_iff_getElem?.1 hu
    obtain ⟨-, rfl⟩ | ⟨hji, hj⟩ := Places.getElem?_set_cases hj
    · have hle := hcall.1
      omega
    · exact hji (h.calling_unique hh hj hi hcall (l := l) (by rw [hp]; rfl))

end Herded

namespace Fetches

variable {log : List (Option Bytes)}

theorem piece (hf : Fetches cid now s y log) (h : Herded env cid now s reqs y)
    (hh : Herd env cid now s reqs) (hgood : ∀ res ∈ log.head?, env.Settles s.edge.cache res)
    (hi : y.tasks[i]? = some t) (hpiece : Task.Piece env o y.shared t s' t') :
    Fetches cid now s ⟨s', y.tasks.set i t'⟩ log := by
  have hmem := List.mem_of_getElem? hi
  cases hf with
  | before hcalls =>
    obtain ⟨l, max, hp, hp', hcall⟩ | ⟨-, hsame⟩ := hpiece.calls_cases
    · refine .under (i := i) ?_ ?_ (Places.getElem?_set_of_some hi t') hp'
      · simp only [hcall, hcalls, h.cid_eq hh hmem]
      · rw [← (h.ahead hcalls).1, ← h.cid_eq hh hmem, ← h.now_eq t hmem]
        exact hpiece.knows fun l max res hf => nomatch hp.symm.trans hf
    · exact .before (hsame.trans hcalls)
  | @under j l max u hcalls hcold hj hp =>
    by_cases hij : i = j
    · subst hij
      cases hi.symm.trans hj
      cases hpiece with
      | _ => simp_all
    · obtain ⟨hsame, hknows, hj'⟩ := h.other_piece hh hi hj hij
        (by simp [Phase.Calling, hp, Phase.rank]) hpiece
      exact .under (hsame.trans hcalls) (hknows.trans hcold) hj' hp
  | @back j l max u res hcalls hcold hj hp =>
    by_cases hij : i = j
    · subst hij
      cases hi.symm.trans hj
      obtain ⟨hknown, hpast⟩ := h.settle hh hi hp (hgood res rfl) hpiece
      refine .settled ?_ hknown hpast
      obtain ⟨l', max', hp', -⟩ | ⟨-, hsame⟩ := hpiece.calls_cases
      · cases hp.symm.trans hp'
      · exact hsame.trans hcalls
    · obtain ⟨hsame, hknows, hj'⟩ := h.other_piece hh hi hj hij
        (by simp [Phase.Calling, hp, Phase.rank]) hpiece
      exact .back (hsame.trans hcalls) (hknows.trans hcold) hj' hp
  | settled hcalls hknown hpast =>
    have hno := hpast t hmem
    refine .settled ?_ ?_ (Places.forall_mem_set hpast fun hc => ?_)
    · obtain ⟨l, max, hp, -⟩ | ⟨-, hsame⟩ := hpiece.calls_cases
      · exact absurd (by simp [Phase.Calling, hp, Phase.rank]) hno
      · exact hsame.trans hcalls
    · rw [← hknown, ← h.cid_eq hh hmem, ← h.now_eq t hmem]
      refine hpiece.knows fun l max res hp => hno ?_
      simp [Phase.Calling, hp, Phase.rank]
    · obtain hc | ⟨-, hcold⟩ := hpiece.calling hc
      · exact hno hc
      · rw [h.cid_eq hh hmem, h.now_eq t hmem, hknown] at hcold
        cases hcold

theorem answered {l max : Nat} (hf : Fetches cid now s y log) (h : Herded env cid now s reqs y)
    (hh : Herd env cid now s reqs) (hi : y.tasks[i]? = some t) (hp : t.phase = .fetching l max)
    (res : Option Bytes) :
    Fetches cid now s ⟨y.shared, y.tasks.set i (t.goto (.fetched l max res))⟩ (log ++ [res]) := by
  have hmem := List.mem_of_getElem? hi
  have hcalling : t.phase.Calling := by simp [Phase.Calling, hp, Phase.rank]
  cases hf with
  | before hcalls =>
    have hrank : 5 < t.phase.rank := by
      cases hr : t.req.revalidates with
      | false => exact (h.ahead hcalls).2 t hmem hr
      | true =>
        have hearly := h.early t hmem hr
        simp [hp, Phase.rank] at hearly
    simp [hp, Phase.rank] at hrank
  | under hcalls hcold hj hp' =>
    exact .back hcalls hcold (Places.getElem?_set_of_some hi _) rfl
  | back hcalls hcold hj hp' =>
    obtain rfl := h.calling_unique hh hi hj hcalling (by rw [hp']; rfl)
    cases hi.symm.trans hj
    cases hp.symm.trans hp'
  | settled hcalls hknown hpast => exact absurd hcalling (hpast t hmem)

end Fetches

end

/-! ## Every interleaving -/

def arrivals (reqs : List HttpReq) (now : Nat) : List Label := reqs.map fun r => .arrive r now

/-- What the origin answers. -/
def Label.answered : Label → Option (Option Bytes)
  | .answer _ res => some res
  | _ => none

/-- In every interleaving in which the first fetch comes to `res`, the origin
is called once at most, and once when all are answered. -/
def HitsOriginOnce (env : ServerEnv) (cid : String) (now : Nat) (s : ServerState)
    (reqs : List HttpReq) (res : Option Bytes) : Prop :=
  ∀ ls y, (∀ l ∈ ls, l.Serves) → (∀ r ∈ (ls.filterMap Label.answered).head?, r = res) →
    run (Sys.step env) (Sys.start s) (arrivals reqs now ++ ls) = some y →
    (y.shared.originCalls = s.originCalls ∨ y.shared.originCalls = s.originCalls ++ [cid]) ∧
    ((∀ t ∈ y.tasks, ∃ resp, t.phase = .done resp) →
      y.shared.originCalls = s.originCalls ++ [cid])

theorem run_arrivals (env : ServerEnv) (now : Nat) (s : ServerState) :
    ∀ (reqs : List HttpReq) (ts : List Task), run (Sys.step env) ⟨s, ts⟩ (arrivals reqs now) =
      some ⟨s, ts ++ reqs.map fun r => .arrive r now⟩
  | [], ts => by simp [arrivals, run]
  | r :: reqs, ts => by
    have htail := run_arrivals env now s reqs (ts ++ [.arrive r now])
    simpa [arrivals, run, Sys.step] using htail

section

variable {env : ServerEnv} {cid : String} {now : Nat} {s : ServerState} {reqs : List HttpReq}
  {y : Sys} {res : Option Bytes}

theorem Herd.herded (h : Herd env cid now s reqs) :
    Herded env cid now s reqs ⟨s, reqs.map fun r => .arrive r now⟩ := by
  have hflights : Flights ⟨s, [] ++ reqs.map fun r => Task.arrive r now⟩ :=
    run_invariant (fun _ _ _ hy hs => hy.step hs) h.idle (run_arrivals env now s reqs [])
  have hreq : (reqs.map fun r => Task.arrive r now).map Task.req = reqs := by
    simp [Task.arrive, Function.comp_def]
  have hall : ∀ {P : Task → Prop}, (∀ r ∈ reqs, P (.arrive r now)) →
      ∀ t ∈ reqs.map fun r => Task.arrive r now, P t := by
    intro P hP t ht
    obtain ⟨r, hr, rfl⟩ := List.mem_map.1 ht
    exact hP r hr
  refine ⟨hreq, hall fun _ _ => rfl, hflights, rfl, rfl, fun i t hi _ => ?_, hall fun _ _ h => (by cases h),
    hall fun _ _ _ h => (by cases h), hall fun _ _ _ => .inr (by simp [Task.arrive, Phase.rank]),
    ⟨0, by simp, ?_⟩, fun _ => ⟨h.unknown, hall fun _ _ _ => by simp [Task.arrive, Phase.rank]⟩⟩
  · obtain ⟨r, hr, rfl⟩ := List.mem_map.1 (List.mem_of_getElem? hi)
    exact h.permitted r hr
  · rw [List.countP_map, Nat.zero_add]
    refine le_of_eq (List.countP_congr fun r _ => ?_)
    simp [Task.ahead, Task.arrive, Phase.rank]

/-- What holds while a herd is served: if the first answer settles it, the
fetch takes its course. -/
structure Served (env : ServerEnv) (cid : String) (now : Nat) (s : ServerState)
    (reqs : List HttpReq) (y : Sys) (log : List (Option Bytes)) : Prop where
  herded : Herded env cid now s reqs y
  fetches : (∀ r ∈ log.head?, env.Settles s.edge.cache r) → Fetches cid now s y log

theorem Served.step {y' : Sys} {l : Label} {log : List (Option Bytes)}
    (hy : Served env cid now s reqs y log) (h : Herd env cid now s reqs) (hl : l.Serves)
    (hs : Sys.step env y l = some y') : Served env cid now s reqs y' (log ++ l.answered.toList) := by
  refine ⟨hy.herded.step h hl hs, fun hgood => ?_⟩
  have hlog : ∀ r ∈ log.head?, env.Settles s.edge.cache r := by
    intro r hr
    refine hgood r ?_
    cases log with
    | nil => cases hr
    | cons x log => exact hr
  cases Sys.moves_of_step hs with
  | @piece i o t t' s' hi hpiece =>
    have hnone : (Label.step i o).answered = none := rfl
    rw [hnone, Option.toList_none, List.append_nil]
    exact (hy.fetches hlog).piece hy.herded h hlog hi hpiece
  | answered res hi hp => exact (hy.fetches hlog).answered hy.herded h hi hp res
  | _ => cases hl

/-- Where the first fetch settles the herd, or one request alone needs it. -/
theorem Herd.hitsOriginOnce (h : Herd env cid now s reqs)
    (hcase : misses reqs = 1 ∨ env.Settles s.edge.cache res) :
    HitsOriginOnce env cid now s reqs res := by
  intro ls y hls hres hrun
  rw [run_append, Sys.start, run_arrivals env now s reqs [], Option.bind_some, List.nil_append] at hrun
  have hy : Served env cid now s reqs y ([] ++ events (Sys.step env) (fun _ l => l.answered)
      ⟨s, reqs.map fun r => .arrive r now⟩ ls) :=
    events_run_invariant (fun _ _ _ _ hy hl hs => hy.step h hl hs)
      ⟨h.herded, fun _ => .before rfl⟩ (guarded_of_forall (fun l hl _ => hls l hl) _) hrun
  rw [List.nil_append, events_eq_filterMap Label.answered hrun] at hy
  obtain ⟨hherded, hfetches⟩ := hy
  have hone : y.shared.originCalls = s.originCalls ∨
      y.shared.originCalls = s.originCalls ++ [cid] := by
    rcases hcase with hone | hsettles
    · obtain ⟨n, hcalls, hle⟩ := hherded.calls
      obtain rfl | rfl : n = 0 ∨ n = 1 := by omega
      · exact .inl (by simpa using hcalls)
      · exact .inr hcalls
    · have hf := hfetches fun r hr => hres r hr ▸ hsettles
      generalize ls.filterMap Label.answered = log at hf
      cases hf with
      | before hcalls => exact .inl hcalls
      | under hcalls | back hcalls | settled hcalls => exact .inr hcalls
  refine ⟨hone, fun hdone => hone.resolve_left fun hcalls => ?_⟩
  -- without a fetch, a request that misses is not done
  obtain ⟨r, hr, hmiss⟩ := h.miss
  rw [← hherded.reqs_eq] at hr
  obtain ⟨t, ht, rfl⟩ := List.mem_map.1 hr
  have hrank := (hherded.ahead hcalls).2 t ht hmiss
  obtain ⟨resp, hp⟩ := hdone t ht
  simp [hp, Phase.rank] at hrank

/-! ## A fetch that settles nothing -/

/-- A state in which request `i`, alone on its way, meets nothing that would
answer it: the cache knows nothing, and no other request holds a lock. -/
structure Solo (env : ServerEnv) (cid : String) (now : Nat) (s : ServerState)
    (reqs : List HttpReq) (res : Option Bytes) (i : Nat) (t : Task) (y : Sys) : Prop where
  herded : Herded env cid now s reqs y
  here : y.tasks[i]? = some t
  miss : t.req.revalidates = false
  live : t.phase ≠ .cancelled
  fetched : ∀ l max r, t.phase = .fetched l max r → r = res
  unknown : y.shared.edge.cache.knows cid now = false
  alone : ∀ (j : Nat) (u : Task), j ≠ i → y.tasks[j]? = some u → u.phase.holds = none

namespace Solo

variable {i : Nat} {t : Task}

/-- Its lock is free when it does not hold it. -/
theorem free (h : Solo env cid now s reqs res i t y) : t.Free y.shared := by
  have hmem := List.mem_of_getElem? h.here
  have hfree : t.phase.holds = none → ∀ l, y.shared.inflight.lookup t.req.cid = some l →
      (y.shared.flights l).locked = false := by
    intro ht l hl
    have hzero : y.tasks.countP (Task.holdsLock l) = 0 := by
      refine List.countP_eq_zero.2 fun u hu hp => ?_
      obtain ⟨j, hj⟩ := List.mem_iff_getElem?.1 hu
      have hnone : u.phase.holds = none := by
        by_cases hji : j = i
        · subst hji
          cases h.here.symm.trans hj
          exact ht
        · exact h.alone j u hji hj
      rw [Task.holdsLock, hnone] at hp
      cases hp
    have hlocked := h.herded.flights.locked _ l hl
    rw [hzero] at hlocked
    cases hb : (y.shared.flights l).locked with
    | false => rfl
    | true => rw [hb] at hlocked; cases hlocked
  refine ⟨fun l max hp => ?_, fun hrank l hl => ?_, h.live⟩
  · exact hfree (by rw [hp]; rfl) l (h.herded.flights.handle t hmem l (by rw [hp]; rfl))
  · refine hfree ?_ l hl
    cases hp : t.phase <;> simp [hp, Phase.rank, Phase.holds] at hrank ⊢

/-- What the fetch came to leaves the cache as it was, and so do the looks. -/
theorem unknown_piece {o : Orders} {s' : ServerState} {t' : Task}
    (h : Solo env cid now s reqs res i t y) (hh : Herd env cid now s reqs)
    (hno : ¬ env.Settles s.edge.cache res) (hpiece : Task.Piece env o y.shared t s' t') :
    s'.edge.cache.knows cid now = false := by
  have hmem := List.mem_of_getElem? h.here
  by_cases hf : ∃ l max r, t.phase = .fetched l max r
  · obtain ⟨l, max, r, hp⟩ := hf
    obtain rfl := h.fetched l max r hp
    have hbytes : y.shared.edge.cache.maxBytes = s.edge.cache.maxBytes :=
      congrArg Prod.fst h.herded.config
    have hmax := h.herded.limit t hmem max (by rw [hp]; rfl)
    obtain ⟨-, ⟨b, rfl, -, rfl⟩ | ⟨b, rfl, hlen, rfl⟩ | ⟨rfl, -⟩⟩ := hpiece.fetched_cases hp
    · exact h.unknown
    · have hlarge : y.shared.edge.cache.maxBytes < b.length := by
        rw [hbytes]
        by_contra hle
        exact hno ⟨hmax ▸ hlen, Nat.not_lt.1 hle⟩
      simp only [ServerState.setCache, EdgeCache.insert,
        EdgeCache.insertWithTtl_of_lt _ _ _ _ hlarge]
      exact h.unknown
    · exact absurd trivial hno
  · have hsame := hpiece.knows fun l max r hp => hf ⟨l, max, r, hp⟩
    rw [h.herded.cid_eq hh hmem, h.herded.now_eq t hmem] at hsame
    rw [hsame]
    exact h.unknown

theorem piece {o : Orders} {s' : ServerState} {t' : Task}
    (h : Solo env cid now s reqs res i t y) (hh : Herd env cid now s reqs)
    (hno : ¬ env.Settles s.edge.cache res) (hpiece : Task.Piece env o y.shared t s' t') :
    Solo env cid now s reqs res i t' ⟨s', y.tasks.set i t'⟩ := by
  refine ⟨h.herded.piece hh h.here hpiece, Places.getElem?_set_of_some h.here t', ?_, ?_, ?_,
    h.unknown_piece hh hno hpiece, fun j u hji hj => ?_⟩
  · rw [hpiece.req]; exact h.miss
  · cases hpiece <;> simp [Task.readBudget]
  · intro l max r hp
    cases hpiece <;> simp [Task.readBudget] at hp
  · obtain ⟨rfl, -⟩ | ⟨-, hj⟩ := Places.getElem?_set_cases hj
    · exact absurd rfl hji
    · exact h.alone j u hji hj

theorem answered {l max : Nat} (h : Solo env cid now s reqs res i t y)
    (hp : t.phase = .fetching l max) :
    Solo env cid now s reqs res i (t.goto (.fetched l max res))
      ⟨y.shared, y.tasks.set i (t.goto (.fetched l max res))⟩ := by
  refine ⟨h.herded.answered h.here hp res, Places.getElem?_set_of_some h.here _, h.miss, nofun, ?_, h.unknown,
    fun j u hji hj => ?_⟩
  · intro l' max' r hr
    cases hr
    rfl
  · obtain ⟨rfl, -⟩ | ⟨-, hj⟩ := Places.getElem?_set_cases hj
    · exact absurd rfl hji
    · exact h.alone j u hji hj

/-- A request that is not done takes a step, or is answered by the origin. -/
theorem progress (h : Solo env cid now s reqs res i t y) (hh : Herd env cid now s reqs)
    (hno : ¬ env.Settles s.edge.cache res) (o : Orders) (hrank : 0 < t.phase.rank) :
    ∃ l t' s', l.Serves ∧ (∀ r ∈ l.answered, r = res) ∧
      Sys.step env y l = some ⟨s', y.tasks.set i t'⟩ ∧ t'.phase.rank < t.phase.rank ∧
      Solo env cid now s reqs res i t' ⟨s', y.tasks.set i t'⟩ ∧
      s'.originCalls ++ (if 5 < t'.phase.rank then [cid] else []) =
        y.shared.originCalls ++ (if 5 < t.phase.rank then [cid] else []) := by
  have hmem := List.mem_of_getElem? h.here
  obtain ⟨resp, hp⟩ | ⟨l, max, hp⟩ | hadv := h.free.advance_isSome env o
  · simp [hp, Phase.rank] at hrank
  · refine ⟨.answer i res, t.goto (.fetched l max res), y.shared, trivial, fun r hr => ?_, ?_, ?_,
      h.answered hp, ?_⟩
    · cases hr; rfl
    · simp [Sys.step, h.here, Task.answered, hp]
    · simp [hp, Phase.rank]
    · simp [hp, Phase.rank]
  · obtain ⟨⟨s', t'⟩, hadv⟩ := Option.isSome_iff_exists.1 hadv
    have hpiece := Task.piece_of_advance hadv
    have hlt := hpiece.rank_lt
    refine ⟨.step i o, t', s', trivial, fun r hr => (by cases hr), ?_, hlt,
      h.piece hh hno hpiece, ?_⟩
    · simp [Sys.step, h.here, hadv]
    · obtain ⟨l, max, hp, hp', hcall⟩ | ⟨hnocall, hsame⟩ := hpiece.calls_cases
      · rw [hcall, h.herded.cid_eq hh hmem]
        simp [hp, hp', Phase.rank]
      · rw [hsame]
        by_cases hahead : 5 < t.phase.rank
        · obtain ⟨haccess, hreplay⟩ := h.herded.granted h.here
          have hcold := h.unknown
          rw [← h.herded.cid_eq hh hmem, ← h.herded.now_eq t hmem] at hcold
          obtain hahead' | ⟨l, max, hp⟩ := hpiece.ahead h.miss hahead haccess hreplay hcold
          · rw [if_pos hahead, if_pos hahead']
          · exact absurd hp (hnocall l max)
        · rw [if_neg hahead, if_neg (by omega)]

/-- A request alone on its way gets to its answer, and calls the origin if it
has not yet. -/
theorem finish (hh : Herd env cid now s reqs) (hno : ¬ env.Settles s.edge.cache res)
    (o : Orders) : ∀ (n : Nat) {y : Sys} {t : Task}, t.phase.rank ≤ n →
    Solo env cid now s reqs res i t y →
    ∃ ls t' y', (∀ l ∈ ls, l.Serves) ∧ (∀ r ∈ ls.filterMap Label.answered, r = res) ∧
      run (Sys.step env) y ls = some y' ∧ (∀ j, j ≠ i → y'.tasks[j]? = y.tasks[j]?) ∧
      t'.phase.rank = 0 ∧ Solo env cid now s reqs res i t' y' ∧
      y'.shared.originCalls = y.shared.originCalls ++ (if 5 < t.phase.rank then [cid] else []) := by
  intro n
  induction n with
  | zero =>
    intro y t hn h
    refine ⟨[], t, y, nofun, nofun, rfl, fun _ _ => rfl, Nat.le_zero.1 hn, h, ?_⟩
    rw [if_neg (by omega), List.append_nil]
  | succ n ih =>
    intro y t hn h
    obtain hzero | hrank := Nat.eq_zero_or_pos t.phase.rank
    · refine ⟨[], t, y, nofun, nofun, rfl, fun _ _ => rfl, hzero, h, ?_⟩
      rw [if_neg (by omega), List.append_nil]
    · obtain ⟨l, t₁, s₁, hserves, hanswer, hstep, hlt, h₁, hcalls₁⟩ := h.progress hh hno o hrank
      obtain ⟨ls, t', y', hls, hres, hrun, hothers, hdone, h', hcalls⟩ := ih (by omega) h₁
      refine ⟨l :: ls, t', y', ?_, ?_, run_cons_eq_some.2 ⟨_, hstep, hrun⟩, fun j hji => ?_, hdone, h',
        hcalls.trans hcalls₁⟩
      · intro l' hl'
        rcases List.mem_cons.1 hl' with rfl | hl'
        · exact hserves
        · exact hls l' hl'
      · intro r hr
        rw [List.filterMap_cons] at hr
        cases hl : l.answered with
        | none => rw [hl] at hr; exact hres r hr
        | some x =>
          rw [hl] at hr
          rcases List.mem_cons.1 hr with rfl | hr
          · exact hanswer r hl
          · exact hres r hr
      · rw [hothers j hji, List.getElem?_set_ne (Ne.symm hji)]

end Solo

/-- Two requests that miss call the origin twice when the first fetch settles
nothing: the second starts to move when the first is done. -/
theorem Herd.calls_twice (hh : Herd env cid now s reqs) (htwo : 2 ≤ misses reqs)
    (hno : ¬ env.Settles s.edge.cache res) (o : Orders) : ∃ ls y, (∀ l ∈ ls, l.Serves) ∧
    (∀ r ∈ ls.filterMap Label.answered, r = res) ∧
    run (Sys.step env) (Sys.start s) (arrivals reqs now ++ ls) = some y ∧
    y.shared.originCalls = s.originCalls ++ [cid] ++ [cid] := by
  obtain ⟨i, j, r, r', hij, hi, hj, hr, hr'⟩ := Places.exists_pair_of_countP htwo
  have hquiet : ∀ u ∈ reqs.map fun r => Task.arrive r now, u.phase.holds = none := by
    intro u hu
    obtain ⟨r, -, rfl⟩ := List.mem_map.1 hu
    rfl
  have h₀ : Solo env cid now s reqs res i (.arrive r now)
      ⟨s, reqs.map fun r => .arrive r now⟩ :=
    ⟨hh.herded, by simp [hi], by simpa [Task.arrive] using hr, nofun, nofun, hh.unknown,
      fun k u _ hk => hquiet u (List.mem_of_getElem? hk)⟩
  obtain ⟨ls₁, t₁, y₁, hls₁, hres₁, hrun₁, hothers, hdone₁, h₁, hcalls₁⟩ :=
    Solo.finish hh hno o _ (le_refl _) h₀
  have hjne : j ≠ i := Nat.ne_of_gt hij
  have h₂ : Solo env cid now s reqs res j (.arrive r' now) y₁ := by
    refine ⟨h₁.herded, ?_, by simpa [Task.arrive] using hr', nofun, nofun, h₁.unknown, fun k u hkj hk => ?_⟩
    · rw [hothers j hjne]
      simp [hj]
    · by_cases hki : k = i
      · subst hki
        cases h₁.here.symm.trans hk
        cases hp : t₁.phase <;> simp [hp, Phase.rank, Phase.holds] at hdone₁ ⊢
      · exact h₁.alone k u hki hk
  obtain ⟨ls₂, t₂, y₂, hls₂, hres₂, hrun₂, -, -, -, hcalls₂⟩ :=
    Solo.finish hh hno o _ (le_refl _) h₂
  refine ⟨ls₁ ++ ls₂, y₂, ?_, ?_, ?_, ?_⟩
  · intro l hl
    exact (List.mem_append.1 hl).elim (hls₁ l) (hls₂ l)
  · intro r hr
    rw [List.filterMap_append] at hr
    exact (List.mem_append.1 hr).elim (hres₁ r) (hres₂ r)
  · rw [run_append, Sys.start, run_arrivals env now s reqs [], Option.bind_some, List.nil_append,
      run_append, hrun₁]
    exact hrun₂
  · rw [hcalls₂, hcalls₁]
    rfl

/-- **When a herd hits the origin once.** Requests for one CID that start in
one second, on an edge that neither holds nor has tombstoned it, and of which
some do not have the object: whatever their interleaving, the origin is called
once, exactly if only one of them does not have the object, or what the first
fetch comes to is an error, or an object within the size limit and the cache
budget. -/
theorem herd_hits_origin_once_iff (env : ServerEnv) (cid : String) (now : Nat) (s : ServerState)
    (reqs : List HttpReq) (h : Herd env cid now s reqs) (res : Option Bytes) :
    HitsOriginOnce env cid now s reqs res ↔
      misses reqs = 1 ∨ env.Settles s.edge.cache res := by
  refine ⟨fun honce => ?_, h.hitsOriginOnce⟩
  by_contra hneither
  obtain ⟨hone, hno⟩ := not_or.1 hneither
  have hpos : 0 < misses reqs := by
    obtain ⟨r, hr, hmiss⟩ := h.miss
    exact List.countP_pos_iff.2 ⟨r, hr, by simp [hmiss]⟩
  obtain ⟨ls, y, hls, hres, hrun, hcalls⟩ := h.calls_twice (by omega) hno sampleOrders
  have hfirst : ∀ r ∈ (ls.filterMap Label.answered).head?, r = res := fun r hr =>
    hres r (List.mem_of_mem_head? hr)
  rcases (honce ls y hls hfirst hrun).1 with heq | heq
  · rw [hcalls] at heq
    simpa using congrArg List.length heq
  · rw [hcalls] at heq
    simpa using congrArg List.length heq

end

/-! ### Two requests for one object -/

theorem plain_herd : Herd sampleEnv "a" 50 publicState [plainReq, plainReq] := by
  have hgrant : sampleEnv.grantOf publicState.edge.publicSet plainReq 50 = .publicGrant := by
    decide +kernel
  have hpermitted :
      ¬ sampleEnv.Refused publicState.edge.publicSet publicState.replay plainReq 50 := by
    rintro (hg | ⟨hg, -⟩)
    · cases hgrant.symm.trans hg
    · cases hgrant.symm.trans hg
  have hkey : sampleEnv.popKey publicState.edge.publicSet 50 plainReq = none := by
    simp [ServerEnv.popKey, hgrant]
  have hall : ∀ r ∈ [plainReq, plainReq], r = plainReq := by simp
  refine ⟨fun r hr => ?_, fun r hr => ?_, ?_, ⟨plainReq, List.mem_cons_self, by decide +kernel⟩,
    Flights.start rfl, by decide +kernel, by decide, by decide⟩
  · rw [hall r hr]; rfl
  · rw [hall r hr]; exact hpermitted
  · simp [hkey]

theorem herd_hits_origin_once_sample :
    HitsOriginOnce sampleEnv "a" 50 publicState [plainReq, plainReq] none :=
  (herd_hits_origin_once_iff sampleEnv "a" 50 publicState [plainReq, plainReq] plain_herd none).2
    (.inr trivial)

/-- The second request waits for the first, whose object is one byte larger
than the cache. -/
def oversizeRun : List Label :=
  List.replicate 9 (.step 0 sampleOrders) ++ List.replicate 6 (.step 1 sampleOrders) ++
    .answer 0 (some (List.replicate 101 0)) :: List.replicate 2 (.step 0 sampleOrders) ++
    List.replicate 3 (.step 1 sampleOrders)

theorem oversizeRun_calls :
    (run (Sys.step sampleEnv) (.start publicState)
      (arrivals [plainReq, plainReq] 50 ++ oversizeRun)).map (fun y => y.shared.originCalls) =
        some ["a", "a"] := by
  decide +kernel

theorem oversize_herd_hits_origin_twice :
    ¬ ∀ (env : ServerEnv) (cid : String) (now : Nat) (s : ServerState) (reqs : List HttpReq)
      (_ : Herd env cid now s reqs) (res : Option Bytes), HitsOriginOnce env cid now s reqs res := by
  intro h
  obtain ⟨y, hrun, hcalls⟩ := Option.map_eq_some_iff.1 oversizeRun_calls
  have honce := (h sampleEnv "a" 50 publicState [plainReq, plainReq] plain_herd
    (some (List.replicate 101 0)) oversizeRun y ?_ ?_ hrun).1
  · rw [hcalls] at honce
    rcases honce with heq | heq
    · cases heq
    · cases heq
  · intro l hl
    simp only [oversizeRun, List.mem_append, List.mem_cons, List.mem_replicate] at hl
    obtain ((⟨-, rfl⟩ | ⟨-, rfl⟩) | rfl | ⟨-, rfl⟩) | ⟨-, rfl⟩ := hl
    · trivial
    · trivial
    · trivial
    · trivial
    · trivial
  · intro r hr
    cases hr
    rfl

end CeCdn
