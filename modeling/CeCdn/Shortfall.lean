/-
What a shortfall of a maintenance pass says. The pass asks for as many edges as
it needs and asks nobody in the place of one that refuses, so an object may stay
short of its replicas though a willing edge is advertised: a shortfall means
that nobody was left to ask exactly when the edges that rank first are all
willing, or no others are advertised (`shortfall_iff`).
-/
import CeCdn.MaintainRace
import CeCdn.Replication

namespace CeCdn

open Lib Catalog

namespace Maintain

/-! ## The edges that are asked -/

/-- The edges that the loop over the picks asks. -/
def asks : List (String × Except String CacheResp) → Recruits → List String
  | [], _ => []
  | p :: ps, r => if p.1 ∈ r.exclude then asks ps (r.pick p) else p.1 :: asks ps (r.pick p)

section

variable (client : CdnClient) (caps cid : String) (entry : Entry)

def asked : List String := asks (picks client caps cid entry) ⟨entry.edgeIds.toFinset, [], 0⟩

/-- How many recorded edges answer that they hold the object. -/
def healthyNow : Nat := (probes client caps cid entry).countP Prod.snd

/-- How many edges are to be recruited. -/
def needed : Nat := replicasNeeded entry.content.replication (healthyNow client caps cid entry)

end

/-! ## What a shortfall should say -/

/-- What the client is answered for an object: `d` is where edges are looked up,
and the willing ones cache the object. -/
structure Answers (client : CdnClient) (cid : String) (d : Discovery) (willing : String → Bool) :
    Prop where
  pickEdges : ∀ n exclude, client.pickEdges cid n exclude = .ok (d.pickEdges n exclude)
  replicateTo : ∀ i edge req, req.cid = cid → cached (client.replicateTo i edge req) = willing edge

section

variable (client : CdnClient) (caps cid : String) (entry : Entry)
  (d : Discovery) (willing : String → Bool)

/-- Where the entry is left with too few replicas, every advertised edge that is
not recorded for it was asked to cache the object, and did not. -/
def NobodyLeft (left : Entry) : Prop :=
  left.edges.length < entry.content.replication →
    ∀ edge ∈ d.advertised, edge ∉ entry.edgeIds → edge ∉ left.edgeIds →
      edge ∈ asked client caps cid entry ∧ willing edge = false

/-- The advertised edges that are not recorded and would cache the object. -/
def willingEdges : Finset String :=
  (d.advertised.toFinset \ entry.edgeIds.toFinset).filter fun edge => willing edge = true

/-- The entry is left with as many replicas as there can be, up to the target. -/
def Restored (left : Entry) : Prop :=
  left.edges.length = max (healthyNow client caps cid entry)
    (min entry.content.replication
      (healthyNow client caps cid entry + (willingEdges entry d willing).card))

/-- The candidates for an entry. -/
def recruitable : List EdgeCandidate := allowed d.candidates entry.edgeIds

/-- There are `n` candidates, and the first `n` are different edges, all of them
willing. -/
def FirstWilling (n : Nat) : Prop :=
  n ≤ (recruitable entry d).length ∧ Apart EdgeCandidate.nodeId n (recruitable entry d) ∧
    ∀ c ∈ recruitable entry d, ahead (recruitable entry d) c < n → willing c.nodeId = true

/-- Each edge with `p` is one of the first `n` candidates. -/
def InFront (n : Nat) (p : String → Prop) : Prop :=
  ∀ c ∈ recruitable entry d, p c.nodeId →
    ∃ c' ∈ recruitable entry d, c'.nodeId = c.nodeId ∧ ahead (recruitable entry d) c' < n

end

/-! ## The loop over the picks -/

/-- An edge is asked when it is picked and not excluded: a repeat of one that
refused is asked again, one that caches the object is not. -/
theorem mem_asks_iff (ps : List (String × Except String CacheResp)) (r : Recruits) (edge : String) :
    edge ∈ asks ps r ↔ edge ∉ r.exclude ∧ edge ∈ ps.map Prod.fst := by
  induction ps generalizing r with
  | nil => simp [asks]
  | cons p ps ih =>
    by_cases hex : p.1 ∈ r.exclude
    · rw [asks, if_pos hex, Recruits.pick_of_mem hex, ih]
      refine and_congr_right fun hedge => ?_
      have hne : edge ≠ p.1 := fun h => hedge (h ▸ hex)
      simp [hne]
    · rw [asks, if_neg hex, List.mem_cons, ih]
      by_cases he : edge = p.1
      · simp [he, hex]
      · by_cases hc : cached p.2 = true
        · simp [Recruits.pick_of_cached hex hc, he]
        · simp [Recruits.pick_of_not_cached hc, he]

/-- Each recruit is counted and recorded. -/
theorem length_foldl_pick (ps : List (String × Except String CacheResp)) (r : Recruits) :
    (ps.foldl Recruits.pick r).edges.length + r.got =
      r.edges.length + (ps.foldl Recruits.pick r).got := by
  induction ps generalizing r with
  | nil => rfl
  | cons p ps ih =>
    rw [List.foldl_cons]
    by_cases hex : p.1 ∈ r.exclude
    · rw [Recruits.pick_of_mem hex]
      exact ih r
    · by_cases hc : cached p.2 = true
      · have ih := ih (r.pick p)
        rw [Recruits.pick_of_cached hex hc] at ih ⊢
        simp only [List.length_append, List.length_cons, List.length_nil] at ih
        omega
      · rw [Recruits.pick_of_not_cached hc]
        exact ih r

/-- Each willing edge is recruited once, however often it is picked. -/
theorem got_foldl_pick {willing : String → Bool} (ps : List (String × Except String CacheResp))
    (h : ∀ p ∈ ps, cached p.2 = willing p.1) (r : Recruits) :
    (ps.foldl Recruits.pick r).got = r.got +
      (((ps.map Prod.fst).toFinset.filter fun edge => willing edge = true) \ r.exclude).card := by
  induction ps generalizing r with
  | nil => simp
  | cons p ps ih =>
    have hp := h p (by simp)
    rw [List.foldl_cons, ih fun q hq => h q (by simp [hq]), List.map_cons, List.toFinset_cons,
      Finset.filter_insert]
    by_cases hc : willing p.1 = true
    · rw [if_pos hc]
      by_cases hex : p.1 ∈ r.exclude
      · rw [Finset.insert_sdiff_of_mem _ hex, Recruits.pick_of_mem hex]
      · rw [Recruits.pick_of_cached hex (hp.trans hc), Finset.insert_sdiff_of_notMem _ hex,
          Finset.sdiff_insert,
          ← Finset.card_erase_add_one (Finset.mem_insert_self p.1 _),
          Finset.erase_insert_eq_erase]
        change r.got + 1 + _ = _
        omega
    · rw [if_neg hc, Recruits.pick_of_not_cached (by rw [hp]; exact hc)]

section

variable {client : CdnClient} {caps cid : String} {entry : Entry}
  {d : Discovery} {willing : String → Bool}

/-! ## What is picked -/

theorem plan_recruit : (plan client caps cid entry).recruit = needed client caps cid entry := by
  simp [plan, planEntry, needed, healthyNow, List.countP_eq_length_filter]

theorem map_fst_picks (h : Answers client cid d willing) :
    (picks client caps cid entry).map Prod.fst =
      select d.candidates (needed client caps cid entry) entry.edgeIds := by
  rw [picks, plan_recruit]
  by_cases hneed : 0 < needed client caps cid entry
  · have hids : d.pickEdges (needed client caps cid entry) (Ordered.toList entry.edgeIds.toFinset) =
        select d.candidates (needed client caps cid entry) entry.edgeIds := by
      simp [Discovery.pickEdges, select]
    rw [if_pos hneed, h.pickEdges, hids]
    apply List.ext_getElem?
    intro i
    simp [Except.toOption, Function.comp_def]
  · have hzero : needed client caps cid entry = 0 := by omega
    simp [hzero, select]

theorem cached_of_mem_picks (h : Answers client cid d willing)
    {p : String × Except String CacheResp} (hp : p ∈ picks client caps cid entry) :
    cached p.2 = willing p.1 := by
  rw [picks] at hp
  split at hp
  · obtain ⟨i, hi, rfl⟩ := List.mem_mapIdx.1 hp
    exact h.replicateTo _ _ _ rfl
  · cases hp

/-- The edges that are asked are those that are selected. -/
theorem mem_asked_iff (h : Answers client cid d willing) {edge : String} :
    edge ∈ asked client caps cid entry ↔
      edge ∈ select d.candidates (needed client caps cid entry) entry.edgeIds := by
  rw [asked, mem_asks_iff, map_fst_picks h, and_iff_right_iff_imp]
  intro hmem
  simpa using not_excluded_of_select hmem

theorem mem_recruitable_of_advertised {edge : String} :
    (edge ∈ d.advertised ∧ edge ∉ entry.edgeIds) ↔
      ∃ c ∈ recruitable entry d, c.nodeId = edge := by
  rw [← d.map_nodeId_candidates]
  constructor
  · intro ⟨hadv, hnew⟩
    obtain ⟨c, hc, rfl⟩ := List.mem_map.1 hadv
    exact ⟨c, mem_allowed.2 ⟨hc, hnew⟩, rfl⟩
  · intro ⟨c, hc, hid⟩
    obtain ⟨hcand, hnew⟩ := mem_allowed.1 hc
    exact ⟨List.mem_map.2 ⟨c, hcand, hid⟩, hid ▸ hnew⟩

/-! ## How many are recruited -/

/-- The edges selected for the entry that would cache the object. -/
def selected (entry : Entry) (d : Discovery) (willing : String → Bool) (n : Nat) : Finset String :=
  (select d.candidates n entry.edgeIds).toFinset.filter fun edge => willing edge = true

theorem got_recruit (h : Answers client cid d willing) :
    (recruit client caps cid entry).got =
      (selected entry d willing (needed client caps cid entry)).card := by
  rw [recruit, got_foldl_pick _ (fun p hp => cached_of_mem_picks h hp), map_fst_picks h, Nat.zero_add,
    Finset.sdiff_eq_self_of_disjoint, selected]
  refine Finset.disjoint_left.2 fun edge hedge => ?_
  simp only [Finset.mem_filter, List.mem_toFinset] at hedge ⊢
  exact not_excluded_of_select hedge.1

theorem length_recruit : (recruit client caps cid entry).edges.length =
    healthyNow client caps cid entry + (recruit client caps cid entry).got := by
  have hlen := length_foldl_pick (picks client caps cid entry) ⟨entry.edgeIds.toFinset,
    (plan client caps cid entry).healthy.map fun e => ⟨e, true⟩, 0⟩
  have hhealthy : (plan client caps cid entry).healthy.length = healthyNow client caps cid entry := by
    simp [plan, planEntry, healthyNow, List.countP_eq_length_filter]
  rw [List.length_map, hhealthy] at hlen
  rw [recruit]
  omega

/-- All elements of a list are counted exactly when they are different and all
have the property. -/
theorem card_filter_toFinset_eq_length_iff {l : List String} {p : String → Prop} [DecidablePred p] :
    (l.toFinset.filter p).card = l.length ↔ l.Nodup ∧ ∀ x ∈ l, p x := by
  have hfilter := Finset.card_filter_le l.toFinset p
  have hle := List.toFinset_card_le l
  constructor
  · intro h
    have hset : l.toFinset.card = l.length := by omega
    refine ⟨Multiset.toFinset_card_eq_card_iff_nodup.1 hset, fun x hx => ?_⟩
    exact Finset.card_filter_eq_iff.1 (by omega) x (List.mem_toFinset.2 hx)
  · intro ⟨hnodup, hall⟩
    rw [Finset.filter_true_of_mem fun x hx => hall x (List.mem_toFinset.1 hx)]
    exact List.toFinset_card_of_nodup hnodup

theorem length_selected (n : Nat) :
    (select d.candidates n entry.edgeIds).length = min n (recruitable entry d).length := by
  rw [select_eq, List.length_map, length_best, recruitable]

theorem card_selected_le (n : Nat) :
    (selected entry d willing n).card ≤ min n (recruitable entry d).length := by
  rw [← length_selected]
  exact (Finset.card_filter_le _ _).trans (List.toFinset_card_le _)

/-- As many are recruited as are needed. -/
theorem card_selected_eq_iff (n : Nat) :
    (selected entry d willing n).card = n ↔ FirstWilling entry d willing n := by
  have hcount : (selected entry d willing n).card = (select d.candidates n entry.edgeIds).length ↔
      (select d.candidates n entry.edgeIds).Nodup ∧
        ∀ x ∈ select d.candidates n entry.edgeIds, willing x = true :=
    card_filter_toFinset_eq_length_iff
  have hnodup : (select d.candidates n entry.edgeIds).Nodup ↔
      Apart EdgeCandidate.nodeId n (recruitable entry d) := by
    rw [select_eq, nodup_map_best_iff, recruitable]
  have hall : (∀ x ∈ select d.candidates n entry.edgeIds, willing x = true) ↔
      ∀ c ∈ recruitable entry d, ahead (recruitable entry d) c < n → willing c.nodeId = true := by
    constructor
    · intro h c hc hahead
      exact h _ (mem_select_iff.2 ⟨c, hc, hahead, rfl⟩)
    · intro h x hx
      obtain ⟨c, hc, hahead, rfl⟩ := mem_select_iff.1 hx
      exact h c hc hahead
  rw [hnodup, hall] at hcount
  have hle : (selected entry d willing n).card ≤ min n (recruitable entry d).length :=
    card_selected_le n
  rw [length_selected] at hcount
  rw [FirstWilling, ← hcount]
  omega

/-- The edges that are asked include each one with `p` that may be recruited. -/
theorem inFront_iff {n : Nat} {p : String → Prop} :
    InFront entry d n p ↔ ∀ edge ∈ d.advertised, edge ∉ entry.edgeIds → p edge →
      edge ∈ select d.candidates n entry.edgeIds := by
  constructor
  · intro h edge hadv hnew hp
    obtain ⟨c, hc, rfl⟩ := mem_recruitable_of_advertised.1 ⟨hadv, hnew⟩
    obtain ⟨c', hc', hid, hahead⟩ := h c hc hp
    exact mem_select_iff.2 ⟨c', hc', hahead, hid⟩
  · intro h c hc hp
    obtain ⟨hadv, hnew⟩ := mem_recruitable_of_advertised.2 ⟨c, hc, rfl⟩
    obtain ⟨c', hc', hahead, hid⟩ := mem_select_iff.1 (h c.nodeId hadv hnew hp)
    exact ⟨c', hc', hid, hahead⟩

theorem selected_subset (n : Nat) : selected entry d willing n ⊆ willingEdges entry d willing := by
  intro edge hedge
  simp only [selected, Finset.mem_filter, List.mem_toFinset] at hedge
  obtain ⟨c, hc, -, hid⟩ := mem_select_iff.1 hedge.1
  obtain ⟨hadv, hnew⟩ := mem_recruitable_of_advertised.2 ⟨c, hc, hid⟩
  simp [willingEdges, hadv, hnew, hedge.2]

/-- All willing edges are recruited. -/
theorem card_selected_eq_willing_iff (n : Nat) :
    (selected entry d willing n).card = (willingEdges entry d willing).card ↔
      InFront entry d n fun edge => willing edge = true := by
  rw [inFront_iff]
  constructor
  · intro h edge hadv hnew hw
    have heq := Finset.eq_of_subset_of_card_le (selected_subset n) h.ge
    have hmem : edge ∈ selected entry d willing n := by
      rw [heq]
      simp [willingEdges, hadv, hnew, hw]
    simp only [selected, Finset.mem_filter, List.mem_toFinset] at hmem
    exact hmem.1
  · intro h
    congr 1
    refine Finset.Subset.antisymm (selected_subset n) fun edge hedge => ?_
    simp only [willingEdges, Finset.mem_filter, Finset.mem_sdiff, List.mem_toFinset] at hedge
    obtain ⟨⟨hadv, hnew⟩, hw⟩ := hedge
    simp [selected, h edge hadv hnew hw, hw]

/-! ## What the entry is left with -/

variable {left : Entry}

theorem length_left (h : Answers client cid d willing)
    (hleft : left.edges = (recruit client caps cid entry).edges) :
    left.edges.length = healthyNow client caps cid entry +
      (selected entry d willing (needed client caps cid entry)).card := by
  rw [hleft, length_recruit, got_recruit h]

/-- No more are recruited than are needed and there are. -/
theorem card_selected_le_needed (client : CdnClient) (caps cid : String) (entry : Entry)
    (d : Discovery) (willing : String → Bool) :
    (selected entry d willing (needed client caps cid entry)).card ≤
      min (entry.content.replication - healthyNow client caps cid entry)
        (willingEdges entry d willing).card :=
  le_min ((card_selected_le _).trans (Nat.min_le_left _ _)) (Finset.card_le_card (selected_subset _))

theorem restored_iff (h : Answers client cid d willing)
    (hleft : left.edges = (recruit client caps cid entry).edges) :
    Restored client caps cid entry d willing left ↔
      FirstWilling entry d willing (needed client caps cid entry) ∨
        InFront entry d (needed client caps cid entry) fun edge => willing edge = true := by
  have hle := card_selected_le_needed client caps cid entry d willing
  rw [← card_selected_eq_iff, ← card_selected_eq_willing_iff, Restored, length_left h hleft]
  change _ ↔ _ = entry.content.replication - healthyNow client caps cid entry ∨ _
  omega

/-- Too few replicas are left when not all that are needed are recruited. -/
theorem short_iff (h : Answers client cid d willing)
    (hleft : left.edges = (recruit client caps cid entry).edges) :
    left.edges.length < entry.content.replication ↔
      ¬ FirstWilling entry d willing (needed client caps cid entry) := by
  have hle := card_selected_le_needed client caps cid entry d willing
  rw [← card_selected_eq_iff, length_left h hleft]
  change _ ↔ ¬ _ = entry.content.replication - healthyNow client caps cid entry
  omega

/-- An edge that is not recorded before is recorded when it was asked and cached
the object. -/
theorem mem_left_iff (h : Answers client cid d willing)
    (hleft : left.edges = (recruit client caps cid entry).edges) {edge : String}
    (hnew : edge ∉ entry.edgeIds) :
    edge ∈ left.edgeIds ↔
      edge ∈ select d.candidates (needed client caps cid entry) entry.edgeIds ∧
        willing edge = true := by
  rw [Entry.edgeIds, hleft, mem_recruit_iff, Measured, ← map_fst_picks h]
  have hprobe : (edge, true) ∉ probes client caps cid entry := by
    intro hmem
    obtain ⟨i, hi, hp⟩ := List.mem_mapIdx.1 hmem
    exact hnew ((Prod.mk.inj hp).1 ▸ List.getElem_mem hi)
  constructor
  · intro hmeasured
    obtain ⟨-, answer, hmem, hc⟩ := hmeasured.resolve_left hprobe
    have hw := cached_of_mem_picks h hmem
    exact ⟨List.mem_map_of_mem (f := Prod.fst) hmem, by rw [← hw]; exact hc⟩
  · rintro ⟨hmem, hw⟩
    obtain ⟨p, hp, rfl⟩ := List.mem_map.1 hmem
    refine .inr ⟨hnew, p.2, hp, ?_⟩
    rw [cached_of_mem_picks h hp]
    exact hw

theorem nobodyLeft_iff (h : Answers client cid d willing)
    (hleft : left.edges = (recruit client caps cid entry).edges) :
    NobodyLeft client caps cid entry d willing left ↔
      FirstWilling entry d willing (needed client caps cid entry) ∨
        InFront entry d (needed client caps cid entry) fun _ => True := by
  rw [NobodyLeft, short_iff h hleft, inFront_iff, or_iff_not_imp_left]
  refine imp_congr_right fun _ => forall_congr' fun edge => forall_congr' fun _ =>
    forall_congr' fun hnew => ?_
  rw [mem_left_iff h hleft hnew, mem_asked_iff h]
  cases willing edge <;> simp

/-! ## Over a pass -/

/-- A pass counts the entries that it leaves with too few replicas. -/
theorem survey_shortfalls (client : CdnClient) (caps : String) (snapshot : Catalog) :
    (survey client caps snapshot).1.shortfalls =
      (Ordered.entries snapshot.items).countP fun e =>
        (recruit client caps e.1 e.2).edges.length < e.2.content.replication := by
  have hfold : ∀ (es : List (String × Entry)) (acc : MaintainReport × Results),
      (es.foldl (examine client caps) acc).1.shortfalls = acc.1.shortfalls + es.countP fun e =>
        (recruit client caps e.1 e.2).edges.length < e.2.content.replication := by
    intro es
    induction es with
    | nil => intro acc; rfl
    | cons e es ih =>
      intro acc
      have hshort : (recruit client caps e.1 e.2).got < (plan client caps e.1 e.2).recruit ↔
          (recruit client caps e.1 e.2).edges.length < e.2.content.replication := by
        rw [length_recruit, plan_recruit, needed, replicasNeeded]
        omega
      rw [List.foldl_cons, ih, List.countP_cons]
      simp only [examine, hshort, Bool.toNat, cond_eq_ite]
      omega
  rw [survey, hfold, Nat.zero_add]

end

/-- **When a shortfall means that nobody was left to ask.** For every pass and
every entry: exactly when the candidates ranked first, as many as are needed,
are different edges that all cache the object, or every advertised edge that is
not recorded is among them. The entry also has as many replicas as there can be
when only the willing edges are. -/
theorem shortfall_iff (client : CdnClient) (caps : String) (file : Option File)
    (others : List Update) (snapshot after : Catalog) (report : MaintainReport)
    (hload : load file = .ok snapshot)
    (hrun : runOnce client caps file others = .ok (report, after))
    (cid : String) (entry left : Entry) (hentry : snapshot.get cid = some entry)
    (hleft : after.get cid = some left) (d : Discovery) (willing : String → Bool)
    (h : Answers client cid d willing) :
    (report.shortfalls = (Ordered.entries snapshot.items).countP fun e =>
      (recruit client caps e.1 e.2).edges.length < e.2.content.replication) ∧
    left.edges = (recruit client caps cid entry).edges ∧
    ((NobodyLeft client caps cid entry d willing left ∧
        Restored client caps cid entry d willing left) ↔
      FirstWilling entry d willing (needed client caps cid entry) ∨
        InFront entry d (needed client caps cid entry) fun _ => True) ∧
    (Restored client caps cid entry d willing left ↔
      FirstWilling entry d willing (needed client caps cid entry) ∨
        InFront entry d (needed client caps cid entry) fun edge => willing edge = true) := by
  obtain ⟨snapshot', now, hload', -, hreport, hafter⟩ := runOnce_eq_ok hrun
  rw [hload] at hload'
  cases hload'
  have hedges : left.edges = (recruit client caps cid entry).edges := by
    have hget := get_commit hafter cid
    rw [hentry, hleft] at hget
    obtain ⟨e, -, rfl⟩ := Option.map_eq_some_iff.1 hget.symm
    rfl
  refine ⟨hreport ▸ survey_shortfalls client caps snapshot, hedges, ?_, restored_iff h hedges⟩
  rw [nobodyLeft_iff h hedges, restored_iff h hedges, and_iff_left_iff_imp]
  intro hcond
  exact hcond.imp id fun hfront c hc _ => hfront c hc trivial

/-! ## An edge that ranks first and refuses -/

/-- The advertised edges, with no other signals: the smaller id ranks first. -/
def sampleDiscovery (advertised : List String) : Discovery :=
  ⟨.ok advertised, .ok [], fun _ _ => .ok 0⟩

def sampleAnswers (advertised : List String) (willing : String → Bool) : CdnClient where
  putObject _ := .ok "cid-1"
  findService _ := .ok advertised
  probe _ _ _ := .ok ⟨true, 5, 0⟩
  pickEdges _ n exclude := .ok ((sampleDiscovery advertised).pickEdges n exclude)
  replicateTo _ edge req := .ok { cached := willing edge, storedBytes := req.bytesLen }

/-- One edge refuses. -/
def notA (edge : String) : Bool := edge != "edge-a"

/-- An object of one replica, which no edge has cached. -/
def unplaced : Catalog := default.upsert (sampleEntry [])

theorem answers_sample (advertised : List String) (willing : String → Bool) :
    Answers (sampleAnswers advertised willing) "cid-1" (sampleDiscovery advertised) willing :=
  ⟨fun _ _ => rfl, fun _ _ _ _ => rfl⟩

/-- The only edge that is advertised refuses: it was asked. -/
theorem shortfall_iff_sample :
    NobodyLeft (sampleAnswers ["edge-a"] notA) "" "cid-1" (sampleEntry [])
      (sampleDiscovery ["edge-a"]) notA (sampleEntry []) ∧
    Restored (sampleAnswers ["edge-a"] notA) "" "cid-1" (sampleEntry [])
      (sampleDiscovery ["edge-a"]) notA (sampleEntry []) := by
  have hiff := shortfall_iff (sampleAnswers ["edge-a"] notA) "" (some (.ok unplaced)) [] unplaced
    unplaced ⟨1, 0, 1⟩ rfl (by decide +kernel) "cid-1" (sampleEntry []) (sampleEntry [])
    (by decide +kernel) (by decide +kernel) (sampleDiscovery ["edge-a"]) notA
    (answers_sample ["edge-a"] notA)
  refine hiff.2.2.1.2 (.inr ?_)
  unfold InFront
  decide +kernel

/-- The edge that ranks first refuses: the pass counts a shortfall, though the
other one would have cached the object and was not asked. The catalog is as
before, and so is every later pass. -/
theorem shortfall_unasked :
    runOnce (sampleAnswers ["edge-a", "edge-b"] notA) "" (some (.ok unplaced)) [] =
      .ok (⟨1, 0, 1⟩, unplaced) ∧
    asked (sampleAnswers ["edge-a", "edge-b"] notA) "" "cid-1" (sampleEntry []) = ["edge-a"] ∧
    ¬ NobodyLeft (sampleAnswers ["edge-a", "edge-b"] notA) "" "cid-1" (sampleEntry [])
      (sampleDiscovery ["edge-a", "edge-b"]) notA (sampleEntry []) ∧
    ¬ Restored (sampleAnswers ["edge-a", "edge-b"] notA) "" "cid-1" (sampleEntry [])
      (sampleDiscovery ["edge-a", "edge-b"]) notA (sampleEntry []) := by
  have hasked : asked (sampleAnswers ["edge-a", "edge-b"] notA) "" "cid-1" (sampleEntry []) =
      ["edge-a"] := by
    decide +kernel
  refine ⟨by decide +kernel, hasked, fun h => ?_, ?_⟩
  · have hb := h (by decide) "edge-b" (by decide) (by decide) (by decide)
    rw [hasked] at hb
    exact absurd hb.1 (by decide)
  · unfold Restored
    decide +kernel

end Maintain

end CeCdn
