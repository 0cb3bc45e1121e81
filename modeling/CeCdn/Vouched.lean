/-
What a recorded edge is worth. Between two requests of a client the edges are in
others' hands; what the client knows of them is what they answered, when the
answer came back. Over any run of the commands that write the catalog, an edge
that is recorded for a CID is one that the last command to make the CID's edge
list anew asked, and that answered it that it holds the object, as it did
(`recorded_edges_vouched`).
-/
import CeCdn.Published

namespace CeCdn

open Catalog in
/-- The catalog describes the CID so, and records the edge for it. -/
def Catalog.Lists (c : Catalog) (cid edge : String) (d : Content) : Prop :=
  ∃ entry ∈ c.get cid, entry.content = d ∧ edge ∈ entry.edgeIds

namespace Cli

open Lib Log Machine Text Word Catalog Maintain

/-! ## What comes back from the edges -/

/-- The answer to a request, as its sender gets it, and the edge after it. -/
def Transit.carry {α : Type} (topic edge : String) (send : Link → Except String α × World)
    (w : World) : Transit → Except String α × World
  | .lost => (.error s!"{topic} request to {edge}", w)
  | .delivered l true => send l
  | .delivered l false => (.error s!"{topic} request to {edge}", (send l).2)

/-- How a client's requests fare, and the state in which each finds its edge: by
place, edge and request, as in `CdnClient`. -/
structure EdgeNet where
  cache : Nat → String → CacheReq → Transit × World
  status : Nat → String → StatusReq → Transit × World

namespace EdgeNet

variable (net : EdgeNet)

def replicateTo (i : Nat) (edge : String) (req : CacheReq) : Except String CacheResp × World :=
  let (t, w) := net.cache i edge req
  t.carry TOPIC_CACHE edge (fun l => l.replicateTo edge req w) w

def probe (i : Nat) (edge : String) (req : StatusReq) : Except String StatusResp × World :=
  let (t, w) := net.status i edge req
  t.carry TOPIC_STATUS edge (fun l => l.probe edge req w) w

theorem replicateTo_delivered {net : EdgeNet} {i : Nat} {edge : String} {req : CacheReq} {l : Link}
    {w : World} (h : net.cache i edge req = (.delivered l true, w)) :
    net.replicateTo i edge req = l.replicateTo edge req w := by
  rw [EdgeNet.replicateTo, h]
  rfl

theorem probe_delivered {net : EdgeNet} {i : Nat} {edge : String} {req : StatusReq} {l : Link}
    {w : World} (h : net.status i edge req = (.delivered l true, w)) :
    net.probe i edge req = l.probe edge req w := by
  rw [EdgeNet.probe, h]
  rfl

/-- A client that is answered what comes back from the edges. -/
structure Answers (client : CdnClient) : Prop where
  replicateTo : ∀ i edge req, client.replicateTo i edge req = (net.replicateTo i edge req).1
  probe : ∀ i edge req, client.probe i edge req = (net.probe i edge req).1

/-- What comes back is read as it was written. -/
structure Reads : Prop where
  cache : ∀ i edge req l w, net.cache i edge req = (.delivered l true, w) →
    l.ReadsBack TOPIC_CACHE req.toDoc w
  status : ∀ i edge req l w, net.status i edge req = (.delivered l true, w) →
    l.ReadsBack TOPIC_STATUS req.toDoc w

end EdgeNet

/-- Till when an edge that caches an object now holds it at least. -/
def promise (l : Link) (w : World) (ttlSecs : Nat) : Nat :=
  let ttl := w.edge.cache.ttlFor ttlSecs
  if ttl = 0 then u64Max else satAdd l.clocks.dispatch ttl

/-- The edge honored a request of the client and had the object: it was one of
those asked to cache what the description says, and holds what the store
answered it for as long as it promises; or it was one of those probed, and held
it. -/
inductive EdgeNet.Vouches (net : EdgeNet) (caps : String) (asked probed : List String)
    (cid edge : String) (d : Content) : Prop
  | stored (i : Nat) (l : Link) (w : World) (b : Bytes) (place : asked[i]? = some edge)
      (sent : net.cache i edge ⟨caps, cid, d.bytesLen, d.ttlSecs⟩ = (.delivered l true, w))
      (honored : l.Honors TOPIC_CACHE (CacheReq.mk caps cid d.bytesLen d.ttlSecs).toDoc w
        (.cache ⟨caps, cid, d.bytesLen, d.ttlSecs⟩))
      (object : l.src.getObject cid = .ok b)
      (held : ∀ now, now ≤ promise l w d.ttlSecs →
        ((l.replicateTo edge ⟨caps, cid, d.bytesLen, d.ttlSecs⟩ w).2.edge.cache.get cid now).1 =
          some b)
  | found (i : Nat) (l : Link) (w : World) (b : Bytes) (place : probed[i]? = some edge)
      (sent : net.status i edge ⟨caps, cid⟩ = (.delivered l true, w))
      (honored : l.Honors TOPIC_STATUS (StatusReq.mk caps cid).toDoc w (.status ⟨caps, cid⟩))
      (held : (w.edge.cache.get cid l.clocks.dispatch).1 = some b)

section

variable {net : EdgeNet} {caps cid edge : String} {d : Content} {i : Nat}
  {asked probed : List String}

theorem vouches_of_cached (hread : net.Reads) (hplace : asked[i]? = some edge)
    (h : cached (net.replicateTo i edge ⟨caps, cid, d.bytesLen, d.ttlSecs⟩).1 = true) :
    net.Vouches caps asked probed cid edge d := by
  obtain ⟨t, w, hsent⟩ : ∃ t w, net.cache i edge ⟨caps, cid, d.bytesLen, d.ttlSecs⟩ = (t, w) :=
    ⟨_, _, rfl⟩
  cases t with
  | lost =>
    rw [EdgeNet.replicateTo, hsent] at h
    cases h
  | delivered l answered =>
    cases answered with
    | false =>
      rw [EdgeNet.replicateTo, hsent] at h
      cases h
    | true =>
      rw [EdgeNet.replicateTo_delivered hsent] at h
      obtain ⟨hhon, r, w', hcall, hperf⟩ | ⟨r, hcall, hno, -⟩ :=
        Link.replicateTo_cases l edge _ w (hread.cache _ _ _ _ _ hsent)
      · obtain ⟨r₁, w₁, hrun, hr⟩ := Action.perform_cache l.env.rs l.src l.ord l.clocks.dispatch w
          ⟨caps, cid, d.bytesLen, d.ttlSecs⟩
        rw [hrun] at hperf
        cases hperf
        have hcached : r.cached = true := by
          rw [hcall] at h
          exact h
        obtain ⟨-, httl, b, hobj, -, hheld⟩ | ⟨hno, -⟩ := hr
        · refine .stored i l w b hplace hsent hhon hobj fun now hnow => ?_
          rw [hcall]
          refine hheld now ?_
          rw [httl]
          exact hnow
        · rw [hno] at hcached
          cases hcached
      · rw [hcall] at h
        rw [cached, hno] at h
        cases h

theorem vouches_of_held (hread : net.Reads) (hplace : probed[i]? = some edge)
    (h : held (net.probe i edge ⟨caps, cid⟩).1 = true) :
    net.Vouches caps asked probed cid edge d := by
  obtain ⟨t, w, hsent⟩ : ∃ t w, net.status i edge ⟨caps, cid⟩ = (t, w) := ⟨_, _, rfl⟩
  cases t with
  | lost =>
    rw [EdgeNet.probe, hsent] at h
    cases h
  | delivered l answered =>
    cases answered with
    | false =>
      rw [EdgeNet.probe, hsent] at h
      cases h
    | true =>
      rw [EdgeNet.probe_delivered hsent] at h
      obtain ⟨s, hcall, hs⟩ := Link.probe_cases l edge _ w (hread.status _ _ _ _ _ hsent)
      rw [hcall] at h
      obtain ⟨hhon, hheld, -⟩ | ⟨-, rfl⟩ := hs
      · obtain ⟨b, hb⟩ := Option.isSome_iff_exists.1 (hheld.symm.trans h)
        exact .found i l w b hplace hsent hhon hb
      · cases h

end

/-! ## What a command goes by -/

/-- The edges that a `put` or a pass asks to cache the object, in turn. -/
def Invocation.asked (v : Invocation) (file : Option File) (cid : String) : List String :=
  match v.command with
  | .put (.ok bytes) o =>
    if (v.client.putObject bytes).toOption = some cid then
      (putPicks v.client v.caps cid bytes.length o).map Prod.fst
    else []
  | .maintain =>
    ((load file).toOption.bind (Catalog.get cid)).elim [] fun entry =>
      (picks v.client v.caps cid entry).map Prod.fst
  | _ => []

/-- The edges that a pass probes for the object, in turn. -/
def Invocation.probed (v : Invocation) (file : Option File) (cid : String) : List String :=
  match v.command with
  | .maintain => ((load file).toOption.bind (Catalog.get cid)).elim [] Entry.edgeIds
  | _ => []

/-- The command was answered by an edge it asked or probed that it holds the
object. -/
def Invocation.Told (v : Invocation) (file : Option File) (cid edge : String) (d : Content) :
    Prop :=
  (∃ i, (v.asked file cid)[i]? = some edge ∧
    cached (v.client.replicateTo i edge ⟨v.caps, cid, d.bytesLen, d.ttlSecs⟩) = true) ∨
  ∃ i, (v.probed file cid)[i]? = some edge ∧ held (v.client.probe i edge ⟨v.caps, cid⟩) = true

/-- The command makes the CID's edge list anew: it writes what the catalog says
of it, or is a pass that is committed. -/
def Job.Remakes (j : Job) (file : Option File) (cid : String) : Prop :=
  cid ∈ (j.writes file).map Prod.fst ∨ ∃ v, j = .run v ∧ v.command = .maintain ∧ v.writable = true

section

variable {v : Invocation} {file : Option File} {c : Catalog} {cid edge : String}

theorem Invocation.Told.vouches {net : EdgeNet} {d : Content} (hans : net.Answers v.client)
    (hread : net.Reads) (h : v.Told file cid edge d) :
    net.Vouches v.caps (v.asked file cid) (v.probed file cid) cid edge d := by
  obtain ⟨i, hplace, h⟩ | ⟨i, hplace, h⟩ := h
  · rw [hans.replicateTo] at h
    exact vouches_of_cached hread hplace h
  · rw [hans.probe] at h
    exact vouches_of_held hread hplace h

theorem told_of_measured {entry : Entry} (hload : load file = .ok c) (hv : v.command = .maintain)
    (hget : c.get cid = some entry) (h : Measured v.client v.caps cid entry edge) :
    v.Told file cid edge entry.content := by
  obtain h | ⟨-, answer, h, hcached⟩ := h
  · obtain ⟨i, hi, heq⟩ := List.mem_mapIdx.1 h
    obtain ⟨rfl, hheld⟩ := Prod.mk.inj heq
    refine .inr ⟨i, ?_, hheld⟩
    rw [Invocation.probed, hv, hload]
    simp [Except.toOption, hget, hi]
  · obtain ⟨i, hi⟩ := List.mem_iff_getElem?.1 h
    have hplace : (v.asked file cid)[i]? = some edge := by
      rw [Invocation.asked, hv, hload]
      simp [Except.toOption, hget, hi]
    refine .inl ⟨i, hplace, ?_⟩
    unfold picks at hi
    split at hi
    · obtain ⟨pick, -, heq⟩ := Option.map_eq_some_iff.1 (List.getElem?_mapIdx.symm.trans hi)
      obtain ⟨rfl, rfl⟩ := Prod.mk.inj heq
      exact hcached
    · simp at hi

/-- A `put` records an edge that told it so. -/
theorem told_of_put {bytes : Bytes} {o : PutOptions} {d : Content}
    (hv : v.command = .put (.ok bytes) o) (hput : v.client.putObject bytes = .ok d.cid)
    (hlen : d.bytesLen = bytes.length) (httl : d.ttlSecs = o.ttl) {p : String × Except String CacheResp}
    (hp : p ∈ putPicks v.client v.caps d.cid bytes.length o) (hcached : cached p.2 = true) :
    v.Told file d.cid p.1 d := by
  obtain ⟨i, hi⟩ := List.mem_iff_getElem?.1 hp
  have hplace : (v.asked file d.cid)[i]? = some p.1 := by
    rw [Invocation.asked, hv]
    simp [Except.toOption, hput, hi]
  refine .inl ⟨i, hplace, ?_⟩
  unfold putPicks at hi
  split at hi
  · obtain ⟨pick, -, rfl⟩ := Option.map_eq_some_iff.1 (List.getElem?_mapIdx.symm.trans hi)
    rw [hlen, httl]
    exact hcached
  · simp at hi

end

/-! ## One command -/

/-- Why a command leaves an edge recorded: it was recorded before, or the command
made the list anew and was told by the edge. -/
def Justified (file : Option File) (c : Catalog) (j : Job) (cid edge : String) (d : Content) :
    Prop :=
  (¬ j.Remakes file cid ∧ c.Lists cid edge d) ∨
    j.Remakes file cid ∧ ∃ v, j = .run v ∧ v.Told file cid edge d

section

variable {file : Option File} {c c' : Catalog} {cid edge : String} {entry : Entry} {j : Job}

/-- A command that leaves what it does not write. -/
theorem justified_of_same (hno : ¬ j.Remakes file cid)
    (hsame : (c'.get cid).map (fun e => (e.content, e.edgeIds)) =
      (c.get cid).map fun e => (e.content, e.edgeIds))
    (hget : c'.get cid = some entry) (hedge : edge ∈ entry.edgeIds) :
    Justified file c j cid edge entry.content := by
  rw [hget] at hsame
  obtain ⟨e, he, heq⟩ := Option.map_eq_some_iff.1 hsame.symm
  obtain ⟨hcontent, hids⟩ := Prod.mk.inj heq
  exact .inl ⟨hno, e, he, hcontent, hids ▸ hedge⟩

section

variable {v : Invocation}

theorem remakes_run_iff : Job.Remakes (.run v) file cid ↔ v.writable = true ∧
    ((∃ d, v.describes = some d ∧ d.cid = cid) ∨ v.command = .maintain) := by
  have hmaintain : (∃ v', Job.run v = .run v' ∧ v'.command = .maintain ∧ v'.writable = true) ↔
      v.command = .maintain ∧ v.writable = true := by
    simp [Job.run.injEq]
  rw [Job.Remakes, Job.writes, hmaintain]
  cases v.describes <;> cases v.writable <;> simp [eq_comm (b := cid)]

/-- A command that saves nothing. -/
theorem justified_of_none (hload : load file = .ok c)
    (hnone : (if v.writable then v.saves file else none) = none)
    (hno : ¬ Job.Remakes (.run v) file cid)
    (hleaves : load (Job.leaves file (.run v)) = .ok c') (hget : c'.get cid = some entry)
    (hedge : edge ∈ entry.edgeIds) : Justified file c (.run v) cid edge entry.content := by
  rw [leaves_of_none hnone, hload] at hleaves
  cases hleaves
  exact justified_of_same hno rfl hget hedge

variable (hload : load file = .ok c) (hw : v.writable = true)
  (hleaves : load (Job.leaves file (.run v)) = .ok c') (hget : c'.get cid = some entry)
  (hedge : edge ∈ entry.edgeIds)

include hw in
theorem saved_of_writable {x : Option Catalog} (h : v.saves file = x) :
    (if v.writable then v.saves file else none) = x := by
  rw [if_pos hw, h]

include hload hw hleaves hget hedge

theorem justified_put {file₀ : Except String Bytes} {o : PutOptions}
    (hv : v.command = .put file₀ o) : Justified file c (.run v) cid edge entry.content := by
  have hcmd : v.command ≠ .maintain := by
    rw [hv]
    exact Command.noConfusion
  obtain ⟨hdesc, hput⟩ | ⟨bytes, content, rfl, hput, hlen, httl, hdesc, hsaves⟩ :=
    saves_of_put hload hv
  · refine justified_of_none hload (saved_of_writable hw hput) (fun h => ?_) hleaves hget hedge
    obtain ⟨-, ⟨d, hd, -⟩ | hm⟩ := remakes_run_iff.1 h
    · rw [hdesc] at hd
      cases hd
    · exact hcmd hm
  · rw [leaves_of_some (saved_of_writable hw hsaves)] at hleaves
    cases hleaves
    rw [get_saved, get_upsert] at hget
    by_cases hcid : cid = content.cid
    · rw [if_pos hcid] at hget
      cases hget
      obtain ⟨r, hr, rfl⟩ := List.mem_map.1 hedge
      obtain ⟨p, hp, rfl⟩ := List.mem_map.1 hr
      obtain ⟨hp, hcached⟩ := List.mem_filter.1 hp
      refine .inr ⟨remakes_run_iff.2 ⟨hw, .inl ⟨content, hdesc, hcid.symm⟩⟩, v, rfl, ?_⟩
      rw [hcid]
      exact told_of_put hv hput hlen httl hp hcached
    · rw [if_neg hcid] at hget
      refine .inl ⟨fun h => ?_, entry, hget, rfl, hedge⟩
      obtain ⟨-, ⟨d, hd, hcid'⟩ | hm⟩ := remakes_run_iff.1 h
      · rw [hdesc] at hd
        cases hd
        exact hcid hcid'.symm
      · exact hcmd hm

theorem justified_maintain (hv : v.command = .maintain) :
    Justified file c (.run v) cid edge entry.content := by
  obtain ⟨after, hpass, hcommit⟩ := saves_of_maintain hload hv
  rw [leaves_of_some (saved_of_writable hw hpass)] at hleaves
  cases hleaves
  rw [get_commit hcommit] at hget
  cases hc : c.get cid with
  | none =>
    rw [hc] at hget
    cases hget
  | some e =>
    rw [hc] at hget
    cases hget
    refine .inr ⟨remakes_run_iff.2 ⟨hw, .inr hv⟩, v, rfl, ?_⟩
    have htold : v.Told file cid edge e.content :=
      told_of_measured hload hv hc (mem_recruit_iff.1 hedge)
    exact htold

theorem justified_status {cid' : String} (hv : v.command = .status cid') :
    Justified file c (.run v) cid edge entry.content := by
  have hno : ¬ Job.Remakes (.run v) file cid := by
    intro h
    obtain ⟨-, ⟨d, hd, -⟩ | hm⟩ := remakes_run_iff.1 h
    · rw [Invocation.describes, hv] at hd
      cases hd
    · rw [hv] at hm
      cases hm
  cases hs : v.saves file with
  | none => exact justified_of_none hload (saved_of_writable hw hs) hno hleaves hget hedge
  | some after =>
    rw [leaves_of_some (saved_of_writable hw hs)] at hleaves
    cases hleaves
    exact justified_of_same hno (saves_of_status hload hv hs cid) hget hedge

end

theorem justified_run (hload : load file = .ok c) (v : Invocation)
    (hleaves : load (Job.leaves file (.run v)) = .ok c') (hget : c'.get cid = some entry)
    (hedge : edge ∈ entry.edgeIds) : Justified file c (.run v) cid edge entry.content := by
  cases hw : v.writable with
  | false =>
    refine justified_of_none hload (if_neg (by rw [hw]; exact Bool.false_ne_true)) (fun h => ?_)
      hleaves hget hedge
    rw [(remakes_run_iff.1 h).1] at hw
    cases hw
  | true =>
    cases hv : v.command with
    | put file₀ o => exact justified_put hload hw hleaves hget hedge hv
    | maintain => exact justified_maintain hload hw hleaves hget hedge hv
    | status cid' => exact justified_status hload hw hleaves hget hedge hv

theorem justified_forgets {cids : List String} {file' : Option File} (hload : load file = .ok c)
    (hrun : ∀ v, j ≠ .run v) (hwrites : j.writes file = cids.map fun x => (x, none))
    (hforgets : Forgets cids file file') (hleaves : load file' = .ok c')
    (hget : c'.get cid = some entry) (hedge : edge ∈ entry.edgeIds) :
    Justified file c j cid edge entry.content := by
  have hremakes : j.Remakes file cid ↔ cid ∈ cids := by
    rw [Job.Remakes, hwrites]
    simp [hrun]
  by_cases hmem : cid ∈ cids
  · -- what is forgotten is not recorded
    rw [Forgets, if_neg (List.ne_nil_of_mem hmem)] at hforgets
    obtain ⟨c₁, c₂, -, hc₂, hall⟩ := hforgets
    rw [hleaves] at hc₂
    cases hc₂
    rw [hall, if_pos hmem] at hget
    cases hget
  · have hsame := hforgets.load_eq hmem
    rw [hload, hleaves] at hsame
    simp only [Except.map, Except.ok.injEq] at hsame
    refine justified_of_same (fun h => hmem (hremakes.1 h)) ?_ hget hedge
    rw [hsame]

theorem justified_step {d : Content} (hload : load file = .ok c) (j : Job)
    (hleaves : load (j.leaves file) = .ok c') (hlists : c'.Lists cid edge d) :
    Justified file c j cid edge d := by
  obtain ⟨entry, hget, rfl, hedge⟩ := hlists
  cases j with
  | run v => exact justified_run hload v hleaves hget hedge
  | purge net caps cid tag edge keep edges =>
    obtain ⟨cids, hwrites, hforgets⟩ := forgets_purge hload net caps cid tag edge keep edges
    exact justified_forgets hload (fun _ => Job.noConfusion) hwrites hforgets hleaves hget hedge
  | forget save cid edges =>
    obtain ⟨cids, hwrites, hforgets⟩ := forgets_forget hload save cid edges
    exact justified_forgets hload (fun _ => Job.noConfusion) hwrites hforgets hleaves hget hedge

end

/-! ## Runs -/

/-- Why an edge is recorded after a run: it was recorded at first, and no command
made the list anew; or the last one to make it anew was told by the edge. -/
def Grounded (c : Catalog) (cid edge : String) (d : Content)
    (past : List (Option File × Job × List (String × Option Content))) : Prop :=
  (c.Lists cid edge d ∧ ∀ t ∈ past, ¬ t.2.1.Remakes t.1 cid) ∨
    Since (fun t => t.2.1.Remakes t.1 cid ∧ ∃ v, t.2.1 = .run v ∧ v.Told t.1 cid edge d)
      (fun t => t.2.1.Remakes t.1 cid) past

theorem grounded_run {file : Option File} {c : Catalog} (cid edge : String) (d : Content)
    (hload : load file = .ok c) (js : List Job) :
    ∃ c', load (final Job.step file js) = .ok c' ∧
      (c'.Lists cid edge d → Grounded c cid edge d (trace Job.step file js)) := by
  refine history_invariant (I := fun f past => ∃ c', load f = .ok c' ∧
    (c'.Lists cid edge d → Grounded c cid edge d past)) (fun f j past ⟨c₁, hload₁, hpast⟩ => ?_)
    ⟨c, hload, fun h => .inl ⟨h, fun _ ht => absurd ht List.not_mem_nil⟩⟩ js
  obtain ⟨c₂, hload₂⟩ := (describes_step f j ⟨c₁, hload₁⟩).1
  refine ⟨c₂, hload₂, fun hlists => ?_⟩
  obtain ⟨hno, hlists₁⟩ | ⟨hremakes, htold⟩ := justified_step hload₁ j hload₂ hlists
  · obtain ⟨hinit, hnever⟩ | hsince := hpast hlists₁
    · refine .inl ⟨hinit, fun t ht => ?_⟩
      obtain ht | ht := List.mem_append.1 ht
      · exact hnever t ht
      · rw [List.mem_singleton.1 ht]
        exact hno
    · exact .inr (hsince.concat hno)
  · exact .inr (since_concat ⟨hremakes, htold⟩)

/-- **A recorded edge answered for itself.** After any run of commands, and
whatever happens to the edges between their requests: an edge that the catalog
records for a CID was recorded at first, and no command made the CID's edge list
anew; or the last command that did was answered by the edge, which was one of
those it asked, honored the request and had the object: asked to cache it as the
catalog describes it, it held what the store answered for the time it promised,
or probed, it held it. -/
theorem recorded_edges_vouched (file : Option File) (c : Catalog) (js : List Job)
    (cid edge : String) (d : Content) (net : Invocation → EdgeNet)
    (hnet : ∀ v, Job.run v ∈ js → (net v).Answers v.client ∧ (net v).Reads)
    (hload : load file = .ok c) :
    ∃ c', load (final Job.step file js) = .ok c' ∧ (c'.Lists cid edge d →
      (c.Lists cid edge d ∧ ∀ t ∈ trace Job.step file js, ¬ t.2.1.Remakes t.1 cid) ∨
      Since (fun t => t.2.1.Remakes t.1 cid ∧
          ∃ v, t.2.1 = .run v ∧
            (net v).Vouches v.caps (v.asked t.1 cid) (v.probed t.1 cid) cid edge d)
        (fun t => t.2.1.Remakes t.1 cid) (trace Job.step file js)) := by
  obtain ⟨c', hend, hgrounded⟩ := grounded_run cid edge d hload js
  refine ⟨c', hend, fun hlists => (hgrounded hlists).imp_right fun h => h.mono ?_⟩
  intro t ht ⟨hremakes, v, hv, htold⟩
  obtain ⟨hans, hread⟩ := hnet v (hv ▸ trace_input ht)
  exact ⟨hremakes, v, hv, htold.vouches hans hread⟩

/-! ### One publication -/

/-- One request gets through, and is answered. -/
def sampleEdgeNet : EdgeNet where
  cache _ _ req := (if req = sampleCacheReq then .delivered cacheLink true else .lost, sampleWorld)
  status _ _ _ := (.lost, sampleWorld)

def vouchedClient : CdnClient where
  putObject _ := .ok sampleCid
  findService _ := .ok []
  probe i edge req := (sampleEdgeNet.probe i edge req).1
  pickEdges _ _ _ := .ok ["edge-a"]
  replicateTo i edge req := (sampleEdgeNet.replicateTo i edge req).1

/-- Two bytes are put, and the edge is asked to cache them. -/
def vouchedPut : Invocation :=
  ⟨.put (.ok [1, 2]) ⟨1, 0, false, none, [], false⟩, vouchedClient, "c0", true⟩

def vouchedContent : Content := ⟨sampleCid, 2, .publicAccess, 1, 0, none, []⟩

theorem sampleEdgeNet_reads : sampleEdgeNet.Reads := by
  refine ⟨fun i edge req l w h => ?_, fun i edge req l w h => ?_⟩
  · obtain ⟨hsent, rfl⟩ := Prod.mk.inj h
    split at hsent
    · next hreq =>
      cases hsent
      rw [hreq]
      exact Link.cacheLink_readsBack
    · cases hsent
  · cases h

theorem sampleEdgeNet_answers : sampleEdgeNet.Answers vouchedClient :=
  ⟨fun _ _ _ => rfl, fun _ _ _ => rfl⟩

theorem replicateTo_vouchedClient :
    vouchedClient.replicateTo 0 "edge-a" sampleCacheReq = .ok sampleCached := by
  have hsent : sampleEdgeNet.cache 0 "edge-a" sampleCacheReq =
      (.delivered cacheLink true, sampleWorld) := congrArg (·, sampleWorld) (if_pos rfl)
  rw [sampleEdgeNet_answers.replicateTo, EdgeNet.replicateTo_delivered hsent]
  exact Link.cacheLink_replicateTo

theorem putPicks_vouchedClient :
    putPicks vouchedClient "c0" sampleCid 2 ⟨1, 0, false, none, [], false⟩ =
      [("edge-a", .ok sampleCached)] :=
  congrArg (fun a => [("edge-a", a)]) replicateTo_vouchedClient

theorem leaves_vouchedPut : Job.leaves none (.run vouchedPut) =
    some (.ok (Catalog.default.upsert ⟨vouchedContent, [⟨"edge-a", true⟩]⟩).saved) := by
  refine leaves_of_some (Eq.trans (if_pos rfl) ?_)
  change (cmdPut vouchedClient "c0" (.ok [1, 2]) ⟨1, 0, false, none, [], false⟩ none).toOption = _
  rw [cmdPut_eq rfl rfl rfl]
  change Except.toOption (apply (record sampleCid 2 _ (((putPicks _ _ _ 2 _).filter _).map _)) _) = _
  rw [putPicks_vouchedClient]
  rfl

theorem recorded_edges_vouched_sample :
    sampleEdgeNet.Vouches "c0" ["edge-a"] [] sampleCid "edge-a" vouchedContent := by
  obtain ⟨c', hend, hvouched⟩ := recorded_edges_vouched none Catalog.default [.run vouchedPut]
    sampleCid "edge-a" vouchedContent (fun _ => sampleEdgeNet)
    (fun v hv => by
      cases List.mem_singleton.1 hv
      exact ⟨sampleEdgeNet_answers, sampleEdgeNet_reads⟩) rfl
  have hleaves : load (final Job.step none [.run vouchedPut]) =
      .ok (Catalog.default.upsert ⟨vouchedContent, [⟨"edge-a", true⟩]⟩).saved :=
    congrArg load leaves_vouchedPut
  rw [hleaves] at hend
  cases hend
  have hlists : (Catalog.default.upsert ⟨vouchedContent, [⟨"edge-a", true⟩]⟩).saved.Lists sampleCid
      "edge-a" vouchedContent :=
    ⟨⟨vouchedContent, [⟨"edge-a", true⟩]⟩, by rw [get_saved, get_upsert]; exact if_pos rfl, rfl,
      by decide⟩
  obtain ⟨⟨entry, hentry, -⟩, -⟩ | hsince := hvouched hlists
  · cases hentry
  · obtain ⟨t, ht, -, v, hv, hvouch⟩ := hsince.exists
    have hmem : t.2.1 ∈ [Job.run vouchedPut] := trace_input ht
    rw [hv] at hmem
    cases List.mem_singleton.1 hmem
    have hasked : vouchedPut.asked t.1 sampleCid = ["edge-a"] :=
      congrArg (List.map Prod.fst) putPicks_vouchedClient
    rw [hasked] at hvouch
    exact hvouch

end Cli

end CeCdn
