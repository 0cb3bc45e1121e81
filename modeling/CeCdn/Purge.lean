/-
The commands of the CLI that take content away (`main.rs`): `purge` asks the
edges of each target to drop it and then forgets the target, `forget` only
forgets it.

What a purge comes to, whether it ends well or stops at a target, is
`purge_accounted`: of the targets it got through, every edge it asked and
that honored it has let go, the catalog has lost these targets and nothing else,
and no edge has lost anything but targets.
-/
import CeCdn.Calls
import CeCdn.StatusHealth

namespace CeCdn

open Lib Text Catalog

namespace Catalog

/-- Every CID with the tag, in the order of the CIDs. -/
def cidsWithTag (tag : String) (c : Catalog) : List String :=
  ((Ordered.entries c.items).filter fun e => decide (tag ∈ e.2.content.tags)).map Prod.fst

/-- The closure of an update that forgets a CID. -/
def remove (cid : String) : Update := fun catalog =>
  .ok { catalog with items := catalog.items.erase cid }

end Catalog

namespace Cli

/-- How a request to an edge fares. -/
inductive Transit where
  | lost
  /-- The edge gets it. Its answer comes back in time, or not. -/
  | delivered (l : Link) (answered : Bool)

def Transit.purgeAt (edge : String) (req : PurgeReq) (w : World) :
    Transit → Except String PurgeResp × World
  | .lost => (.error s!"{TOPIC_PURGE} request to {edge}", w)
  | .delivered l true => l.purgeAt edge req w
  | .delivered l false => (.error s!"{TOPIC_PURGE} request to {edge}", (l.purgeAt edge req w).2)

/-- The catalog file and the edges of the network. -/
structure Deployment where
  file : Option File
  edges : String → World

/-- What a purge meets outside its process. -/
structure PurgeNet where
  findService : String → Except String (List String)
  /-- By CID, the place among the requests for it, and edge. -/
  deliver : String → Nat → String → Transit
  /-- By CID, the error of the lock or of writing the catalog file, if any. -/
  save : String → Except String Unit

structure PurgeReport where
  cid : String
  /-- How many edges answered that they had it. -/
  purged : Nat
  asked : Nat
deriving DecidableEq

/-- `Ok(r) if r.purged`. -/
def purged : Except String PurgeResp → Bool
  | .ok r => r.purged
  | .error _ => false

/-- An update of the catalog file that nobody else touches. -/
def updateFile (save : Except String Unit) (u : Update) : Eff Deployment String Unit := ⟨fun d =>
  match save, (load d.file).bind (apply u) with
  | .ok (), .ok saved => (.ok (), { d with file := some (.ok saved) })
  | .ok (), .error e => (.error e, d)
  | .error e, _ => (.error e, d)⟩

def loadFile : Eff Deployment String Catalog := ⟨fun d => (load d.file, d)⟩

section

variable (net : PurgeNet) (caps : String)

/-- The edges a purge of a CID addresses: the one that is named, or the recorded
and the advertised ones. -/
def addressed (edge : Option String) (cid : String) : Eff Deployment String (List String) :=
  match edge with
  | some e => pure [e]
  | none => do
    let catalog ← loadFile
    let recorded := (catalog.get cid).elim [] Entry.edgeIds
    let advertised := (net.findService (serviceFor cid)).toOption.getD []
    pure (advertised.foldl (fun set a => if a ∈ set then set else set ++ [a]) recorded)

/-- An edge is asked, at its place; `acc` counts the edges that had the CID. -/
def ask (cid : String) (acc : Nat × (String → World)) (p : String × Nat) : Nat × (String → World) :=
  let (r, w) := (net.deliver cid p.2 p.1).purgeAt p.1 ⟨caps, cid⟩ (acc.2 p.1)
  (acc.1 + (purged r).toNat, Function.update acc.2 p.1 w)

def askAll (cid : String) (edges : List String) (worlds : String → World) :
    Nat × (String → World) :=
  edges.zipIdx.foldl (ask net caps cid) (0, worlds)

/-- One round of the loop over the targets. -/
def purgeTarget (edge : Option String) (keep : Bool) (cid : String) :
    Eff Deployment String PurgeReport := do
  let edges ← addressed net edge cid
  let n ← Eff.step fun d =>
    ((askAll net caps cid edges d.edges).1,
      { d with edges := (askAll net caps cid edges d.edges).2 })
  if keep then pure ⟨cid, n, edges.length⟩
  else do
    updateFile (net.save cid) (remove cid)
    pure ⟨cid, n, edges.length⟩

def purgeTargets (edge : Option String) (keep : Bool) :
    List String → Eff Deployment String (List PurgeReport)
  | [] => pure []
  | cid :: cids => do
    let r ← purgeTarget net caps edge keep cid
    let rs ← purgeTargets edge keep cids
    pure (r :: rs)

end

/-- The CIDs to purge: the one that is named, or every one with the tag. -/
def targets (cid tag : Option String) (file : Option File) : Except String (List String) :=
  match cid, tag with
  | some c, _ => .ok [c]
  | none, some t => (load file).map (cidsWithTag t)
  | none, none => .error "provide a CID or --tag"

def cmdPurge (net : PurgeNet) (caps : String) (cid tag edge : Option String) (keep : Bool) :
    Eff Deployment String (List PurgeReport) := do
  let cids ← ⟨fun d => (targets cid tag d.file, d)⟩
  purgeTargets net caps edge keep cids

/-- `forget`: no edge is contacted. -/
def cmdForget (save : Except String Unit) (cid : String) : Eff Deployment String Unit :=
  updateFile save (remove cid)

/-! ## One request -/

end Cli

/-- The object is not in the edge's cache. -/
def World.Lacks (w : World) (cid : String) : Prop := w.edge.cache.entries.lookup cid = none

/-- An edge that has lost nothing but some of the CIDs, and got nothing. -/
structure Swept (cids : List String) (w w' : World) : Prop where
  publicSet : w'.edge.publicSet = w.edge.publicSet
  others : ∀ c, c ∉ cids → w'.edge.cache.entries.lookup c = w.edge.cache.entries.lookup c
  lacks : ∀ c, w.Lacks c → w'.Lacks c

namespace Swept

variable {cids cids' : List String} {w w' w'' : World}

theorem refl (cids : List String) (w : World) : Swept cids w w :=
  ⟨rfl, fun _ _ => rfl, fun _ => id⟩

theorem trans (h : Swept cids w w') (h' : Swept cids w' w'') : Swept cids w w'' where
  publicSet := h'.publicSet.trans h.publicSet
  others c hc := (h'.others c hc).trans (h.others c hc)
  lacks c hc := h'.lacks c (h.lacks c hc)

theorem mono (hsub : cids ⊆ cids') (h : Swept cids w w') : Swept cids' w w' :=
  ⟨h.publicSet, fun c hc => h.others c fun hmem => hc (hsub hmem), h.lacks⟩

theorem purge (cid : String) (w : World) :
    Swept [cid] w (w.setCache (w.edge.cache.purge cid).2) := by
  have hlookup : ∀ c, (w.edge.cache.purge cid).2.entries.lookup c =
      if c = cid then none else w.edge.cache.entries.lookup c := by
    intro c
    rw [EdgeCache.purge, EdgeCache.dropEntry_snd]
    exact HashMap.lookup_erase_eq _ _ _
  refine ⟨rfl, fun c hc => ?_, fun c hc => ?_⟩
  · rw [World.cache_setCache, hlookup, if_neg fun h => hc (List.mem_singleton.2 h)]
  · rw [World.Lacks, World.cache_setCache, hlookup]
    split
    · rfl
    · exact hc

end Swept

theorem World.lacks_purge (cid : String) (w : World) :
    (w.setCache (w.edge.cache.purge cid).2).Lacks cid := by
  rw [World.Lacks, World.cache_setCache, EdgeCache.purge, EdgeCache.dropEntry_snd]
  exact HashMap.lookup_erase_eq_none.2 (.inl rfl)

namespace Link

variable {l : Link} {topic edge : String} {doc : WireDoc} {w w' : World}

/-- The answer's way back changes nothing at the edge. -/
theorem call_snd {α : Type} (l : Link) (topic edge : String) (doc : WireDoc)
    (ofDoc : WireDoc → Option α) (w : World) :
    (l.call topic edge doc ofDoc w).2 =
      ((l.env.handle l.src l.ord l.clocks (l.msg topic doc)).run w).2 := by
  rw [call, request]
  split
  · next h =>
    split at h <;> cases h
    next h => exact congrArg Prod.snd h.symm
  · next h =>
    split at h <;> cases h
    next h =>
      rw [h]
      split
      · rfl
      · split <;> rfl

theorem honors_congr (h : w'.edge.publicSet = w.edge.publicSet) (act : Action) :
    l.Honors topic doc w' act ↔ l.Honors topic doc w act := by
  rw [Honors, Honors, h]

/-- Whatever the client hears of it, an edge drops the object when it honors the
request, and otherwise does nothing. -/
theorem purgeAt_snd (edge : String) {req : PurgeReq} (hread : l.sj.Reads req.toDoc) (w : World) :
    (l.purgeAt edge req w).2 =
      if l.Honors TOPIC_PURGE req.toDoc w (.purge req) then
        w.setCache (w.edge.cache.purge req.cid).2
      else w := by
  rw [purgeAt, call_snd]
  obtain ⟨act, hacc, hrun⟩ | ⟨hacc, reason, hrun⟩ :=
    l.env.handle_accepted l.clocks (l.msg TOPIC_PURGE req.toDoc) l.src l.ord w
  · obtain rfl := purge_of_honors hread hacc
    rw [if_pos (show l.Honors _ _ _ _ from hacc), hrun]
    rfl
  · rw [hrun, if_neg]
    intro h
    rw [Honors, hacc] at h
    cases h

end Link

namespace Cli

namespace Transit

variable {dl : Transit} {edge : String} {req : PurgeReq} {w w' : World}

/-- The request gets to an edge that honors it. -/
def Honored (dl : Transit) (req : PurgeReq) (w : World) : Prop :=
  match dl with
  | .lost => False
  | .delivered l _ => l.Honors TOPIC_PURGE req.toDoc w (.purge req)

def Reads (dl : Transit) (req : PurgeReq) : Prop :=
  match dl with
  | .lost => True
  | .delivered l _ => l.sj.Reads req.toDoc

theorem honored_congr (h : w'.edge.publicSet = w.edge.publicSet) :
    dl.Honored req w' ↔ dl.Honored req w := by
  cases dl with
  | lost => rfl
  | delivered l b => exact Link.honors_congr h _

theorem purgeAt_delivered (edge : String) (req : PurgeReq) (w : World) (l : Link) (b : Bool) :
    (Transit.purgeAt edge req w (.delivered l b)).2 = (l.purgeAt edge req w).2 := by
  cases b <;> rfl

theorem purgeAt_swept (hread : dl.Reads req) : Swept [req.cid] w (dl.purgeAt edge req w).2 := by
  cases dl with
  | lost => exact .refl _ _
  | delivered l b =>
    rw [purgeAt_delivered, Link.purgeAt_snd edge hread]
    split
    · exact .purge _ _
    · exact .refl _ _

theorem purgeAt_lacks (hread : dl.Reads req) (h : dl.Honored req w) :
    (dl.purgeAt edge req w).2.Lacks req.cid := by
  cases dl with
  | lost => exact h.elim
  | delivered l b =>
    rw [purgeAt_delivered, Link.purgeAt_snd edge hread, if_pos (show l.Honors _ _ _ _ from h)]
    exact World.lacks_purge _ _

end Transit

/-! ## The requests for one CID -/

section

variable {net : PurgeNet} {caps cid : String} {edges : List (String × Nat)}
  {acc : Nat × (String → World)}

theorem ask_self (p : String × Nat) :
    (ask net caps cid acc p).2 p.1 =
      ((net.deliver cid p.2 p.1).purgeAt p.1 ⟨caps, cid⟩ (acc.2 p.1)).2 :=
  Function.update_self _ _ _

theorem ask_other {p : String × Nat} {x : String} (h : x ≠ p.1) :
    (ask net caps cid acc p).2 x = acc.2 x :=
  Function.update_of_ne h _ _

theorem ask_swept (hread : ∀ i e, (net.deliver cid i e).Reads ⟨caps, cid⟩) (p : String × Nat)
    (x : String) : Swept [cid] (acc.2 x) ((ask net caps cid acc p).2 x) := by
  by_cases h : x = p.1
  · subst h
    rw [ask_self]
    exact Transit.purgeAt_swept (hread p.2 p.1)
  · rw [ask_other h]
    exact .refl _ _

theorem foldl_ask_swept (hread : ∀ i e, (net.deliver cid i e).Reads ⟨caps, cid⟩)
    (edges : List (String × Nat)) (acc : Nat × (String → World)) (x : String) :
    Swept [cid] (acc.2 x) ((edges.foldl (ask net caps cid) acc).2 x) := by
  induction edges generalizing acc with
  | nil => exact .refl _ _
  | cons p edges ih => exact (ask_swept hread p x).trans (ih _)

theorem foldl_ask_other {x : String} (h : x ∉ edges.map Prod.fst) :
    (edges.foldl (ask net caps cid) acc).2 x = acc.2 x := by
  induction edges generalizing acc with
  | nil => rfl
  | cons p edges ih =>
    rw [List.map_cons, List.mem_cons, not_or] at h
    rw [List.foldl_cons, ih h.2, ask_other h.1]

/-- An edge that is asked and honors the request has let go in the end. -/
theorem foldl_ask_lacks (hread : ∀ i e, (net.deliver cid i e).Reads ⟨caps, cid⟩)
    {p : String × Nat} (hp : p ∈ edges)
    (hhon : (net.deliver cid p.2 p.1).Honored ⟨caps, cid⟩ (acc.2 p.1)) :
    ((edges.foldl (ask net caps cid) acc).2 p.1).Lacks cid := by
  obtain ⟨before, after, rfl⟩ := List.append_of_mem hp
  rw [List.foldl_append, List.foldl_cons]
  have hbefore := foldl_ask_swept hread before acc p.1
  refine (foldl_ask_swept hread after _ p.1).lacks cid ?_
  rw [ask_self]
  exact Transit.purgeAt_lacks (hread p.2 p.1) ((Transit.honored_congr hbefore.publicSet).2 hhon)

end

/-! ## What a purge comes to -/

/-- The catalog has lost these CIDs, and nothing else. -/
def Forgets (cids : List String) (file file' : Option File) : Prop :=
  if cids = [] then file' = file
  else ∃ c c', load file = .ok c ∧ load file' = .ok c' ∧
    ∀ x, c'.get x = if x ∈ cids then none else c.get x

/-- A purge addresses the edge for the CID. -/
def Addresses (net : PurgeNet) (edge : Option String) (file : Option File) (cid e : String) : Prop :=
  match edge with
  | some x => e = x
  | none => (∃ c, load file = .ok c ∧ c.Records cid e) ∨
      ∃ advertised, net.findService (serviceFor cid) = .ok advertised ∧ e ∈ advertised

/-- The edges a purge asks for the CID, in turn. -/
def asks (net : PurgeNet) (edge : Option String) (file : Option File) (cid : String) :
    List String :=
  match edge with
  | some e => [e]
  | none =>
    let recorded := ((load file).toOption.bind (Catalog.get cid)).elim [] Entry.edgeIds
    let advertised := (net.findService (serviceFor cid)).toOption.getD []
    advertised.foldl (fun set a => if a ∈ set then set else set ++ [a]) recorded

theorem mem_asks {net : PurgeNet} {edge : Option String} {file : Option File} {cid e : String} :
    e ∈ asks net edge file cid ↔ Addresses net edge file cid e := by
  cases edge with
  | some x => exact List.mem_singleton
  | none =>
    rw [asks, mem_foldl_push, Addresses]
    refine or_congr ?_ ?_
    · cases load file with
      | error err => simp [Except.toOption]
      | ok c => cases hget : c.get cid <;> simp [Except.toOption, Records, hget]
    · cases net.findService (serviceFor cid) <;> simp [Except.toOption]

theorem asks_congr {net : PurgeNet} {edge : Option String} {file file' : Option File} {x : String}
    (h : (load file').map (Catalog.get x) = (load file).map (Catalog.get x)) :
    asks net edge file' x = asks net edge file x := by
  have hget : ∀ f : Option File, (load f).toOption.bind (Catalog.get x) =
      ((load f).map (Catalog.get x)).toOption.join := by
    intro f
    cases load f <;> rfl
  cases edge with
  | some y => rfl
  | none => rw [asks, asks, hget, hget, h]

theorem forgets_nil (file : Option File) : Forgets [] file file := by
  rw [Forgets, if_pos rfl]

/-- What is left of an entry that is not forgotten. -/
theorem Forgets.load_eq {cids : List String} {file file' : Option File} {x : String}
    (h : Forgets cids file file') (hx : x ∉ cids) :
    (load file').map (Catalog.get x) = (load file).map (Catalog.get x) := by
  unfold Forgets at h
  split at h
  · rw [h]
  · obtain ⟨c, c', hc, hc', hget⟩ := h
    simp only [hc, hc', Except.map, hget, if_neg hx]

theorem Forgets.load_error {cids : List String} {file file' : Option File} {err : String}
    (h : Forgets cids file file') (herr : load file' = .error err) : load file = .error err := by
  unfold Forgets at h
  split at h
  · rw [← h, herr]
  · obtain ⟨c, c', -, hc', -⟩ := h
    rw [hc'] at herr
    cases herr

theorem Forgets.cons {cid : String} {cids : List String} {file file' file'' : Option File}
    (h : Forgets [cid] file file') (h' : Forgets cids file' file'') :
    Forgets (cid :: cids) file file'' := by
  rw [Forgets, if_neg (by simp)] at h
  obtain ⟨c, c', hc, hc', hget⟩ := h
  rw [Forgets, if_neg (by simp)]
  by_cases hnil : cids = []
  · rw [Forgets, if_pos hnil] at h'
    subst hnil h'
    exact ⟨c, c', hc, hc', hget⟩
  · rw [Forgets, if_neg hnil] at h'
    obtain ⟨c₁, c'', hc₁, hc'', hget'⟩ := h'
    rw [hc'] at hc₁
    cases hc₁
    refine ⟨c, c'', hc, hc'', fun x => ?_⟩
    rw [hget', hget]
    by_cases hx : x ∈ cids
    · rw [if_pos hx, if_pos (List.mem_cons_of_mem _ hx)]
    · simp [hx]

section

variable {net : PurgeNet} {caps : String} {edge : Option String} {keep : Bool} {cid : String}
  {d : Deployment}

variable (net edge cid d) in
/-- The edges to ask can be told, unless the catalog cannot be read. -/
theorem addressed_cases :
    (addressed net edge cid).run d = (.ok (asks net edge d.file cid), d) ∨
    ∃ err, (addressed net edge cid).run d = (.error err, d) ∧ load d.file = .error err := by
  cases edge with
  | some x => exact .inl rfl
  | none =>
    cases hload : load d.file with
    | error err =>
      have hrun : (loadFile).run d = (.error err, d) := congrArg (·, d) hload
      exact .inr ⟨err, Eff.run_bind_of_error hrun, rfl⟩
    | ok c =>
      have hrun : (loadFile).run d = (.ok c, d) := congrArg (·, d) hload
      refine .inl ((Eff.run_bind_of_ok hrun).trans ?_)
      rw [asks, hload]
      rfl

theorem updateFile_remove_cases (save : Except String Unit) (cid : String) (d : Deployment) :
    (∃ file', (updateFile save (remove cid)).run d = (.ok (), { d with file := file' }) ∧
      Forgets [cid] d.file file' ∧ save = .ok ()) ∨
    ∃ err, (updateFile save (remove cid)).run d = (.error err, d) ∧
      (load d.file = .error err ∨ save = .error err) := by
  cases save with
  | error err => exact .inr ⟨err, rfl, .inr rfl⟩
  | ok u =>
    cases hload : load d.file with
    | error err =>
      refine .inr ⟨err, ?_, .inl rfl⟩
      simp only [updateFile, hload]
      rfl
    | ok c =>
      refine .inl ⟨some (.ok { c with items := c.items.erase cid }.saved), ?_, ?_, rfl⟩
      · simp only [updateFile, hload]
        rfl
      · rw [Forgets, if_neg (by simp)]
        refine ⟨c, _, hload, rfl, fun x => ?_⟩
        rw [get_saved, Catalog.get]
        by_cases hx : x = cid
        · rw [if_pos (List.mem_singleton.2 hx), hx]
          exact Finmap.lookup_erase _ _
        · rw [if_neg fun h => hx (List.mem_singleton.1 h)]
          exact Finmap.lookup_erase_ne hx

end

/-- Nothing happened to the edges but what a purge of these CIDs may do: an edge
lost some of them, if it was addressed. -/
structure Touched (net : PurgeNet) (edge : Option String) (cids : List String)
    (d d' : Deployment) : Prop where
  swept : ∀ e, Swept cids (d.edges e) (d'.edges e)
  others : ∀ e, (∀ x ∈ cids, ¬ Addresses net edge d.file x e) → d'.edges e = d.edges e

/-- The edges asked for these CIDs have let go, those that got a request for them
and honored it. -/
def LetGo (net : PurgeNet) (caps : String) (edge : Option String) (cids : List String)
    (d d' : Deployment) : Prop :=
  ∀ x ∈ cids, ∀ i, ∀ e ∈ (asks net edge d.file x)[i]?,
    (net.deliver x i e).Honored ⟨caps, x⟩ (d.edges e) → (d'.edges e).Lacks x

/-- What the edges make of the requests is what the client means. -/
def PurgeNet.Reads (net : PurgeNet) (caps : String) : Prop :=
  ∀ cid i e, (net.deliver cid i e).Reads ⟨caps, cid⟩

theorem Touched.refl (net : PurgeNet) (edge : Option String) (cids : List String)
    (d : Deployment) : Touched net edge cids d d :=
  ⟨fun _ => .refl _ _, fun _ _ => rfl⟩

theorem Touched.mono {net : PurgeNet} {edge : Option String} {cids cids' : List String}
    {d d' : Deployment} (hsub : cids ⊆ cids') (h : Touched net edge cids d d') :
    Touched net edge cids' d d' :=
  ⟨fun e => (h.swept e).mono hsub, fun e he => h.others e fun x hx => he x (hsub hx)⟩

theorem letGo_nil (net : PurgeNet) (caps : String) (edge : Option String) (d d' : Deployment) :
    LetGo net caps edge [] d d' := by
  intro x hx
  cases hx

section

variable {net : PurgeNet} {caps : String} {edge : Option String} {keep : Bool} {cid : String}
  {cids : List String} {d d' d'' : Deployment}

theorem touched_askAll (hread : net.Reads caps) (file' : Option File) :
    Touched net edge [cid] d ⟨file', (askAll net caps cid (asks net edge d.file cid) d.edges).2⟩ ∧
      LetGo net caps edge [cid] d
        ⟨file', (askAll net caps cid (asks net edge d.file cid) d.edges).2⟩ := by
  refine ⟨⟨fun e => foldl_ask_swept (hread cid) _ (0, d.edges) e, fun e he => ?_⟩,
    fun x hx i e he hhon => ?_⟩
  · refine foldl_ask_other fun h => ?_
    rw [List.zipIdx_map_fst, mem_asks] at h
    exact he cid (List.mem_singleton_self cid) h
  · obtain rfl := List.mem_singleton.1 hx
    exact foldl_ask_lacks (hread x) (List.mk_mem_zipIdx_iff_getElem?.2 he) hhon

/-- A purge of one CID and then of others. -/
theorem Touched.cons (h : Touched net edge [cid] d d') (h' : Touched net edge cids d' d'')
    (hfile : ∀ x ∈ cids, asks net edge d'.file x = asks net edge d.file x) :
    Touched net edge (cid :: cids) d d'' where
  swept e := by
    have h₁ : Swept (cid :: cids) (d.edges e) (d'.edges e) := (h.swept e).mono (by simp)
    have h₂ : Swept (cid :: cids) (d'.edges e) (d''.edges e) :=
      (h'.swept e).mono (List.subset_cons_self cid cids)
    exact h₁.trans h₂
  others e he := by
    rw [List.forall_mem_cons] at he
    rw [h'.others e fun x hx hax => he.2 x hx ?_, h.others e (by simpa using he.1)]
    rwa [← mem_asks, ← hfile x hx, mem_asks]

theorem LetGo.cons {all : List String} (h : LetGo net caps edge [cid] d d')
    (ht : Touched net edge [cid] d d') (h' : LetGo net caps edge cids d' d'')
    (ht' : Touched net edge all d' d'')
    (hfile : ∀ x ∈ cids, asks net edge d'.file x = asks net edge d.file x) :
    LetGo net caps edge (cid :: cids) d d'' := by
  intro x hx i e he hhon
  obtain rfl | hx := List.mem_cons.1 hx
  · exact (ht'.swept e).lacks x (h x (List.mem_singleton_self x) i e he hhon)
  · rw [← hfile x hx] at he
    exact h' x hx i e he ((Transit.honored_congr (ht.swept e).publicSet).2 hhon)

/-- A purge gets through some targets and not through the rest. -/
structure Outcome (net : PurgeNet) (caps : String) (edge : Option String) (keep : Bool)
    (through rest : List String) (d d' : Deployment) : Prop where
  forgets : Forgets (if keep then [] else through) d.file d'.file
  saved : keep = false → ∀ x ∈ through, net.save x = .ok ()
  edges : net.Reads caps →
    Touched net edge (through ++ rest) d d' ∧ LetGo net caps edge through d d'

theorem Outcome.none (net : PurgeNet) (caps : String) (edge : Option String) (keep : Bool)
    (d : Deployment) : Outcome net caps edge keep [] [] d d where
  forgets := by
    rw [ite_self]
    exact forgets_nil d.file
  saved _ x hx := nomatch hx
  edges _ := ⟨.refl _ _ _ _, letGo_nil _ _ _ _ _⟩

variable (edge keep cid d) in
/-- What one round of the loop comes to. -/
theorem purgeTarget_cases :
    (∃ r d', (purgeTarget net caps edge keep cid).run d = (.ok r, d') ∧ r.cid = cid ∧
      Outcome net caps edge keep [cid] [] d d') ∨
    ∃ err d', (purgeTarget net caps edge keep cid).run d = (.error err, d') ∧
      d'.file = d.file ∧ Outcome net caps edge keep [] [cid] d d' ∧
      (load d.file = .error err ∨ keep = false ∧ net.save cid = .error err) := by
  have hnone : ∀ {d' : Deployment}, d'.file = d.file →
      Forgets (if keep then [] else []) d.file d'.file := by
    intro d' h
    rw [ite_self, h]
    exact forgets_nil d.file
  obtain hrun | ⟨err, hrun, hload⟩ := addressed_cases net edge cid d
  · let edges := asks net edge d.file cid
    have hask : (purgeTarget net caps edge keep cid).run d =
        (if keep then pure ⟨cid, (askAll net caps cid edges d.edges).1, edges.length⟩
          else do
            updateFile (net.save cid) (remove cid)
            pure ⟨cid, (askAll net caps cid edges d.edges).1, edges.length⟩ :
          Eff Deployment String PurgeReport).run
          { d with edges := (askAll net caps cid edges d.edges).2 } := by
      rw [purgeTarget, Eff.run_bind_of_ok hrun, Eff.run_bind_of_ok (Eff.run_step _ _)]
    rw [hask]
    cases keep with
    | true =>
      exact .inl ⟨_, _, rfl, rfl, forgets_nil d.file, nofun,
        fun hread => touched_askAll hread d.file⟩
    | false =>
      obtain ⟨file', hupd, hforget, hsave⟩ | ⟨err, hupd, hwhy⟩ :=
        updateFile_remove_cases (net.save cid) cid
          { d with edges := (askAll net caps cid edges d.edges).2 }
      · refine .inl ⟨_, _, Eff.run_bind_of_ok hupd, rfl, hforget, fun _ x hx => ?_,
          fun hread => touched_askAll hread file'⟩
        rw [List.mem_singleton.1 hx, hsave]
      · refine .inr ⟨err, _, Eff.run_bind_of_error hupd, rfl,
          ⟨forgets_nil d.file, fun _ _ => nofun, fun hread => ?_⟩,
          hwhy.imp_right fun h => ⟨rfl, h⟩⟩
        exact ⟨(touched_askAll hread d.file).1, letGo_nil _ _ _ _ _⟩
  · exact .inr ⟨err, d, Eff.run_bind_of_error hrun, rfl,
      ⟨hnone rfl, fun _ _ => nofun, fun _ => ⟨.refl _ _ _ _, letGo_nil _ _ _ _ _⟩⟩,
      .inl hload⟩

theorem Outcome.cons {through rest : List String} (h : Outcome net caps edge keep [cid] [] d d')
    (h' : Outcome net caps edge keep through rest d' d'') (hnew : cid ∉ through ++ rest) :
    Outcome net caps edge keep (cid :: through) rest d d'' := by
  have hfile : ∀ x ∈ through ++ rest, asks net edge d'.file x = asks net edge d.file x := by
    intro x hx
    refine asks_congr (h.forgets.load_eq fun hmem => ?_)
    cases keep with
    | true => cases hmem
    | false => exact hnew (List.mem_singleton.1 hmem ▸ hx)
  refine ⟨?_, fun hk x hx => ?_, fun hread => ?_⟩
  · have hforget := h.forgets
    have hforget' := h'.forgets
    cases keep with
    | true =>
      rw [if_pos rfl, Forgets, if_pos rfl] at hforget hforget' ⊢
      exact hforget'.trans hforget
    | false => exact hforget.cons hforget'
  · obtain rfl | hx := List.mem_cons.1 hx
    · exact h.saved hk x (List.mem_singleton_self x)
    · exact h'.saved hk x hx
  · obtain ⟨ht, hl⟩ := h.edges hread
    obtain ⟨ht', hl'⟩ := h'.edges hread
    exact ⟨ht.cons ht' hfile,
      LetGo.cons hl ht hl' ht' fun x hx => hfile x (List.mem_append_left rest hx)⟩

variable (net caps edge keep) in
/-- The loop gets through some of the targets, through all of them when it ends
well. -/
theorem purgeTargets_cases (hnd : cids.Nodup) (d : Deployment) :
    ∃ r d' through rest, (purgeTargets net caps edge keep cids).run d = (r, d') ∧
      cids = through ++ rest ∧ Outcome net caps edge keep through rest d d' ∧
      (∀ reports, r = .ok reports → rest = [] ∧ reports.map PurgeReport.cid = through) ∧
      ∀ err, r = .error err → load d.file = .error err ∨
        keep = false ∧ ∃ x ∈ rest.head?, net.save x = .error err := by
  induction cids generalizing d with
  | nil =>
    refine ⟨.ok [], d, [], [], rfl, rfl, .none _ _ _ _ d, fun reports h => ?_, fun err h => ?_⟩
    · cases h
      exact ⟨rfl, rfl⟩
    · cases h
  | cons cid cids ih =>
    rw [List.nodup_cons] at hnd
    obtain ⟨r, d₁, hrun, hcid, hone⟩ | ⟨err, d₁, hrun, hfile, hone, hwhy⟩ :=
      purgeTarget_cases edge keep cid d
    · obtain ⟨r', d₂, through, rest, hrun', rfl, hothers, hok, herr⟩ := ih hnd.2 d₁
      have hstep : (purgeTargets net caps edge keep (cid :: (through ++ rest))).run d =
          (purgeTargets net caps edge keep (through ++ rest) >>= fun rs => pure (r :: rs)).run d₁ :=
        Eff.run_bind_of_ok hrun
      cases r' with
      | ok rs =>
        refine ⟨.ok (r :: rs), d₂, cid :: through, rest, hstep.trans (Eff.run_bind_of_ok hrun'), rfl,
          hone.cons hothers hnd.1, fun reports h => ?_, fun err h => ?_⟩
        · cases h
          obtain ⟨hrest, hrs⟩ := hok rs rfl
          exact ⟨hrest, by rw [List.map_cons, hcid, hrs]⟩
        · cases h
      | error err =>
        refine ⟨.error err, d₂, cid :: through, rest, hstep.trans (Eff.run_bind_of_error hrun'), rfl,
          hone.cons hothers hnd.1, fun reports h => ?_, fun err' h => ?_⟩
        · cases h
        · cases h
          exact (herr err rfl).imp_left hone.forgets.load_error
    · refine ⟨.error err, d₁, [], cid :: cids, Eff.run_bind_of_error hrun, rfl, ?_,
        fun reports h => ?_, fun err' h => ?_⟩
      · refine ⟨hone.forgets, hone.saved, fun hread => ?_⟩
        exact ⟨(hone.edges hread).1.mono (by simp), letGo_nil _ _ _ _ _⟩
      · cases h
      · cases h
        exact hwhy.imp_right fun h => ⟨h.1, cid, rfl, h.2⟩

end

theorem nodup_targets {cid tag : Option String} {file : Option File} {cids : List String}
    (h : targets cid tag file = .ok cids) : cids.Nodup := by
  unfold targets at h
  split at h
  · cases h
    exact List.nodup_singleton _
  · cases hload : load file with
    | error err => rw [hload] at h; cases h
    | ok c =>
      rw [hload] at h
      cases h
      exact List.Nodup.sublist (List.filter_sublist.map Prod.fst)
        (Ordered.nodup_keys_entries c.items)
  · cases h

theorem cmdPurge_cases (net : PurgeNet) (caps : String) (cid tag edge : Option String)
    (keep : Bool) (d : Deployment) :
    ∃ r d' through rest, (cmdPurge net caps cid tag edge keep).run d = (r, d') ∧
      (targets cid tag d.file).toOption.getD [] = through ++ rest ∧
      Outcome net caps edge keep through rest d d' ∧
      (∀ reports, r = .ok reports → rest = [] ∧ reports.map PurgeReport.cid = through) ∧
      ∀ err, r = .error err → targets cid tag d.file = .error err ∨ load d.file = .error err ∨
        keep = false ∧ ∃ x ∈ rest.head?, net.save x = .error err := by
  cases htargets : targets cid tag d.file with
  | error err =>
    have hrun : (⟨fun d => (targets cid tag d.file, d)⟩ :
        Eff Deployment String (List String)).run d = (.error err, d) := congrArg (·, d) htargets
    refine ⟨.error err, d, [], [], Eff.run_bind_of_error hrun, rfl, .none _ _ _ _ d,
      fun reports h => ?_, fun err' h => ?_⟩
    · cases h
    · cases h
      exact .inl rfl
  | ok cids =>
    have hrun : (⟨fun d => (targets cid tag d.file, d)⟩ :
        Eff Deployment String (List String)).run d = (.ok cids, d) := congrArg (·, d) htargets
    obtain ⟨r, d', through, rest, hloop, rfl, hout, hok, herr⟩ :=
      purgeTargets_cases net caps edge keep (nodup_targets htargets) d
    exact ⟨r, d', through, rest, (Eff.run_bind_of_ok hrun).trans hloop, rfl, hout, hok,
      fun err h => .inr (herr err h)⟩

end Cli

end CeCdn
