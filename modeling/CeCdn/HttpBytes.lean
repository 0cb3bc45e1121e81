/-
HTTP serves only the right bytes. When the origin answers a CID with its one
content or fails, every run keeps the cache right, and so the bytes a request
carries from a lookup or a fetch to its response (`http_serves_right_bytes`).
-/
import CeCdn.CacheFacts
import CeCdn.Lib.TextFacts
import CeCdn.ServerFacts

namespace CeCdn

open Lib Text Word Machine

/-! ## The header of a part -/

theorem isHeaderChar_of_isDigit {c : Char} (h : isDigit c = true) : isHeaderChar c = true := by
  have hd : 48 ≤ c.toNat ∧ c.toNat ≤ 57 := by simpa [isDigit] using h
  have h127 : c.toNat ≠ 127 := by omega
  have h32 : 32 ≤ c.toNat := by omega
  simp [isHeaderChar, h32, h127]

theorem isHeaderChar_toString (n : Nat) : (toString n).toList.all isHeaderChar = true :=
  List.all_eq_true.2 fun c hc => isHeaderChar_of_isDigit (digits_toString n c hc)

/-- A `Content-Range` is a valid header value, so it reaches the client. -/
theorem isHeaderChar_contentRange (r : ByteRange) (total : Nat) :
    (r.contentRangeHeader total).toList.all isHeaderChar = true := by
  have hbytes : ("bytes ".toList).all isHeaderChar = true := by decide
  have hdash : ("-".toList).all isHeaderChar = true := by decide
  have hslash : ("/".toList).all isHeaderChar = true := by decide
  have hs := isHeaderChar_toString r.start
  have he := isHeaderChar_toString r.stop
  have ht := isHeaderChar_toString total
  change ((("bytes " ++ toString r.start) ++ "-" ++ toString r.stop) ++ "/" ++
    toString total).toList.all isHeaderChar = true
  simp only [String.toList_append, List.all_append, hbytes, hdash, hslash, hs, he, ht,
    Bool.and_self]

/-! ## What a right response is -/

/-- The values of a header. -/
def HttpResponse.values (resp : HttpResponse) (name : String) : List String :=
  (resp.headers.filter fun h => h.1 == name).map (·.2)

/-- The response is a part of the bytes, the one its only `Content-Range` states. -/
def HttpResponse.IsPart (resp : HttpResponse) (bytes : Bytes) : Prop :=
  ∃ r : ByteRange, r.Within bytes.length ∧
    resp.values "Content-Range" = [r.contentRangeHeader bytes.length] ∧
    resp.body = (bytes.drop r.start).take (r.stop - r.start + 1)

/-- A `GET` answered 200 gets the bytes, one answered 206 a part of them. -/
structure HttpResponse.Right (resp : HttpResponse) (req : HttpReq) (bytes : Bytes) : Prop where
  whole : req.headOnly = false → resp.status = 200 → resp.body = bytes
  part : req.headOnly = false → resp.status = 206 → resp.IsPart bytes

theorem HttpResponse.right_of_status {resp : HttpResponse} (req : HttpReq) (bytes : Bytes)
    (h200 : resp.status ≠ 200) (h206 : resp.status ≠ 206) : resp.Right req bytes :=
  ⟨fun _ h => absurd h h200, fun _ h => absurd h h206⟩

theorem values_cacheHeaders (cid : String) (cache : EdgeCache) (now : Nat) (hit : Bool) :
    ((Edge.cacheHeaders cid cache now hit).filter fun h => h.1 == "Content-Range") = [] := by
  unfold Edge.cacheHeaders
  rw [List.filter_append]
  cases cache.age cid now with
  | none => rfl
  | some age => rfl

/-- A response with one valid `Content-Range` after its cache headers has that one. -/
theorem values_part (cid : String) (cache : EdgeCache) (now : Nat) (hit : Bool)
    {range len : String} (hrange : range.toList.all isHeaderChar = true)
    (hlen : len.toList.all isHeaderChar = true) (body : Body) :
    (toHttp ⟨206, Edge.cacheHeaders cid cache now hit ++
      [("Content-Range", range), ("Content-Length", len)], body⟩).values "Content-Range" =
      [range] := by
  have hnone : ((Edge.cacheHeaders cid cache now hit).filter fun h =>
      h.2.toList.all isHeaderChar).filter (fun h => h.1 == "Content-Range") = [] := by
    rw [List.filter_filter, List.filter_eq_nil_iff]
    intro h hmem hboth
    have hmem' : h ∈ (Edge.cacheHeaders cid cache now hit).filter fun h =>
        h.1 == "Content-Range" := List.mem_filter.2 ⟨hmem, (Bool.and_eq_true_iff.1 hboth).1⟩
    rw [values_cacheHeaders] at hmem'
    cases hmem'
  have hkeep : ([("Content-Range", range), ("Content-Length", len)].filter fun h =>
      h.2.toList.all isHeaderChar) = [("Content-Range", range), ("Content-Length", len)] := by
    refine List.filter_eq_self.2 fun h hmem => ?_
    obtain rfl | hmem := List.mem_cons.1 hmem
    · exact hrange
    · rw [List.mem_singleton.1 hmem]
      exact hlen
  unfold HttpResponse.values toHttp
  simp only
  rw [List.filter_append, hkeep, List.filter_append, hnone]
  rfl

namespace Task

/-- Bytes that are the content of the CID are answered with a right response. -/
theorem respond_right (s : ServerState) {t : Task} {bytes : Bytes} (hit : Bool)
    (ht : t.grant ≠ .denied) : (t.respond s bytes hit).Right t.req bytes := by
  have hget : t.req.headOnly = false → t.respond s bytes hit =
      toHttp (Edge.serve t.req.cid bytes ((t.req.header "range").map String.ofList)
        t.grant.access s.edge.cache t.now hit) := by
    intro hhead
    simp only [respond, hhead, Bool.false_eq_true, if_false]
  obtain ⟨-, h⟩ | ⟨r, -, hr, h⟩ | ⟨-, h⟩ := Edge.serve_cases t.req.cid bytes
    ((t.req.header "range").map String.ofList) s.edge.cache t.now hit (Grant.access_ne_denied ht)
  · rw [h] at hget
    refine ⟨fun hhead _ => ?_, fun hhead hstatus => ?_⟩
    · rw [hget hhead]; rfl
    · rw [hget hhead] at hstatus; cases hstatus
  · rw [h] at hget
    refine ⟨fun hhead hstatus => ?_, fun hhead _ => ⟨r, hr, ?_, ?_⟩⟩
    · rw [hget hhead] at hstatus; cases hstatus
    · rw [hget hhead]
      exact values_part _ _ _ _ (isHeaderChar_contentRange r _) (isHeaderChar_toString _) _
    · rw [hget hhead]; rfl
  · rw [h] at hget
    refine ⟨fun hhead hstatus => ?_, fun hhead hstatus => ?_⟩
    · rw [hget hhead] at hstatus; cases hstatus
    · rw [hget hhead] at hstatus; cases hstatus

end Task

/-! ## The cache stays right -/

/-- Every entry holds the content of its CID. -/
def CacheRight (content : String → Bytes) (c : EdgeCache) : Prop :=
  ∀ k e, c.entries.lookup k = some e → e.bytes = content k

namespace CacheRight

variable {content : String → Bytes} {c : EdgeCache}

theorem get (h : CacheRight content c) (cid : String) (now : Nat) :
    CacheRight content (c.get cid now).2 := by
  intro k e he
  obtain ⟨e', he', hbytes⟩ := EdgeCache.lookup_get he
  rw [← hbytes]
  exact h k e' he'

theorem isNegative (h : CacheRight content c) (cid : String) (now : Nat) :
    CacheRight content (c.isNegative cid now).2 := by
  unfold EdgeCache.isNegative
  split
  · split
    · exact h
    · exact h
  · exact h

theorem noteAbsent (h : CacheRight content c) (ord : IterOrder String Tombstone) (cid : String)
    (now : Nat) : CacheRight content (c.noteAbsent ord cid now) := by
  unfold EdgeCache.noteAbsent
  split
  · exact h
  · exact h

theorem insert (h : CacheRight content c) (ord : IterOrder String CacheEntry) (cid : String)
    (now : Nat) : CacheRight content (c.insert ord cid (content cid) now).2 := by
  intro k e he
  obtain ⟨rfl, hbytes, -⟩ | he := EdgeCache.lookup_insertWithTtl he
  · exact hbytes
  · exact h k e he

theorem purge (h : CacheRight content c) (cid : String) : CacheRight content (c.purge cid).2 :=
  fun k e he => h k e ((EdgeCache.evicts_dropEntry cid c).sub k e he)

theorem sweepExpired (h : CacheRight content c) (ord : IterOrder String CacheEntry) (now : Nat) :
    CacheRight content (c.sweepExpired ord now).2 :=
  fun k e he => h k e (EdgeCache.lookup_sweepExpired he)

end CacheRight

/-! ## The requests stay right -/

/-- The bytes a request carries, if any, are these. -/
def Found.Carries (b : Bytes) : Found → Prop
  | .bytes b' _ => b' = b
  | .reply _ => True

@[inherit_doc Found.Carries]
def Phase.Carries (b : Bytes) : Phase → Prop
  | .fetched _ _ (some b') | .shape b' _ => b' = b
  | .unlock _ found | .unref _ found => found.Carries b
  | _ => True

/-- A request past its access decision was granted, and carries the right
bytes, or a right response. -/
structure Task.Right (content : String → Bytes) (t : Task) : Prop where
  granted : t.phase ≠ .access → 0 < t.phase.rank → t.grant ≠ .denied
  carries : t.phase.Carries (content t.req.cid)
  replies : t.phase.Replies fun resp => resp.Right t.req (content t.req.cid)

namespace Task

variable {env : ServerEnv} {o : Orders} {content : String → Bytes} {s s' : ServerState}
  {t t' : Task}

/-- A piece keeps the cache right: what it stores are the bytes it carries. -/
theorem Right.cache (ht : t.Right content) (hs : CacheRight content s.edge.cache)
    (h : Piece env o s t s' t') : CacheRight content s'.edge.cache := by
  cases h with
  | negative | notNegative => exact hs.isNegative _ _
  | hit | miss | rehit => exact hs.get _ _
  | renegative | remiss => exact (hs.get _ _).isNegative _ _
  | stored hp =>
    have hb := ht.carries
    rw [hp] at hb
    subst hb
    exact hs.insert _ _ _
  | absent => exact hs.noteAbsent _ _ _
  | flight => rw [ServerState.edge_inflightLock]; exact hs
  | _ => exact hs

/-- A piece keeps the request right: what it finds in the cache is right, and
so is what it answers with. -/
theorem Right.piece (ht : t.Right content) (hs : CacheRight content s.edge.cache)
    (h : Piece env o s t s' t') : t'.Right content := by
  have hpos : 0 < t.phase.rank := Nat.lt_of_le_of_lt (Nat.zero_le _) h.rank_lt
  have hto : ∀ p : Phase, t.phase ≠ .access → p.Carries (content t.req.cid) →
      (p.Replies fun resp => resp.Right t.req (content t.req.cid)) → (t.goto p).Right content :=
    fun p hp h₁ h₂ => ⟨fun _ _ => ht.granted hp hpos, h₁, h₂⟩
  have hdeny : t.deny.Right content :=
    ⟨fun _ h => absurd h (Nat.lt_irrefl 0), trivial,
      HttpResponse.right_of_status _ _ (show (403 : Nat) ≠ 200 by decide)
        (show (403 : Nat) ≠ 206 by decide)⟩
  have habsent : t.absent.Right t.req (content t.req.cid) :=
    HttpResponse.right_of_status _ _ (show (404 : Nat) ≠ 200 by decide)
      (show (404 : Nat) ≠ 206 by decide)
  have hfound : ∀ {b}, (s.edge.cache.get t.req.cid t.now).1 = some b → b = content t.req.cid := by
    intro b hget
    obtain ⟨e, he, rfl, -⟩ := EdgeCache.get_eq_some hget
    exact hs _ _ he
  have hcar := ht.carries
  have hrep := ht.replies
  cases h with
  | denied | replayed => exact hdeny
  | granted _ _ hopen =>
    refine ⟨fun _ _ => ?_, trivial, trivial⟩
    rcases hopen with rfl | rfl
    · nofun
    · nofun
  | popAndCap => exact ⟨fun _ _ => nofun, trivial, trivial⟩
  | notModified hp =>
    refine hto _ (by rw [hp]; nofun) trivial ?_
    exact HttpResponse.right_of_status _ _ (show (304 : Nat) ≠ 200 by decide)
      (show (304 : Nat) ≠ 206 by decide)
  | negative hp | renegative hp | absent hp => exact hto _ (by rw [hp]; nofun) trivial habsent
  | hit hp hget | rehit hp hget => exact hto _ (by rw [hp]; nofun) (hfound hget) trivial
  | tooLarge hp =>
    refine hto _ (by rw [hp]; nofun) trivial ?_
    exact HttpResponse.right_of_status _ _ (show (413 : Nat) ≠ 200 by decide)
      (show (413 : Nat) ≠ 206 by decide)
  | stored hp | unrefBytes hp => rw [hp] at hcar; exact hto _ (by rw [hp]; nofun) hcar trivial
  | unlock hp =>
    rw [hp] at hcar hrep
    exact hto _ (by rw [hp]; nofun) hcar hrep
  | unrefReply hp => rw [hp] at hrep; exact hto _ (by rw [hp]; nofun) trivial hrep
  | shape hp =>
    rw [hp] at hcar
    have hna : t.phase ≠ .access := by rw [hp]; nofun
    refine hto _ hna trivial ?_
    rw [← show _ = content t.req.cid from hcar]
    exact respond_right s _ (ht.granted hna hpos)
  | letThrough hp | modified hp | fresh hp | notNegative hp | budget hp | miss hp | flight hp
  | acquire hp | remiss hp | call hp => exact hto _ (by rw [hp]; nofun) trivial trivial

end Task

/-! ## Runs -/

/-- What the origin answers a request, when it does not fail, is the content of
its CID. -/
def Honest (content : String → Bytes) (y : Sys) : Label → Prop
  | .answer i (some b) => ∀ t, y.tasks[i]? = some t → b = content t.req.cid
  | _ => True

/-- The cache and every request are right. -/
structure Sys.Right (content : String → Bytes) (y : Sys) : Prop where
  cache : CacheRight content y.shared.edge.cache
  tasks : ∀ t ∈ y.tasks, t.Right content

theorem Sys.Right.step {env : ServerEnv} {content : String → Bytes} {y y' : Sys} {l : Label}
    (hy : y.Right content) (hl : Honest content y l) (h : Sys.step env y l = some y') :
    y'.Right content := by
  have hset : ∀ {i : Nat} {t' : Task}, t'.Right content →
      ∀ t ∈ y.tasks.set i t', t.Right content := by
    intro i t' ht' t ht
    obtain ht | rfl := List.mem_or_eq_of_mem_set ht
    · exact hy.tasks t ht
    · exact ht'
  cases Sys.moves_of_step h with
  | arrive req now =>
    refine ⟨hy.cache, fun t ht => ?_⟩
    obtain ht | ht := List.mem_append.1 ht
    · exact hy.tasks t ht
    · rw [List.mem_singleton.1 ht]
      exact ⟨fun h => absurd rfl h, trivial, trivial⟩
  | piece hi hpiece =>
    have ht := hy.tasks _ (List.mem_of_getElem? hi)
    exact ⟨ht.cache hy.cache hpiece, hset (ht.piece hy.cache hpiece)⟩
  | @answered i l max t res hi hp =>
    have ht := hy.tasks _ (List.mem_of_getElem? hi)
    have hpos : 0 < t.phase.rank := by simp [hp, Phase.rank]
    refine ⟨hy.cache, hset ⟨fun _ _ => ht.granted (by simp [hp]) hpos, ?_, trivial⟩⟩
    cases res with
    | none => trivial
    | some b => exact hl t hi
  | cancelled hi hc =>
    obtain ⟨rfl, hs⟩ := Task.cancel_cases hc
    refine ⟨?_, hset ⟨fun _ h => absurd h (Nat.lt_irrefl 0), trivial, trivial⟩⟩
    obtain rfl | ⟨l, rfl⟩ | ⟨l, rfl⟩ := hs
    · exact hy.cache
    · exact hy.cache
    · exact hy.cache
  | swept o now => exact ⟨hy.cache.sweepExpired _ _, hy.tasks⟩
  | purged cid => exact ⟨hy.cache.purge _, hy.tasks⟩

/-- **HTTP serves only the right bytes.** From an empty cache, with an origin
that answers each CID with its content or fails, every run leaves the content
of its CID under every key, in every 200 to a `GET` the content, and in every
206 the part of it that its `Content-Range` states. -/
theorem http_serves_right_bytes (env : ServerEnv) (content : String → Bytes) (s : ServerState)
    (hempty : s.edge.cache.entries = ∅) (ls : List Label) (y : Sys)
    (hhonest : Guarded (Sys.step env) (Honest content) (.start s) ls)
    (hrun : run (Sys.step env) (.start s) ls = some y) :
    (∀ cid e, y.shared.edge.cache.entries.lookup cid = some e → e.bytes = content cid) ∧
    ∀ t ∈ y.tasks, ∀ resp, t.phase = .done resp → t.req.headOnly = false →
      (resp.status = 200 → resp.body = content t.req.cid) ∧
      (resp.status = 206 → resp.IsPart (content t.req.cid)) := by
  have hstart : (Sys.start s).Right content := by
    refine ⟨fun k e he => ?_, nofun⟩
    rw [show (Sys.start s).shared = s from rfl, hempty, AList.lookup_empty] at he
    cases he
  have hy : y.Right content :=
    guarded_invariant (fun _ _ _ hy hl h => hy.step hl h) hstart hhonest hrun
  refine ⟨hy.cache, fun t ht resp hp hget => ?_⟩
  have hrep := (hy.tasks t ht).replies
  rw [hp] at hrep
  exact ⟨hrep.whole hget, hrep.part hget⟩

/-! ### One request from its arrival to its answer -/

def serveRun : List Label :=
  .arrive (sampleReq (ByteArr.zero 16)) 50 :: List.replicate 10 (.step 0 sampleOrders) ++
    .answer 0 (some [1, 2]) :: List.replicate 4 (.step 0 sampleOrders)

/-- The status of each request that is done, and whether it was a `HEAD`. -/
def statuses (y : Sys) : List (Bool × Nat) :=
  y.tasks.filterMap fun t =>
    match t.phase with
    | .done resp => some (t.req.headOnly, resp.status)
    | _ => none

theorem statuses_serveRun :
    (run (Sys.step sampleEnv) (.start sampleState) serveRun).map statuses = some [(false, 200)] := by
  decide +kernel

theorem http_serves_right_bytes_sample :
    ∃ y, run (Sys.step sampleEnv) (.start sampleState) serveRun = some y ∧
      (∀ cid e, y.shared.edge.cache.entries.lookup cid = some e → e.bytes = [1, 2]) ∧
      ∃ t ∈ y.tasks, ∃ resp, t.phase = .done resp ∧ resp.status = 200 ∧ resp.body = [1, 2] := by
  obtain ⟨y, hrun, hy⟩ := Option.map_eq_some_iff.1 statuses_serveRun
  have hhonest : Guarded (Sys.step sampleEnv) (Honest fun _ => [1, 2]) (.start sampleState)
      serveRun := by
    refine guarded_of_forall (fun l hl y' => ?_) _
    cases l with
    | answer i res =>
      obtain ⟨-, rfl⟩ : i = 0 ∧ res = some [1, 2] := by simpa [serveRun] using hl
      intro t _
      rfl
    | _ => trivial
  have hright := http_serves_right_bytes sampleEnv (fun _ => [1, 2]) sampleState rfl serveRun y
    hhonest hrun
  obtain ⟨t, ht, hdone⟩ := List.mem_filterMap.1
    (show (false, 200) ∈ statuses y by rw [hy]; exact List.mem_singleton_self _)
  refine ⟨y, hrun, hright.1, t, ht, ?_⟩
  split at hdone
  · next resp hp =>
    obtain ⟨hget, hstatus⟩ := Prod.mk.inj (Option.some.inj hdone)
    exact ⟨resp, hp, hstatus, (hright.2 t ht resp hp hget).1 hstatus⟩
  · cases hdone

end CeCdn
