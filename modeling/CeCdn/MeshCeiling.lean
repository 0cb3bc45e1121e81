/-
The ceiling of a mesh reply. A cold read checks the object, or the chunks of
the range, against `MAX_MESH_OBJECT_BYTES`; a read of a hot object checks
nothing, and `cache_object` fills the cache up to the edge's own budget. So a
reply is over the ceiling exactly when more than the ceiling is asked of a hot
object, and none is when `cdn/cache` stores no larger object
(`mesh_reply_ceiling`).
-/
import CeCdn.HostFacts
import CeCdn.Lib.Machine
import CeCdn.ReadPaths

namespace CeCdn

open Lib Text Word

/-! ## The mesh edge as a machine -/

/-- What happens to a mesh edge: an authorized request, with the store's
answers and the clock it meets, or the loop's sweep. -/
inductive MeshEvent where
  | request (src : BlobSource) (ord : IterOrder String CacheEntry) (now : Nat) (act : Action)
  | sweep (ord : IterOrder String CacheEntry) (now : Nat)

def meshStep (rs : CeRs) (w : World) : MeshEvent → Option (Except Fail Reply) × World
  | .request src ord now act =>
    let r := (act.perform rs src ord now).run w
    (some r.1, r.2)
  | .sweep ord now => (none, w.setCache (w.edge.cache.sweepExpired ord now).2)

/-- The manifests of a store tell the sizes of its objects. -/
def SizesTrue (rs : CeRs) (src : BlobSource) : Prop :=
  ∀ cid m b, manifestAt rs src cid = .ok m → src.getObject cid = .ok b → b.length = m.totalSize

def MeshEvent.WellFormed (rs : CeRs) : MeshEvent → Prop
  | .request src _ _ _ => SizesTrue rs src
  | .sweep _ _ => True

/-- A reply that serves bytes serves at most the ceiling. -/
def ReadResp.Within (resp : ReadResp) : Prop :=
  resp.ok = true → ∀ b, hexDecode resp.bytesHex.toList = some b → b.length ≤ MAX_MESH_OBJECT_BYTES

def ReplyWithin (out : Option (Except Fail Reply)) : Prop :=
  ∀ resp, out = some (.ok (.read resp)) → resp.Within

/-- How many of a hot object's bytes are asked for under a resolved header. -/
def RangeOutcome.asks (outcome : RangeOutcome) (b : Bytes) : Option Nat :=
  match outcome with
  | .full => some b.length
  | .partialRange r => if r.stop < b.length then some r.len else none
  | .unsatisfiable => none

/-- How many of a hot object's bytes a read asks for. -/
def asked (rs : CeRs) (src : BlobSource) (req : ReadReq) (b : Bytes) : Option Nat :=
  match req.range with
  | none => some b.length
  | some hdr =>
    match manifestAt rs src req.cid with
    | .error _ => none
    | .ok m => (parseRange (some hdr) m.totalSize).asks b

/-- How many bytes a read asks of the cache, when it is answered from there. -/
def hotBytes (rs : CeRs) (src : BlobSource) (c : EdgeCache) (req : ReadReq) (now : Nat) :
    Option Nat :=
  (c.get req.cid now).1.bind (asked rs src req)

/-- A read asks a hot object for no more than the ceiling. -/
def HotWithin (rs : CeRs) (w : World) : MeshEvent → Prop
  | .request src _ now (.read req) =>
    ∀ n, hotBytes rs src w.edge.cache req now = some n → n ≤ MAX_MESH_OBJECT_BYTES
  | _ => True

/-- A `cdn/cache` asks for an object within the ceiling, or one the edge's
budget refuses. -/
def CacheWithin (rs : CeRs) (w : World) : MeshEvent → Prop
  | .request src _ _ (.cache req) =>
    ∀ m, manifestAt rs src req.cid = .ok m →
      m.totalSize ≤ MAX_MESH_OBJECT_BYTES ∨ w.edge.cache.maxBytes < m.totalSize
  | _ => True

/-! ## One read -/

/-- A reply that serves these bytes. -/
def ReadResp.Carries (resp : ReadResp) (b : Bytes) : Prop :=
  resp.ok = true ∧ resp.bytesHex = hexEncode b

theorem ReadResp.Carries.within_iff {resp : ReadResp} {b : Bytes} (h : resp.Carries b) :
    resp.Within ↔ b.length ≤ MAX_MESH_OBJECT_BYTES := by
  unfold ReadResp.Within
  rw [h.2, hexDecode_hexEncode]
  refine ⟨fun h' => h' h.1 b rfl, fun h' _ b' hb => ?_⟩
  cases hb
  exact h'

theorem ReadResp.within_of_not_ok {resp : ReadResp} (h : resp.ok = false) : resp.Within := by
  intro h'
  rw [h] at h'
  cases h'

section

variable {rs : CeRs} {src : BlobSource} {ord : IterOrder String CacheEntry} {req : ReadReq}
  {now : Nat} {w : World}

variable (rs src ord) in
theorem doReadWhole_of_hot {b : Bytes} (hget : (w.edge.cache.get req.cid now).1 = some b) :
    ∃ resp, ((doReadWhole rs src ord req now).run w).1 = .ok resp ∧ resp.Carries b := by
  have hr := EdgeState.readObject_of_hit rs src ord hget
  rw [doReadWhole, replyWith_of_ok (congrArg Prod.fst hr)]
  exact ⟨_, rfl, rfl, rfl⟩

theorem doReadWhole_of_cold (hsrc : SizesTrue rs src)
    (hget : (w.edge.cache.get req.cid now).1 = none) {resp : ReadResp}
    (h : ((doReadWhole rs src ord req now).run w).1 = .ok resp) : resp.Within := by
  rcases replyWith_eq_ok h with ⟨⟨b, hit⟩, hb, rfl⟩ | ⟨e, -, rfl⟩
  · rw [EdgeState.readObject_of_miss hget] at hb
    rcases EdgeState.readObjectCold_cases rs src ord req.cid now
        (w.setCache (w.edge.cache.get req.cid now).2) with
      ⟨m, b', calls, hm, hlen, hobj, heq⟩ | ⟨e, w', heq, -⟩
    · rw [heq] at hb
      cases hb
      have hc : ReadResp.Carries
          { ok := true, bytesHex := hexEncode b, totalLen := b.length, cacheHit := false } b :=
        ⟨rfl, rfl⟩
      rw [hc.within_iff, hsrc req.cid m b hm hobj]
      exact hlen
    · rw [heq] at hb
      cases hb
  · exact ReadResp.within_of_not_ok rfl

variable (rs src) in
theorem doReadRange_of_hot {r : ByteRange} {total : Nat} {b : Bytes}
    (hget : (w.edge.cache.get req.cid now).1 = some b) (hr : r.start ≤ r.stop)
    (hlen : r.stop < b.length) :
    ∃ resp b', ((doReadRange rs src req r total now).run w).1 = .ok resp ∧ resp.Carries b' ∧
      b'.length = r.len := by
  have hread := EdgeState.readRange_of_hit rs src hget ⟨hr, hlen⟩
  rw [doReadRange, replyWith_of_ok (congrArg Prod.fst hread)]
  refine ⟨_, _, rfl, ⟨rfl, rfl⟩, ?_⟩
  rw [List.length_take, List.length_drop]
  unfold ByteRange.len
  omega

/-- A range whose chunks are within the mesh limit is no longer than the limit. -/
theorem len_le_coveringBytes {m : Manifest} {r : ByteRange} {span : ChunkSpan}
    (hs : chunksForRange m r = some span) (hr : r.start ≤ r.stop)
    (hcover : EdgeState.coveringBytes m span ≤ MAX_MESH_RANGE_BYTES) :
    span.outLen ≤ MAX_MESH_RANGE_BYTES := by
  have hmax : MAX_MESH_RANGE_BYTES < u64Max := by decide
  unfold chunksForRange at hs
  simp only at hs
  split at hs
  · cases hs
  · next hcs =>
    cases hs
    unfold EdgeState.coveringBytes at hcover
    have hmul := (satMul_le_iff hmax).1 hcover
    have hadd : satAdd (r.stop / m.chunkSize - r.start / m.chunkSize) 1 =
        r.stop / m.chunkSize - r.start / m.chunkSize + 1 := by
      refine satAdd_eq ?_
      have hle : satAdd (r.stop / m.chunkSize - r.start / m.chunkSize) 1 ≤
          MAX_MESH_RANGE_BYTES :=
        (Nat.le_mul_of_pos_right _ (Nat.pos_of_ne_zero hcs)).trans hmul
      exact ((satAdd_le_iff hmax).1 hle).trans hmax.le
    rw [hadd] at hmul
    have hstop := Nat.lt_div_mul_add (a := r.stop) (Nat.pos_of_ne_zero hcs)
    have hstart : r.start / m.chunkSize * m.chunkSize ≤ r.start := Nat.div_mul_le_self _ _
    have hle : r.start / m.chunkSize * m.chunkSize ≤ r.stop / m.chunkSize * m.chunkSize :=
      Nat.mul_le_mul_right _ (Nat.div_le_div_right hr)
    rw [Nat.add_mul, Nat.sub_mul, Nat.one_mul] at hmul
    simp only [ByteRange.len]
    omega

theorem doReadRange_of_cold {r : ByteRange} {total : Nat}
    (hget : ∀ b, (w.edge.cache.get req.cid now).1 = some b → ¬ r.stop < b.length)
    (hr : r.start ≤ r.stop) {resp : ReadResp}
    (h : ((doReadRange rs src req r total now).run w).1 = .ok resp) : resp.Within := by
  rcases replyWith_eq_ok h with ⟨⟨b, hit⟩, hb, rfl⟩ | ⟨e, -, rfl⟩
  · rw [EdgeState.readRange_of_miss hget] at hb
    obtain ⟨-, m, -, span, joined, hs, hcover, -, hf, rfl⟩ := EdgeState.readRangeCold_eq_ok_iff.1 hb
    intro _ b' hb'
    simp only [hexDecode_hexEncode, Option.some.injEq] at hb'
    subst hb'
    rw [hf.length_cut]
    exact len_le_coveringBytes hs hr hcover
  · exact ReadResp.within_of_not_ok rfl

/-- What a read's reply owes to the bytes asked of the cache: with none asked it
is within the ceiling, otherwise it carries that many. -/
def Settles (res : Except Fail ReadResp) : Option Nat → Prop
  | none => ∀ resp, res = .ok resp → resp.Within
  | some n => ∃ resp b, res = .ok resp ∧ resp.Carries b ∧ b.length = n

theorem Settles.within_iff {res : Except Fail ReadResp} {o : Option Nat} (h : Settles res o) :
    (∀ resp, res = .ok resp → resp.Within) ↔ ∀ n, o = some n → n ≤ MAX_MESH_OBJECT_BYTES := by
  cases o with
  | none => exact ⟨nofun, fun _ => h⟩
  | some n =>
    obtain ⟨resp, b, hres, hc, rfl⟩ := h
    refine ⟨fun h' k hk => ?_, fun h' resp' hr => ?_⟩
    · cases hk
      exact hc.within_iff.1 (h' resp hres)
    · rw [hres] at hr
      cases hr
      exact hc.within_iff.2 (h' b.length rfl)

variable (ord req now w) in
theorem doReadWhole_settles (hsrc : SizesTrue rs src) :
    Settles ((doReadWhole rs src ord req now).run w).1
      ((w.edge.cache.get req.cid now).1.bind RangeOutcome.full.asks) := by
  cases hget : (w.edge.cache.get req.cid now).1 with
  | none =>
    intro resp h
    exact doReadWhole_of_cold hsrc hget h
  | some b =>
    obtain ⟨resp, hres, hc⟩ := doReadWhole_of_hot rs src ord hget
    exact ⟨resp, b, hres, hc, rfl⟩

variable (rs src req now w) in
theorem doReadRange_settles {r : ByteRange} (total : Nat) (hr : r.start ≤ r.stop) :
    Settles ((doReadRange rs src req r total now).run w).1
      ((w.edge.cache.get req.cid now).1.bind (RangeOutcome.partialRange r).asks) := by
  cases hget : (w.edge.cache.get req.cid now).1 with
  | none =>
    intro resp h
    exact doReadRange_of_cold (by rw [hget]; nofun) hr h
  | some b =>
    rw [Option.bind_some, RangeOutcome.asks]
    by_cases hlen : r.stop < b.length
    · rw [if_pos hlen]
      exact doReadRange_of_hot rs src hget hr hlen
    · rw [if_neg hlen]
      intro resp h
      refine doReadRange_of_cold ?_ hr h
      intro b' hb'
      rw [hget] at hb'
      cases hb'
      exact hlen

variable (ord req now w) in
/-- Every read settles the bytes it asks of the cache. -/
theorem doRead_settles (hsrc : SizesTrue rs src) :
    Settles ((doRead rs src ord req now).run w).1 (hotBytes rs src w.edge.cache req now) := by
  unfold hotBytes
  cases hreq : req.range with
  | none =>
    have hask : asked rs src req = RangeOutcome.full.asks := by
      funext b
      simp only [asked, hreq, RangeOutcome.asks]
    rw [doRead_of_none hreq, hask]
    exact doReadWhole_settles ord req now w hsrc
  | some hdr =>
    cases hm : manifestAt rs src req.cid with
    | error f =>
      have hask : (w.edge.cache.get req.cid now).1.bind (asked rs src req) = none := by
        have : asked rs src req = fun _ => none := by
          funext b
          simp only [asked, hreq, hm]
        rw [this]
        cases (w.edge.cache.get req.cid now).1 <;> rfl
      obtain ⟨resp, w', heq, hno, -⟩ := doRead_of_no_manifest ord now w hreq hm
      rw [hask, heq]
      intro resp' h
      cases h
      exact ReadResp.within_of_not_ok hno
    | ok m =>
      have hask : asked rs src req = (parseRange (some hdr) m.totalSize).asks := by
        funext b
        simp only [asked, hreq, hm]
      rw [doRead_of_header hreq hm, hask]
      cases hp : parseRange (some hdr) m.totalSize with
      | full => exact doReadWhole_settles ord req now (w.fetched (.blob req.cid)) hsrc
      | partialRange r =>
        exact doReadRange_settles rs src req now (w.fetched (.blob req.cid)) m.totalSize
          (parseRange_within hp).1
      | unsatisfiable =>
        have hask : (w.edge.cache.get req.cid now).1.bind RangeOutcome.unsatisfiable.asks = none := by
          cases (w.edge.cache.get req.cid now).1 <;> rfl
        rw [hask]
        intro resp h
        cases h
        exact ReadResp.within_of_not_ok rfl

end

/-! ## What the cache holds along a run -/

/-- Every entry is within the ceiling. -/
def EntriesWithin (c : EdgeCache) : Prop :=
  ∀ k e, c.entries.lookup k = some e → e.bytes.length ≤ MAX_MESH_OBJECT_BYTES

theorem entriesWithin_get {c : EdgeCache} (cid : String) (now : Nat) (h : EntriesWithin c) :
    EntriesWithin (c.get cid now).2 := by
  intro k e he
  obtain ⟨e', he', hb⟩ := EdgeCache.lookup_get he
  rw [← hb]
  exact h k e' he'

theorem entriesWithin_insert {ord : IterOrder String CacheEntry} {c : EdgeCache} {cid : String}
    {b : Bytes} {ttl now : Nat} (h : EntriesWithin c) (hb : b.length ≤ MAX_MESH_OBJECT_BYTES) :
    EntriesWithin (c.insertWithTtl ord cid b ttl now).2 := by
  intro k e he
  rcases EdgeCache.lookup_insertWithTtl he with ⟨-, hbytes, -⟩ | he
  · rw [hbytes]; exact hb
  · exact h k e he

section

variable {rs : CeRs} {src : BlobSource} {ord : IterOrder String CacheEntry} {now : Nat} {w : World}

theorem entriesWithin_readObject (hsrc : SizesTrue rs src) (cid : String)
    (h : EntriesWithin w.edge.cache) :
    EntriesWithin ((EdgeState.readObject rs src ord cid now).run w).2.edge.cache := by
  cases hget : (w.edge.cache.get cid now).1 with
  | some b =>
    rw [EdgeState.readObject_of_hit rs src ord hget]
    exact entriesWithin_get cid now h
  | none =>
    rw [EdgeState.readObject_of_miss hget]
    rcases EdgeState.readObjectCold_cases rs src ord cid now
        (w.setCache (w.edge.cache.get cid now).2) with
      ⟨m, b, calls, hm, hlen, hobj, heq⟩ | ⟨e, w', heq, hsame⟩
    · rw [heq]
      refine entriesWithin_insert (entriesWithin_get cid now h) ?_
      rw [hsrc cid m b hm hobj]
      exact hlen
    · rw [heq, hsame]
      exact entriesWithin_get cid now h

theorem entriesWithin_readRange (cid : String) (range : ByteRange) (h : EntriesWithin w.edge.cache) :
    EntriesWithin ((EdgeState.readRange rs src cid range now).run w).2.edge.cache := by
  have hkeep := EdgeState.readRange_cache rs src cid range now w
  rw [hkeep]
  exact entriesWithin_get cid now h

theorem entriesWithin_doRead (hsrc : SizesTrue rs src) (req : ReadReq)
    (h : EntriesWithin w.edge.cache) :
    EntriesWithin ((doRead rs src ord req now).run w).2.edge.cache := by
  have hwhole : ∀ w : World, EntriesWithin w.edge.cache →
      EntriesWithin ((doReadWhole rs src ord req now).run w).2.edge.cache := by
    intro w h
    rw [doReadWhole, replyWith_snd]
    exact entriesWithin_readObject hsrc req.cid h
  cases hreq : req.range with
  | none =>
    rw [doRead_of_none hreq]
    exact hwhole w h
  | some hdr =>
    cases hm : manifestAt rs src req.cid with
    | error f =>
      obtain ⟨resp, w', heq, -, hsame⟩ := doRead_of_no_manifest ord now w hreq hm
      rw [heq, hsame]
      exact h
    | ok m =>
      rw [doRead_of_header hreq hm]
      cases parseRange (some hdr) m.totalSize with
      | full => exact hwhole _ h
      | partialRange r =>
        simp only [doReadRange, replyWith_snd]
        exact entriesWithin_readRange req.cid r h
      | unsatisfiable => exact h

/-- A `cdn/cache` leaves the world that caching the object leaves. -/
theorem meshStep_cache (req : CacheReq) {w' : World} {res : Except Fail Nat}
    (h : (EdgeState.cacheObject rs src ord req.cid req.ttlSecs now).run w = (res, w')) :
    (meshStep rs w (.request src ord now (.cache req))).2 = w' := by
  simp only [meshStep, Action.perform, replyWith_snd]
  cases res with
  | error e => rw [Eff.run_bind_of_error h]
  | ok len => rw [Eff.run_bind_of_ok h]; rfl

variable (rs src ord now) in
/-- After a `cdn/cache` of an object that fits, a read finds it. -/
theorem get_meshStep_cache (req : CacheReq) {m : Manifest} {b : Bytes} {now' : Nat}
    (hm : manifestAt rs src req.cid = .ok m) (hobj : src.getObject req.cid = .ok b)
    (htotal : m.totalSize ≤ w.edge.cache.maxBytes) (hlen : b.length ≤ w.edge.cache.maxBytes)
    (hnow : now' ≤ if (if req.ttlSecs = 0 then w.edge.cache.defaultTtlSecs else req.ttlSecs) = 0
      then u64Max
      else satAdd now (if req.ttlSecs = 0 then w.edge.cache.defaultTtlSecs else req.ttlSecs)) :
    ((meshStep rs w (.request src ord now (.cache req))).2.edge.cache.get req.cid now').1 =
      some b := by
  rw [meshStep_cache req (EdgeState.cacheObject_of_fits rs src ord req.ttlSecs now hm hobj htotal hlen),
    World.cache_setCache]
  exact EdgeCache.get_insertWithTtl hlen hnow

/-- A step that meets its condition keeps every entry within the ceiling. -/
theorem entriesWithin_meshStep {ev : MeshEvent} (hev : ev.WellFormed rs) (hc : CacheWithin rs w ev)
    (h : EntriesWithin w.edge.cache) : EntriesWithin (meshStep rs w ev).2.edge.cache := by
  cases ev with
  | sweep ord now =>
    intro k e he
    exact h k e (EdgeCache.lookup_sweepExpired he)
  | request src ord now act =>
    cases act with
    | cache req =>
      rcases EdgeState.cacheObject_cases rs src ord req.cid req.ttlSecs now w with
        ⟨m, b, ttl, calls, hm, hlen, hobj, heq⟩ | ⟨e, w', heq, hsame⟩
      · rw [meshStep_cache req heq]
        refine entriesWithin_insert h ?_
        rw [hev req.cid m b hm hobj]
        rcases hc m hm with hle | hgt
        · exact hle
        · omega
      · rw [meshStep_cache req heq, hsame]
        exact h
    | read req =>
      have hstep : (meshStep rs w (.request src ord now (.read req))).2 =
          ((doRead rs src ord req now).run w).2 := by
        simp only [meshStep, Action.perform]
        rcases hr : (doRead rs src ord req now).run w with ⟨_ | resp, w'⟩
        · rw [Eff.run_bind_of_error hr]
        · rw [Eff.run_bind_of_ok hr]; rfl
      rw [hstep]
      exact entriesWithin_doRead hev req h
    | purge req =>
      intro k e he
      exact h k e ((EdgeCache.evicts_dropEntry req.cid w.edge.cache).sub k e he)
    | status req => exact h

/-- What a hot object within the ceiling is asked for is within the ceiling. -/
theorem hotWithin_of_entriesWithin {ev : MeshEvent} (h : EntriesWithin w.edge.cache) :
    HotWithin rs w ev := by
  have hasks : ∀ {o : RangeOutcome} {b : Bytes} {n : Nat},
      (∀ r, o = .partialRange r → r.start ≤ r.stop) → o.asks b = some n → n ≤ b.length := by
    intro o b n ho hn
    cases o with
    | full => cases hn; exact le_rfl
    | partialRange r =>
      have := ho r rfl
      simp only [RangeOutcome.asks] at hn
      split at hn
      · cases hn
        unfold ByteRange.len
        omega
      · cases hn
    | unsatisfiable => cases hn
  unfold HotWithin
  split
  · next src ord now req =>
    intro n hn
    obtain ⟨b, hget, hb⟩ := Option.bind_eq_some_iff.1 hn
    obtain ⟨e, he, rfl, -⟩ := EdgeCache.get_eq_some hget
    refine le_trans ?_ (h req.cid e he)
    unfold asked at hb
    split at hb
    · cases hb; exact le_rfl
    · split at hb
      · cases hb
      · exact hasks (fun r hr => (parseRange_within hr).1) hb
  · trivial

/-- The reply of a step is within the ceiling exactly when the step is within it. -/
theorem replyWithin_iff {ev : MeshEvent} (hev : ev.WellFormed rs) :
    ReplyWithin (meshStep rs w ev).1 ↔ HotWithin rs w ev := by
  cases ev with
  | sweep ord now => exact ⟨fun _ => trivial, nofun⟩
  | request src ord now act =>
    cases act with
    | read req =>
      refine Iff.trans ?_ (doRead_settles ord req now w hev).within_iff
      unfold ReplyWithin
      simp only [meshStep, Action.perform, Option.some.injEq]
      refine forall_congr' fun resp => ?_
      rcases hr : (doRead rs src ord req now).run w with ⟨_ | resp', w'⟩
      · rw [Eff.run_bind_of_error hr]
        exact ⟨nofun, nofun⟩
      · rw [Eff.run_bind_of_ok hr]
        simp
    | cache req =>
      refine ⟨fun _ => trivial, fun _ resp hresp => ?_⟩
      rcases replyWith_eq_ok (Option.some_inj.1 hresp) with ⟨a, -, ha⟩ | ⟨e, -, he⟩
      · cases ha
      · cases he
    | purge req => exact ⟨fun _ => trivial, nofun⟩
    | status req => exact ⟨fun _ => trivial, nofun⟩

end

/-- **The ceiling of a mesh reply.** From a new edge of any budget, for every
sequence of requests and sweeps at any times against stores whose manifests are
true: the replies that serve bytes are all within the ceiling exactly when no
read asks a hot object for more; and they are when each `cdn/cache` of the run
asks for an object within the ceiling or over the budget. -/
theorem mesh_reply_ceiling (rs : CeRs) (maxBytes ttl : Nat) (publicSet : Finset String)
    (events : List MeshEvent) (hev : ∀ ev ∈ events, ev.WellFormed rs) :
    let steps := Machine.trace (meshStep rs) ⟨⟨.new maxBytes ttl, publicSet⟩, []⟩ events
    ((∀ t ∈ steps, ReplyWithin t.2.2) ↔ ∀ t ∈ steps, HotWithin rs t.1 t.2.1) ∧
      ((∀ t ∈ steps, CacheWithin rs t.1 t.2.1) → ∀ t ∈ steps, ReplyWithin t.2.2) := by
  intro steps
  have hiff : ∀ t ∈ steps, (ReplyWithin t.2.2 ↔ HotWithin rs t.1 t.2.1) := by
    intro t ht
    rw [Machine.trace_output ht]
    exact replyWithin_iff (hev _ (Machine.trace_input ht))
  refine ⟨forall₂_congr hiff, fun hc t ht => (hiff t ht).2 ?_⟩
  refine hotWithin_of_entriesWithin ?_
  refine Machine.trace_invariant (I := fun w => EntriesWithin w.edge.cache)
    (J := fun w ev => ev.WellFormed rs ∧ CacheWithin rs w ev)
    (fun w ev h hJ => entriesWithin_meshStep hJ.1 hJ.2 h) ?_ ?_ t ht
  · intro k e he
    cases he
  · intro t ht
    exact ⟨hev _ (Machine.trace_input ht), hc t ht⟩

/-! ## Two runs -/

theorem sample_sizesTrue : SizesTrue sampleLib sampleStore := by
  intro cid m b hm hb
  obtain ⟨mb, -, hp, -⟩ := manifestAt_eq_ok.1 hm
  simp only [sampleLib] at hp
  split at hp
  · cases hp
    simp only [sampleStore] at hb
    split at hb
    · cases hb; rfl
    · cases hb
  · cases hp

/-- Cache the object, then read two of its bytes. -/
def sampleRun : List MeshEvent :=
  [.request sampleStore (.stored _ _) 0 (.cache ⟨"", "00", 5, 0⟩),
    .request sampleStore (.stored _ _) 1 (.read ⟨"", "00", some "bytes=1-2"⟩)]

def sampleTrace : List (World × MeshEvent × Option (Except Fail Reply)) :=
  Machine.trace (meshStep sampleLib) ⟨⟨.new 100 0, ∅⟩, []⟩ sampleRun

theorem mesh_reply_ceiling_sample :
    (∀ t ∈ sampleTrace, ReplyWithin t.2.2) ∧ ∀ t ∈ sampleTrace, HotWithin sampleLib t.1 t.2.1 := by
  have hev : ∀ ev ∈ sampleRun, ev.WellFormed sampleLib := by
    intro ev hev
    simp only [sampleRun, List.mem_cons, List.not_mem_nil, or_false] at hev
    rcases hev with rfl | rfl
    · exact sample_sizesTrue
    · exact sample_sizesTrue
  have hceiling := mesh_reply_ceiling sampleLib 100 0 ∅ sampleRun hev
  have hwithin : ∀ t ∈ sampleTrace, ReplyWithin t.2.2 := by
    refine hceiling.2 ?_
    intro t ht
    have hin := Machine.trace_input ht
    simp only [sampleRun, List.mem_cons, List.not_mem_nil, or_false] at hin
    rcases hin with h | h
    · rw [h]
      intro m hm
      cases hm
      exact .inl (by decide)
    · rw [h]
      trivial
  exact ⟨hwithin, hceiling.1.1 hwithin⟩

/-- One byte more than the ceiling. -/
@[irreducible] def bigData : Bytes := List.replicate (MAX_MESH_OBJECT_BYTES + 1) 0

theorem length_bigData : bigData.length = MAX_MESH_OBJECT_BYTES + 1 := by
  unfold bigData
  exact List.length_replicate

def bigManifest : Manifest where
  kind := "object"
  chunkSize := 2 * MAX_MESH_OBJECT_BYTES
  totalSize := MAX_MESH_OBJECT_BYTES + 1
  chunks := [toString (MAX_MESH_OBJECT_BYTES + 1)]
  chunkSize_le := by decide
  totalSize_le := by decide

/-- A library whose hash is the length, for objects of one chunk. -/
def bigLib : CeRs where
  cid b := toString b.length
  parseManifest b := if b = [0] then .ok bigManifest else .error "not a manifest"
  isV1 _ := true
  plain _ := true

def bigStore : BlobSource where
  getBlob c := if c = "1" then .ok [0] else .ok bigData
  getObject _ := .ok bigData

theorem big_stored : Stored bigLib bigStore "1" bigManifest bigData := by
  have hcount : Chunks.chunks bigManifest.chunkSize bigData = [bigData] := by
    have hone : Chunks.count bigManifest.chunkSize bigData = 1 := by
      rw [Chunks.count, length_bigData]
      decide
    rw [Chunks.chunks, hone]
    simp only [List.range_one, List.map_cons, List.map_nil, Chunks.chunk, Nat.zero_mul,
      List.drop_zero]
    rw [List.take_of_length_le]
    rw [length_bigData]
    decide
  refine ⟨rfl, by decide, length_bigData.symm, ?_, ?_, rfl⟩
  · rw [hcount, List.map_cons, List.map_nil]
    simp only [bigLib, length_bigData]
    rfl
  · intro b hb
    rw [hcount] at hb
    obtain rfl := List.mem_singleton.1 hb
    have hne : ¬ toString (MAX_MESH_OBJECT_BYTES + 1) = "1" := by decide
    simp only [bigLib, bigStore, length_bigData, if_neg hne]

theorem big_sizesTrue : SizesTrue bigLib bigStore := by
  intro cid m b hm hb
  obtain ⟨mb, -, hp, -⟩ := manifestAt_eq_ok.1 hm
  simp only [bigLib] at hp
  split at hp
  · cases hp
    cases hb
    exact length_bigData
  · cases hp

/-- An edge with room for the object. -/
def bigEdge : World := ⟨⟨.new (2 * MAX_MESH_OBJECT_BYTES) 0, ∅⟩, []⟩

def bigCache : MeshEvent := .request bigStore (.stored _ _) 0 (.cache ⟨"", "1", 0, 0⟩)

def bigRead : MeshEvent := .request bigStore (.stored _ _) 1 (.read ⟨"", "1", none⟩)

theorem bigData_fits : bigData.length ≤ bigEdge.edge.cache.maxBytes := by
  rw [length_bigData, show bigEdge.edge.cache.maxBytes = 2 * MAX_MESH_OBJECT_BYTES from rfl]
  unfold MAX_MESH_OBJECT_BYTES
  omega

theorem big_lifetime : 1 ≤ (if (if (0 : Nat) = 0 then bigEdge.edge.cache.defaultTtlSecs else 0) = 0
    then u64Max else satAdd 0 (if (0 : Nat) = 0 then bigEdge.edge.cache.defaultTtlSecs else 0)) := by
  rw [if_pos rfl, if_pos (show bigEdge.edge.cache.defaultTtlSecs = 0 from rfl)]
  decide

/-- Once the object is cached, reading it is over the ceiling, with an honest
store and true manifests. -/
theorem mesh_reply_over_ceiling :
    Stored bigLib bigStore "1" bigManifest bigData ∧ SizesTrue bigLib bigStore ∧
    ¬ ∀ t ∈ Machine.trace (meshStep bigLib) bigEdge [bigCache, bigRead], ReplyWithin t.2.2 := by
  refine ⟨big_stored, big_sizesTrue, fun h => ?_⟩
  have hread := h _ (List.mem_cons_of_mem _ List.mem_cons_self)
  have hwf : bigRead.WellFormed bigLib := big_sizesTrue
  have hhot : HotWithin bigLib (meshStep bigLib bigEdge bigCache).2 bigRead :=
    (replyWithin_iff hwf).1 hread
  have htotal : bigManifest.totalSize ≤ bigEdge.edge.cache.maxBytes := by
    rw [big_stored.totalSize]
    exact bigData_fits
  have hget : ((meshStep bigLib bigEdge bigCache).2.edge.cache.get "1" 1).1 = some bigData :=
    get_meshStep_cache bigLib bigStore (.stored _ _) 0 ⟨"", "1", 0, 0⟩ big_stored.manifest
      big_stored.object htotal bigData_fits big_lifetime
  have hover : ¬ MAX_MESH_OBJECT_BYTES + 1 ≤ MAX_MESH_OBJECT_BYTES := Nat.not_succ_le_self _
  refine hover (hhot _ ?_)
  rw [hotBytes, hget, Option.bind_some]
  exact congrArg some length_bigData

end CeCdn
