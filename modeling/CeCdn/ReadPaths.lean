/-
The four ways to read an object agree: over HTTP (`Edge.serve`), by the client
(`Client.getRange`), and over the mesh with the object hot or cold (`doRead`).
Each renders one outcome (`readOutcome`), whatever the chunk size, the header
and the alignment of the range (`read_paths_agree`).
-/
import CeCdn.Edge
import CeCdn.HostFacts
import CeCdn.Lib.Chunks

namespace CeCdn

open Lib Text Word

/-- What reading an object under a header comes to. -/
inductive ReadOutcome where
  | whole (bytes : Bytes)
  | part (r : ByteRange) (bytes : Bytes)
  | unsatisfiable
deriving DecidableEq

def readOutcome (data : Bytes) (rangeHeader : Option String) : ReadOutcome :=
  match parseRange rangeHeader data.length with
  | .full => .whole data
  | .partialRange r => .part r (Chunks.slice data r.start r.stop)
  | .unsatisfiable => .unsatisfiable

namespace ReadOutcome

/-- Status and body of an HTTP response. -/
def http (total : Nat) : ReadOutcome → Nat × Body
  | .whole b => (200, .full b)
  | .part r b => (206, .partialBody b r total)
  | .unsatisfiable => (416, .none)

def client (rs : CeRs) (rangeHeader : Option String) (total : Nat) :
    ReadOutcome → Except Fail (Bytes × ByteRange × Nat)
  | .whole b => .ok (b, ⟨0, total - 1⟩, total)
  | .part r b => .ok (b, r, total)
  | .unsatisfiable => .error (.err
      s!"range {Client.debugHeader rs rangeHeader} not satisfiable for object of {total} bytes")

def mesh (total : Nat) (cacheHit : Bool) : ReadOutcome → ReadResp
  | .whole b => { ok := true, bytesHex := hexEncode b, totalLen := total, cacheHit }
  | .part r b =>
    { ok := true, bytesHex := hexEncode b, totalLen := total, isPartial := true,
      rangeStart := r.start, rangeEnd := r.stop, cacheHit }
  | .unsatisfiable =>
    { ok := false, totalLen := total, reason := some s!"range not satisfiable for {total} bytes" }

end ReadOutcome

/-- An honest store that holds an object: the manifest lists the object's
consecutive chunks, and the store answers for each of them and for the whole. -/
structure Stored (rs : CeRs) (src : BlobSource) (cid : String) (m : Manifest) (data : Bytes) :
    Prop where
  manifest : manifestAt rs src cid = .ok m
  chunkSize : 0 < m.chunkSize
  totalSize : m.totalSize = data.length
  chunks : m.chunks = (Chunks.chunks m.chunkSize data).map rs.cid
  blobs : ∀ b ∈ Chunks.chunks m.chunkSize data, src.getBlob (rs.cid b) = .ok b
  object : src.getObject cid = .ok data

/-- The chunks that cover the range a header asks for are within the mesh limit. -/
def SpanWithin (m : Manifest) (rangeHeader : Option String) : Prop :=
  ∀ r, parseRange rangeHeader m.totalSize = .partialRange r →
    (r.stop / m.chunkSize - r.start / m.chunkSize + 1) * m.chunkSize ≤ MAX_MESH_RANGE_BYTES

theorem ByteRange.Within.take_len {r : ByteRange} {total : Nat} (hr : r.Within total)
    (data : Bytes) : (data.drop r.start).take r.len = Chunks.slice data r.start r.stop := by
  have hlen : r.len = r.stop + 1 - r.start := by
    have := hr.1
    unfold ByteRange.len
    omega
  rw [Chunks.slice, hlen]

namespace Stored

variable {rs : CeRs} {src : BlobSource} {cid : String} {m : Manifest} {data : Bytes}

theorem length_chunks (h : Stored rs src cid m data) :
    m.chunks.length = Chunks.count m.chunkSize data := by
  rw [h.chunks, List.length_map, Chunks.length_chunks]

/-- Blobs of the object verify under their CIDs. -/
theorem verified (h : Stored rs src cid m data) {bs : List Bytes}
    (hbs : ∀ b ∈ bs, b ∈ Chunks.chunks m.chunkSize data) :
    Verified rs src (bs.map rs.cid) bs := by
  induction bs with
  | nil => exact .nil
  | cons b bs ih =>
    have hb := h.blobs b (hbs b (by simp))
    exact .cons ⟨hb, rfl⟩ (ih fun x hx => hbs x (by simp [hx]))

/-- Pulling a span of chunks gives the span's bytes. -/
theorem pulled (h : Stored rs src cid m data) {a b : Nat} (hab : a ≤ b + 1)
    (hb : b < m.chunks.length) :
    Pulled rs src m a b
      (((Chunks.chunks m.chunkSize data).drop a).take (b + 1 - a)).flatten := by
  have hne : m.chunks.isEmpty = false := by
    cases hc : m.chunks with
    | nil => rw [hc] at hb; simp at hb
    | cons _ _ => rfl
  have hmin : min b (m.chunks.length - 1) = b := by omega
  refine ⟨_, _, ?_, h.verified fun x hx => List.mem_of_mem_drop (List.mem_of_mem_take hx), rfl⟩
  unfold pulledCids
  rw [hne, hmin, sliceIncl_eq_ok.2 ⟨hab, hb, rfl⟩, h.chunks, List.map_take, List.map_drop]
  simp

/-- Pulling every chunk gives the object, the empty one included. -/
theorem pulled_whole (h : Stored rs src cid m data) :
    Pulled rs src m 0 (m.chunks.length - 1) data := by
  by_cases hlen : m.chunks.length = 0
  · have hnil : m.chunks = [] := List.length_eq_zero_iff.1 hlen
    have hdata : data = [] := by
      have hle := Chunks.length_le_count_mul data h.chunkSize
      rw [← h.length_chunks, hlen, Nat.zero_mul] at hle
      exact List.length_eq_zero_iff.1 (Nat.le_zero.1 hle)
    refine ⟨[], [], ?_, .nil, by rw [hdata]; rfl⟩
    simp [pulledCids, hnil]
  · have hp := h.pulled (a := 0) (b := m.chunks.length - 1) (by omega) (by omega)
    have hall : ((Chunks.chunks m.chunkSize data).drop 0).take (m.chunks.length - 1 + 1 - 0) =
        Chunks.chunks m.chunkSize data := by
      rw [List.drop_zero, List.take_of_length_le]
      rw [Chunks.length_chunks, ← h.length_chunks]
      omega
    rw [hall, Chunks.flatten_chunks h.chunkSize] at hp
    exact hp

/-- The span of a range: its chunks are there, and cut at the edges they are
the range. -/
theorem range (h : Stored rs src cid m data) {r : ByteRange} (hr : r.Within data.length) :
    ∃ span joined, chunksForRange m r = some span ∧
      span.firstChunk = r.start / m.chunkSize ∧ span.lastChunk = r.stop / m.chunkSize ∧
      span.firstChunk ≤ span.lastChunk ∧ span.lastChunk < m.chunks.length ∧
      Pulled rs src m span.firstChunk span.lastChunk joined ∧ span.Fits joined ∧
      span.cut joined = Chunks.slice data r.start r.stop := by
  have hcs := h.chunkSize
  have hfirst : r.start / m.chunkSize ≤ r.stop / m.chunkSize := Nat.div_le_div_right hr.1
  have hlast : r.stop / m.chunkSize < m.chunks.length :=
    h.length_chunks ▸ Chunks.div_lt_count hcs hr.2
  have hlen : r.len = r.stop + 1 - r.start := by
    have := hr.1
    unfold ByteRange.len
    omega
  obtain ⟨hcut, hfit⟩ := Chunks.slice_of_chunks hcs hr.1 hr.2
  refine ⟨_, _, if_neg (Nat.ne_of_gt hcs), rfl, rfl, hfirst, hlast,
    h.pulled (Nat.le_succ_of_le hfirst) hlast, ⟨?_, ?_⟩, ?_⟩
  · have htotal : data.length ≤ u64Max := h.totalSize ▸ m.totalSize_le
    have := hr.1
    have := hr.2
    simp only [hlen]
    omega
  · rw [hlen]; exact hfit
  · rw [ChunkSpan.cut, hlen]; exact hcut

/-! ## The paths, one by one -/

/-- The client returns the outcome. -/
theorem getRange_eq (h : Stored rs src cid m data) (rangeHeader : Option String)
    (calls : List SourceCall) :
    ((Client.getRange rs src cid rangeHeader).run calls).1 =
      (readOutcome data rangeHeader).client rs rangeHeader data.length := by
  unfold readOutcome
  cases hp : parseRange rangeHeader data.length with
  | full =>
    refine Client.getRange_eq_ok_iff.2 ⟨m, h.manifest, h.totalSize.symm, ?_⟩
    rw [ClientReads, h.totalSize, hp]
    exact ⟨rfl, h.pulled_whole⟩
  | partialRange r =>
    obtain ⟨span, joined, hs, -, -, -, -, hj, hf, hcut⟩ := h.range (parseRange_within hp)
    refine Client.getRange_eq_ok_iff.2 ⟨m, h.manifest, h.totalSize.symm, ?_⟩
    rw [ClientReads, h.totalSize, hp]
    exact ⟨rfl, span, joined, hs, hj, hf, hcut.symm⟩
  | unsatisfiable =>
    rw [Client.getRange, Eff.run_bind_fst_of_ok (Client.fetchManifest_fst.2 h.manifest)]
    simp only [h.totalSize, hp]
    rfl

/-- The edge's response renders the outcome. -/
theorem serve_eq (rangeHeader : Option String) {access : Access} (cache : EdgeCache) (now : Nat)
    (hit : Bool) (ha : access ≠ .denied) :
    let resp := Edge.serve cid data rangeHeader access cache now hit
    (resp.status, resp.body) = (readOutcome data rangeHeader).http data.length := by
  intro resp
  unfold readOutcome
  rcases Edge.serve_cases cid data rangeHeader cache now hit ha with ⟨hp, hr⟩ | ⟨r, hp, hw, hr⟩ | ⟨hp, hr⟩
  · rw [show resp = _ from hr, hp]; rfl
  · rw [show resp = _ from hr, hp]
    simp only [hw.take_len]
    rfl
  · rw [show resp = _ from hr, hp]; rfl

/-- A hot whole-object read. -/
theorem doReadWhole_hot {ord : IterOrder String CacheEntry} {req : ReadReq} {now : Nat} {w : World}
    (hget : (w.edge.cache.get req.cid now).1 = some data) :
    ((doReadWhole rs src ord req now).run w).1 = .ok ((ReadOutcome.whole data).mesh data.length true) := by
  have hr := EdgeState.readObject_of_hit rs src ord hget
  rw [doReadWhole, replyWith_of_ok (congrArg Prod.fst hr)]
  rfl

/-- A hot range read. -/
theorem doReadRange_hot {req : ReadReq} {r : ByteRange} {now : Nat} {w : World}
    (hget : (w.edge.cache.get req.cid now).1 = some data) (hr : r.Within data.length) :
    ((doReadRange rs src req r data.length now).run w).1 =
      .ok ((ReadOutcome.part r (Chunks.slice data r.start r.stop)).mesh data.length true) := by
  have hread := EdgeState.readRange_of_hit rs src hget hr
  rw [doReadRange, replyWith_of_ok (congrArg Prod.fst hread)]
  simp only [hr.take_len]
  rfl

/-- A cold whole-object read, within the limit. -/
theorem doReadWhole_cold {ord : IterOrder String CacheEntry} (req : ReadReq) {now : Nat}
    {w : World} (h : Stored rs src req.cid m data)
    (hget : (w.edge.cache.get req.cid now).1 = none) (hlen : data.length ≤ MAX_MESH_OBJECT_BYTES) :
    ((doReadWhole rs src ord req now).run w).1 =
      .ok ((ReadOutcome.whole data).mesh data.length false) := by
  have hread : ((EdgeState.readObject rs src ord req.cid now).run w).1 = .ok (data, false) := by
    have ht := EdgeState.objectTotalSize_apply rs src req.cid
      (w.setCache (w.edge.cache.get req.cid now).2)
    rw [h.manifest] at ht
    rw [EdgeState.readObject_of_miss hget, EdgeState.readObjectCold, Eff.run_bind_of_ok ht,
      if_neg (by rw [h.totalSize]; omega)]
    have ho := EdgeState.getObject_apply src req.cid
      ((w.setCache (w.edge.cache.get req.cid now).2).fetched (.blob req.cid))
    rw [h.object] at ho
    rw [Eff.run_bind_of_ok ho, Eff.run_bind_of_ok (EdgeState.withCache_apply _ _)]
    rfl
  rw [doReadWhole, replyWith_of_ok hread]
  rfl

/-- A cold range read, within the limit. -/
theorem doReadRange_cold (req : ReadReq) {r : ByteRange} {now : Nat} {w : World}
    (h : Stored rs src req.cid m data) (hget : (w.edge.cache.get req.cid now).1 = none)
    (hr : r.Within data.length)
    (hspan : (r.stop / m.chunkSize - r.start / m.chunkSize + 1) * m.chunkSize ≤
      MAX_MESH_RANGE_BYTES) :
    ((doReadRange rs src req r data.length now).run w).1 =
      .ok ((ReadOutcome.part r (Chunks.slice data r.start r.stop)).mesh data.length false) := by
  obtain ⟨span, joined, hs, hfirst, hlast, hle, hlt, hj, hf, hcut⟩ := h.range hr
  have hcover : EdgeState.coveringBytes m span ≤ MAX_MESH_RANGE_BYTES := by
    have hmul : satMul (satAdd (span.lastChunk - span.firstChunk) 1) m.chunkSize ≤
        (span.lastChunk - span.firstChunk + 1) * m.chunkSize := by
      unfold satMul satAdd
      exact (Nat.min_le_left _ _).trans (Nat.mul_le_mul_right _ (Nat.min_le_left _ _))
    rw [hfirst, hlast] at hmul
    unfold EdgeState.coveringBytes
    rw [hfirst, hlast]
    omega
  have hmin : min span.firstChunk (min span.lastChunk (m.chunks.length - 1)) = span.firstChunk := by
    omega
  have hread : ((EdgeState.readRange rs src req.cid r now).run w).1 =
      .ok (Chunks.slice data r.start r.stop, false) := by
    rw [EdgeState.readRange_of_miss (by rw [hget]; intro b hb; cases hb)]
    refine EdgeState.readRangeCold_eq_ok_iff.2 ⟨rfl, m, h.manifest, span, joined, hs, hcover, ?_,
      hf, hcut.symm⟩
    rw [hmin]
    exact hj
  rw [doReadRange, replyWith_of_ok hread]
  rfl

end Stored

/-- **All read paths agree.** For an object in an honest store, under any
header: the edge's response, the client's result and the mesh's reply with the
object hot in the cache all render one outcome, and so does the mesh's reply
with a cold cache when the object and the covering chunks are within the mesh
limits. -/
theorem read_paths_agree {rs : CeRs} {src : BlobSource} {cid : String} {m : Manifest}
    {data : Bytes} (h : Stored rs src cid m data) (rangeHeader : Option String) :
    let outcome := readOutcome data rangeHeader
    (∀ access cache now hit, access ≠ Access.denied →
      let resp := Edge.serve cid data rangeHeader access cache now hit
      (resp.status, resp.body) = outcome.http data.length) ∧
    (∀ calls, ((Client.getRange rs src cid rangeHeader).run calls).1 =
      outcome.client rs rangeHeader data.length) ∧
    (∀ caps ord now w, (∃ e, w.edge.cache.entries.lookup cid = some e ∧ now ≤ e.expiresAt ∧
        e.bytes = data) →
      ((doRead rs src ord ⟨caps, cid, rangeHeader⟩ now).run w).1 = .ok (outcome.mesh data.length true)) ∧
    (∀ caps ord now w, w.edge.cache.containsFresh cid now = false →
      data.length ≤ MAX_MESH_OBJECT_BYTES → SpanWithin m rangeHeader →
      ((doRead rs src ord ⟨caps, cid, rangeHeader⟩ now).run w).1 =
        .ok (outcome.mesh data.length false)) := by
  refine ⟨fun access cache now hit ha => Stored.serve_eq rangeHeader cache now hit ha,
    h.getRange_eq rangeHeader, ?_, ?_⟩
  · intro caps ord now w ⟨e, he, hnow, hbytes⟩
    have hget : (w.edge.cache.get cid now).1 = some data := by
      simp only [EdgeCache.get, EdgeCache.nextTick, he, if_pos hnow, hbytes]
    cases rangeHeader with
    | none => exact Stored.doReadWhole_hot hget
    | some hdr =>
      rw [doRead_of_header rfl h.manifest, h.totalSize]
      unfold readOutcome
      cases hp : parseRange (some hdr) data.length with
      | full => exact Stored.doReadWhole_hot hget
      | partialRange r => exact Stored.doReadRange_hot hget (parseRange_within hp)
      | unsatisfiable => rfl
  · intro caps ord now w hcold hlen hspan
    have hget : (w.edge.cache.get cid now).1 = none := by
      have := EdgeCache.get_isSome cid now w.edge.cache
      rw [hcold] at this
      exact Option.not_isSome_iff_eq_none.1 (by rw [this]; simp)
    cases rangeHeader with
    | none => exact Stored.doReadWhole_cold ⟨caps, cid, none⟩ h hget hlen
    | some hdr =>
      rw [doRead_of_header rfl h.manifest, h.totalSize]
      unfold readOutcome
      cases hp : parseRange (some hdr) data.length with
      | full => exact Stored.doReadWhole_cold ⟨caps, cid, some hdr⟩ h hget hlen
      | partialRange r =>
        exact Stored.doReadRange_cold ⟨caps, cid, some hdr⟩ h hget (parseRange_within hp)
          (hspan r (h.totalSize ▸ hp))
      | unsatisfiable => rfl

/-! ## An object in an honest store -/

def sampleManifest : Manifest where
  kind := "object"
  chunkSize := 2
  totalSize := 5
  chunks := ["0102", "0304", "05"]
  chunkSize_le := by decide
  totalSize_le := by decide

/-- A library whose hash is the bytes in hex and which reads one manifest. -/
def sampleLib : CeRs where
  cid := hexEncode
  parseManifest b := if b = [0] then .ok sampleManifest else .error "not a manifest"
  isV1 m := m.kind == "object"
  plain _ := true

def sampleStore : BlobSource where
  getBlob c :=
    match hexDecode c.toList with
    | some b => .ok b
    | none => .error "no such blob"
  getObject c := if c = "00" then .ok [1, 2, 3, 4, 5] else .error "no such object"

theorem sample_stored : Stored sampleLib sampleStore "00" sampleManifest [1, 2, 3, 4, 5] where
  manifest := rfl
  chunkSize := by decide
  totalSize := rfl
  chunks := by decide
  blobs := by
    intro b _
    simp only [sampleLib, sampleStore, hexDecode_hexEncode]
  object := rfl

/-- A range across a chunk boundary, by the client and cold over the mesh. -/
theorem read_paths_agree_sample :
    ((Client.getRange sampleLib sampleStore "00" (some "bytes=1-3")).run []).1 =
        .ok ([2, 3, 4], ⟨1, 3⟩, 5) ∧
      ((doRead sampleLib sampleStore (.stored _ _) ⟨"", "00", some "bytes=1-3"⟩ 7).run
          ⟨.new 100 0, []⟩).1 =
        .ok ((ReadOutcome.part ⟨1, 3⟩ [2, 3, 4]).mesh 5 false) := by
  have h := read_paths_agree sample_stored (some "bytes=1-3")
  have hout : readOutcome [1, 2, 3, 4, 5] (some "bytes=1-3") = .part ⟨1, 3⟩ [2, 3, 4] := by decide
  have hspan : SpanWithin sampleManifest (some "bytes=1-3") := by
    intro r hr
    have hp : parseRange (some "bytes=1-3") sampleManifest.totalSize = .partialRange ⟨1, 3⟩ := by
      decide
    rw [hp] at hr
    cases hr
    decide
  obtain ⟨-, hclient, -, hcold⟩ := h
  rw [hout] at hclient hcold
  exact ⟨hclient [], hcold "" _ 7 _ rfl (by decide) hspan⟩

end CeCdn
