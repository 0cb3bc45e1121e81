/-
How far a range read trusts the blob store. The chunks are hashed against the
CIDs the manifest lists, but nothing hashes the manifest against the CID it was
asked for (`parseV1` only reads it), so a store may answer with the manifest of
another object. The read is trustless exactly when the manifest answered hashes
to the CID, or the rest of the answers fail the read anyway
(`range_read_trustless_iff`).
-/
import CeCdn.ReadPaths

namespace CeCdn

open Lib Text Word

/-- `data` is the object a CID names: the CID is the hash of a v1 manifest that
lists the hashes of the chunks `data` is made of. -/
def Names (rs : CeRs) (c : String) (data : Bytes) : Prop :=
  ∃ mb m, ∃ bs : List Bytes, rs.cid mb = c ∧ rs.parseManifest mb = .ok m ∧ rs.isV1 m = true ∧
    m.chunks = bs.map rs.cid ∧ data = bs.flatten

/-- What a trustless read of `c` promises of the bytes it returns: the manifest
it used hashes to `c`, and the bytes are bytes of the object `c` names. -/
structure Trustworthy (rs : CeRs) (src : BlobSource) (c : String) (b : Bytes) : Prop where
  manifest : ∃ mb, src.getBlob c = .ok mb ∧ rs.cid mb = c
  bytes : ∀ data, Names rs c data → b <:+: data

/-- The store's answers let the client's read through. -/
def ClientServes (rs : CeRs) (src : BlobSource) (m : Manifest) (rangeHeader : Option String) :
    Prop := ∃ b r, ClientReads rs src m rangeHeader b r

/-- The store's answers let the host's cold read through. -/
def HostServes (rs : CeRs) (src : BlobSource) (m : Manifest) (range : ByteRange) : Prop :=
  ∃ b, EdgeState.HostReads rs src m range b

/-- The cache holds the object fresh and long enough, so a range read does not
ask the store. -/
def HotFor (c : EdgeCache) (cid : String) (range : ByteRange) (now : Nat) : Prop :=
  ∃ e, c.entries.lookup cid = some e ∧ now ≤ e.expiresAt ∧ range.stop < e.bytes.length

/-- The manifest the store answers for a CID hashes to it, or is of no use for
the read. -/
def HashedOr (rs : CeRs) (src : BlobSource) (c : String) (serves : Manifest → Prop) : Prop :=
  ∀ mb m, src.getBlob c = .ok mb → rs.parseManifest mb = .ok m → rs.isV1 m = true →
    rs.cid mb = c ∨ ¬ serves m

section

variable {rs : CeRs} {src : BlobSource}

theorem infix_flatten {α : Type} {bs bs' : List (List α)} (h : bs <:+: bs') :
    bs.flatten <:+: bs'.flatten := by
  obtain ⟨s, t, rfl⟩ := h
  exact ⟨s.flatten, t.flatten, by simp⟩

theorem pulledCids_isInfix {m : Manifest} {first last : Nat} {cids : List String}
    (h : pulledCids m first last = .ok cids) : cids <:+: m.chunks := by
  unfold pulledCids at h
  split at h
  · cases h
    exact List.nil_infix
  · obtain ⟨-, -, rfl⟩ := sliceIncl_eq_ok.1 h
    exact (List.take_prefix _ _).isInfix.trans (List.drop_suffix _ _).isInfix

/-- Chunks that verify under a manifest are chunks of the object it is of. -/
theorem pulled_isInfix (hinj : Function.Injective rs.cid) {m : Manifest} {first last : Nat}
    {joined : Bytes} {bs : List Bytes} (hm : m.chunks = bs.map rs.cid)
    (h : Pulled rs src m first last joined) : joined <:+: bs.flatten := by
  obtain ⟨cids, xs, hc, hv, rfl⟩ := h
  have hsub : xs.map rs.cid <:+: bs.map rs.cid := by
    rw [hv.map_cid, ← hm]
    exact pulledCids_isInfix hc
  obtain ⟨s, t, hst⟩ := hsub
  have happ : bs.map rs.cid = s ++ (xs.map rs.cid ++ t) := by rw [← hst, List.append_assoc]
  obtain ⟨b₁, b₂, rfl, -, h₂⟩ := List.map_eq_append_iff.1 happ
  obtain ⟨b₃, b₄, rfl, h₃, -⟩ := List.map_eq_append_iff.1 h₂
  have hxs : b₃ = xs := List.map_injective_iff.2 hinj h₃
  rw [hxs]
  exact infix_flatten ⟨b₁, b₄, by rw [List.append_assoc]⟩

/-- With a manifest that hashes to the CID, what is cut from the verified
chunks can be trusted. -/
theorem trustworthy_of_hash (hinj : Function.Injective rs.cid) {c : String} {mb : Bytes}
    {m : Manifest} (hmb : src.getBlob c = .ok mb) (hp : rs.parseManifest mb = .ok m)
    (hhash : rs.cid mb = c) {first last : Nat} {joined b : Bytes}
    (hj : Pulled rs src m first last joined) (hb : b <:+: joined) : Trustworthy rs src c b := by
  refine ⟨⟨mb, hmb, hhash⟩, ?_⟩
  intro data hdata
  obtain ⟨mb', m', bs, hc, hp', -, hchunks, rfl⟩ := hdata
  obtain rfl : mb' = mb := hinj (hc.trans hhash.symm)
  rw [hp] at hp'
  cases hp'
  exact hb.trans (pulled_isInfix hinj hchunks hj)

/-- What the client returns is cut from the chunks it pulled. -/
theorem clientReads_isInfix {m : Manifest} {rangeHeader : Option String} {b : Bytes} {r : ByteRange}
    (h : ClientReads rs src m rangeHeader b r) :
    ∃ first last joined, Pulled rs src m first last joined ∧ b <:+: joined := by
  unfold ClientReads at h
  split at h
  · exact ⟨_, _, b, h.2, List.infix_rfl⟩
  · obtain ⟨-, span, joined, -, hj, -, rfl⟩ := h
    exact ⟨_, _, joined, hj, span.cut_isInfix joined⟩
  · cases h

/-- A read that uses the manifest whenever it succeeds is trustless exactly
when that manifest hashes to the CID or is of no use. -/
theorem trustless_iff {c : String} (reads : Manifest → Bytes → Prop)
    (hreads : ∀ mb m b, src.getBlob c = .ok mb → rs.parseManifest mb = .ok m → rs.cid mb = c →
      reads m b → Trustworthy rs src c b) :
    (∀ b, (∃ m, manifestAt rs src c = .ok m ∧ reads m b) → Trustworthy rs src c b) ↔
      HashedOr rs src c fun m => ∃ b, reads m b := by
  constructor
  · intro h mb m hmb hp hv
    by_cases hs : ∃ b, reads m b
    · obtain ⟨b, hb⟩ := hs
      obtain ⟨mb', hmb', hhash⟩ := (h b ⟨m, manifestAt_eq_ok.2 ⟨mb, hmb, hp, hv⟩, hb⟩).manifest
      rw [hmb] at hmb'
      cases hmb'
      exact .inl hhash
    · exact .inr hs
  · intro h b hb
    obtain ⟨m, hm, hr⟩ := hb
    obtain ⟨mb, hmb, hp, hv⟩ := manifestAt_eq_ok.1 hm
    rcases h mb m hmb hp hv with hhash | hs
    · exact hreads mb m b hmb hp hhash hr
    · exact absurd ⟨b, hr⟩ hs

/-- With the object hot the host answers from the cache. -/
theorem readRange_hot {c : String} {range : ByteRange} {now : Nat} {w : World} {b : Bytes}
    {hit : Bool} (hhot : HotFor w.edge.cache c range now)
    (h : ((EdgeState.readRange rs src c range now).run w).1 = .ok (b, hit)) : hit = true := by
  obtain ⟨e, he, hnow, hlen⟩ := hhot
  have hget : (w.edge.cache.get c now).1 = some e.bytes := by
    simp only [EdgeCache.get, EdgeCache.nextTick, he, if_pos hnow]
  unfold EdgeState.readRange at h
  rw [Eff.run_bind_of_ok (EdgeState.withCache_apply _ _)] at h
  simp only [hget, if_pos hlen, Eff.run_bind_fst_ok_iff] at h
  obtain ⟨x, -, hx⟩ := h
  cases hx
  rfl

/-- Otherwise it goes to the store. -/
theorem readRange_cold {c : String} {range : ByteRange} {now : Nat} {w : World}
    (hcold : ¬ HotFor w.edge.cache c range now) :
    (EdgeState.readRange rs src c range now).run w =
      (EdgeState.readRangeCold rs src c range).run (w.setCache (w.edge.cache.get c now).2) := by
  refine EdgeState.readRange_of_miss ?_
  intro b hb hlen
  obtain ⟨e, he, rfl, hnow⟩ := EdgeCache.get_eq_some hb
  exact hcold ⟨e, he, hnow, hlen⟩

end

/-- **When a range read is trustless.** With a collision-free hash, for every
store, CID, header, range and state: what the client's `get_range` returns can
be trusted exactly when the manifest answered hashes to the CID or the answers
fail the read anyway; and what a cold `read_range` of the host returns can be
trusted exactly when the cache answers instead, or the same holds of it. -/
theorem range_read_trustless_iff {rs : CeRs} (hinj : Function.Injective rs.cid) (src : BlobSource)
    (c : String) (rangeHeader : Option String) (calls : List SourceCall) (range : ByteRange)
    (now : Nat) (w : World) :
    ((∀ b r t, ((Client.getRange rs src c rangeHeader).run calls).1 = .ok (b, r, t) →
        Trustworthy rs src c b) ↔
      HashedOr rs src c fun m => ClientServes rs src m rangeHeader) ∧
    ((∀ b, ((EdgeState.readRange rs src c range now).run w).1 = .ok (b, false) →
        Trustworthy rs src c b) ↔
      HotFor w.edge.cache c range now ∨ HashedOr rs src c fun m => HostServes rs src m range) := by
  constructor
  · refine Iff.trans ?_ (trustless_iff (fun m b => ∃ r, ClientReads rs src m rangeHeader b r) ?_)
    · constructor
      · intro h b hb
        obtain ⟨m, hm, r, hr⟩ := hb
        exact h b r m.totalSize (Client.getRange_eq_ok_iff.2 ⟨m, hm, rfl, hr⟩)
      · intro h b r t hb
        obtain ⟨m, hm, -, hr⟩ := Client.getRange_eq_ok_iff.1 hb
        exact h b ⟨m, hm, r, hr⟩
    · intro mb m b hmb hp hhash hr
      obtain ⟨r, hr⟩ := hr
      obtain ⟨_, _, joined, hj, hb⟩ := clientReads_isInfix hr
      exact trustworthy_of_hash hinj hmb hp hhash hj hb
  · by_cases hhot : HotFor w.edge.cache c range now
    · refine ⟨fun _ => .inl hhot, ?_⟩
      intro _ b hb
      cases readRange_hot hhot hb
    · rw [or_iff_right hhot]
      refine Iff.trans ?_ (trustless_iff (fun m b => EdgeState.HostReads rs src m range b) ?_)
      · simp only [readRange_cold hhot, EdgeState.readRangeCold_eq_ok_iff, true_and]
      · intro mb m b hmb hp hhash hr
        obtain ⟨span, joined, -, -, hj, -, rfl⟩ := hr
        exact trustworthy_of_hash hinj hmb hp hhash hj (span.cut_isInfix joined)

theorem hexEncode_injective : Function.Injective hexEncode := by
  intro a b h
  have ha := hexDecode_hexEncode a
  rw [h, hexDecode_hexEncode] at ha
  exact (Option.some_inj.1 ha).symm

/-- A store that answers `"ff"` with the manifest whose CID is `"00"`. -/
def swappedStore : BlobSource where
  getBlob c := if c = "ff" then .ok [0] else sampleStore.getBlob c
  getObject := sampleStore.getObject

/-- The honest store's answers meet the condition. -/
theorem range_read_trustless_iff_sample :
    ((Client.getRange sampleLib sampleStore "00" (some "bytes=1-3")).run []).1 =
      .ok ([2, 3, 4], ⟨1, 3⟩, 5) ∧
    Trustworthy sampleLib sampleStore "00" [2, 3, 4] := by
  have hread : ((Client.getRange sampleLib sampleStore "00" (some "bytes=1-3")).run []).1 =
      .ok ([2, 3, 4], ⟨1, 3⟩, 5) := by
    decide
  refine ⟨hread, (@range_read_trustless_iff sampleLib hexEncode_injective sampleStore "00"
    (some "bytes=1-3") [] ⟨0, 0⟩ 0 ⟨.new 0 0, []⟩).1.2 ?_ _ _ _ hread⟩
  intro mb m hmb _ _
  cases hmb
  exact .inl rfl

/-- Asked for the first byte of `"ff"`, the client and the host with an empty
cache both return the first byte of the object `"00"`. -/
theorem range_read_not_trustless :
    Function.Injective sampleLib.cid ∧
    ¬ (∀ b r t, ((Client.getRange sampleLib swappedStore "ff" (some "bytes=0-0")).run []).1 =
        .ok (b, r, t) → Trustworthy sampleLib swappedStore "ff" b) ∧
    ¬ (∀ b, ((EdgeState.readRange sampleLib swappedStore "ff" ⟨0, 0⟩ 0).run ⟨.new 100 0, []⟩).1 =
        .ok (b, false) → Trustworthy sampleLib swappedStore "ff" b) := by
  have hbad : ¬ Trustworthy sampleLib swappedStore "ff" [1] := by
    intro h
    obtain ⟨mb, hmb, hcid⟩ := h.manifest
    cases hmb
    revert hcid
    decide
  refine ⟨hexEncode_injective, ?_, ?_⟩
  · intro h
    exact hbad (h [1] ⟨0, 0⟩ 5 (by decide))
  · intro h
    exact hbad (h [1] (by decide))

end CeCdn
