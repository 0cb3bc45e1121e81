/-
What an HTTP response carries of an object, and downloads in parts. A 206 is
exactly the range its headers name, and a range printed into a `Range` header
is read back as itself; so the bodies of consecutive parts, joined, are the
object (`serve_exact`).
-/
import CeCdn.RangeHeader
import CeCdn.ReadFacts

namespace CeCdn

open Lib Text Word

/-! ## One response -/

/-- The values of a header. -/
def EdgeResponse.values (resp : EdgeResponse) (name : String) : List String :=
  (resp.headers.filter fun h => h.1 == name).map (·.2)

/-- The whole object, with its length. -/
structure EdgeResponse.IsWhole (resp : EdgeResponse) (bytes : Bytes) : Prop where
  status : resp.status = 200
  body : resp.body = .full bytes
  length : resp.values "Content-Length" = [toString bytes.length]

/-- The part of the object that its one `Content-Range` names: the slice is in
bounds, and is as long as its `Content-Length`. -/
structure EdgeResponse.IsPart (resp : EdgeResponse) (bytes : Bytes) (r : ByteRange) : Prop where
  status : resp.status = 206
  within : r.Within bytes.length
  body : ∃ b, sliceIncl bytes r.start r.stop = .ok b ∧
    resp.body = .partialBody b r bytes.length ∧ b.length = r.stop - r.start + 1
  range : resp.values "Content-Range" = [s!"bytes {r.start}-{r.stop}/{bytes.length}"]
  length : resp.values "Content-Length" = [toString (r.stop - r.start + 1)]

structure EdgeResponse.IsUnsatisfiable (resp : EdgeResponse) : Prop where
  status : resp.status = 416
  body : resp.body = .none

/-- A response is one of the three. -/
def EdgeResponse.Exact (resp : EdgeResponse) (bytes : Bytes) : Prop :=
  resp.IsWhole bytes ∨ (∃ r, resp.IsPart bytes r) ∨ resp.IsUnsatisfiable

section

variable {cid : String} {bytes : Bytes} {header : Option String} {access : Access}
  {cache : EdgeCache} {now : Nat} {hit : Bool}

/-- The cache's headers say nothing of length and range. -/
theorem filter_cacheHeaders {name : String}
    (hname : name = "Content-Length" ∨ name = "Content-Range") :
    (Edge.cacheHeaders cid cache now hit).filter (fun h => h.1 == name) = [] := by
  rw [List.filter_eq_nil_iff]
  intro h hh
  have hkey : h.1 ∈ ["Accept-Ranges", "ETag", "X-Cache", "Cache-Control", "Age"] := by
    unfold Edge.cacheHeaders at hh
    rcases List.mem_append.1 hh with hh | hh
    · simp only [List.mem_cons, List.not_mem_nil, or_false] at hh
      rcases hh with rfl | rfl | rfl | rfl <;> simp
    · split at hh
      · rw [List.mem_singleton.1 hh]; simp
      · cases hh
  rw [beq_iff_eq]
  intro heq
  rw [heq] at hkey
  rcases hname with rfl | rfl
  · exact absurd hkey (by decide)
  · exact absurd hkey (by decide)

/-- A response to a header that resolves to a range is that part. -/
theorem serve_isPart {r : ByteRange} (hp : parseRange header bytes.length = .partialRange r)
    (ha : access ≠ .denied) :
    (Edge.serve cid bytes header access cache now hit).IsPart bytes r := by
  have hw := parseRange_within hp
  have hlen : r.stop + 1 - r.start = r.len := by
    have := hw.1
    unfold ByteRange.len
    omega
  have hslice : sliceIncl bytes r.start r.stop = .ok ((bytes.drop r.start).take r.len) :=
    sliceIncl_eq_ok.2 ⟨by have := hw.1; omega, hw.2, by rw [hlen]⟩
  have hcount : ((bytes.drop r.start).take r.len).length = r.stop - r.start + 1 := by
    obtain ⟨hle, hlt⟩ := hw
    simp only [List.length_take, List.length_drop, ByteRange.len]
    omega
  rcases Edge.serve_cases cid bytes header cache now hit ha with
    ⟨hp', -⟩ | ⟨r', hp', -, hs⟩ | ⟨hp', -⟩
  · rw [hp] at hp'; cases hp'
  · rw [hp] at hp'
    cases hp'
    rw [hs]
    refine ⟨rfl, hw, ⟨_, hslice, rfl, hcount⟩, ?_, ?_⟩
    · simp only [EdgeResponse.values, List.filter_append, filter_cacheHeaders (.inr rfl)]
      rfl
    · simp only [EdgeResponse.values, List.filter_append, filter_cacheHeaders (.inl rfl)]
      rfl
  · rw [hp] at hp'; cases hp'

/-- Every response to a caller that is not denied is exact. -/
theorem serve_isExact (ha : access ≠ .denied) :
    (Edge.serve cid bytes header access cache now hit).Exact bytes := by
  rcases Edge.serve_cases cid bytes header cache now hit ha with
    ⟨-, hs⟩ | ⟨r, hp, -⟩ | ⟨-, hs⟩
  · refine .inl ?_
    rw [hs]
    refine ⟨rfl, rfl, ?_⟩
    simp only [EdgeResponse.values, List.filter_append, filter_cacheHeaders (.inl rfl)]
    rfl
  · exact .inr (.inl ⟨r, serve_isPart hp ha⟩)
  · refine .inr (.inr ?_)
    rw [hs]
    exact ⟨rfl, rfl⟩

end

/-! ## Downloads in parts -/

/-- The header that asks for a range. -/
def ByteRange.rangeHeader (r : ByteRange) : String := s!"bytes={r.start}-{r.stop}"

/-- A range inside the object is read back from its header. -/
theorem parseRange_rangeHeader {r : ByteRange} {total : Nat} (hr : r.Within total)
    (ht : total ≤ u64Max) : parseRange (some r.rangeHeader) total = .partialRange r := by
  obtain ⟨hle, hlt⟩ := hr
  have htight : r.rangeHeader.toList =
      rangeUnit ++ (toString r.start).toList ++ '-' :: (toString r.stop).toList := by
    change ((("bytes=" ++ toString r.start) ++ "-") ++ toString r.stop).toList = _
    simp only [String.toList_append, List.append_assoc]
    rfl
  have hs := digits_toString r.start
  have he := digits_toString r.stop
  have hw := wellFormedAs_of_tight htight (digits_iff.2 hs) (digits_iff.2 he)
    (.inl (toString_ne_nil r.start))
  have htotal : total ≠ 0 := by omega
  rw [parseRange_tokens hw.tokens hs.trimmed he.trimmed (hs.not_mem (by decide))
    ⟨hs.not_mem (by decide), he.not_mem (by decide)⟩, if_neg htotal,
    resolveSpec_digits hs he hw.one (by rw [digitsVal_toString]; omega)
      (by rw [digitsVal_toString]; omega) htotal]
  simp only [rangeOfNumerals, toString_ne_nil, if_false, digitsVal_toString]
  have hsat : ¬ (r.start > r.stop ∨ r.start ≥ total) := by omega
  have hmin : min r.stop (total - 1) = r.stop := by omega
  rw [if_neg hsat, hmin]

/-- The ranges follow one another from a place on, up to the total. -/
inductive Consecutive (total : Nat) : Nat → List ByteRange → Prop where
  | nil : Consecutive total total []
  | cons {r : ByteRange} {rs : List ByteRange} : r.start ≤ r.stop →
      Consecutive total (r.stop + 1) rs → Consecutive total r.start (r :: rs)

theorem Consecutive.le {total a : Nat} {rs : List ByteRange} (h : Consecutive total a rs) :
    a ≤ total := by
  induction h with
  | nil => exact Nat.le_refl _
  | cons hle _ ih => omega

/-- One request of a download. -/
structure PartRequest where
  range : ByteRange
  access : Access
  cache : EdgeCache
  now : Nat
  hit : Bool

/-- What it is answered. -/
def PartRequest.response (q : PartRequest) (cid : String) (bytes : Bytes) : EdgeResponse :=
  Edge.serve cid bytes (some q.range.rangeHeader) q.access q.cache q.now q.hit

/-- Consecutive parts are each served, and joined are the rest of the object. -/
theorem parts_from {bytes : Bytes} (hlen : bytes.length ≤ u64Max) (cid : String) {a : Nat}
    {qs : List PartRequest} (hqs : Consecutive bytes.length a (qs.map (·.range)))
    (ha : ∀ q ∈ qs, q.access ≠ .denied) :
    (∀ q ∈ qs, (q.response cid bytes).IsPart bytes q.range) ∧
      (qs.map fun q => (q.response cid bytes).body.bytes).flatten = bytes.drop a := by
  induction qs generalizing a with
  | nil =>
    cases hqs
    simp
  | cons q qs ih =>
    obtain _ | ⟨hle, hrest⟩ := hqs
    have hle : q.range.start ≤ q.range.stop := hle
    have hw : q.range.Within bytes.length := ⟨hle, hrest.le⟩
    have hpart : (q.response cid bytes).IsPart bytes q.range :=
      serve_isPart (parseRange_rangeHeader hw hlen) (ha q (by simp))
    obtain ⟨hall, hjoined⟩ := ih hrest fun q' hq' => ha q' (by simp [hq'])
    refine ⟨fun q' hq' => ?_, ?_⟩
    · rcases List.mem_cons.1 hq' with rfl | hq'
      · exact hpart
      · exact hall q' hq'
    · obtain ⟨b, hb, hbody, -⟩ := hpart.body
      obtain ⟨-, -, rfl⟩ := sliceIncl_eq_ok.1 hb
      have hnext : q.range.stop + 1 = q.range.start + (q.range.stop + 1 - q.range.start) := by omega
      rw [List.map_cons, List.flatten_cons, hjoined, hbody, Body.bytes]
      calc (bytes.drop q.range.start).take (q.range.stop + 1 - q.range.start) ++
            bytes.drop (q.range.stop + 1)
          = (bytes.drop q.range.start).take (q.range.stop + 1 - q.range.start) ++
            (bytes.drop q.range.start).drop (q.range.stop + 1 - q.range.start) := by
            rw [List.drop_drop, ← hnext]
        _ = bytes.drop q.range.start := List.take_append_drop _ _

/-- **Responses are exact, and downloads in parts reassemble.** For every
object, whose length is a `usize`: each response to a caller that is not denied
is exact; and the requests of consecutive ranges from 0 to the end are each
answered 206, with bodies that joined in order are the object. -/
theorem serve_exact (cid : String) {bytes : Bytes} (hlen : bytes.length ≤ u64Max) :
    (∀ header access cache now hit, access ≠ .denied →
      (Edge.serve cid bytes header access cache now hit).Exact bytes) ∧
    ∀ qs : List PartRequest, Consecutive bytes.length 0 (qs.map (·.range)) →
      (∀ q ∈ qs, q.access ≠ .denied) →
      (∀ q ∈ qs, (q.response cid bytes).IsPart bytes q.range) ∧
        (qs.map fun q => (q.response cid bytes).body.bytes).flatten = bytes :=
  ⟨fun _ _ _ _ _ ha => serve_isExact ha, fun _ hqs ha => parts_from hlen cid hqs ha⟩

def samplePart (start stop : Nat) : PartRequest :=
  ⟨⟨start, stop⟩, .publicAccess, .new 10 0, 0, false⟩

/-- Three bytes in two parts. -/
theorem serve_exact_sample :
    ([samplePart 0 1, samplePart 2 2].map fun q =>
      (q.response "00" [7, 8, 9]).body.bytes).flatten = [7, 8, 9] := by
  have hqs : Consecutive 3 0 [⟨0, 1⟩, ⟨2, 2⟩] :=
    .cons (r := ⟨0, 1⟩) (by decide) (.cons (r := ⟨2, 2⟩) (by decide) .nil)
  refine ((@serve_exact "00" [7, 8, 9] (by decide)).2 [samplePart 0 1, samplePart 2 2] hqs ?_).2
  intro q hq
  simp only [List.mem_cons, List.not_mem_nil, or_false] at hq
  rcases hq with rfl | rfl
  · decide
  · decide

end CeCdn
