/-
A presigned link is good for its object, signer and lifetime
(`presigned_link_accepted_iff`), and what other parameters in its query do.

`parse_query` goes through the parts between the `&`s. It passes over a part
with another key, but a part without `=`, the empty one included, ends it with
nothing: `foreign_parts_harmless_iff`.
-/
import CeCdn.Lib.TextFacts
import CeCdn.Limits
import CeCdn.Signed

namespace CeCdn

open Lib Text Word

/-! ## The parts of a query -/

def expPart (expires : Nat) : List Char := "exp".toList ++ '=' :: (toString expires).toList

def sigPart (sig : Signature) : List Char := "sig".toList ++ '=' :: hexChars sig.1

/-- A query of parts. -/
def joinParts (parts : List (List Char)) : String := String.ofList (['&'].intercalate parts)

/-- The key of a part: what comes before its first `=`, or all of it. -/
def partKey (part : List Char) : List Char :=
  match splitOnce '=' part with
  | some (k, _) => k
  | none => part

/-- A part of a query that is not the link's own. -/
structure Foreign (part : List Char) : Prop where
  one : '&' ∉ part
  not_exp : partKey part ≠ "exp".toList
  not_sig : partKey part ≠ "sig".toList

section

variable {expires : Nat} {sig : Signature} {parts : List (List Char)} {part : List Char}
  {e : Option Nat} {s : Option Signature}

theorem splitOn_joinParts (hne : parts ≠ []) (hparts : ∀ p ∈ parts, '&' ∉ p) :
    (joinParts parts).toList.splitOn '&' = parts := by
  rw [joinParts, String.toList_ofList, List.splitOn_intercalate '&' hparts hne]

/-- The characters of a part are in the query. -/
theorem mem_joinParts {c : Char} (hp : part ∈ parts) (hc : c ∈ part) :
    c ∈ (joinParts parts).toList := by
  rw [joinParts, String.toList_ofList]
  exact mem_intercalate hp hc

theorem parsePairs_exp (he : expires ≤ u64Max) :
    parsePairs (expPart expires :: parts) e s = parsePairs parts (some expires) s := by
  have hsplit : splitOnce '=' (expPart expires) = some ("exp".toList, (toString expires).toList) :=
    splitOnce_append _ (l := "exp".toList) (by decide)
  simp only [parsePairs, hsplit, if_true, trim_of_trimmed (digits_toString expires).trimmed,
    parseU64_toString he]

theorem parsePairs_sig :
    parsePairs (sigPart sig :: parts) e s = parsePairs parts e (some sig) := by
  have hsplit : splitOnce '=' (sigPart sig) = some ("sig".toList, hexChars sig.1) :=
    splitOnce_append _ (l := "sig".toList) (by decide)
  have hne : "sig".toList ≠ "exp".toList := by decide
  simp only [parsePairs, hsplit, if_neg hne, if_true, trim_of_trimmed (trimmed_hexChars _),
    ofList_hexChars]

/-- A foreign part with `=` is passed over. -/
theorem parsePairs_foreign (hp : Foreign part) (heq : '=' ∈ part) :
    parsePairs (part :: parts) e s = parsePairs parts e s := by
  cases hs : splitOnce '=' part with
  | none => exact absurd heq (splitOnce_eq_none_iff.1 hs)
  | some kv =>
    have hkey : partKey part = kv.1 := by simp [partKey, hs]
    have hexp := hp.not_exp
    have hsig := hp.not_sig
    rw [hkey] at hexp hsig
    simp only [parsePairs, hs, if_neg hexp, if_neg hsig]

theorem parsePairs_foreign_append {foreign : List (List Char)}
    (hf : ∀ p ∈ foreign, Foreign p ∧ '=' ∈ p) :
    parsePairs (foreign ++ parts) e s = parsePairs parts e s := by
  induction foreign with
  | nil => rfl
  | cons p foreign ih =>
    obtain ⟨hp, heq⟩ := hf p (by simp)
    rw [List.cons_append, parsePairs_foreign hp heq]
    exact ih fun q hq => hf q (by simp [hq])

/-- A part without `=` ends the loop with nothing. -/
theorem parsePairs_eq_none (hp : part ∈ parts) (hno : '=' ∉ part) :
    parsePairs parts e s = none := by
  induction parts generalizing e s with
  | nil => cases hp
  | cons q parts ih =>
    rw [parsePairs]
    cases hs : splitOnce '=' q with
    | none => rfl
    | some kv =>
      have hmem : part ∈ parts := by
        rcases List.mem_cons.1 hp with rfl | hmem
        · rw [splitOnce_eq_none_iff.2 hno] at hs
          cases hs
        · exact hmem
      simp only
      split
      · exact ih hmem
      · split
        · exact ih hmem
        · exact ih hmem

theorem amp_not_mem_expPart : '&' ∉ expPart expires := by
  have hdigits := (digits_toString expires).not_mem (d := '&') (by decide)
  have hkey : '&' ∉ "exp".toList := by decide
  have heq : '&' ≠ '=' := by decide
  simp only [expPart, List.mem_append, List.mem_cons, not_or]
  exact ⟨hkey, heq, hdigits⟩

theorem amp_not_mem_sigPart : '&' ∉ sigPart sig := by
  have hhex := hexChars_not_mem sig.1 (c := '&') (by decide)
  have hkey : '&' ∉ "sig".toList := by decide
  have heq : '&' ≠ '=' := by decide
  simp only [sigPart, List.mem_append, List.mem_cons, not_or]
  exact ⟨hkey, heq, hhex⟩

end

/-! ## Reading a link's query -/

/-- The query of a link, among other parts. -/
def linkQuery (expires : Nat) (sig : Signature) (before between after : List (List Char)) :
    String :=
  joinParts (before ++ expPart expires :: (between ++ sigPart sig :: after))

section

variable {expires : Nat} {sig : Signature} {before between after : List (List Char)}

theorem parseQuery_linkQuery (hf : ∀ p ∈ before ++ between ++ after, Foreign p) :
    parseQuery (linkQuery expires sig before between after) =
      (do
        let (e, s) ← parsePairs (before ++ expPart expires :: (between ++ sigPart sig :: after))
          none none
        let e ← e
        let s ← s
        pure ⟨e, s⟩) := by
  rw [parseQuery, linkQuery, splitOn_joinParts (by simp)]
  intro p hp
  simp only [List.mem_append, List.mem_cons] at hp
  rcases hp with hp | rfl | hp | rfl | hp
  · exact (hf p (by simp [hp])).one
  · exact amp_not_mem_expPart
  · exact (hf p (by simp [hp])).one
  · exact amp_not_mem_sigPart
  · exact (hf p (by simp [hp])).one

/-- Foreign parts with `=` leave expiry and signature to be read. -/
theorem parseQuery_linkQuery_of_equals (he : expires ≤ u64Max)
    (hf : ∀ p ∈ before ++ between ++ after, Foreign p)
    (heq : ∀ p ∈ before ++ between ++ after, '=' ∈ p) :
    parseQuery (linkQuery expires sig before between after) = some ⟨expires, sig⟩ := by
  have hboth : ∀ p ∈ before ++ between ++ after, Foreign p ∧ '=' ∈ p :=
    fun p hp => ⟨hf p hp, heq p hp⟩
  have hafter := @parsePairs_foreign_append [] (some expires) (some sig) after
    fun p hp => hboth p (by simp [hp])
  rw [List.append_nil] at hafter
  rw [parseQuery_linkQuery hf, parsePairs_foreign_append fun p hp => hboth p (by simp [hp]),
    parsePairs_exp he, parsePairs_foreign_append fun p hp => hboth p (by simp [hp]),
    parsePairs_sig, hafter]
  rfl

theorem parseQuery_linkQuery_of_no_equals (hf : ∀ p ∈ before ++ between ++ after, Foreign p)
    {p : List Char} (hp : p ∈ before ++ between ++ after) (hno : '=' ∉ p) :
    parseQuery (linkQuery expires sig before between after) = none := by
  have hmem : p ∈ before ++ expPart expires :: (between ++ sigPart sig :: after) := by
    simp only [List.mem_append] at hp
    rcases hp with (hp | hp) | hp
    · simp [hp]
    · simp [hp]
    · simp [hp]
  rw [parseQuery_linkQuery hf, parsePairs_eq_none hmem hno]
  rfl

/-- A link's query is not blank. -/
theorem trim_linkQuery_ne_nil :
    trim (linkQuery expires sig before between after).toList ≠ [] := by
  have hchar : 'e' ∈ expPart expires := by simp [expPart]
  have hmem : 'e' ∈ (linkQuery expires sig before between after).toList :=
    mem_joinParts (by simp) hchar
  exact List.ne_nil_of_mem ((mem_trim_iff (by decide)).2 hmem)

/-- The checks on a query that was read. -/
theorem verifyPresign_parsed_iff {verify : Verify} {query cid : String} {trusted : List NodeId}
    {now : Nat} {p : Presign} (hquery : trim query.toList ≠ []) (hp : parseQuery query = some p) :
    verifyPresign verify query cid trusted now = .ok () ↔
      now ≤ p.expires ∧ p.expires ≤ satAdd now MAX_PRESIGN_TTL_SECS ∧
        ∃ key ∈ trusted, verify key (presignChallenge cid p.expires) p.sig = true := by
  by_cases htrusted : trusted = []
  · simp [verifyPresign, htrusted]
  · simp only [verifyPresign, hquery, htrusted, or_self, if_false, hp]
    by_cases hexp : p.expires < now
    · simp [hexp]
    · by_cases hfar : p.expires > satAdd now MAX_PRESIGN_TTL_SECS
      · simp [hexp, hfar]
      · by_cases hsig : trusted.any fun key => verify key (presignChallenge cid p.expires) p.sig
        · simp only [hexp, hfar, hsig, if_false, if_true, true_iff]
          obtain ⟨key, hkey, hv⟩ := List.any_eq_true.1 hsig
          exact ⟨by omega, by omega, key, hkey, hv⟩
        · simp only [hexp, hfar, hsig, if_false]
          refine ⟨fun h => ?_, fun ⟨_, _, key, hkey, hv⟩ => ?_⟩
          · cases h
          · exact absurd (List.any_eq_true.2 ⟨key, hkey, hv⟩) hsig

/-- Queries that read alike are decided alike. -/
theorem verifyPresign_congr {query query' : String} (hquery : trim query.toList ≠ [])
    (hquery' : trim query'.toList ≠ []) (h : parseQuery query = parseQuery query')
    (verify : Verify) (cid : String) (trusted : List NodeId) (now : Nat) :
    verifyPresign verify query cid trusted now = verifyPresign verify query' cid trusted now := by
  simp only [verifyPresign, hquery, hquery', h]

end

/-! ## Minted links -/

theorem presignQuery_eq (sign : List UInt8 → Signature) (cid : String) (expires : Nat) :
    presignQuery sign cid expires =
      linkQuery expires (sign (presignChallenge cid expires)) [] [] [] := by
  apply String.toList_inj.1
  change (((("exp=" ++ toString expires) ++ "&sig=") ++ hexEncode _)).toList = _
  rw [linkQuery, joinParts, String.toList_ofList]
  simp only [String.toList_append, hexEncode, String.toList_ofList, List.append_assoc]
  simp [List.intercalate, expPart, sigPart]

/-- A minted query is accepted within its time, where a trusted key verifies it. -/
theorem verifyPresign_minted_iff {verify : Verify} {sign : List UInt8 → Signature}
    {cid cid' : String} {expires now : Nat} {trusted : List NodeId} (he : expires ≤ u64Max) :
    verifyPresign verify (presignQuery sign cid expires) cid' trusted now = .ok () ↔
      now ≤ expires ∧ expires ≤ satAdd now MAX_PRESIGN_TTL_SECS ∧
        ∃ key ∈ trusted,
          verify key (presignChallenge cid' expires) (sign (presignChallenge cid expires)) = true := by
  rw [presignQuery_eq, verifyPresign_parsed_iff trim_linkQuery_ne_nil
    (parseQuery_linkQuery_of_equals he (by simp) (by simp))]

theorem CidChars.question_not_mem {cid : String} (h : CidChars cid) : '?' ∉ cid.toList :=
  h.not_mem 63 (by decide) (by decide)

theorem question_not_mem_presignQuery (sign : List UInt8 → Signature) (cid : String)
    (expires : Nat) : '?' ∉ (presignQuery sign cid expires).toList := by
  have hdigits := (digits_toString expires).not_mem (d := '?') (by decide)
  have hhex := hexChars_not_mem (sign (presignChallenge cid expires)).1 (c := '?') (by decide)
  change '?' ∉ (((("exp=" ++ toString expires) ++ "&sig=") ++ hexEncode _)).toList
  have hexp : '?' ∉ "exp=".toList := by decide
  have hsig : '?' ∉ "&sig=".toList := by decide
  simp only [String.toList_append, hexEncode, String.toList_ofList, List.mem_append, not_or]
  exact ⟨⟨⟨hexp, hdigits⟩, hsig⟩, hhex⟩

theorem toList_presignUrl (sign : List UInt8 → Signature) (cid : String) (expires : Nat) :
    (presignUrl sign cid expires).toList =
      s!"/cdn/{cid}".toList ++ '?' :: (presignQuery sign cid expires).toList := by
  change ((("/cdn/" ++ cid) ++ "?") ++ presignQuery sign cid expires).toList =
    ("/cdn/" ++ cid).toList ++ _
  simp

theorem CidChars.question_not_mem_path {cid : String} (h : CidChars cid) :
    '?' ∉ s!"/cdn/{cid}".toList := by
  have hcdn : '?' ∉ "/cdn/".toList := by decide
  change '?' ∉ ("/cdn/" ++ cid).toList
  simp only [String.toList_append, List.mem_append, not_or]
  exact ⟨hcdn, h.question_not_mem⟩

/-- A link splits into its path and its query. -/
theorem splitOn_presignUrl (sign : List UInt8 → Signature) (expires : Nat) {cid : String}
    (hcid : CidChars cid) :
    (presignUrl sign cid expires).toList.splitOn '?' =
      [s!"/cdn/{cid}".toList, (presignQuery sign cid expires).toList] := by
  rw [toList_presignUrl, List.splitOn_append_cons_self_of_not_mem hcid.question_not_mem_path,
    List.splitOn_eq_singleton (question_not_mem_presignQuery sign cid expires)]

/-- **A presigned link is accepted exactly for its object, signer and
lifetime.** The query is minted for a CID and an expiry, with a signature that
an ideal scheme made by the signer's key. It is accepted for that CID when the
key is trusted, from the clock's `expires` less seven days to `expires`; and
the link splits into its path and this query. -/
theorem presigned_link_accepted_iff {verify : Verify} {sign : List UInt8 → Signature}
    (signer : NodeId) (cid : Field) (expires : Word64)
    (hsign : SignedBy verify signer (presignChallenge cid.1 expires.1)
      (sign (presignChallenge cid.1 expires.1))) :
    (∀ (trusted : List NodeId) (cid' : Field) (now : Word64),
      verifyPresign verify (presignQuery sign cid.1 expires.1) cid'.1 trusted now.1 = .ok () ↔
        signer ∈ trusted ∧ cid' = cid ∧ now.1 ≤ expires.1 ∧
          expires.1 ≤ now.1 + 7 * 24 * 3600) ∧
    (CidChars cid.1 →
      (presignUrl sign cid.1 expires.1).toList.splitOn '?' =
        [s!"/cdn/{cid.1}".toList, (presignQuery sign cid.1 expires.1).toList]) := by
  refine ⟨fun trusted cid' now => ?_, splitOn_presignUrl sign expires.1⟩
  rw [verifyPresign_minted_iff expires.le_max, le_satAdd_iff expires.le_max, show MAX_PRESIGN_TTL_SECS = 7 * 24 * 3600 from rfl]
  constructor
  · rintro ⟨hnow, hmax, key, hkey, hv⟩
    obtain ⟨rfl, hmsg⟩ := (hsign _ _).1 hv
    obtain ⟨rfl, -⟩ := presignChallenge_inj hmsg
    exact ⟨hkey, rfl, hnow, hmax⟩
  · rintro ⟨hkey, rfl, hnow, hmax⟩
    exact ⟨hnow, hmax, signer, hkey, (hsign _ _).2 ⟨rfl, rfl⟩⟩

def samplePresignChallenge : List UInt8 := presignChallenge "p" 100

/-- The scheme in which one link was signed. -/
def presignScheme : Verify :=
  idealVerify [(sampleReader, samplePresignChallenge, toySign sampleReader samplePresignChallenge)]

/-- A link until 100, followed at 60 where its signer is trusted, and where
another key is. -/
theorem presigned_link_accepted_sample :
    let query := presignQuery (toySign sampleReader) "p" 100
    verifyPresign presignScheme query "p" [sampleEdge, sampleReader] 60 = .ok () ∧
    verifyPresign presignScheme query "p" [sampleEdge] 60 ≠ .ok () ∧
    (presignUrl (toySign sampleReader) "p" 100).toList.splitOn '?' =
      ["/cdn/p".toList, query.toList] := by
  intro query
  have hsign := signedBy_idealVerify sampleReader samplePresignChallenge
    (toySign sampleReader samplePresignChallenge)
  have h := presigned_link_accepted_iff sampleReader ⟨"p", by decide⟩ ⟨100, by decide⟩ hsign
  refine ⟨(h.1 [sampleEdge, sampleReader] ⟨"p", by decide⟩ ⟨60, by decide⟩).2
    ⟨by decide, rfl, by decide, by decide⟩, fun hok => ?_,
    h.2 (cidChars_of_acceptable (by decide))⟩
  have hkey := (h.1 [sampleEdge] ⟨"p", by decide⟩ ⟨60, by decide⟩).1 hok
  exact absurd hkey.1 (by decide)

/-! ## Foreign parts -/

/-- Foreign parts change nothing: the query reads, and is decided, as the
link's own does. -/
structure Harmless (expires : Nat) (sig : Signature) (before between after : List (List Char)) :
    Prop where
  parse : parseQuery (linkQuery expires sig before between after) =
    parseQuery (linkQuery expires sig [] [] [])
  verify : ∀ verify cid trusted now,
    verifyPresign verify (linkQuery expires sig before between after) cid trusted now =
      verifyPresign verify (linkQuery expires sig [] [] []) cid trusted now

/-- Harmless parts have a `=` each. -/
theorem Harmless.equals {expires : Nat} {sig : Signature} {before between after : List (List Char)}
    (h : Harmless expires sig before between after) (he : expires ≤ u64Max)
    (hf : ∀ p ∈ before ++ between ++ after, Foreign p) {p : List Char}
    (hp : p ∈ before ++ between ++ after) : '=' ∈ p := by
  by_contra hno
  have hparse := h.parse
  rw [parseQuery_linkQuery_of_no_equals hf hp hno,
    parseQuery_linkQuery_of_equals he (by simp) (by simp)] at hparse
  cases hparse

/-- **When foreign parts change nothing.** For every expiry and signature, and
parts before, between and behind them with keys other than `exp` and `sig`:
exactly when each of the parts has a `=`. -/
theorem foreign_parts_harmless_iff (expires : Word64) (sig : Signature)
    {before between after : List (List Char)}
    (hf : ∀ p ∈ before ++ between ++ after, Foreign p) :
    Harmless expires.1 sig before between after ↔
      ∀ p ∈ before ++ between ++ after, '=' ∈ p := by
  have he : expires.1 ≤ u64Max := expires.le_max
  constructor
  · intro h p hp
    exact h.equals he hf hp
  · intro heq
    have hparse : parseQuery (linkQuery expires.1 sig before between after) =
        parseQuery (linkQuery expires.1 sig [] [] []) := by
      rw [parseQuery_linkQuery_of_equals he hf heq,
        parseQuery_linkQuery_of_equals he (by simp) (by simp)]
    exact ⟨hparse, verifyPresign_congr trim_linkQuery_ne_nil trim_linkQuery_ne_nil hparse⟩

theorem foreign_parts_harmless_sample :
    Harmless 100 (ByteArr.zero 64) ["a=1".toList] [] ["=".toList] := by
  refine (foreign_parts_harmless_iff ⟨100, by decide⟩ (ByteArr.zero 64) ?_).2 (by decide)
  intro p hp
  simp only [List.cons_append, List.nil_append, List.append_nil, List.mem_cons,
    List.not_mem_nil, or_false] at hp
  rcases hp with rfl | rfl
  · exact ⟨by decide, by decide, by decide⟩
  · exact ⟨by decide, by decide, by decide⟩

/-- A part without `=`, and the empty part behind a final `&`. -/
theorem foreign_parts_harmful :
    (Foreign "ref".toList ∧ ¬ Harmless 100 (ByteArr.zero 64) ["ref".toList] [] []) ∧
    (Foreign [] ∧ ¬ Harmless 100 (ByteArr.zero 64) [] [] [[]]) := by
  have href : Foreign "ref".toList := ⟨by decide, by decide, by decide⟩
  have hnil : Foreign [] := ⟨by decide, by decide, by decide⟩
  refine ⟨⟨href, fun h => ?_⟩, hnil, fun h => ?_⟩
  · exact absurd (h.equals (by decide) (by simpa using href) (List.mem_singleton_self _)) (by decide)
  · exact absurd (h.equals (by decide) (by simpa using hnil) (List.mem_singleton_self _)) (by decide)

end CeCdn
