/-
Which `If-None-Match` headers are answered 304. The header is cut at its commas
before its quotes are looked at, so a listed tag with commas in it comes in
pieces, and a piece between two of them that is a `*` is read as the wildcard.
So a client gets a 304 for a tag it did not list exactly when one that it did
hides a `*` in this way (`matches_by_tag_iff`).
-/
import CeCdn.Lib.TextFacts
import CeCdn.ServerFacts

namespace CeCdn.Edge

open Lib Text

/-! ## Well-formed headers -/

/-- An entity tag in a list, with white space around it: a tag in quotes, which
may have commas in it, and `W/` before it when it is weak. -/
structure ListedTag where
  before : List Char
  weak : Bool
  tag : List Char
  after : List Char
  blank_before : Blank before
  blank_after : Blank after
  quote_not_mem : '"' ∉ tag

def weakMark (weak : Bool) : List Char := if weak then "W/".toList else []

def ListedTag.opening (e : ListedTag) : List Char := e.before ++ weakMark e.weak ++ ['"']

def ListedTag.closing (e : ListedTag) : List Char := '"' :: e.after

def ListedTag.chars (e : ListedTag) : List Char := e.opening ++ e.tag ++ e.closing

/-- The values of the header: the wildcard, or a list of at least one tag. -/
inductive IfNoneMatch where
  | any
  | listed (e : ListedTag) (es : List ListedTag)

namespace IfNoneMatch

def chars : IfNoneMatch → List Char
  | any => ['*']
  | listed e es => [','].intercalate ((e :: es).map ListedTag.chars)

/-- The header is the wildcard, or lists the CID. -/
def Names (cid : String) : IfNoneMatch → Prop
  | any => True
  | listed e es => ∃ x ∈ e :: es, x.tag = cid.toList

end IfNoneMatch

/-- A `*` alone or after `W/`, with white space around either. -/
def StarAlone (p : List Char) : Prop :=
  ∃ w w', Blank w ∧ Blank w' ∧
    (p = w ++ ['*'] ++ w' ∨ ∃ u, Blank u ∧ p = w ++ ("W/".toList ++ u ++ ['*']) ++ w')

/-- Between two of its commas the tag has nothing but a `*`. -/
def ListedTag.HidesStar (e : ListedTag) : Prop :=
  ∃ a p b, e.tag = a ++ ',' :: p ++ ',' :: b ∧ StarAlone p

/-- One of the listed tags hides a `*`. -/
def IfNoneMatch.HidesStar : IfNoneMatch → Prop
  | any => False
  | listed e es => ∃ x ∈ e :: es, x.HidesStar

/-! ## What a piece is read as -/

/-- A piece without the white space and the `W/`. -/
def opaqueTag (raw : List Char) : List Char :=
  trim ((stripPrefix "W/".toList (trim raw)).getD (trim raw))

/-- A piece that is taken for the wildcard or for the CID's tag. -/
def Hits (cid : String) (p : List Char) : Prop :=
  opaqueTag p = ['*'] ∨ opaqueTag p = (etag cid).toList

theorem ifNoneMatchMatches_iff_hits (h cid : String) :
    ifNoneMatchMatches (some h) cid = true ↔ ∃ p ∈ h.toList.splitOn ',', Hits cid p := by
  simp [ifNoneMatchMatches, Hits, opaqueTag]

theorem toList_etag (cid : String) : (etag cid).toList = '"' :: cid.toList ++ ['"'] := by
  change (("\"" ++ cid) ++ "\"").toList = _
  simp

section

variable {cid : String} {p : List Char}

/-- The quotes of a piece are left in it. -/
theorem count_opaqueTag (p : List Char) : (opaqueTag p).count '"' = p.count '"' := by
  have hquote : isWhitespace '"' = false := by decide
  rw [opaqueTag, count_trim _ hquote]
  cases hstrip : stripPrefix "W/".toList (trim p) with
  | none => exact count_trim p hquote
  | some r =>
    rw [← count_trim p hquote, stripPrefix_eq_some_iff.1 hstrip]
    rfl

theorem Hits.count (h : Hits cid p) (hcid : '"' ∉ cid.toList) :
    p.count '"' = 0 ∨ p.count '"' = 2 := by
  rw [← count_opaqueTag p]
  rcases h with h | h
  · exact .inl (by rw [h]; rfl)
  · refine .inr ?_
    rw [h, toList_etag]
    simp [List.count_eq_zero.2 hcid]

/-- Which pieces are taken for the wildcard. -/
theorem opaqueTag_eq_star_iff : opaqueTag p = ['*'] ↔ StarAlone p := by
  constructor
  · intro h
    obtain ⟨w, w', hw, hw', hp, htrimmed⟩ := trim_split p
    rw [opaqueTag] at h
    cases hstrip : stripPrefix "W/".toList (trim p) with
    | none =>
      rw [hstrip, Option.getD_none, trim_of_trimmed htrimmed] at h
      exact ⟨w, w', hw, hw', .inl (by rw [← h]; exact hp)⟩
    | some r =>
      rw [hstrip, Option.getD_some] at h
      obtain ⟨-, u, u', hu, hu', hr⟩ := trim_eq_iff.1 h
      refine ⟨w, u' ++ w', hw, hu'.append hw', .inr ⟨u, hu, ?_⟩⟩
      rw [stripPrefix_eq_some_iff.1 hstrip, hr] at hp
      simpa using hp
  · rintro ⟨w, w', hw, hw', rfl | ⟨u, hu, rfl⟩⟩
    · rw [opaqueTag, trim_append _ hw hw']
      decide
    · have htrimmed : Trimmed ("W/".toList ++ u ++ ['*']) :=
        trimmed_between ('/' :: u) (by decide) (by decide)
      have hstrip : stripPrefix "W/".toList ("W/".toList ++ u ++ ['*']) = some (u ++ ['*']) :=
        stripPrefix_eq_some_iff.2 (List.append_assoc _ _ _)
      have hstar := trim_append ['*'] hu blank_nil
      rw [List.append_nil] at hstar
      rw [opaqueTag, trim_append _ hw hw', trim_of_trimmed htrimmed, hstrip, Option.getD_some,
        hstar]
      decide

theorem StarAlone.comma_not_mem (h : StarAlone p) : ',' ∉ p := by
  have hcomma : isWhitespace ',' = false := by decide
  have hmark : ',' ∉ "W/".toList := by decide
  obtain ⟨w, w', hw, hw', rfl | ⟨u, hu, rfl⟩⟩ := h
  · simp [hw.not_mem hcomma, hw'.not_mem hcomma]
  · simp only [List.mem_append, not_or]
    exact ⟨⟨hw.not_mem hcomma, ⟨hmark, hu.not_mem hcomma⟩, by decide⟩, hw'.not_mem hcomma⟩

/-! ## One listed tag -/

namespace ListedTag

variable (e : ListedTag)

theorem comma_not_mem_opening : ',' ∉ e.opening := by
  have hcomma := e.blank_before.not_mem (c := ',') (by decide)
  have hmark : ',' ∉ weakMark e.weak := by cases e.weak <;> decide
  simp [opening, hcomma, hmark]

theorem comma_not_mem_closing : ',' ∉ e.closing := by
  have hcomma := e.blank_after.not_mem (c := ',') (by decide)
  simp [closing, hcomma]

theorem count_opening : e.opening.count '"' = 1 := by
  have hquote := List.count_eq_zero.2 (e.blank_before.not_mem (c := '"') (by decide))
  have hmark : (weakMark e.weak).count '"' = 0 := by cases e.weak <;> decide
  rw [opening, List.count_append, List.count_append, hquote, hmark]
  rfl

theorem count_closing : e.closing.count '"' = 1 := by
  have hquote := List.count_eq_zero.2 (e.blank_after.not_mem (c := '"') (by decide))
  rw [closing, List.count_cons_self, hquote]

/-- In one piece, the tag is read as itself. -/
theorem opaqueTag_chars : opaqueTag e.chars = '"' :: e.tag ++ ['"'] := by
  have hquoted : Trimmed ('"' :: e.tag ++ ['"']) := trimmed_between e.tag (by decide) (by decide)
  have hmarked : Trimmed (weakMark e.weak ++ ('"' :: e.tag ++ ['"'])) := by
    cases e.weak with
    | false => exact hquoted
    | true => exact trimmed_between ('/' :: '"' :: e.tag) (by decide) (by decide)
  have hchars : e.chars = e.before ++ (weakMark e.weak ++ ('"' :: e.tag ++ ['"'])) ++ e.after := by
    simp [chars, opening, closing]
  have hstrip : (stripPrefix "W/".toList (weakMark e.weak ++ ('"' :: e.tag ++ ['"']))).getD
      (weakMark e.weak ++ ('"' :: e.tag ++ ['"'])) = '"' :: e.tag ++ ['"'] := by
    cases e.weak with
    | false => rfl
    | true => rw [weakMark, if_pos rfl, stripPrefix_eq_some_iff.2 rfl, Option.getD_some]
  rw [opaqueTag, hchars, trim_append _ e.blank_before e.blank_after, trim_of_trimmed hmarked,
    hstrip, trim_of_trimmed hquoted]

variable {e}

/-- A tag without commas is one piece, which only its own CID hits. -/
theorem hit_whole_iff (hcut : ',' ∉ e.tag) :
    (∃ p ∈ e.chars.splitOn ',', Hits cid p) ↔ e.tag = cid.toList := by
  have hone : ',' ∉ e.chars := by
    simp [chars, e.comma_not_mem_opening, e.comma_not_mem_closing, hcut]
  have hne : '"' :: e.tag ++ ['"'] ≠ ['*'] := by simp
  have hetag : '"' :: e.tag ++ ['"'] = (etag cid).toList ↔ e.tag = cid.toList := by
    simp [toList_etag]
  rw [List.splitOn_eq_singleton hone]
  simp only [List.mem_singleton, exists_eq_left, Hits, e.opaqueTag_chars, hne, false_or, hetag]

/-- Of a tag with commas, the outer pieces have one quote each and hit nothing;
the inner ones have none, and hit as the wildcard or not at all. -/
theorem hit_cut_iff (hquote : '"' ∉ cid.toList) (hcut : ',' ∈ e.tag) :
    (∃ p ∈ e.chars.splitOn ',', Hits cid p) ↔ ∃ p ∈ innerPieces ',' e.tag, StarAlone p := by
  obtain ⟨first, last, htag, hchars⟩ :=
    splitOn_around e.comma_not_mem_opening e.comma_not_mem_closing hcut
  have hcount : ∀ p ∈ e.tag.splitOn ',', p.count '"' = 0 := fun p hp =>
    List.count_eq_zero.2 fun hin => e.quote_not_mem (mem_of_mem_splitOn hp hin)
  have hfirst : ¬ Hits cid (e.opening ++ first) := fun h => by
    have := h.count hquote
    rw [List.count_append, e.count_opening, hcount first (by simp [htag])] at this
    omega
  have hlast : ¬ Hits cid (last ++ e.closing) := fun h => by
    have := h.count hquote
    rw [List.count_append, e.count_closing, hcount last (by simp [htag])] at this
    omega
  have hinner : ∀ p ∈ innerPieces ',' e.tag, Hits cid p ↔ StarAlone p := fun p hp => by
    have hzero := hcount p (by simp [htag, hp])
    rw [Hits, opaqueTag_eq_star_iff, or_iff_left]
    intro h
    rw [← count_opaqueTag, h, toList_etag] at hzero
    simp at hzero
  rw [chars, hchars]
  constructor
  · rintro ⟨p, hp, hhit⟩
    rcases List.mem_append.1 hp with hp | hp
    · rcases List.mem_cons.1 hp with rfl | hp
      · exact absurd hhit hfirst
      · exact ⟨p, hp, (hinner p hp).1 hhit⟩
    · rw [List.mem_singleton.1 hp] at hhit
      exact absurd hhit hlast
  · rintro ⟨p, hp, hstar⟩
    exact ⟨p, by simp [hp], (hinner p hp).2 hstar⟩

theorem hidesStar_iff : e.HidesStar ↔ ∃ p ∈ innerPieces ',' e.tag, StarAlone p := by
  constructor
  · rintro ⟨a, p, b, hab, hstar⟩
    refine ⟨p, ?_, hstar⟩
    rw [hab]
    exact mem_innerPieces_of_between hstar.comma_not_mem
  · rintro ⟨p, hp, hstar⟩
    obtain ⟨a, b, hab⟩ := between_of_mem_innerPieces hp
    exact ⟨a, p, b, hab, hstar⟩

/-- **A listed tag is hit exactly by its own CID**, or by a `*` hidden in it. -/
theorem hit_iff (hcomma : ',' ∉ cid.toList) (hquote : '"' ∉ cid.toList) :
    (∃ p ∈ e.chars.splitOn ',', Hits cid p) ↔ e.tag = cid.toList ∨ e.HidesStar := by
  by_cases hcut : ',' ∈ e.tag
  · have hne : e.tag ≠ cid.toList := fun h => hcomma (h ▸ hcut)
    rw [hit_cut_iff hquote hcut, or_iff_right hne, hidesStar_iff]
  · have hhides : ¬ e.HidesStar := fun ⟨a, p, b, hab, _⟩ => hcut (by simp [hab])
    rw [hit_whole_iff hcut, or_iff_left hhides]

end ListedTag

end

/-! ## The header -/

/-- A header hits exactly if it names the CID, or hides a `*`. -/
theorem ifNoneMatchMatches_iff {cid : String} (hcid : isAcceptableCidCharset cid = true)
    (h : IfNoneMatch) :
    ifNoneMatchMatches (some (String.ofList h.chars)) cid = true ↔ h.Names cid ∨ h.HidesStar := by
  have hallowed := cidChars_of_acceptable hcid
  have hcomma : ',' ∉ cid.toList := hallowed.not_mem 44 (by decide) (by decide)
  have hquote : '"' ∉ cid.toList := hallowed.not_mem 34 (by decide) (by decide)
  rw [ifNoneMatchMatches_iff_hits, String.toList_ofList]
  cases h with
  | any =>
    exact iff_of_true ⟨['*'], by decide, .inl (by decide)⟩ (.inl trivial)
  | listed e es =>
    rw [IfNoneMatch.chars, splitOn_intercalate_pieces (by simp)]
    calc (∃ p ∈ ((e :: es).map ListedTag.chars).flatMap fun q => q.splitOn ',', Hits cid p)
        ↔ ∃ x ∈ e :: es, ∃ p ∈ x.chars.splitOn ',', Hits cid p := by
          simp only [List.mem_flatMap, List.mem_map]
          constructor
          · rintro ⟨p, ⟨_, ⟨x, hx, rfl⟩, hp⟩, hhit⟩
            exact ⟨x, hx, p, hp, hhit⟩
          · rintro ⟨x, hx, p, hp, hhit⟩
            exact ⟨p, ⟨_, ⟨x, hx, rfl⟩, hp⟩, hhit⟩
      _ ↔ ∃ x ∈ e :: es, x.tag = cid.toList ∨ x.HidesStar := by
          simp only [ListedTag.hit_iff hcomma hquote]
      _ ↔ (∃ x ∈ e :: es, x.tag = cid.toList) ∨ ∃ x ∈ e :: es, x.HidesStar := by
          simp only [and_or_left, exists_or]

/-- The conditional check of `serve_cid` answers 304 exactly if the header hits. -/
theorem status_checkConditional (s : ServerState) (t : Task) :
    (t.checkConditional s).status = some 304 ↔
      ifNoneMatchMatches ((t.req.header "if-none-match").map String.ofList) t.req.cid = true := by
  unfold Task.checkConditional
  split
  · next h => exact iff_of_true rfl h
  · next h => exact iff_of_false nofun h

/-- **A header is matched by its entity tags exactly if none hides a `*`.** For
an acceptable CID and a well-formed header: that the match comes to the header
being the wildcard or listing the CID, and that only then a 304 is sent, holds
exactly if the header does name the CID, or none of the tags it lists has a `*`
alone between two of its commas. -/
theorem matches_by_tag_iff (cid : String) (hcid : isAcceptableCidCharset cid = true)
    (h : IfNoneMatch) :
    ((ifNoneMatchMatches (some (String.ofList h.chars)) cid = true ↔ h.Names cid) ↔
      h.Names cid ∨ ¬ h.HidesStar) ∧
    ∀ (s : ServerState) (t : Task), t.req.cid = cid →
      t.req.header "if-none-match" = some h.chars →
        (((t.checkConditional s).status = some 304 → h.Names cid) ↔
          h.Names cid ∨ ¬ h.HidesStar) := by
  have hmatch := ifNoneMatchMatches_iff hcid h
  refine ⟨?_, fun s t htcid hheader => ?_⟩
  · rw [hmatch, or_iff_left_iff_imp, imp_iff_or_not]
  · rw [status_checkConditional, htcid, hheader, Option.map_some, hmatch, or_imp,
      and_iff_right id, imp_iff_or_not]

/-! ### Three lists -/

/-- `"x", W/"cid1"`. -/
def listsBoth : IfNoneMatch :=
  .listed ⟨[], false, ['x'], [], blank_nil, blank_nil, by decide⟩
    [⟨[' '], true, "cid1".toList, [], by simp [Blank]; decide, blank_nil, by decide⟩]

/-- `"x,y"`: one tag. -/
def listsPair : IfNoneMatch :=
  .listed ⟨[], false, "x,y".toList, [], blank_nil, blank_nil, by decide⟩ []

/-- `"x,*,y"`: one tag as well. -/
def listsOther : IfNoneMatch :=
  .listed ⟨[], false, "x,*,y".toList, [], blank_nil, blank_nil, by decide⟩ []

/-- A request for `cid1` with the second list. -/
def pairRequest : Task :=
  (Task.arrive ⟨"cid1", false, [("if-none-match", utf8 "\"x,y\"")], ""⟩ 50).goto .conditional

theorem matches_by_tag_sample :
    ifNoneMatchMatches (some "\"x\", W/\"cid1\"") "cid1" = true ∧
      (pairRequest.checkConditional sampleState).status ≠ some 304 := by
  have hboth : listsBoth.Names "cid1" := ⟨_, List.mem_cons_of_mem _ (List.mem_singleton_self _), rfl⟩
  have hpair : ¬ listsPair.Names "cid1" := by
    rintro ⟨x, hx, htag⟩
    rw [List.mem_singleton.1 hx] at htag
    exact absurd htag (by decide)
  have hhides : ¬ listsPair.HidesStar := by
    rintro ⟨x, hx, a, p, b, hab, -⟩
    rw [List.mem_singleton.1 hx] at hab
    have hcount := congrArg (List.count ',') hab
    simp at hcount
    omega
  exact ⟨((matches_by_tag_iff "cid1" (by decide) listsBoth).1.2 (.inl hboth)).2 hboth,
    fun h304 => hpair (((matches_by_tag_iff "cid1" (by decide) listsPair).2 sampleState pairRequest
      rfl (by decide)).2 (.inr hhides) h304)⟩

/-- A client that has only `x,*,y` is taken to have `cid1`. -/
theorem matches_other_tag :
    ¬ ∀ (cid : String) (h : IfNoneMatch), isAcceptableCidCharset cid = true →
      (ifNoneMatchMatches (some (String.ofList h.chars)) cid = true ↔ h.Names cid) := by
  intro hall
  obtain ⟨x, hx, htag⟩ := (hall "cid1" listsOther (by decide)).1 (by decide)
  rw [List.mem_singleton.1 hx] at htag
  exact absurd htag (by decide)

end CeCdn.Edge
