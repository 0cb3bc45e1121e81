/-
Which `Range` headers are taken up, and as what. A well-formed header is
`bytes=S-E`, `bytes=S-` or `bytes=-E` with numerals of digits, and white space
around its tokens; any other is to be ignored.

`parse_range` checks for the empty object before it looks for the dash, and
reads numerals by a parser that lets a sign `+` through and fails from `2 ^ 64`
on. So it takes up some malformed headers (`malformed_header_ignored_iff`) and
ignores well-formed ones with such a numeral (`well_formed_header_resolved_iff`).
-/
import CeCdn.Edge
import CeCdn.Lib.TextFacts

namespace CeCdn

open Lib Text Word

def rangeUnit : List Char := "bytes=".toList

/-- The header is `bytes=` and `x`, after white space. -/
def UnitThen (h x : List Char) : Prop := ∃ w, Blank w ∧ h = w ++ rangeUnit ++ x

/-- The header is `bytes=`, `l`, `-` and `r`, with white space around each. -/
def RangeTokens (h l r : List Char) : Prop :=
  ∃ w₀ w₁ w₂ w₃ w₄, Blank w₀ ∧ Blank w₁ ∧ Blank w₂ ∧ Blank w₃ ∧ Blank w₄ ∧
    h = w₀ ++ rangeUnit ++ (w₁ ++ l ++ w₂ ++ '-' :: (w₃ ++ r ++ w₄))

/-- A header of one range between the numerals `s` and `e`, of which one may be
missing. -/
structure WellFormedAs (h s e : List Char) : Prop where
  tokens : RangeTokens h s e
  start : Digits s
  stop : Digits e
  one : s ≠ [] ∨ e ≠ []

def WellFormed (h : List Char) : Prop := ∃ s e, WellFormedAs h s e

/-! ## Reading a header by its tokens -/

section

variable {h l r x : List Char} {header : String} {total : Nat}

theorem stripPrefix_unit (hx : UnitThen h x) :
    stripPrefix rangeUnit (trim h) = some (trimEnd x) := by
  obtain ⟨w, hw, rfl⟩ := hx
  have hunit : rangeUnit = "bytes".toList ++ ['='] := by decide
  have hsplit : w ++ rangeUnit ++ x = (w ++ "bytes".toList) ++ '=' :: x := by
    simp only [hunit, List.append_assoc, List.cons_append, List.nil_append]
  have hstart : trimStart (w ++ "bytes".toList) = "bytes".toList := by
    rw [trimStart_append hw]
    decide
  rw [hsplit, trim_append_cons _ _ (by decide), hstart]
  exact stripPrefix_eq_some_iff.2 (by
    simp only [hunit, List.append_assoc, List.cons_append, List.nil_append])

theorem unitThen_of_stripPrefix {y : List Char} (hy : stripPrefix rangeUnit (trim h) = some y) :
    ∃ x, UnitThen h x ∧ trim x = trim y := by
  obtain ⟨w, w', hw, hw', hh, -⟩ := trim_split h
  rw [stripPrefix_eq_some_iff.1 hy] at hh
  refine ⟨y ++ w', ⟨w, hw, by rw [hh]; simp⟩, ?_⟩
  simpa using trim_append y blank_nil hw'

/-- What `parse_range` does after the unit. -/
def resolveAfterUnit (x : List Char) (total : Nat) : RangeOutcome :=
  if ',' ∈ x then .full
  else if total = 0 then .unsatisfiable
  else
    match splitOnce '-' x with
    | none => .full
    | some (l, r) => resolveSpec (trim l) (trim r) total

theorem parseRange_unit (hx : UnitThen header.toList x) :
    parseRange (some header) total = resolveAfterUnit x total := by
  have hcomma : ',' ∈ trim x ↔ ',' ∈ x := mem_trim_iff (by decide)
  unfold parseRange resolveAfterUnit
  simp only [show "bytes=".toList = rangeUnit from rfl, stripPrefix_unit hx, trim_trimEnd, hcomma]
  cases hs : splitOnce '-' x with
  | none =>
    have hno : splitOnce '-' (trim x) = none := by
      rw [splitOnce_eq_none_iff, mem_trim_iff (by decide)]
      exact splitOnce_eq_none_iff.1 hs
    rw [hno]
  | some p => simp only [splitOnce_trim (by decide) hs, trim_trimStart, trim_trimEnd]

theorem parseRange_no_unit (hno : ∀ x, ¬ UnitThen header.toList x) :
    parseRange (some header) total = .full := by
  have hnone : stripPrefix "bytes=".toList (trim header.toList) = none := by
    cases hs : stripPrefix "bytes=".toList (trim header.toList) with
    | none => rfl
    | some y =>
      obtain ⟨x, hx, -⟩ := unitThen_of_stripPrefix hs
      exact absurd hx (hno x)
  simp only [parseRange, hnone]

/-- The tokens of a header are the trimmed sides of its first dash. -/
theorem rangeTokens_iff (hl : Trimmed l) (hr : Trimmed r) (hdash : '-' ∉ l) :
    RangeTokens h l r ↔
      ∃ x lhs rhs, UnitThen h x ∧ splitOnce '-' x = some (lhs, rhs) ∧ trim lhs = l ∧ trim rhs = r := by
  constructor
  · rintro ⟨w₀, w₁, w₂, w₃, w₄, h₀, h₁, h₂, h₃, h₄, hh⟩
    refine ⟨_, _, _, ⟨w₀, h₀, hh⟩, splitOnce_append _ ?_, ?_, ?_⟩
    · simp [h₁.not_mem (c := '-') (by decide), h₂.not_mem (c := '-') (by decide), hdash]
    · exact trim_eq_iff.2 ⟨hl, w₁, w₂, h₁, h₂, rfl⟩
    · exact trim_eq_iff.2 ⟨hr, w₃, w₄, h₃, h₄, rfl⟩
  · rintro ⟨x, lhs, rhs, ⟨w₀, h₀, hh⟩, hs, hlhs, hrhs⟩
    obtain ⟨-, rfl⟩ := splitOnce_eq_some_iff.1 hs
    obtain ⟨-, w₁, w₂, h₁, h₂, rfl⟩ := trim_eq_iff.1 hlhs
    obtain ⟨-, w₃, w₄, h₃, h₄, rfl⟩ := trim_eq_iff.1 hrhs
    exact ⟨w₀, w₁, w₂, w₃, w₄, h₀, h₁, h₂, h₃, h₄, hh⟩

/-- A header of tokens is resolved by them. -/
theorem parseRange_tokens (ht : RangeTokens header.toList l r) (hl : Trimmed l) (hr : Trimmed r)
    (hdash : '-' ∉ l) (hcomma : ',' ∉ l ∧ ',' ∉ r) :
    parseRange (some header) total =
      if total = 0 then .unsatisfiable else resolveSpec l r total := by
  obtain ⟨x, lhs, rhs, hx, hs, hlhs, hrhs⟩ := (rangeTokens_iff hl hr hdash).1 ht
  have hno : ',' ∉ x := by
    obtain ⟨-, rfl⟩ := splitOnce_eq_some_iff.1 hs
    rw [← hlhs, ← hrhs, mem_trim_iff (by decide), mem_trim_iff (by decide)] at hcomma
    simp [hcomma.1, hcomma.2]
  rw [parseRange_unit hx, resolveAfterUnit, if_neg hno, hs]
  simp only [hlhs, hrhs]

end

/-! ## Which headers are taken up -/

/-- A numeral as `parse::<u64>` reads it: a `+` may come first. -/
def Numeral (t : List Char) : Prop :=
  ∃ ds, (t = ds ∨ t = '+' :: ds) ∧ ds ≠ [] ∧ Digits ds ∧ digitsVal ds ≤ u64Max

def OptNumeral (t : List Char) : Prop := t = [] ∨ Numeral t

/-- The headers that are not ignored: of an empty object each with the unit
and no comma, else those of such numerals. -/
def TakenUp (h : List Char) (total : Nat) : Prop :=
  (total = 0 ∧ ',' ∉ h ∧ ∃ x, UnitThen h x) ∨
    ∃ l r, RangeTokens h l r ∧ OptNumeral l ∧ OptNumeral r ∧ (l ≠ [] ∨ r ≠ [])

section

variable {h l r t : List Char} {header : String} {total : Nat}

theorem numeral_iff : Numeral t ↔ ∃ n, parseU64 t = some n := by
  constructor
  · intro ⟨ds, ht, hne, hd, hle⟩
    exact ⟨_, parseU64_eq_some_iff.2 ⟨ds, ht, hne, hd, hle, rfl⟩⟩
  · intro ⟨n, hn⟩
    obtain ⟨ds, ht, hne, hd, hle, -⟩ := parseU64_eq_some_iff.1 hn
    exact ⟨ds, ht, hne, hd, hle⟩

theorem not_numeral_iff : ¬ Numeral t ↔ parseU64 t = none := by
  rw [numeral_iff, Option.eq_none_iff_forall_ne_some, not_exists]

/-- Its characters are digits and the sign. -/
theorem OptNumeral.mem (ht : OptNumeral t) {c : Char} (hc : c ∈ t) :
    isDigit c = true ∨ c = '+' := by
  rcases ht with rfl | ⟨ds, rfl | rfl, -, hd, -⟩
  · cases hc
  · exact .inl (hd c hc)
  · rcases List.mem_cons.1 hc with hc | hc
    · exact .inr hc
    · exact .inl (hd c hc)

theorem OptNumeral.not_mem (ht : OptNumeral t) {d : Char} (hd : isDigit d = false)
    (hplus : d ≠ '+') : d ∉ t := by
  intro hmem
  rcases ht.mem hmem with h | h
  · rw [hd] at h; cases h
  · exact hplus h

theorem OptNumeral.trimmed (ht : OptNumeral t) : Trimmed t := by
  refine trimmed_of_forall fun c hc => ?_
  rcases ht.mem hc with h | rfl
  · exact isWhitespace_of_isDigit h
  · decide

/-- The two sides of the dash make a range. -/
theorem resolveSpec_ne_full_iff :
    resolveSpec l r total ≠ .full ↔ OptNumeral l ∧ OptNumeral r ∧ (l ≠ [] ∨ r ≠ []) := by
  unfold resolveSpec OptNumeral
  cases l with
  | nil =>
    cases r with
    | nil => simp
    | cons d r =>
      simp only [List.isEmpty_nil, List.isEmpty_cons]
      cases hp : parseU64 (d :: r) with
      | none => simp [not_numeral_iff.2 hp]
      | some n =>
        have hnum : Numeral (d :: r) := numeral_iff.2 ⟨n, hp⟩
        simp only [hnum]
        split <;> simp
  | cons c l =>
    cases r with
    | nil =>
      simp only [List.isEmpty_nil, List.isEmpty_cons]
      cases hp : parseU64 (c :: l) with
      | none => simp [not_numeral_iff.2 hp]
      | some n =>
        have hnum : Numeral (c :: l) := numeral_iff.2 ⟨n, hp⟩
        simp only [hnum]
        split <;> simp
    | cons d r =>
      simp only [List.isEmpty_cons]
      cases hp : parseU64 (c :: l) with
      | none => simp [not_numeral_iff.2 hp]
      | some n =>
        cases hq : parseU64 (d :: r) with
        | none => simp [not_numeral_iff.2 hq]
        | some k =>
          have hnum : Numeral (c :: l) := numeral_iff.2 ⟨n, hp⟩
          have hnum' : Numeral (d :: r) := numeral_iff.2 ⟨k, hq⟩
          simp only [hnum, hnum']
          split <;> simp

/-- A comma in a header stands behind the unit. -/
theorem UnitThen.comma_iff {x : List Char} (hx : UnitThen h x) : ',' ∈ h ↔ ',' ∈ x := by
  obtain ⟨w, hw, rfl⟩ := hx
  have hno : ',' ∉ w := hw.not_mem (by decide)
  have hunit : ',' ∉ rangeUnit := by decide
  simp [hno, hunit]

/-- **Which headers are taken up.** -/
theorem parseRange_ne_full_iff :
    parseRange (some header) total ≠ .full ↔ TakenUp header.toList total := by
  constructor
  · intro hne
    by_cases hunit : ∃ x, UnitThen header.toList x
    · obtain ⟨x, hx⟩ := hunit
      rw [parseRange_unit hx, resolveAfterUnit] at hne
      split at hne
      · exact absurd rfl hne
      · next hcomma =>
        split at hne
        · next htotal => exact .inl ⟨htotal, mt hx.comma_iff.1 hcomma, x, hx⟩
        · split at hne
          · exact absurd rfl hne
          · next lhs rhs hs =>
            obtain ⟨hl, hr, hone⟩ := resolveSpec_ne_full_iff.1 hne
            have hdash : '-' ∉ trim lhs := hl.not_mem (by decide) (by decide)
            exact .inr ⟨_, _, (rangeTokens_iff hl.trimmed hr.trimmed hdash).2
              ⟨x, lhs, rhs, hx, hs, rfl, rfl⟩, hl, hr, hone⟩
    · exact absurd (parseRange_no_unit (not_exists.1 hunit)) hne
  · rintro (⟨htotal, hcomma, x, hx⟩ | ⟨l, r, ht, hl, hr, hone⟩)
    · rw [parseRange_unit hx, resolveAfterUnit, if_neg (mt hx.comma_iff.2 hcomma), if_pos htotal]
      nofun
    · rw [parseRange_tokens ht hl.trimmed hr.trimmed (hl.not_mem (by decide) (by decide))
        ⟨hl.not_mem (by decide) (by decide), hr.not_mem (by decide) (by decide)⟩]
      split
      · nofun
      · exact resolveSpec_ne_full_iff.2 ⟨hl, hr, hone⟩

end

/-! ## Malformed headers -/

/-- A header is ignored: the whole object is asked for, and served. -/
structure Ignored (header : String) (total : Nat) : Prop where
  full : parseRange (some header) total = .full
  served : ∀ cid bytes access cache now hit, bytes.length = total → access ≠ .denied →
    (Edge.serve cid bytes (some header) access cache now hit).status = 200 ∧
      (Edge.serve cid bytes (some header) access cache now hit).body = .full bytes

theorem ignored_iff {header : String} {total : Nat} :
    Ignored header total ↔ parseRange (some header) total = .full := by
  refine ⟨Ignored.full, fun h => ⟨h, ?_⟩⟩
  intro cid bytes access cache now hit hlen ha
  rcases Edge.serve_cases cid bytes (some header) cache now hit ha with
    ⟨-, hs⟩ | ⟨r, hp, -⟩ | ⟨hp, -⟩
  · rw [hs]; exact ⟨rfl, rfl⟩
  · rw [hlen, h] at hp; cases hp
  · rw [hlen, h] at hp; cases hp

/-- The malformed headers that are not ignored: of an empty object each with
the unit and no comma, else those that are well-formed but for a sign. -/
def Misread (h : List Char) (total : Nat) : Prop :=
  (total = 0 ∧ ',' ∉ h ∧ ∃ x, UnitThen h x) ∨
    ∃ l r, RangeTokens h l r ∧ OptNumeral l ∧ OptNumeral r ∧ ('+' ∈ l ∨ '+' ∈ r)

theorem OptNumeral.digits {t : List Char} (ht : OptNumeral t) (hplus : '+' ∉ t) : Digits t := by
  intro c hc
  rcases ht.mem hc with h | rfl
  · exact h
  · exact absurd hc hplus

/-- **When a malformed header is ignored.** For every header that is not
well-formed and every size of the object. -/
theorem malformed_header_ignored_iff {header : String} (hbad : ¬ WellFormed header.toList)
    (total : Nat) : Ignored header total ↔ ¬ Misread header.toList total := by
  rw [ignored_iff, ← not_not (a := parseRange _ _ = _), ← ne_eq, parseRange_ne_full_iff]
  refine not_congr (or_congr_right ?_)
  constructor
  · rintro ⟨l, r, ht, hl, hr, hone⟩
    refine ⟨l, r, ht, hl, hr, ?_⟩
    by_contra hno
    obtain ⟨hl', hr'⟩ := not_or.1 hno
    exact hbad ⟨l, r, ht, hl.digits hl', hr.digits hr', hone⟩
  · rintro ⟨l, r, ht, hl, hr, hplus⟩
    refine ⟨l, r, ht, hl, hr, ?_⟩
    rcases hplus with h | h
    · exact .inl (List.ne_nil_of_mem h)
    · exact .inr (List.ne_nil_of_mem h)

/-! ### Well-formedness, decided -/

def isWellFormed (h : List Char) : Bool :=
  match stripPrefix rangeUnit (trim h) with
  | none => false
  | some spec =>
    match splitOnce '-' (trim spec) with
    | none => false
    | some (lhs, rhs) =>
      (trim lhs).all isDigit && (trim rhs).all isDigit && (trim lhs != [] || trim rhs != [])

theorem isWellFormed_iff {h : List Char} : isWellFormed h = true ↔ WellFormed h := by
  constructor
  · intro hw
    unfold isWellFormed at hw
    split at hw
    · cases hw
    · next spec hspec =>
      obtain ⟨x, hx, htrim⟩ := unitThen_of_stripPrefix hspec
      rw [← htrim] at hw
      split at hw
      · cases hw
      · next lhs rhs hs =>
        have hdash : splitOnce '-' x ≠ none := by
          intro hnone
          rw [splitOnce_eq_none_iff, ← mem_trim_iff (by decide), ← splitOnce_eq_none_iff] at hnone
          rw [hnone] at hs
          cases hs
        obtain ⟨⟨a, b⟩, hab⟩ := Option.ne_none_iff_exists'.1 hdash
        rw [splitOnce_trim (by decide) hab] at hs
        cases hs
        simp only [trim_trimStart, trim_trimEnd, Bool.and_eq_true, digits_iff, Bool.or_eq_true,
          bne_iff_ne] at hw
        obtain ⟨⟨hl, hr⟩, hone⟩ := hw
        exact ⟨_, _, (rangeTokens_iff hl.trimmed hr.trimmed (hl.not_mem (by decide))).2
          ⟨x, a, b, hx, hab, rfl, rfl⟩, hl, hr, hone⟩
  · rintro ⟨s, e, ht, hs, he, hone⟩
    obtain ⟨x, lhs, rhs, hx, hsplit, rfl, rfl⟩ :=
      (rangeTokens_iff hs.trimmed he.trimmed (hs.not_mem (by decide))).1 ht
    simp only [isWellFormed, stripPrefix_unit hx, trim_trimEnd, splitOnce_trim (by decide) hsplit,
      trim_trimStart, digits_iff.2 hs, digits_iff.2 he, Bool.true_and, Bool.or_eq_true, bne_iff_ne]
    exact hone

instance (h : List Char) : Decidable (WellFormed h) := decidable_of_iff _ isWellFormed_iff

theorem malformed_header_ignored_sample :
    ¬ WellFormed "bytes=abc".toList ∧ ¬ Misread "bytes=abc".toList 100 := by
  have hbad : ¬ WellFormed "bytes=abc".toList := by decide
  exact ⟨hbad, (malformed_header_ignored_iff hbad 100).1 (ignored_iff.2 (by decide))⟩

/-- No dash, of an empty object; signs. -/
theorem malformed_header_not_ignored :
    (¬ WellFormed "bytes=5".toList ∧ ¬ Ignored "bytes=5" 0) ∧
    (¬ WellFormed "bytes=+0-+5".toList ∧ ¬ Ignored "bytes=+0-+5" 100) := by
  refine ⟨⟨by decide, fun h => ?_⟩, ⟨by decide, fun h => ?_⟩⟩
  · exact absurd h.full (by decide)
  · exact absurd h.full (by decide)

/-! ## Well-formed headers -/

/-- The range between two numerals, read as natural numbers. -/
def rangeOfNumerals (s e : List Char) (total : Nat) : RangeOutcome :=
  if s = [] then
    if digitsVal e = 0 ∨ total = 0 then .unsatisfiable
    else .partialRange ⟨total - min (digitsVal e) total, total - 1⟩
  else if e = [] then
    if digitsVal s ≥ total then .unsatisfiable else .partialRange ⟨digitsVal s, total - 1⟩
  else if digitsVal s > digitsVal e ∨ digitsVal s ≥ total then .unsatisfiable
  else .partialRange ⟨digitsVal s, min (digitsVal e) (total - 1)⟩

section

variable {s e : List Char} {total : Nat}

theorem rangeOfNumerals_ne_full : rangeOfNumerals s e total ≠ .full := by
  unfold rangeOfNumerals
  split
  · split <;> nofun
  · split
    · split <;> nofun
    · split <;> nofun

theorem rangeOfNumerals_zero : rangeOfNumerals s e 0 = .unsatisfiable := by
  simp [rangeOfNumerals]

theorem optNumeral_digits_iff {ds : List Char} (hd : Digits ds) :
    OptNumeral ds ↔ digitsVal ds ≤ u64Max := by
  constructor
  · rintro (rfl | ⟨ds', rfl | rfl, -, -, hle⟩)
    · decide
    · exact hle
    · exact absurd (hd '+' (by simp)) (by decide)
  · intro hle
    by_cases hne : ds = []
    · exact .inl hne
    · exact .inr ⟨ds, .inl rfl, hne, hd, hle⟩

/-- Numerals below `2 ^ 64` are resolved as the numbers they are. -/
theorem resolveSpec_digits (hs : Digits s) (he : Digits e) (hone : s ≠ [] ∨ e ≠ [])
    (hsle : digitsVal s ≤ u64Max) (hele : digitsVal e ≤ u64Max) (htotal : total ≠ 0) :
    resolveSpec s e total = rangeOfNumerals s e total := by
  by_cases hsnil : s = []
  · have hene : e ≠ [] := hone.resolve_left (not_not.2 hsnil)
    have hempty : e.isEmpty = false := by simpa using hene
    simp only [resolveSpec, rangeOfNumerals, hsnil, List.isEmpty_nil, hempty, if_true,
      parseU64_digits hene he, if_pos hele, htotal, or_false]
  · have hsempty : s.isEmpty = false := by simpa using hsnil
    by_cases henil : e = []
    · simp only [resolveSpec, rangeOfNumerals, henil, hsnil, List.isEmpty_nil, hsempty, if_true,
        if_false, parseU64_digits hsnil hs, if_pos hsle]
    · have hempty : e.isEmpty = false := by simpa using henil
      simp only [resolveSpec, rangeOfNumerals, hsnil, henil, hsempty, hempty, if_false,
        parseU64_digits hsnil hs, if_pos hsle, parseU64_digits henil he, if_pos hele]

end

/-- **When a well-formed header is resolved over the natural numbers.** For
numerals of any length and every size of the object: exactly when the object is
empty or each numeral is below `2 ^ 64`. -/
theorem well_formed_header_resolved_iff {header : String} {s e : List Char}
    (hw : WellFormedAs header.toList s e) (total : Nat) :
    parseRange (some header) total = rangeOfNumerals s e total ↔
      total = 0 ∨ (digitsVal s ≤ u64Max ∧ digitsVal e ≤ u64Max) := by
  obtain ⟨ht, hs, he, hone⟩ := hw
  rw [parseRange_tokens ht hs.trimmed he.trimmed (hs.not_mem (by decide))
    ⟨hs.not_mem (by decide), he.not_mem (by decide)⟩]
  by_cases htotal : total = 0
  · simp [htotal, rangeOfNumerals_zero]
  · rw [if_neg htotal, or_iff_right htotal]
    constructor
    · intro h
      have hfull : resolveSpec s e total ≠ .full := by rw [h]; exact rangeOfNumerals_ne_full
      obtain ⟨hl, hr, -⟩ := resolveSpec_ne_full_iff.1 hfull
      exact ⟨(optNumeral_digits_iff hs).1 hl, (optNumeral_digits_iff he).1 hr⟩
    · intro ⟨hsle, hele⟩
      exact resolveSpec_digits hs he hone hsle hele htotal

theorem wellFormedAs_of_tight {h s e : List Char} (hh : h = rangeUnit ++ s ++ '-' :: e)
    (hs : s.all isDigit = true) (he : e.all isDigit = true) (hone : s ≠ [] ∨ e ≠ []) :
    WellFormedAs h s e where
  tokens := ⟨[], [], [], [], [], blank_nil, blank_nil, blank_nil, blank_nil, blank_nil, by
    simpa using hh⟩
  start := digits_iff.1 hs
  stop := digits_iff.1 he
  one := hone

theorem well_formed_header_resolved_sample :
    WellFormedAs "bytes=5-99".toList "5".toList "99".toList ∧
    parseRange (some "bytes=5-99") 10 = .partialRange ⟨5, 9⟩ := by
  have hw : WellFormedAs "bytes=5-99".toList "5".toList "99".toList :=
    wellFormedAs_of_tight (by decide) (by decide) (by decide) (by decide)
  refine ⟨hw, ?_⟩
  have hresolved := (well_formed_header_resolved_iff hw 10).2 (.inr (by decide))
  rw [hresolved]
  decide

/-- An end, and a suffix, of `2 ^ 64`: ten bytes have the range, and the whole
object is asked for. -/
theorem well_formed_header_not_resolved :
    (WellFormedAs "bytes=5-18446744073709551616".toList "5".toList "18446744073709551616".toList ∧
      rangeOfNumerals "5".toList "18446744073709551616".toList 10 = .partialRange ⟨5, 9⟩ ∧
      parseRange (some "bytes=5-18446744073709551616") 10 = .full) ∧
    (WellFormedAs "bytes=-18446744073709551616".toList [] "18446744073709551616".toList ∧
      rangeOfNumerals [] "18446744073709551616".toList 10 = .partialRange ⟨0, 9⟩ ∧
      parseRange (some "bytes=-18446744073709551616") 10 = .full) := by
  refine ⟨⟨wellFormedAs_of_tight (by decide) (by decide) (by decide) (by decide), ?_, ?_⟩,
    wellFormedAs_of_tight (by decide) (by decide) (by decide) (by decide), ?_, ?_⟩
  · decide
  · decide
  · decide
  · decide

end CeCdn
