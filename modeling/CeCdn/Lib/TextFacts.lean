/-
Facts about the string functions of `Lib.Text`: what trimming leaves
(`trim_eq_iff`), where a string is split (`splitOnce_eq_some_iff`) and into
which pieces (`splitOn_around`), which strings read as numbers
(`parseU64_eq_some_iff`) and that a number reads back from its decimal digits
(`parseU64_toString`).
-/
import CeCdn.Lib.Text
import Mathlib.Data.List.TakeWhile

namespace Lib.Text

open Word

/-- The bytes of a string, character by character. -/
theorem utf8_eq (s : String) : utf8 s = s.toList.flatMap String.utf8EncodeChar := by
  have h : s.toUTF8 = (s.toList.flatMap String.utf8EncodeChar).toByteArray := by
    change s.toByteArray = _
    rw [← String.utf8Encode_toList]
    rfl
  rw [utf8, h]
  simp

theorem utf8_inj {s t : String} (h : utf8 s = utf8 t) : s = t := by
  have hdata : s.toUTF8.data = t.toUTF8.data := Array.toList_inj.1 h
  exact String.toByteArray_inj.1 (ByteArray.ext hdata)

/-- A character with a byte that is not in the text is not in it. -/
theorem not_mem_of_byte {s : String} {c : Char} (b : UInt8) (hb : b ∈ String.utf8EncodeChar c)
    (h : b ∉ utf8 s) : c ∉ s.toList := by
  intro hmem
  refine h ?_
  rw [utf8_eq]
  exact List.mem_flatMap.2 ⟨c, hmem, hb⟩

theorem utf8Size_hexDigit : ∀ n < 16, (hexDigit n).utf8Size = 1 := by decide

theorem length_flatMap_hexChars (bs : List UInt8) :
    ((hexChars bs).flatMap String.utf8EncodeChar).length = 2 * bs.length := by
  induction bs with
  | nil => rfl
  | cons b bs ih =>
    have hb := b.toNat_lt
    have hhi := utf8Size_hexDigit (b.toNat / 16) (by omega)
    have hlo := utf8Size_hexDigit (b.toNat % 16) (by omega)
    simp only [hexChars, List.flatMap_cons, List.length_append, String.length_utf8EncodeChar, hhi,
      hlo, ih, List.length_cons]
    omega

@[simp] theorem strLen_hexEncode (bs : List UInt8) : strLen (hexEncode bs) = 2 * bs.length := by
  rw [strLen, utf8_eq, hexEncode, String.toList_ofList, length_flatMap_hexChars]

/-! ## Trimming -/

/-- White space only. -/
def Blank (w : List Char) : Prop := ∀ c ∈ w, isWhitespace c = true

/-- No white space at either end. -/
def Trimmed (t : List Char) : Prop :=
  (∀ c ∈ t.head?, isWhitespace c = false) ∧ ∀ c ∈ t.getLast?, isWhitespace c = false

theorem blank_nil : Blank [] := by simp [Blank]

theorem Blank.not_mem {w : List Char} (h : Blank w) {c : Char} (hc : isWhitespace c = false) :
    c ∉ w := by
  intro hmem
  rw [h c hmem] at hc
  cases hc

theorem Blank.append {w w' : List Char} (h : Blank w) (h' : Blank w') : Blank (w ++ w') := by
  intro c hc
  rcases List.mem_append.1 hc with hc | hc
  · exact h c hc
  · exact h' c hc

theorem trimmed_of_forall {t : List Char} (h : ∀ c ∈ t, isWhitespace c = false) : Trimmed t :=
  ⟨fun c hc => h c (List.mem_of_mem_head? hc), fun c hc => h c (List.mem_of_mem_getLast? hc)⟩

/-- Between two characters that are no white space nothing is trimmed. -/
theorem trimmed_between {a b : Char} (l : List Char) (ha : isWhitespace a = false)
    (hb : isWhitespace b = false) : Trimmed (a :: l ++ [b]) := by
  have hlast : (a :: l ++ [b]).getLast? = some b := List.getLast?_concat
  refine ⟨fun c hc => ?_, fun c hc => ?_⟩
  · obtain rfl : a = c := by simpa using hc
    exact ha
  · rw [hlast] at hc
    obtain rfl : b = c := by simpa using hc
    exact hb

theorem trimStart_append {w cs : List Char} (h : Blank w) : trimStart (w ++ cs) = trimStart cs :=
  List.dropWhile_append_of_pos h

theorem trimEnd_append {w cs : List Char} (h : Blank w) : trimEnd (cs ++ w) = trimEnd cs := by
  unfold trimEnd
  rw [List.reverse_append, List.dropWhile_append_of_pos]
  intro c hc
  exact h c (List.mem_reverse.1 hc)

/-- White space around a string is trimmed. -/
theorem trim_append {w w' : List Char} (cs : List Char) (h : Blank w) (h' : Blank w') :
    trim (w ++ cs ++ w') = trim cs := by
  unfold trim
  rw [List.append_assoc, trimStart_append h]
  by_cases hcs : trimStart cs = []
  · have hall : Blank cs := List.dropWhile_eq_nil_iff.1 hcs
    have hrest : trimStart (cs ++ w') = [] := List.dropWhile_eq_nil_iff.2 (hall.append h')
    rw [hcs, hrest]
  · have hstart : trimStart (cs ++ w') = trimStart cs ++ w' := by
      have hne : (cs.dropWhile isWhitespace).isEmpty = false := by simpa [trimStart] using hcs
      rw [trimStart, List.dropWhile_append, hne]
      rfl
    rw [hstart, trimEnd_append h']

theorem trim_of_trimmed {t : List Char} (h : Trimmed t) : trim t = t := by
  have hstart : trimStart t = t := by
    cases t with
    | nil => rfl
    | cons c t => exact List.dropWhile_cons_of_neg (by simp [h.1 c (by simp)])
  have hend : trimEnd t = t := by
    unfold trimEnd
    have hlast := h.2
    rw [← List.head?_reverse] at hlast
    cases hrev : t.reverse with
    | nil => simp at hrev; simp [hrev]
    | cons c r =>
      rw [hrev] at hlast
      rw [List.dropWhile_cons_of_neg (by simp [hlast c (by simp)]), ← hrev, List.reverse_reverse]
  rw [trim, hstart, hend]

theorem trimStart_split (cs : List Char) :
    ∃ w, Blank w ∧ cs = w ++ trimStart cs ∧ ∀ c ∈ (trimStart cs).head?, isWhitespace c = false := by
  refine ⟨cs.takeWhile isWhitespace, fun c hc => List.mem_takeWhile_imp hc,
    List.takeWhile_append_dropWhile.symm, fun c hc => ?_⟩
  have hhead := List.head?_dropWhile_not isWhitespace cs
  rw [trimStart] at hc
  simpa [Option.mem_def.1 hc] using hhead

theorem trimEnd_split (cs : List Char) :
    ∃ w, Blank w ∧ cs = trimEnd cs ++ w ∧ ∀ c ∈ (trimEnd cs).getLast?, isWhitespace c = false := by
  obtain ⟨w, hw, hcs, hhead⟩ := trimStart_split cs.reverse
  refine ⟨w.reverse, fun c hc => hw c (List.mem_reverse.1 hc), ?_, fun c hc => ?_⟩
  · have := congrArg List.reverse hcs
    rwa [List.reverse_reverse, List.reverse_append] at this
  · rw [trimEnd, List.getLast?_reverse] at hc
    exact hhead c hc

theorem trim_split (cs : List Char) :
    ∃ w w', Blank w ∧ Blank w' ∧ cs = w ++ trim cs ++ w' ∧ Trimmed (trim cs) := by
  obtain ⟨w, hw, hcs, hhead⟩ := trimStart_split cs
  obtain ⟨w', hw', hend, hlast⟩ := trimEnd_split (trimStart cs)
  refine ⟨w, w', hw, hw', ?_, fun c hc => hhead c ?_, hlast⟩
  · rw [List.append_assoc, trim, ← hend]
    exact hcs
  · have hc : (trimEnd (trimStart cs)).head? = some c := hc
    rw [hend, List.head?_append, hc]
    rfl

/-- **What trimming leaves.** -/
theorem trim_eq_iff {cs t : List Char} :
    trim cs = t ↔ Trimmed t ∧ ∃ w w', Blank w ∧ Blank w' ∧ cs = w ++ t ++ w' := by
  constructor
  · rintro rfl
    obtain ⟨w, w', hw, hw', hcs, ht⟩ := trim_split cs
    exact ⟨ht, w, w', hw, hw', hcs⟩
  · intro ⟨ht, w, w', hw, hw', hcs⟩
    rw [hcs, trim_append t hw hw', trim_of_trimmed ht]

theorem trim_trimStart (cs : List Char) : trim (trimStart cs) = trim cs := by
  obtain ⟨w, hw, hcs, -⟩ := trimStart_split cs
  have htrim := trim_append (trimStart cs) hw blank_nil
  rw [List.append_nil, ← hcs] at htrim
  exact htrim.symm

theorem trim_trimEnd (cs : List Char) : trim (trimEnd cs) = trim cs := by
  obtain ⟨w, hw, hcs, -⟩ := trimEnd_split cs
  have htrim := trim_append (trimEnd cs) blank_nil hw
  rw [List.nil_append, ← hcs] at htrim
  exact htrim.symm

/-- Around a character that is no white space, each side is trimmed at its
outer end. -/
theorem trim_append_cons (l r : List Char) {c : Char} (hc : isWhitespace c = false) :
    trim (l ++ c :: r) = trimStart l ++ c :: trimEnd r := by
  obtain ⟨w, hw, hl, hhead⟩ := trimStart_split l
  obtain ⟨w', hw', hr, hlast⟩ := trimEnd_split r
  refine trim_eq_iff.2 ⟨⟨fun x hx => ?_, fun x hx => ?_⟩, w, w', hw, hw', ?_⟩
  · cases hs : trimStart l with
    | nil => rw [hs] at hx; simp at hx; rwa [← hx]
    | cons a as => rw [hs] at hx hhead; exact hhead x (by simpa using hx)
  · rw [List.getLast?_append, List.getLast?_cons] at hx
    cases hs : (trimEnd r).getLast? with
    | none => rw [hs] at hx; simp at hx; rwa [← hx]
    | some a =>
      rw [hs] at hx hlast
      exact hlast x (by simpa using hx)
  · calc l ++ c :: r = (w ++ trimStart l) ++ c :: (trimEnd r ++ w') := by rw [← hl, ← hr]
      _ = w ++ (trimStart l ++ c :: trimEnd r) ++ w' := by simp

theorem mem_trim_iff {cs : List Char} {c : Char} (hc : isWhitespace c = false) :
    c ∈ trim cs ↔ c ∈ cs := by
  obtain ⟨w, w', hw, hw', hcs, -⟩ := trim_split cs
  constructor
  · intro h
    rw [hcs]
    simp [h]
  · intro h
    rw [hcs] at h
    simpa [hw.not_mem hc, hw'.not_mem hc] using h

theorem count_trim (cs : List Char) {c : Char} (hc : isWhitespace c = false) :
    (trim cs).count c = cs.count c := by
  obtain ⟨w, w', hw, hw', hcs, -⟩ := trim_split cs
  have hblank := List.count_eq_zero.2 (hw.not_mem hc)
  have hblank' := List.count_eq_zero.2 (hw'.not_mem hc)
  have hcount := congrArg (List.count c) hcs
  rw [List.count_append, List.count_append, hblank, hblank'] at hcount
  omega

theorem trimEndMatches_of_not_mem {c : Char} {cs : List Char} (h : c ∉ cs) :
    trimEndMatches c cs = cs := by
  refine List.rdropWhile_eq_self_iff.2 fun hne hlast => h ?_
  rw [← beq_iff_eq.1 hlast]
  exact List.getLast_mem hne

/-! ## Prefixes and separators -/

theorem stripPrefix_eq_some_iff {p cs r : List Char} :
    stripPrefix p cs = some r ↔ cs = p ++ r := by
  unfold stripPrefix
  split
  · next h =>
    obtain ⟨t, rfl⟩ := List.isPrefixOf_iff_prefix.1 h
    simp
  · next h =>
    constructor
    · intro h'; cases h'
    · rintro rfl
      exact absurd (List.isPrefixOf_iff_prefix.2 (List.prefix_append p r)) h

/-- A string is split at the first separator. -/
theorem splitOnce_eq_some_iff {sep : Char} {cs l r : List Char} :
    splitOnce sep cs = some (l, r) ↔ sep ∉ l ∧ cs = l ++ sep :: r := by
  induction cs generalizing l with
  | nil => simp [splitOnce]
  | cons c cs ih =>
    unfold splitOnce
    by_cases hc : c = sep
    · rw [if_pos hc]
      constructor
      · intro h; cases h; simp [hc]
      · intro ⟨hl, h⟩
        cases l with
        | nil => simp at h; simp [h.2]
        | cons a l => simp at h hl; exact absurd (hc.symm.trans h.1) hl.1
    · rw [if_neg hc, Option.map_eq_some_iff]
      constructor
      · rintro ⟨⟨l', r'⟩, h, heq⟩
        cases heq
        obtain ⟨hl, rfl⟩ := ih.1 h
        exact ⟨by simpa [Ne.symm hc] using hl, rfl⟩
      · intro ⟨hl, h⟩
        cases l with
        | nil => simp at h; exact absurd h.1 hc
        | cons a l =>
          simp at h hl
          exact ⟨(l, r), ih.2 ⟨hl.2, h.2⟩, by rw [h.1]⟩

theorem splitOnce_append {sep : Char} {l : List Char} (r : List Char) (h : sep ∉ l) :
    splitOnce sep (l ++ sep :: r) = some (l, r) :=
  splitOnce_eq_some_iff.2 ⟨h, rfl⟩

/-- Splitting at a separator that is no white space, after trimming. -/
theorem splitOnce_trim {sep : Char} {cs l r : List Char} (hsep : isWhitespace sep = false)
    (h : splitOnce sep cs = some (l, r)) :
    splitOnce sep (trim cs) = some (trimStart l, trimEnd r) := by
  obtain ⟨hl, rfl⟩ := splitOnce_eq_some_iff.1 h
  rw [trim_append_cons l r hsep]
  exact splitOnce_append _ fun hmem => hl ((List.dropWhile_sublist _).mem hmem)

theorem splitOnce_eq_none_iff {sep : Char} {cs : List Char} :
    splitOnce sep cs = none ↔ sep ∉ cs := by
  induction cs with
  | nil => simp [splitOnce]
  | cons c cs ih =>
    unfold splitOnce
    by_cases hc : c = sep
    · simp [hc]
    · simp [hc, ih, Ne.symm hc]

/-! ## Pieces -/

section

variable {sep : Char} {cs l r : List Char}

/-- The characters of a part are in the parts put together. -/
theorem mem_intercalate {parts : List (List Char)} {part : List Char} {c : Char}
    (hp : part ∈ parts) (hc : c ∈ part) : c ∈ [sep].intercalate parts := by
  obtain ⟨i, hi⟩ := List.mem_iff_getElem?.1 hp
  have hmem : part ∈ parts.intersperse [sep] :=
    List.mem_iff_getElem?.2 ⟨2 * i, by rw [List.getElem?_intersperse_two_mul, hi]⟩
  exact List.mem_flatten.2 ⟨part, hmem, hc⟩

/-- The characters of a piece are in the whole. -/
theorem mem_of_mem_splitOn {p : List Char} {c : Char} (hp : p ∈ cs.splitOn sep) (hc : c ∈ p) :
    c ∈ cs := by
  have hcs : [sep].intercalate (cs.splitOn sep) = cs := List.intercalate_splitOn sep
  rw [← hcs]
  exact mem_intercalate hp hc

/-- Parts put together split into the pieces of each. -/
theorem splitOn_intercalate_pieces : ∀ {parts : List (List Char)}, parts ≠ [] →
    ([sep].intercalate parts).splitOn sep = parts.flatMap fun p => p.splitOn sep
  | [p], _ => by simp
  | p :: q :: parts, _ => by
    have ih := splitOn_intercalate_pieces (List.cons_ne_nil q parts)
    rw [List.intercalate_cons_cons, List.append_assoc, List.singleton_append,
      List.splitOn_append_cons_self, ih]
    rfl

/-- What follows without a separator goes to the last piece. -/
theorem splitOn_append_right (hr : sep ∉ r) (cs : List Char) :
    ∃ init last, cs.splitOn sep = init ++ [last] ∧ (cs ++ r).splitOn sep = init ++ [last ++ r] := by
  induction cs with
  | nil => exact ⟨[], [], rfl, List.splitOn_eq_singleton hr⟩
  | cons c cs ih =>
    obtain ⟨init, last, hcs, happend⟩ := ih
    rw [List.cons_append, List.splitOn_cons_eq_if_modifyHead, List.splitOn_cons_eq_if_modifyHead,
      hcs, happend]
    by_cases hc : (c == sep) = true
    · rw [if_pos hc, if_pos hc]
      exact ⟨[] :: init, last, rfl, rfl⟩
    · rw [if_neg hc, if_neg hc]
      cases init with
      | nil => exact ⟨[], c :: last, rfl, rfl⟩
      | cons p init => exact ⟨(c :: p) :: init, last, rfl, rfl⟩

/-- The pieces with a separator on either side. -/
def innerPieces (sep : Char) (cs : List Char) : List (List Char) :=
  (cs.splitOn sep).tail.dropLast

/-- **What stands around a string goes to its outer pieces**, and leaves the
inner ones alone. -/
theorem splitOn_around (hl : sep ∉ l) (hr : sep ∉ r) (hcs : sep ∈ cs) :
    ∃ first last, cs.splitOn sep = first :: innerPieces sep cs ++ [last] ∧
      (l ++ cs ++ r).splitOn sep = (l ++ first) :: innerPieces sep cs ++ [last ++ r] := by
  obtain ⟨first, rest, rfl, hfirst⟩ := List.eq_append_cons_of_mem hcs
  obtain ⟨init, last, hrest, happend⟩ := splitOn_append_right hr rest
  have hsplit : (first ++ sep :: rest).splitOn sep = first :: init ++ [last] := by
    rw [List.splitOn_append_cons_self_of_not_mem hfirst, hrest]
    rfl
  have hinner : innerPieces sep (first ++ sep :: rest) = init := by
    rw [innerPieces, hsplit]
    simp
  refine ⟨first, last, by rw [hsplit, hinner], ?_⟩
  have hlfirst : sep ∉ l ++ first := by simp [hl, hfirst]
  have hassoc : l ++ (first ++ sep :: rest) ++ r = (l ++ first) ++ sep :: (rest ++ r) := by simp
  rw [hinner, hassoc, List.splitOn_append_cons_self_of_not_mem hlfirst, happend]
  rfl

/-- Parts put together in two turns. -/
theorem intercalate_append {ps qs : List (List Char)} (hps : ps ≠ []) (hqs : qs ≠ []) :
    [sep].intercalate (ps ++ qs) = [sep].intercalate ps ++ sep :: [sep].intercalate qs := by
  induction ps with
  | nil => exact absurd rfl hps
  | cons p ps ih =>
    cases ps with
    | nil => simp [List.intercalate_cons_of_ne_nil hqs]
    | cons q ps =>
      rw [List.cons_append, List.intercalate_cons_of_ne_nil (by simp), ih (by simp),
        List.intercalate_cons_cons]
      simp

theorem mem_innerPieces_of_between {a p b : List Char} (hp : sep ∉ p) :
    p ∈ innerPieces sep (a ++ sep :: p ++ sep :: b) := by
  obtain ⟨first, rest, ha⟩ := List.exists_cons_of_ne_nil (List.splitOn_ne_nil sep a)
  have hsplit : (a ++ sep :: p ++ sep :: b).splitOn sep =
      first :: (rest ++ p :: b.splitOn sep) := by
    rw [List.append_assoc, List.cons_append, List.splitOn_append_cons_self,
      List.splitOn_append_cons_self_of_not_mem hp, ha]
    rfl
  rw [innerPieces, hsplit, List.tail_cons,
    List.dropLast_append_of_ne_nil (List.cons_ne_nil _ _),
    List.dropLast_cons_of_ne_nil (List.splitOn_ne_nil sep b)]
  simp

/-- An inner piece stands between two separators. -/
theorem between_of_mem_innerPieces {p : List Char} (hp : p ∈ innerPieces sep cs) :
    ∃ a b, cs = a ++ sep :: p ++ sep :: b := by
  obtain ⟨i, j, hinner⟩ := List.append_of_mem hp
  have hne : innerPieces sep cs ≠ [] := List.ne_nil_of_mem hp
  have hsep : sep ∈ cs := by
    by_contra hno
    exact hne (by rw [innerPieces, List.splitOn_eq_singleton hno]; rfl)
  obtain ⟨first, last, hsplit, -⟩ := splitOn_around (l := []) (r := []) (by simp) (by simp) hsep
  refine ⟨[sep].intercalate (first :: i), [sep].intercalate (j ++ [last]), ?_⟩
  have hparts : cs.splitOn sep = (first :: i) ++ ([p] ++ (j ++ [last])) := by
    rw [hsplit, hinner]
    simp
  have hcs : [sep].intercalate (cs.splitOn sep) = cs := List.intercalate_splitOn sep
  rw [← hcs, hparts, intercalate_append (by simp) (by simp),
    intercalate_append (by simp) (by simp)]
  simp

end

/-! ## Numbers -/

theorem isWhitespace_of_isDigit {c : Char} (h : isDigit c = true) : isWhitespace c = false := by
  simp only [isDigit, Bool.and_eq_true, decide_eq_true_eq] at h
  simp only [isWhitespace, Bool.or_eq_false_iff, Bool.and_eq_false_iff, decide_eq_false_iff_not,
    beq_eq_false_iff_ne]
  omega

theorem ne_of_isDigit {c d : Char} (h : isDigit c = true) (hd : isDigit d = false) : c ≠ d := by
  rintro rfl
  rw [h] at hd
  cases hd

/-- Digits only. -/
def Digits (ds : List Char) : Prop := ∀ c ∈ ds, isDigit c = true

theorem Digits.trimmed {ds : List Char} (h : Digits ds) : Trimmed ds :=
  trimmed_of_forall fun c hc => isWhitespace_of_isDigit (h c hc)

theorem Digits.not_mem {ds : List Char} (h : Digits ds) {d : Char} (hd : isDigit d = false) :
    d ∉ ds :=
  fun hmem => ne_of_isDigit (h d hmem) hd rfl

theorem digits_iff {ds : List Char} : ds.all isDigit = true ↔ Digits ds := List.all_eq_true

/-- A numeral of digits reads as its value when that is below `2 ^ 64`. -/
theorem parseU64_digits {ds : List Char} (hne : ds ≠ []) (hd : Digits ds) :
    parseU64 ds = if digitsVal ds ≤ u64Max then some (digitsVal ds) else none := by
  have hplus : ds.head? ≠ some '+' := fun h =>
    ne_of_isDigit (hd _ (List.mem_of_mem_head? h)) (by decide) rfl
  simp only [parseU64, if_neg hplus, ne_eq, hne, not_false_eq_true, digits_iff.2 hd, true_and]

/-- **Which strings read as a number.** One sign `+` is let through. -/
theorem parseU64_eq_some_iff {cs : List Char} {n : Nat} :
    parseU64 cs = some n ↔
      ∃ ds, (cs = ds ∨ cs = '+' :: ds) ∧ ds ≠ [] ∧ Digits ds ∧ digitsVal ds ≤ u64Max ∧
        n = digitsVal ds := by
  constructor
  · intro h
    unfold parseU64 at h
    generalize hds : (if cs.head? = some '+' then cs.tail else cs) = ds at h
    obtain ⟨⟨hne, hd, hle⟩, hn⟩ := Option.ite_none_right_eq_some.1 h
    refine ⟨ds, ?_, hne, digits_iff.1 hd, hle, (Option.some.inj hn).symm⟩
    rw [← hds]
    cases cs with
    | nil => simp
    | cons c cs =>
      by_cases hc : c = '+'
      · simp [hc]
      · simp [hc]
  · rintro ⟨ds, rfl | rfl, hne, hd, hle, rfl⟩
    · rw [parseU64_digits hne hd, if_pos hle]
    · simp [parseU64, hne, digits_iff.2 hd, hle]

theorem toList_toString (n : Nat) : (toString n).toList = Nat.toDigits 10 n := by
  change (Nat.repr n).toList = _
  rw [Nat.repr, String.toList_ofList]

theorem digits_toString (n : Nat) : Digits (toString n).toList := by
  intro c hc
  rw [toList_toString] at hc
  have hdigit := Nat.isDigit_of_mem_toDigits (by decide) (by decide) hc
  simpa [isDigit, Char.isDigit, UInt32.le_iff_toNat_le] using hdigit

theorem toString_ne_nil (n : Nat) : (toString n).toList ≠ [] := by
  rw [toList_toString]
  exact Nat.toDigits_ne_nil

theorem digitsVal_toString (n : Nat) : digitsVal (toString n).toList = n := by
  rw [toList_toString]
  exact Nat.ofDigitChars_ten_toDigits

theorem toString_inj {m n : Nat} (h : toString m = toString n) : m = n := by
  rw [← digitsVal_toString m, h, digitsVal_toString]

/-- **A number reads back from its decimal digits.** -/
theorem parseU64_toString {n : Nat} (h : n ≤ u64Max) : parseU64 (toString n).toList = some n := by
  rw [parseU64_digits (toString_ne_nil n) (digits_toString n), digitsVal_toString, if_pos h]

/-! ## Hexadecimal -/

theorem mem_hexChars {bs : List UInt8} {c : Char} (h : c ∈ hexChars bs) :
    ∃ n < 16, c = hexDigit n := by
  induction bs with
  | nil => cases h
  | cons b bs ih =>
    have hb := b.toNat_lt
    rcases List.mem_cons.1 h with rfl | h
    · exact ⟨_, by omega, rfl⟩
    · rcases List.mem_cons.1 h with rfl | h
      · exact ⟨_, by omega, rfl⟩
      · exact ih h

theorem hexChars_not_mem (bs : List UInt8) {c : Char} (hc : ∀ n < 16, hexDigit n ≠ c) :
    c ∉ hexChars bs := by
  intro h
  obtain ⟨n, hn, rfl⟩ := mem_hexChars h
  exact hc n hn rfl

theorem isWhitespace_hexChars {bs : List UInt8} {c : Char} (h : c ∈ hexChars bs) :
    isWhitespace c = false := by
  have hdigit : ∀ n < 16, isWhitespace (hexDigit n) = false := by decide
  obtain ⟨n, hn, rfl⟩ := mem_hexChars h
  exact hdigit n hn

theorem trimmed_hexChars (bs : List UInt8) : Trimmed (hexChars bs) :=
  trimmed_of_forall fun _ hc => isWhitespace_hexChars hc

/-- An array reads back from its hexadecimal digits. -/
theorem ofList_hexChars {n : Nat} (a : ByteArr n) :
    (hexDecode (hexChars a.1)).bind (ByteArr.ofList n) = some a := by
  rw [hexDecode_hexChars, Option.bind_some, ByteArr.ofList, dif_pos a.2]

end Lib.Text
