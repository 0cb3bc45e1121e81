/-
A text of samples: one sample on each line, its series and its value with a
blank between, and lines that are comments. A text written line by line reads
back as its samples (`scrape_render`), if no line end is in a line and no blank
in a series.
-/
import CeCdn.Lib.TextFacts

namespace Lib.Exposition

open Text

/-- A line of the text. A comment is written with its mark. -/
inductive Line where
  | comment (text : String)
  | sample (series : String) (value : Nat)

namespace Line

def text : Line → String
  | comment t => t
  | sample series value => s!"{series} {value}"

def sample? : Line → Option (String × Nat)
  | comment _ => none
  | sample series value => some (series, value)

/-- It is read as it was meant. -/
def Readable : Line → Prop
  | comment t => t.toList.head? = some '#' ∧ '\n' ∉ t.toList
  | sample series _ => series.toList.head? ≠ some '#' ∧ ' ' ∉ series.toList ∧ '\n' ∉ series.toList

end Line

/-- Each line with a line end after it. -/
def render (lines : List Line) : String := String.join (lines.map fun l => l.text ++ "\n")

/-- The sample on a line, unless it is a comment or no sample. -/
def readLine (cs : List Char) : Option (String × Nat) :=
  if cs.head? = some '#' then none
  else
    match splitOnce ' ' cs with
    | none => none
    | some (series, value) =>
      if value ≠ [] ∧ value.all isDigit then some (String.ofList series, digitsVal value) else none

def scrape (text : String) : List (String × Nat) := (text.toList.splitOn '\n').filterMap readLine

/-! ## Reading back -/

theorem Line.toList_text_sample (series : String) (value : Nat) :
    (sample series value).text.toList = series.toList ++ ' ' :: (toString value).toList := by
  change (toString series ++ " " ++ toString value).toList = _
  rw [String.toList_append, String.toList_append, List.append_assoc]
  rfl

theorem Line.Readable.newline_not_mem {l : Line} (h : l.Readable) : '\n' ∉ l.text.toList := by
  cases l with
  | comment t => exact h.2
  | sample series value =>
    have hvalue : '\n' ∉ (toString value).toList := (digits_toString value).not_mem (by decide)
    rw [toList_text_sample, List.mem_append, List.mem_cons]
    rintro (hseries | hblank | hdigit)
    · exact h.2.2 hseries
    · cases hblank
    · exact hvalue hdigit

theorem Line.Readable.readLine_text {l : Line} (h : l.Readable) :
    readLine l.text.toList = l.sample? := by
  cases l with
  | comment t => exact if_pos h.1
  | sample series value =>
    obtain ⟨hmark, hblank, -⟩ := h
    have hhead : (sample series value).text.toList.head? ≠ some '#' := by
      rw [toList_text_sample]
      cases hs : series.toList with
      | nil => simp
      | cons c cs =>
        rw [hs] at hmark
        exact hmark
    have hvalue : (toString value).toList ≠ [] ∧ (toString value).toList.all isDigit = true :=
      ⟨toString_ne_nil value, digits_iff.2 (digits_toString value)⟩
    rw [readLine, if_neg hhead, toList_text_sample, splitOnce_append _ hblank]
    simp only [if_pos hvalue, String.ofList_toList, digitsVal_toString]
    rfl

/-- Lines that are each ended split back into the lines and an empty rest. -/
theorem splitOn_lines : ∀ {lines : List (List Char)}, (∀ l ∈ lines, '\n' ∉ l) →
    (lines.flatMap (· ++ ['\n'])).splitOn '\n' = lines ++ [[]]
  | [], _ => rfl
  | l :: lines, h => by
    have ih := splitOn_lines fun l' hl' => h l' (List.mem_cons_of_mem l hl')
    rw [List.flatMap_cons, List.append_assoc, List.singleton_append,
      List.splitOn_append_cons_self, List.splitOn_eq_singleton (h l List.mem_cons_self), ih]
    rfl

/-- A text reads back as the samples it was written from. -/
theorem scrape_render {lines : List Line} (h : ∀ l ∈ lines, l.Readable) :
    scrape (render lines) = lines.filterMap Line.sample? := by
  have htext : (render lines).toList = (lines.map fun l => l.text.toList).flatMap (· ++ ['\n']) := by
    simp [render, String.toList_join, List.flatMap_map]
  have hlines : ∀ cs ∈ lines.map fun l => l.text.toList, '\n' ∉ cs := by
    intro cs hcs
    obtain ⟨l, hl, rfl⟩ := List.mem_map.1 hcs
    exact (h l hl).newline_not_mem
  calc scrape (render lines)
      = (lines.map (fun l : Line => l.text.toList) ++ [[]]).filterMap readLine := by
        rw [scrape, htext, splitOn_lines hlines]
    _ = lines.filterMap fun l => readLine l.text.toList := by
        rw [List.filterMap_append, List.filterMap_map]
        exact List.append_nil _
    _ = lines.filterMap Line.sample? := List.filterMap_congr fun l hl => (h l hl).readLine_text

example : scrape "# a count\na 1\n\nb 22\n" = [("a", 1), ("b", 22)] := by decide +kernel

end Lib.Exposition
