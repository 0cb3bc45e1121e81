/-
A directory of files. A name stands for an inode, no two names for the same
one, and a file that is open is known by its inode, so that a rename takes a
file's name away from under whoever has it open, and not its content.

Each operation has the lemmas that say which inode a name stands for after it
(`entry_…`), what an inode holds (`data_…`) and what a name's file holds
(`content_…`).
-/
import Mathlib.Data.List.Basic
import Mathlib.Logic.Function.Basic

namespace Lib

structure Directory (ν β : Type) where
  entry : ν → Option Nat
  data : Nat → List β
  /-- Inodes from here on were never used. -/
  next : Nat
  linkedOnce : ∀ {n m : ν} {a : Nat}, entry n = some a → entry m = some a → n = m
  used : ∀ {n : ν} {a : Nat}, entry n = some a → a < next

namespace Directory

variable {ν β : Type} {d d' : Directory ν β} {n m src dst : ν} {a : Nat}
  {bs : List β}

/-- The content of the file of a name. -/
def content (d : Directory ν β) (n : ν) : Option (List β) := (d.entry n).map d.data

def setData (d : Directory ν β) (a : Nat) (bs : List β) : Directory ν β :=
  { d with data := Function.update d.data a bs }

/-- A write at the end of an open file. -/
def append (d : Directory ν β) (a : Nat) (bs : List β) : Directory ν β :=
  d.setData a (d.data a ++ bs)

@[simp] theorem entry_append (d : Directory ν β) (a : Nat) (bs : List β) (n : ν) :
    (d.append a bs).entry n = d.entry n := rfl

@[simp] theorem data_append_self (d : Directory ν β) (a : Nat) (bs : List β) :
    (d.append a bs).data a = d.data a ++ bs := by
  simp [append, setData]

theorem data_append_of_ne {b : Nat} (h : b ≠ a) (bs : List β) :
    (d.append a bs).data b = d.data b := by
  simp [append, setData, h]

theorem content_append_of_ne (h : d.entry n ≠ some a) (bs : List β) :
    (d.append a bs).content n = d.content n := by
  unfold content
  rw [entry_append]
  cases hn : d.entry n with
  | none => rfl
  | some b =>
    have hb : b ≠ a := fun he => h (by rw [hn, he])
    simp [data_append_of_ne hb]

variable [DecidableEq ν]

/-- A new, empty file. -/
def link (d : Directory ν β) (n : ν) : Directory ν β where
  entry := Function.update d.entry n (some d.next)
  data := Function.update d.data d.next []
  next := d.next + 1
  linkedOnce {m m' a} h h' := by
    simp only [Function.update_apply] at h h'
    split at h
    · next hm =>
      split at h'
      · next hm' => rw [hm, hm']
      · have hlt := d.used h'
        cases h
        omega
    · split at h'
      · have hlt := d.used h
        cases h'
        omega
      · exact d.linkedOnce h h'
  used {m a} h := by
    simp only [Function.update_apply] at h
    split at h
    · cases h
      omega
    · have hlt := d.used h
      omega

/-- Opens a file for writing, creates it if need be, and truncates it. -/
def create (d : Directory ν β) (n : ν) : Nat × Directory ν β :=
  match d.entry n with
  | some a => (a, d.setData a [])
  | none => (d.next, d.link n)

def unlink (d : Directory ν β) (n : ν) : Directory ν β where
  entry := Function.update d.entry n none
  data := d.data
  next := d.next
  linkedOnce {m m' a} h h' := by
    simp only [Function.update_apply] at h h'
    split at h
    · cases h
    · split at h'
      · cases h'
      · exact d.linkedOnce h h'
  used {m a} h := by
    simp only [Function.update_apply] at h
    split at h
    · cases h
    · exact d.used h

/-- A file takes the place of another, at once. -/
def replace (d : Directory ν β) (src dst : ν) : Directory ν β where
  entry n := if n = dst then d.entry src else if n = src then none else d.entry n
  data := d.data
  next := d.next
  linkedOnce {m m' a} h h' := by
    split at h
    · next hm =>
      split at h'
      · next hm' => rw [hm, hm']
      · split at h'
        · cases h'
        · next hne => exact absurd (d.linkedOnce h' h) hne
    · split at h
      · cases h
      · next hne =>
        split at h'
        · exact absurd (d.linkedOnce h h') hne
        · split at h'
          · cases h'
          · exact d.linkedOnce h h'
  used {m a} h := by
    split at h
    · exact d.used h
    · split at h
      · cases h
      · exact d.used h

/-- `rename` fails where there is no such file. -/
def rename (d : Directory ν β) (src dst : ν) : Option (Directory ν β) :=
  if (d.entry src).isSome then some (d.replace src dst) else none

/-! ## Creating -/

theorem entry_create_self (d : Directory ν β) (n : ν) :
    (d.create n).2.entry n = some (d.create n).1 := by
  unfold create
  split
  · next h => exact h
  · simp [link]

theorem data_create_self (d : Directory ν β) (n : ν) : (d.create n).2.data (d.create n).1 = [] := by
  unfold create
  split
  · simp [setData]
  · simp [link]

theorem entry_create_of_ne (h : m ≠ n) : (d.create n).2.entry m = d.entry m := by
  unfold create
  split
  · rfl
  · simp [link, h]

/-- The file opened is the one of that name, or a new one. -/
theorem create_fst_ne (ha : a < d.next) (h : d.entry n ≠ some a) : (d.create n).1 ≠ a := by
  unfold create
  split
  · next b hb =>
    intro he
    exact h (by rw [hb, show b = a from he])
  · exact Nat.ne_of_gt ha

theorem next_le_create (d : Directory ν β) (n : ν) : d.next ≤ (d.create n).2.next := by
  unfold create
  split
  · exact Nat.le_refl d.next
  · exact Nat.le_succ d.next

theorem data_create_of_ne (h : (d.create n).1 ≠ a) : (d.create n).2.data a = d.data a := by
  revert h
  unfold create
  split
  · intro h
    simp [setData, Ne.symm h]
  · intro h
    simp [link, Ne.symm h]

theorem content_create_of_ne (h : m ≠ n) : (d.create n).2.content m = d.content m := by
  unfold content
  rw [entry_create_of_ne h]
  cases hm : d.entry m with
  | none => rfl
  | some b =>
    have hn : d.entry n ≠ some b := fun hn => h (d.linkedOnce hm hn)
    rw [Option.map_some, Option.map_some, data_create_of_ne (create_fst_ne (d.used hm) hn)]

/-! ## Removing and renaming -/

theorem content_unlink_of_ne (h : m ≠ n) : (d.unlink n).content m = d.content m := by
  simp [content, unlink, h]

theorem entry_unlink_of_ne (h : m ≠ n) : (d.unlink n).entry m = d.entry m := by
  simp [unlink, h]

theorem rename_eq_some (h : d.rename src dst = some d') :
    ∃ a, d.entry src = some a ∧ d' = d.replace src dst := by
  unfold rename at h
  split at h
  · next hs =>
    obtain ⟨a, ha⟩ := Option.isSome_iff_exists.1 hs
    cases h
    exact ⟨a, ha, rfl⟩
  · cases h

theorem content_replace_self (d : Directory ν β) (src dst : ν) :
    (d.replace src dst).content dst = d.content src := by
  simp [content, replace]

theorem entry_replace_of_ne (hd : m ≠ dst) (hs : m ≠ src) :
    (d.replace src dst).entry m = d.entry m := by
  simp [replace, hd, hs]

theorem content_replace_of_ne (hd : m ≠ dst) (hs : m ≠ src) :
    (d.replace src dst).content m = d.content m := by
  simp [content, replace, hd, hs]

end Directory

end Lib
