/-
# `Lib.StrSlice` — slicing a text by byte offsets

A text in UTF-8 is indexed by bytes, and cut only between characters: an offset
inside a character, past the end, or before the start of its own slice is a panic,
not a shorter text.  `slice` is that operation, on the characters of a text.  It
does not panic at the length of a front piece (`splitAt_utf8Len`), and `rfind`
answers such a length (`rfind_append`).

So code that only slices at what `rfind` answers, or one ASCII character behind it, is
free of panics, and the lemmas say at once which piece of the text it gets.
-/
import Mathlib.Data.String.Basic

namespace StrSlice

open String (utf8Len)

/-- How slicing can stop a program. -/
inductive Panic
  | sliceIndex
  | overflow
deriving DecidableEq, Repr

/-- Cuts a text at a byte offset. -/
def splitAt : List Char → Nat → Except Panic (List Char × List Char)
  | cs, 0 => .ok ([], cs)
  | [], _ + 1 => .error .sliceIndex
  | c :: cs, n + 1 =>
      if c.utf8Size ≤ n + 1 then
        (splitAt cs (n + 1 - c.utf8Size)).map fun parts => (c :: parts.1, parts.2)
      else .error .sliceIndex

/-- `&s[..stop]`. -/
def sliceTo (cs : List Char) (stop : Nat) : Except Panic (List Char) :=
  (splitAt cs stop).map Prod.fst

/-- `&s[start..stop]`. -/
def slice (cs : List Char) (start stop : Nat) : Except Panic (List Char) :=
  if start ≤ stop then do
    let front ← sliceTo cs stop
    (splitAt front start).map Prod.snd
  else .error .sliceIndex

/-- Subtraction of machine words, where it must not wrap. -/
def checkedSub (a b : Nat) : Except Panic Nat := if b ≤ a then .ok (a - b) else .error .overflow

/-- `str::rfind` of a character: the byte offset of its last occurrence. -/
def rfind (c : Char) : List Char → Option Nat
  | [] => none
  | x :: xs =>
      match rfind c xs with
      | some i => some (x.utf8Size + i)
      | none => if x = c then some 0 else none

/-! ## Offsets between characters -/

theorem splitAt_utf8Len (front back : List Char) :
    splitAt (front ++ back) (utf8Len front) = .ok (front, back) := by
  induction front with
  | nil => cases back <;> rfl
  | cons c front ih =>
      have hsize : utf8Len (c :: front) = (utf8Len front + c.utf8Size - 1) + 1 := by
        have := c.utf8Size_pos
        rw [String.utf8Len_cons]
        omega
      have hrest : utf8Len front + c.utf8Size - 1 + 1 - c.utf8Size = utf8Len front := by
        have := c.utf8Size_pos
        omega
      rw [hsize, List.cons_append, splitAt, if_pos (by omega), hrest, ih]
      rfl

theorem slice_utf8Len (front mid back : List Char) :
    slice (front ++ mid ++ back) (utf8Len front) (utf8Len (front ++ mid)) = .ok mid := by
  have hle : utf8Len front ≤ utf8Len (front ++ mid) := by
    rw [String.utf8Len_append]
    omega
  rw [slice, if_pos hle, sliceTo, splitAt_utf8Len]
  show (splitAt (front ++ mid) (utf8Len front)).map Prod.snd = .ok mid
  rw [splitAt_utf8Len]
  rfl

theorem sliceTo_utf8Len (front back : List Char) :
    sliceTo (front ++ back) (utf8Len front) = .ok front := by
  rw [sliceTo, splitAt_utf8Len]
  rfl

theorem checkedSub_add (a b : Nat) : checkedSub (a + b) b = .ok a := by
  rw [checkedSub, if_pos (Nat.le_add_left b a), Nat.add_sub_cancel]

/-! ## The last occurrence -/

theorem rfind_of_not_mem {c : Char} {cs : List Char} (h : c ∉ cs) : rfind c cs = none := by
  induction cs with
  | nil => rfl
  | cons x xs ih =>
      rw [List.mem_cons, not_or] at h
      rw [rfind, ih h.2]
      exact if_neg (Ne.symm h.1)

theorem rfind_append {c : Char} {front back : List Char} (h : c ∉ back) :
    rfind c (front ++ c :: back) = some (utf8Len front) := by
  induction front with
  | nil =>
      rw [List.nil_append, rfind, rfind_of_not_mem h]
      simp
  | cons x front ih =>
      rw [List.cons_append, rfind, ih, String.utf8Len_cons, Nat.add_comm]

end StrSlice
