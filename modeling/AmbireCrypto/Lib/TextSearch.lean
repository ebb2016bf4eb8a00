/-
# `Lib.TextSearch` — looking for one text in another

`indexOf` finds the first occurrence, `includes` whether there is one; `includes_iff`
says that it is `List.IsInfix`.

The rest is about what replacing a piece of a text does to its occurrences.  An
occurrence that is new stands across a seam, so that an end of the needle begins the
piece or an end of the piece begins the needle.  `NoOverlap` excludes this, and is
decided by looking at the needle and the piece alone.

So a question about all texts, whether a replacement can bring a needle into them,
becomes one about two fixed texts (`infix_sandwich_iff`).  A piece that does not overlap
itself either stands in one place, if neither side has it (`sandwich_unique`).
-/
import Mathlib.Data.List.Infix

namespace TextSearch

universe u

variable {α : Type u}

/-! ## Searching -/

section Search

variable [DecidableEq α]

/-- `text.indexOf(needle)`. -/
def indexOf (text needle : List α) : Option Nat :=
  match text with
  | [] => if needle = [] then some 0 else none
  | x :: xs =>
      if needle.isPrefixOf (x :: xs) then some 0 else (indexOf xs needle).map (· + 1)

/-- `text.indexOf(needle, start)`. -/
def indexOfFrom (text needle : List α) (start : Nat) : Option Nat :=
  (indexOf (text.drop start) needle).map (start + ·)

/-- `text.includes(needle)`. -/
def includes (text needle : List α) : Bool := (indexOf text needle).isSome

/-! ## Occurrences -/

theorem includes_iff {text needle : List α} : includes text needle = true ↔ needle <:+: text := by
  induction text with
  | nil =>
      rw [includes, indexOf, List.infix_nil]
      split
      · rename_i h
        exact iff_of_true rfl h
      · rename_i h
        exact iff_of_false Bool.false_ne_true h
  | cons x xs ih =>
      rw [includes, indexOf, List.infix_cons_iff, ← ih]
      split
      · rename_i h
        exact iff_of_true rfl (Or.inl (List.isPrefixOf_iff_prefix.mp h))
      · rename_i h
        rw [Option.isSome_map]
        constructor
        · exact Or.inr
        · rintro (hpre | hin)
          · exact absurd (List.isPrefixOf_iff_prefix.mpr hpre) h
          · exact hin

theorem drop_of_indexOf {text needle : List α} {i : Nat} (h : indexOf text needle = some i) :
    i ≤ text.length ∧ needle <+: text.drop i := by
  induction text generalizing i with
  | nil =>
      rw [indexOf] at h
      split at h
      · rename_i hnil
        cases h
        exact ⟨le_rfl, by rw [hnil]; exact List.nil_prefix⟩
      · cases h
  | cons x xs ih =>
      rw [indexOf] at h
      split at h
      · rename_i hpre
        cases h
        exact ⟨Nat.zero_le _, List.isPrefixOf_iff_prefix.mp hpre⟩
      · obtain ⟨j, hj, rfl⟩ := Option.map_eq_some_iff.mp h
        obtain ⟨hle, hpre⟩ := ih hj
        exact ⟨Nat.succ_le_succ hle, hpre⟩

theorem le_of_indexOfFrom {text needle : List α} {start i : Nat} (hstart : start ≤ text.length)
    (h : indexOfFrom text needle start = some i) : start ≤ i ∧ i ≤ text.length := by
  obtain ⟨j, hj, rfl⟩ := Option.map_eq_some_iff.mp h
  have hle := (drop_of_indexOf hj).1
  rw [List.length_drop] at hle
  omega

end Search

/-- `text.slice(start, stop)`. -/
def slice (text : List α) (start stop : Nat) : List α := (text.drop start).take (stop - start)

theorem slice_append {text : List α} {start stop : Nat} (h : start ≤ stop) :
    text.take start ++ slice text start stop ++ text.drop stop = text := by
  have htake : text.take start ++ slice text start stop = text.take stop := by
    rw [slice, ← List.take_add, Nat.add_sub_cancel' h]
  rw [htake, List.take_append_drop]

theorem slice_of_append (front mid back : List α) :
    slice (front ++ mid ++ back) front.length (front ++ mid).length = mid := by
  rw [slice, List.append_assoc, List.drop_left, List.length_append, Nat.add_sub_cancel_left,
    List.take_left]

/-! ## Seams -/

/-- No end of `l` begins `r`. -/
def NoOverlap (l r : List α) : Prop := ∀ s, s <:+ l → s <+: r → s = []

theorem infix_append_iff_of_noOverlap {needle l r : List α} (h : NoOverlap needle r) :
    needle <:+: l ++ r ↔ needle <:+: l ∨ needle <:+: r := by
  rw [List.infix_append_iff_ne_nil]
  constructor
  · rintro (hl | hr | ⟨l₁, l₂, -, hne, rfl, -, hpre⟩)
    · exact Or.inl hl
    · exact Or.inr hr
    · exact absurd (h _ (List.suffix_append l₁ l₂) hpre) hne
  · rintro (hl | hr)
    · exact Or.inl hl
    · exact Or.inr (Or.inl hr)

theorem infix_append_iff_of_noOverlap' {needle l r : List α} (h : NoOverlap l needle) :
    needle <:+: l ++ r ↔ needle <:+: l ∨ needle <:+: r := by
  rw [List.infix_append_iff_ne_nil]
  constructor
  · rintro (hl | hr | ⟨l₁, l₂, hne, -, rfl, hsuf, -⟩)
    · exact Or.inl hl
    · exact Or.inr hr
    · exact absurd (h _ hsuf (List.prefix_append l₁ l₂)) hne
  · rintro (hl | hr)
    · exact Or.inl hl
    · exact Or.inr (Or.inl hr)

/-- A piece put between two texts brings no occurrence but its own. -/
theorem infix_sandwich_iff {needle piece before after : List α}
    (hleft : NoOverlap needle (piece ++ after)) (hright : NoOverlap piece needle) :
    needle <:+: before ++ piece ++ after ↔
      needle <:+: before ∨ needle <:+: piece ∨ needle <:+: after := by
  rw [List.append_assoc, infix_append_iff_of_noOverlap hleft,
    infix_append_iff_of_noOverlap' hright]

/-- A needle no longer than the piece looks at nothing behind it. -/
theorem NoOverlap.append {l r : List α} (h : NoOverlap l r) (hlen : l.length ≤ r.length)
    (t : List α) : NoOverlap l (r ++ t) := by
  intro s hs hpre
  refine h s hs (List.prefix_of_prefix_length_le hpre (List.prefix_append r t) ?_)
  exact hs.length_le.trans hlen

theorem shift_cases {piece t b b' : List α} (hself : NoOverlap piece.tail piece)
    (h : piece ++ b = t ++ (piece ++ b')) : t = [] ∨ ∃ s, t = piece ++ s := by
  rcases List.append_eq_append_iff.mp h with ⟨s, ht, -⟩ | ⟨s, hpiece, hrest⟩
  · exact Or.inr ⟨s, ht⟩
  · cases t with
    | nil => exact Or.inl rfl
    | cons x t =>
        have hsuf : s <:+ piece.tail := by
          rw [hpiece]
          exact List.suffix_append t s
        have hpre : s <+: piece := by
          refine List.prefix_of_prefix_length_le (hrest ▸ List.prefix_append s b)
            (List.prefix_append piece b') ?_
          rw [hpiece, List.length_append]
          omega
        have hnil := hself s hsuf hpre
        rw [hnil, List.append_nil] at hpiece
        exact Or.inr ⟨[], by rw [hpiece, List.append_nil]⟩

/-- A piece that overlaps itself nowhere and stands in neither side stands in one
place. -/
theorem sandwich_unique {piece a b a' b' : List α} (hself : NoOverlap piece.tail piece)
    (ha : ¬ piece <:+: a) (hb : ¬ piece <:+: b)
    (h : a ++ piece ++ b = a' ++ piece ++ b') : a = a' ∧ b = b' := by
  rw [List.append_assoc, List.append_assoc] at h
  rcases List.append_eq_append_iff.mp h with ⟨t, rfl, hrest⟩ | ⟨t, rfl, hrest⟩
  · rcases shift_cases hself hrest with rfl | ⟨s, rfl⟩
    · exact ⟨(List.append_nil a).symm, List.append_cancel_left hrest⟩
    · rw [List.append_assoc] at hrest
      have hmem : b = s ++ (piece ++ b') := List.append_cancel_left hrest
      exact absurd ⟨s, b', by rw [hmem, List.append_assoc]⟩ hb
  · rcases shift_cases hself hrest with rfl | ⟨s, rfl⟩
    · exact ⟨List.append_nil a', (List.append_cancel_left hrest).symm⟩
    · exact absurd ⟨a', s, by rw [List.append_assoc]⟩ ha

/-! ## Looking for an overlap -/

section Decide

variable [DecidableEq α]

/-- Looks at the ends of `l`, from the longest. -/
def noOverlap : List α → List α → Bool
  | [], _ => true
  | x :: xs, r => !(x :: xs).isPrefixOf r && noOverlap xs r

theorem noOverlap_iff {l r : List α} : noOverlap l r = true ↔ NoOverlap l r := by
  induction l with
  | nil => exact iff_of_true rfl fun s hs _ => List.suffix_nil.mp hs
  | cons x xs ih =>
      rw [noOverlap, Bool.and_eq_true, ih, Bool.not_eq_true', Bool.eq_false_iff, ne_eq,
        List.isPrefixOf_iff_prefix]
      constructor
      · rintro ⟨hwhole, hends⟩ s hs hpre
        rcases List.suffix_cons_iff.mp hs with rfl | hs
        · exact absurd hpre hwhole
        · exact hends s hs hpre
      · intro h
        refine ⟨fun hpre => ?_, fun s hs hpre => h s (hs.trans (List.suffix_cons x xs)) hpre⟩
        exact List.cons_ne_nil x xs (h _ (List.suffix_refl _) hpre)

instance (l r : List α) : Decidable (NoOverlap l r) := decidable_of_iff _ noOverlap_iff

end Decide

end TextSearch
