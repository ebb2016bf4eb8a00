/-
# `Lib.Unambiguous` — texts that can be taken apart again

A printer is usable without its reader when two of its texts never agree.  Inside a
larger text more is wanted: the printed piece has to show where it ends, as far as
the symbols that may follow it allow.  `Determined` says both at once, of one value.

It is kept by a list between separators and a closing bracket (`bracketed_inj`),
which only needs that no entry begins with the bracket.  A piece that ends with the last
symbol of its kind, a number for example, is determined where none of that kind may
follow (`append_inj_of_forall`).
-/
import Mathlib.Data.List.Basic

namespace Unambiguous

universe u

variable {α : Type u} {τ : Type}

/-- What is printed of `a` is printed of nothing else in `dom`, and shows where it
ends, provided that `stops` holds of what follows. -/
def Determined (print : α → List τ) (dom : α → Prop) (stops : List τ → Prop) (a : α) : Prop :=
  ∀ ⦃b : α⦄, dom b → ∀ ⦃r s : List τ⦄, stops r → stops s →
    print a ++ r = print b ++ s → a = b ∧ r = s

theorem append_inj_of_forall {P : τ → Prop} : ∀ {l l' r s : List τ}, (∀ c ∈ l, P c) →
    (∀ c ∈ l', P c) → (∀ c t, r = c :: t → ¬ P c) → (∀ c t, s = c :: t → ¬ P c) →
    l ++ r = l' ++ s → l = l' ∧ r = s
  | [], [], _, _, _, _, _, _, h => ⟨rfl, h⟩
  | [], c :: l', _, _, _, hl', hr, _, h => absurd (hl' c List.mem_cons_self) (hr c _ h)
  | c :: l, [], _, _, hl, _, _, hs, h => absurd (hl c List.mem_cons_self) (hs c _ h.symm)
  | c :: l, c' :: l', r, s, hl, hl', hr, hs, h => by
      obtain ⟨rfl, htail⟩ := List.cons.inj h
      obtain ⟨rfl, hrs⟩ := append_inj_of_forall (fun x hx => hl x (List.mem_cons_of_mem _ hx))
        (fun x hx => hl' x (List.mem_cons_of_mem _ hx)) hr hs htail
      exact ⟨rfl, hrs⟩

/-! ## Lists -/

section Lists

variable {print : α → List τ} {dom : α → Prop} {stops : List τ → Prop} {sep close : τ}

/-- The entries after the first, each behind its separator, and the bracket. -/
def entriesTail (print : α → List τ) (sep close : τ) (xs : List α) (r : List τ) : List τ :=
  xs.flatMap (fun x => sep :: print x) ++ close :: r

theorem intercalate_append (x : α) (xs : List α) (r : List τ) :
    [sep].intercalate ((x :: xs).map print) ++ close :: r =
      print x ++ entriesTail print sep close xs r := by
  induction xs generalizing x with
  | nil => simp [entriesTail]
  | cons y ys ih =>
      have htail := ih y
      rw [List.map_cons] at htail
      rw [List.map_cons, List.map_cons, List.intercalate_cons_cons, List.append_assoc, htail]
      simp [entriesTail]

variable (hne : sep ≠ close) (hsep : ∀ t, stops (sep :: t)) (hclose : ∀ t, stops (close :: t))

include hsep hclose in
theorem stops_entriesTail (xs : List α) (r : List τ) :
    stops (entriesTail print sep close xs r) := by
  cases xs with
  | nil => exact hclose r
  | cons x xs => exact hsep _

include hne hsep hclose

theorem entriesTail_inj : ∀ {xs ys : List α} {r s : List τ},
    (∀ x ∈ xs, Determined print dom stops x) → (∀ y ∈ ys, dom y) →
    entriesTail print sep close xs r = entriesTail print sep close ys s → xs = ys ∧ r = s
  | [], [], _, _, _, _, h => ⟨rfl, (List.cons.inj h).2⟩
  | [], _ :: _, _, _, _, _, h => absurd (List.cons.inj h).1.symm hne
  | _ :: _, [], _, _, _, _, h => absurd (List.cons.inj h).1 hne
  | x :: xs, y :: ys, r, s, hxs, hys, h => by
      simp only [entriesTail, List.flatMap_cons, List.cons_append, List.append_assoc,
        List.cons.injEq, true_and] at h
      obtain ⟨rfl, htail⟩ := hxs x List.mem_cons_self (hys y List.mem_cons_self)
        (stops_entriesTail hsep hclose xs r) (stops_entriesTail hsep hclose ys s) h
      obtain ⟨rfl, hrs⟩ := entriesTail_inj (fun z hz => hxs z (List.mem_cons_of_mem _ hz))
        (fun z hz => hys z (List.mem_cons_of_mem _ hz)) htail
      exact ⟨rfl, hrs⟩

/-- Entries between separators, up to the closing bracket. -/
theorem bracketed_inj (hhead : ∀ x, dom x → ∀ r s, print x ++ r ≠ close :: s)
    {xs ys : List α} {r s : List τ} (hdom : ∀ x ∈ xs, dom x)
    (hxs : ∀ x ∈ xs, Determined print dom stops x) (hys : ∀ y ∈ ys, dom y)
    (h : [sep].intercalate (xs.map print) ++ close :: r =
      [sep].intercalate (ys.map print) ++ close :: s) : xs = ys ∧ r = s := by
  cases xs with
  | nil =>
      cases ys with
      | nil => exact ⟨rfl, (List.cons.inj h).2⟩
      | cons y ys =>
          rw [intercalate_append] at h
          exact absurd h.symm (hhead y (hys y List.mem_cons_self) _ _)
  | cons x xs =>
      cases ys with
      | nil =>
          rw [intercalate_append] at h
          exact absurd h (hhead x (hdom x List.mem_cons_self) _ _)
      | cons y ys =>
          rw [intercalate_append, intercalate_append] at h
          obtain ⟨rfl, htail⟩ := hxs x List.mem_cons_self (hys y List.mem_cons_self)
            (stops_entriesTail hsep hclose xs r) (stops_entriesTail hsep hclose ys s) h
          obtain ⟨rfl, hrs⟩ := entriesTail_inj hne hsep hclose
            (fun z hz => hxs z (List.mem_cons_of_mem _ hz))
            (fun z hz => hys z (List.mem_cons_of_mem _ hz)) htail
          exact ⟨rfl, hrs⟩

end Lists

end Unambiguous
