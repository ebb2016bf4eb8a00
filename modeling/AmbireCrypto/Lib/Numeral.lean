/-
# `Lib.Numeral` — reading decimal numerals within a bound

A machine integer parser folds the digits of a text from the left and stops at
the first character it does not know or at the first partial value past its
bound.  `read` is that fold, over the characters it is told to ignore and the
bound it is given; `splitSign` is the optional sign in front of it.

The one fact everything rests on is `read_eq_ok_iff`: the stepwise overflow
check is the check of the final value, because a partial value never shrinks.
What is printed reads back (`read_toDigits`), at every bound.
-/
import Mathlib.Data.Nat.Basic
import Mathlib.Data.Int.Basic
import Mathlib.Tactic.Ring

namespace Numeral

inductive ReadError
  | invalidDigit
  | overflow
deriving DecidableEq, Repr

/-- One character of the fold. -/
def step (skip : Char → Bool) (max acc : Nat) (c : Char) : Except ReadError Nat :=
  if skip c then .ok acc
  else if c.isDigit then
    let next := 10 * acc + (c.toNat - '0'.toNat)
    if next ≤ max then .ok next else .error .overflow
  else .error .invalidDigit

/-- The value of a numeral, left to right. -/
def read (skip : Char → Bool) (max : Nat) (cs : List Char) : Except ReadError Nat :=
  cs.foldlM (step skip max) 0

/-- A sign in front, if there is one: whether it is a minus, and what follows. -/
def splitSign : List Char → Bool × List Char
  | '+' :: cs => (false, cs)
  | '-' :: cs => (true, cs)
  | cs => (false, cs)

/-- Nothing is ignored. -/
def skipNone : Char → Bool := fun _ => false

/-! ## The fold, as one value -/

theorem le_ofDigitChars (cs : List Char) : ∀ init : Nat, init ≤ Nat.ofDigitChars 10 cs init := by
  induction cs with
  | nil =>
      intro init
      simp
  | cons c cs ih =>
      intro init
      have hnext := ih (10 * init + (c.toNat - '0'.toNat))
      rw [Nat.ofDigitChars_cons]
      omega

theorem foldlM_step_eq_ok_iff {skip : Char → Bool} {max n : Nat} {cs : List Char} :
    ∀ {acc : Nat}, acc ≤ max →
      (cs.foldlM (step skip max) acc = .ok n ↔
        (∀ c ∈ cs, skip c = false → c.isDigit = true) ∧
          Nat.ofDigitChars 10 (cs.filter fun c => !skip c) acc = n ∧ n ≤ max) := by
  induction cs with
  | nil =>
      intro acc hacc
      constructor
      · intro h
        cases h
        exact ⟨by simp, by simp, hacc⟩
      · rintro ⟨-, h, -⟩
        rw [← h]
        rfl
  | cons c cs ih =>
      intro acc hacc
      rw [List.foldlM_cons]
      by_cases hskip : skip c = true
      · simp only [step, hskip, ↓reduceIte]
        refine (ih hacc).trans (and_congr ?_ ?_)
        · simp [hskip]
        · simp [hskip]
      · by_cases hdig : c.isDigit = true
        · have hle := le_ofDigitChars (cs.filter fun c => !skip c)
            (10 * acc + (c.toNat - '0'.toNat))
          by_cases hnext : 10 * acc + (c.toNat - '0'.toNat) ≤ max
          · simp only [step, hskip, hdig, hnext, ↓reduceIte, Bool.false_eq_true]
            refine (ih hnext).trans (and_congr ?_ ?_)
            · simp [hdig]
            · simp [hskip, Nat.ofDigitChars_cons]
          · simp only [step, hskip, hdig, hnext, ↓reduceIte, Bool.false_eq_true]
            refine ⟨nofun, fun ⟨_, hval, hmax⟩ => absurd hmax ?_⟩
            -- the partial value is past the bound already, and only grows
            simp only [List.filter_cons, hskip, Bool.not_false, ↓reduceIte,
              Nat.ofDigitChars_cons] at hval
            omega
        · simp only [step, hskip, hdig, ↓reduceIte, Bool.false_eq_true]
          refine ⟨nofun, fun ⟨hall, _⟩ => absurd (hall c List.mem_cons_self ?_) hdig⟩
          simpa using hskip

/-- What `read` accepts, and with which value. -/
theorem read_eq_ok_iff {skip : Char → Bool} {max n : Nat} {cs : List Char} :
    read skip max cs = .ok n ↔
      (∀ c ∈ cs, skip c = false → c.isDigit = true) ∧
        Nat.ofDigitChars 10 (cs.filter fun c => !skip c) 0 = n ∧ n ≤ max :=
  foldlM_step_eq_ok_iff (Nat.zero_le max)

/-! ## Printing reads back -/

theorem isDigit_of_mem_toDigits {n : Nat} {c : Char} (h : c ∈ Nat.toDigits 10 n) :
    c.isDigit = true :=
  Nat.isDigit_of_mem_toDigits (by decide) (by decide) h

theorem filter_toDigits {skip : Char → Bool} (hskip : ∀ c, c.isDigit = true → skip c = false)
    (n : Nat) : ((Nat.toDigits 10 n).filter fun c => !skip c) = Nat.toDigits 10 n := by
  refine List.filter_eq_self.mpr fun c hc => ?_
  rw [hskip c (isDigit_of_mem_toDigits hc)]
  rfl

theorem read_toDigits {skip : Char → Bool} (hskip : ∀ c, c.isDigit = true → skip c = false)
    {max n : Nat} (h : n ≤ max) : read skip max (Nat.toDigits 10 n) = .ok n := by
  refine read_eq_ok_iff.mpr ⟨fun c hc _ => isDigit_of_mem_toDigits hc, ?_, h⟩
  rw [filter_toDigits hskip]
  exact Nat.ofDigitChars_ten_toDigits

theorem read_toDigits_iff {skip : Char → Bool} (hskip : ∀ c, c.isDigit = true → skip c = false)
    {max n m : Nat} : read skip max (Nat.toDigits 10 n) = .ok m ↔ n = m ∧ n ≤ max := by
  constructor
  · intro h
    obtain ⟨-, hval, hmax⟩ := read_eq_ok_iff.mp h
    rw [filter_toDigits hskip, Nat.ofDigitChars_ten_toDigits] at hval
    exact ⟨hval, hval ▸ hmax⟩
  · rintro ⟨rfl, h⟩
    exact read_toDigits hskip h

/-! ## Signs -/

theorem splitSign_cases (cs : List Char) :
    (∃ ds, cs = '+' :: ds ∧ splitSign cs = (false, ds)) ∨
      (∃ ds, cs = '-' :: ds ∧ splitSign cs = (true, ds)) ∨ splitSign cs = (false, cs) := by
  simp only [splitSign]
  split
  · exact Or.inl ⟨_, rfl, rfl⟩
  · exact Or.inr (Or.inl ⟨_, rfl, rfl⟩)
  · exact Or.inr (Or.inr rfl)

theorem splitSign_of_isDigit {c : Char} (cs : List Char) (h : c.isDigit = true) :
    splitSign (c :: cs) = (false, c :: cs) := by
  simp only [splitSign]
  split
  · exact absurd h (by simp_all)
  · exact absurd h (by simp_all)
  · rfl

theorem splitSign_toDigits (n : Nat) :
    splitSign (Nat.toDigits 10 n) = (false, Nat.toDigits 10 n) := by
  cases h : Nat.toDigits 10 n with
  | nil => exact absurd h Nat.toDigits_ne_nil
  | cons c cs =>
      refine splitSign_of_isDigit cs (isDigit_of_mem_toDigits (n := n) ?_)
      rw [h]
      exact List.mem_cons_self

theorem toList_repr (v : Int) :
    v.repr.toList =
      if v < 0 then '-' :: Nat.toDigits 10 v.natAbs else Nat.toDigits 10 v.natAbs := by
  rw [Int.repr_eq_if]
  by_cases h : v < 0
  · have hn : (-v).toNat = v.natAbs := by omega
    rw [if_neg (by omega), if_pos h, String.toList_append, Nat.toList_repr, hn]
    rfl
  · have hn : v.toNat = v.natAbs := by omega
    rw [if_pos (by omega), if_neg h, Nat.toList_repr, hn]

theorem splitSign_repr (v : Int) :
    splitSign v.repr.toList = (decide (v < 0), Nat.toDigits 10 v.natAbs) := by
  rw [toList_repr]
  by_cases h : v < 0
  · simp [h, splitSign]
  · simp [h, splitSign_toDigits]

end Numeral
