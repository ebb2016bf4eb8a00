/-
# `AmbireCrypto.TypeString` — two readings of one type string

The crate peels an array type from the right: `split_array_type` looks for the
last `[`.  alloy reads the same string from the left: a stem, then bracketed
sizes.  `jsonToValue` builds its arrays by the first reading and alloy checks
them by the second, so everything later rests on the two agreeing.

`resolve_cases` at the end is the agreement: whatever resolves is either split
by the crate into the same outermost dimension, or is not split at all.

## What alloy knows and this does not

What alloy knows about stems (`uint256`, an inline tuple, …) is not in the
repository and stays a parameter, `TypeGrammar`.  Its fields are what alloy
documents: a stem never ends in a bracket, `tuple` on its own names no type, and
the widths of the integer and byte types are the Solidity ones.  The bracketed
sizes, and how `Param::resolve` puts a stem, its sizes and the components
together, are written out.

## Why the two agree

The sizes are read from the left, so the outermost one is the last to be read;
`sizesFrom_append` and `sizesFrom_cases` say that it can be taken off the right end as
well.  What alloy reads as a size between brackets the crate reads as the same length
(`splitArrayType_of_sizeOfDigits`), up to the largest `usize`.  And a stem cannot be
followed by no sizes when the text ends in a bracket (`isStem_append_bracket`), so the
crate splits nothing off a stem.
-/
import AmbireCrypto.Lib.Numeral
import AmbireCrypto.Types

namespace AmbireCrypto

open Numeral

/-! ## The crate's reading -/

/-- `str::rfind` of a character: the index of its last occurrence. -/
def rfind (c : Char) : List Char → Option Nat
  | [] => none
  | x :: xs =>
      match rfind c xs with
      | some i => some (i + 1)
      | none => if x = c then some 0 else none

/-- `str::parse::<usize>`: an optional plus, then at least one digit. -/
def parseUsize (usizeMax : Nat) (cs : List Char) : Option Nat :=
  let digits := match cs with
    | '+' :: rest => rest
    | _ => cs
  if digits = [] then none
  else
    match read skipNone usizeMax digits with
    | .ok n => some n
    | .error _ => none

/-- `uint256[]` into `("uint256", none)`, `bytes32[3]` into `("bytes32", some 3)`,
`none` for anything that is not an array. -/
def splitArrayType (usizeMax : Nat) (ty : String) : Option (String × Option Nat) :=
  let chars := ty.toList
  match rfind '[' chars with
  | none => none
  | some open_ =>
      if chars.getLast? ≠ some ']' then none
      else
        let inner := (chars.take (chars.length - 1)).drop (open_ + 1)
        let base := String.ofList (chars.take open_)
        if inner = [] then some (base, none)
        else
          match parseUsize usizeMax inner with
          | none => none
          | some len => some (base, some len)

/-! ## alloy's reading -/

/-- The widths alloy's parser lets through: whole bytes up to a word. -/
def DynSolType.WidthsOk : DynSolType → Prop
  | .int size | .uint size => 0 < size ∧ size ≤ 256 ∧ size % 8 = 0
  | .fixedBytes size => 0 < size ∧ size ≤ 32
  | _ => True

/-- What is left open of alloy's type grammar: the stems, and the type of a stem
that has no components. -/
structure TypeGrammar where
  /-- `usize::MAX` of the target the crate is built for. -/
  usizeMax : Nat
  isStem : List Char → Bool
  stemType : List Char → Option DynSolType
  isStem_getLast : ∀ s, isStem s = true → s.getLast? ≠ some ']'
  stemType_tuple : stemType "tuple".toList = none
  stemType_widths : ∀ s t, stemType s = some t → t.WidthsOk

/-- The digits between two brackets: none for a dynamic array, otherwise a
`NonZeroUsize`. -/
def sizeOfDigits (usizeMax : Nat) (ds : List Char) : Option (Option Nat) :=
  if ds = [] then some none
  else
    match read skipNone usizeMax ds with
    | .ok n => if n = 0 then none else some (some n)
    | .error _ => none

/-- The bracketed sizes after a stem, innermost first.  The state is the digits
read since the last `[`, or `none` outside brackets. -/
def sizesFrom (usizeMax : Nat) : Option (List Char) → List Char → Option (List (Option Nat))
  | none, [] => some []
  | none, c :: cs => if c = '[' then sizesFrom usizeMax (some []) cs else none
  | some _, [] => none
  | some ds, c :: cs =>
      if c = ']' then
        (sizeOfDigits usizeMax ds).bind fun d => (sizesFrom usizeMax none cs).map (d :: ·)
      else if c.isDigit then sizesFrom usizeMax (some (ds ++ [c])) cs
      else none

/-- One array dimension around a type. -/
def DynSolType.wrapOne (t : DynSolType) : Option Nat → DynSolType
  | none => .array t
  | some k => .fixedArray t k

/-- All dimensions, innermost first. -/
def DynSolType.wrap (t : DynSolType) (sizes : List (Option Nat)) : DynSolType :=
  sizes.foldl DynSolType.wrapOne t

namespace TypeGrammar

variable (G : TypeGrammar)

/-- `TypeSpecifier::parse`: a stem and the sizes after it. -/
def typeSpecifier (ty : List Char) : Option (List Char × List (Option Nat)) :=
  (List.range (ty.length + 1)).findSome? fun i =>
    if G.isStem (ty.take i) then (sizesFrom G.usizeMax none (ty.drop i)).map (ty.take i, ·)
    else none

mutual
/-- `Param::resolve`: without components the stem has to name a type, with them
it is a tuple of theirs whatever it is called. -/
def resolve : Param → Option DynSolType
  | ⟨ty, _, components⟩ =>
      match G.typeSpecifier ty.toList with
      | none => none
      | some (stem, sizes) =>
          if components.isEmpty then (G.stemType stem).map (·.wrap sizes)
          else (resolveAll components).map fun ts => DynSolType.wrap (.tuple ts) sizes
def resolveAll : List Param → Option (List DynSolType)
  | [] => some []
  | c :: cs => (resolve c).bind fun t => (resolveAll cs).map (t :: ·)
end

end TypeGrammar

/-! ## The last bracket -/

theorem rfind_eq_none_iff {c : Char} {cs : List Char} : rfind c cs = none ↔ c ∉ cs := by
  induction cs with
  | nil => simp [rfind]
  | cons x xs ih =>
      rw [rfind]
      cases h : rfind c xs with
      | none =>
          have hxs := ih.mp h
          by_cases hx : x = c
          · simp [hx]
          · simp [hx, hxs, Ne.symm hx]
      | some i =>
          have hmem : c ∈ xs := by
            by_contra hn
            rw [ih.mpr hn] at h
            cases h
          simp [hmem]

theorem rfind_append {c : Char} {as bs : List Char} (h : c ∉ bs) :
    rfind c (as ++ c :: bs) = some as.length := by
  induction as with
  | nil =>
      rw [List.nil_append, rfind, rfind_eq_none_iff.mpr h]
      simp
  | cons a as ih =>
      rw [List.cons_append, rfind, ih]
      rfl

theorem bracket_not_mem_digits {ds : List Char} (h : ∀ c ∈ ds, c.isDigit = true) : '[' ∉ ds :=
  fun hmem => absurd (h _ hmem) (by decide)

theorem splitArrayType_suffix (usizeMax : Nat) {ty : String} {base ds : List Char}
    (hty : ty.toList = base ++ '[' :: (ds ++ [']'])) (hds : '[' ∉ ds) :
    splitArrayType usizeMax ty =
      if ds = [] then some (String.ofList base, none)
      else (parseUsize usizeMax ds).map fun n => (String.ofList base, some n) := by
  have hopen : rfind '[' ty.toList = some base.length := by
    rw [hty]
    exact rfind_append (by simpa using hds)
  have hlast : ty.toList.getLast? = some ']' := by
    rw [hty, ← List.cons_append, ← List.append_assoc, List.getLast?_concat]
  have htake : ty.toList.take base.length = base := by
    rw [hty, List.take_left]
  have hinner : (ty.toList.take (ty.toList.length - 1)).drop (base.length + 1) = ds := by
    rw [hty, show base ++ '[' :: (ds ++ [']']) = (base ++ ['[']) ++ ds ++ [']'] by simp,
      List.length_append, List.length_singleton, Nat.add_sub_cancel, List.take_left,
      show base.length + 1 = (base ++ ['[']).length by simp, List.drop_left]
  simp only [splitArrayType, hopen, hlast, hinner, htake, ne_eq, not_true_eq_false, ↓reduceIte]
  by_cases hnil : ds = []
  · simp [hnil]
  · simp only [hnil, ↓reduceIte]
    cases parseUsize usizeMax ds <;> rfl

theorem splitArrayType_eq_none_of_getLast (usizeMax : Nat) {ty : String}
    (h : ty.toList.getLast? ≠ some ']') : splitArrayType usizeMax ty = none := by
  simp only [splitArrayType, h, ne_eq, not_false_eq_true, ↓reduceIte]
  cases rfind '[' ty.toList <;> rfl

theorem splitArrayType_tuple (usizeMax : Nat) : splitArrayType usizeMax "tuple" = none :=
  splitArrayType_eq_none_of_getLast usizeMax (by decide)

/-! ## The sizes, from the right

`sizesFrom` walks from the left; these two say what its last step was. -/

theorem sizesFrom_digits (usizeMax : Nat) (ds : List Char) :
    ∀ acc : List Char, (∀ c ∈ ds, c.isDigit = true) →
      sizesFrom usizeMax (some acc) (ds ++ [']']) =
        (sizeOfDigits usizeMax (acc ++ ds)).map ([·]) := by
  induction ds with
  | nil =>
      intro acc _
      rw [List.nil_append, sizesFrom, if_pos rfl, List.append_nil]
      cases sizeOfDigits usizeMax acc <;> rfl
  | cons d ds ih =>
      intro acc h
      have hd : d.isDigit = true := h d List.mem_cons_self
      have hne : d ≠ ']' := fun he => absurd hd (by rw [he]; decide)
      rw [List.cons_append, sizesFrom, if_neg hne, if_pos hd,
        ih _ fun c hc => h c (List.mem_cons_of_mem _ hc),
        List.append_assoc, List.singleton_append]

theorem sizesFrom_append (usizeMax : Nat) {ds : List Char} (hds : ∀ c ∈ ds, c.isDigit = true) :
    ∀ (cs : List Char) (st : Option (List Char)),
      sizesFrom usizeMax st (cs ++ '[' :: (ds ++ [']'])) =
        (sizesFrom usizeMax st cs).bind fun sizes =>
          (sizeOfDigits usizeMax ds).map fun d => sizes ++ [d]
  | [], none => by
      have hopen : sizesFrom usizeMax none ('[' :: (ds ++ [']'])) =
          sizesFrom usizeMax (some []) (ds ++ [']']) := by
        rw [sizesFrom, if_pos rfl]
      rw [List.nil_append, hopen, sizesFrom_digits usizeMax ds [] hds, List.nil_append]
      cases sizeOfDigits usizeMax ds <;> rfl
  | [], some acc => by
      have hopen : sizesFrom usizeMax (some acc) ('[' :: (ds ++ [']'])) = none := by
        rw [sizesFrom, if_neg (by decide), if_neg (by decide)]
      rw [List.nil_append, hopen]
      rfl
  | c :: cs, none => by
      rw [List.cons_append, sizesFrom, sizesFrom]
      split
      · exact sizesFrom_append usizeMax hds cs (some [])
      · rfl
  | c :: cs, some acc => by
      rw [List.cons_append, sizesFrom, sizesFrom]
      split
      · rw [sizesFrom_append usizeMax hds cs none]
        cases sizeOfDigits usizeMax acc with
        | none => rfl
        | some d =>
            cases sizesFrom usizeMax none cs with
            | none => rfl
            | some sizes => cases sizeOfDigits usizeMax ds <;> rfl
      · split
        · exact sizesFrom_append usizeMax hds cs (some (acc ++ [c]))
        · rfl

/-- What was read as sizes is empty, or ends in a bracketed size; inside
brackets it may also be the rest of that size. -/
theorem sizesFrom_shape (usizeMax : Nat) :
    ∀ (cs : List Char) (st : Option (List Char)) (sizes : List (Option Nat)),
      sizesFrom usizeMax st cs = some sizes →
        (st = none ∧ cs = []) ∨
        (st ≠ none ∧ ∃ ds, cs = ds ++ [']'] ∧ ∀ c ∈ ds, c.isDigit = true) ∨
        ∃ xs ds, cs = xs ++ '[' :: (ds ++ [']']) ∧ ∀ c ∈ ds, c.isDigit = true
  | [], none, _, _ => Or.inl ⟨rfl, rfl⟩
  | [], some _, _, h => nomatch h
  | c :: cs, none, sizes, h => by
      rw [sizesFrom] at h
      split at h
      · rename_i hc
        subst hc
        rcases sizesFrom_shape usizeMax cs _ _ h with ⟨hst, -⟩ | ⟨-, ds, hcs, hds⟩ | ⟨xs, ds, hcs, hds⟩
        · cases hst
        · exact Or.inr (Or.inr ⟨[], ds, by rw [hcs]; rfl, hds⟩)
        · exact Or.inr (Or.inr ⟨'[' :: xs, ds, by rw [hcs]; rfl, hds⟩)
      · cases h
  | c :: cs, some acc, sizes, h => by
      rw [sizesFrom] at h
      split at h
      · rename_i hc
        subst hc
        obtain ⟨d, -, h⟩ := Option.bind_eq_some_iff.mp h
        obtain ⟨sizes', h', -⟩ := Option.map_eq_some_iff.mp h
        rcases sizesFrom_shape usizeMax cs _ _ h' with ⟨-, hcs⟩ | ⟨hst, -⟩ | ⟨xs, ds, hcs, hds⟩
        · exact Or.inr (Or.inl ⟨by simp, [], by rw [hcs]; rfl, by simp⟩)
        · exact absurd rfl hst
        · exact Or.inr (Or.inr ⟨']' :: xs, ds, by rw [hcs]; rfl, hds⟩)
      · split at h
        · rename_i hdig
          rcases sizesFrom_shape usizeMax cs _ _ h with ⟨hst, -⟩ | ⟨-, ds, hcs, hds⟩ | ⟨xs, ds, hcs, hds⟩
          · cases hst
          · refine Or.inr (Or.inl ⟨by simp, c :: ds, by rw [hcs]; rfl, fun x hx => ?_⟩)
            rcases List.mem_cons.mp hx with rfl | hx
            · exact hdig
            · exact hds x hx
          · exact Or.inr (Or.inr ⟨c :: xs, ds, by rw [hcs]; rfl, hds⟩)
        · cases h

/-- Outside brackets: the sizes are none, or the ones before the last bracket
and the last one. -/
theorem sizesFrom_cases (usizeMax : Nat) {cs : List Char} {sizes : List (Option Nat)}
    (h : sizesFrom usizeMax none cs = some sizes) :
    (cs = [] ∧ sizes = []) ∨
      ∃ xs ds init d, cs = xs ++ '[' :: (ds ++ [']']) ∧ (∀ c ∈ ds, c.isDigit = true) ∧
        sizesFrom usizeMax none xs = some init ∧ sizeOfDigits usizeMax ds = some d ∧
        sizes = init ++ [d] := by
  rcases sizesFrom_shape usizeMax cs none sizes h with ⟨-, rfl⟩ | ⟨hst, -⟩ | ⟨xs, ds, rfl, hds⟩
  · exact Or.inl ⟨rfl, (Option.some.inj h).symm⟩
  · exact absurd rfl hst
  · rw [sizesFrom_append usizeMax hds] at h
    obtain ⟨init, hinit, h⟩ := Option.bind_eq_some_iff.mp h
    obtain ⟨d, hd, h⟩ := Option.map_eq_some_iff.mp h
    exact Or.inr ⟨xs, ds, init, d, rfl, hds, hinit, hd, h.symm⟩

/-- A size alloy reads between brackets is the length the crate reads there. -/
theorem splitArrayType_of_sizeOfDigits {usizeMax : Nat} {ty : String} {base ds : List Char}
    {d : Option Nat} (hty : ty.toList = base ++ '[' :: (ds ++ [']']))
    (hds : ∀ c ∈ ds, c.isDigit = true) (hd : sizeOfDigits usizeMax ds = some d) :
    splitArrayType usizeMax ty = some (String.ofList base, d) ∧ ∀ k, d = some k → 0 < k := by
  rw [splitArrayType_suffix usizeMax hty (bracket_not_mem_digits hds)]
  simp only [sizeOfDigits] at hd
  split at hd
  · rename_i hnil
    cases hd
    exact ⟨if_pos hnil, nofun⟩
  · rename_i hnil
    have hplus : parseUsize usizeMax ds =
        match read skipNone usizeMax ds with
        | .ok n => some n
        | .error _ => none := by
      simp only [parseUsize]
      split
      · exact absurd (hds '+' List.mem_cons_self) (by decide)
      · rw [if_neg hnil]
    rw [if_neg hnil, hplus]
    split at hd
    · split at hd
      · cases hd
      · rename_i n hread hn
        cases hd
        exact ⟨rfl, fun k hk => by cases hk; omega⟩
    · cases hd

/-! ## Agreement -/

namespace TypeGrammar

variable (G : TypeGrammar)

theorem typeSpecifier_spec {ty stem : List Char} {sizes : List (Option Nat)}
    (h : G.typeSpecifier ty = some (stem, sizes)) :
    G.isStem stem = true ∧ ∃ suf, ty = stem ++ suf ∧ sizesFrom G.usizeMax none suf = some sizes := by
  obtain ⟨i, -, hi⟩ := List.exists_of_findSome?_eq_some h
  split at hi
  · rename_i hstem
    obtain ⟨sizes', hsizes, heq⟩ := Option.map_eq_some_iff.mp hi
    cases heq
    exact ⟨hstem, ty.drop i, (List.take_append_drop i ty).symm, hsizes⟩
  · cases hi

theorem isStem_append_bracket {stem : List Char} (h : G.isStem stem = true) (xs ds : List Char) :
    stem ≠ xs ++ '[' :: (ds ++ [']']) := by
  rintro rfl
  refine G.isStem_getLast _ h ?_
  rw [← List.cons_append, ← List.append_assoc, List.getLast?_concat]

theorem stem_unique :
    ∀ (n : Nat) {s₁ s₂ r₁ r₂ : List Char} {l₁ l₂ : List (Option Nat)}, r₁.length ≤ n →
      G.isStem s₁ = true → G.isStem s₂ = true →
      sizesFrom G.usizeMax none r₁ = some l₁ → sizesFrom G.usizeMax none r₂ = some l₂ →
      s₁ ++ r₁ = s₂ ++ r₂ → s₁ = s₂ ∧ l₁ = l₂ := by
  intro n
  induction n with
  | zero =>
      intro s₁ s₂ r₁ r₂ l₁ l₂ hlen h₁ h₂ hr₁ hr₂ heq
      have hr₁nil : r₁ = [] := List.eq_nil_of_length_eq_zero (Nat.le_zero.mp hlen)
      subst hr₁nil
      rw [List.append_nil] at heq
      rcases sizesFrom_cases _ hr₂ with ⟨rfl, rfl⟩ | ⟨xs, ds, _, _, rfl, -⟩
      · exact ⟨heq.trans (List.append_nil _), (Option.some.inj hr₁).symm⟩
      · exact absurd (heq.trans (List.append_assoc _ _ _).symm) (G.isStem_append_bracket h₁ _ _)
  | succ n ih =>
      intro s₁ s₂ r₁ r₂ l₁ l₂ hlen h₁ h₂ hr₁ hr₂ heq
      rcases sizesFrom_cases _ hr₁ with ⟨rfl, rfl⟩ | ⟨xs₁, ds₁, i₁, d₁, rfl, hds₁, hx₁, hd₁, rfl⟩
      · exact ih (show [].length ≤ n from Nat.zero_le n) h₁ h₂ rfl hr₂ heq
      · rcases sizesFrom_cases _ hr₂ with ⟨rfl, rfl⟩ | ⟨xs₂, ds₂, i₂, d₂, rfl, hds₂, hx₂, hd₂, rfl⟩
        · rw [List.append_nil, ← List.append_assoc] at heq
          exact absurd heq.symm (G.isStem_append_bracket h₂ _ _)
        · -- the last `[` stands at one place, so both texts break there
          rw [← List.append_assoc, ← List.append_assoc] at heq
          have hnb : ∀ {ds : List Char}, (∀ c ∈ ds, c.isDigit = true) → '[' ∉ ds ++ [']'] :=
            fun h => by simpa using bracket_not_mem_digits h
          have hpos := congrArg (rfind '[') heq
          rw [rfind_append (hnb hds₁), rfind_append (hnb hds₂)] at hpos
          obtain ⟨hfront, hback⟩ := List.append_inj heq (Option.some.inj hpos)
          obtain ⟨hds, -⟩ := List.append_inj' (List.cons.inj hback).2 rfl
          have hlen' : xs₁.length ≤ n := by
            simp only [List.length_append, List.length_cons] at hlen
            omega
          obtain ⟨hs, hi⟩ := ih hlen' h₁ h₂ hx₁ hx₂ hfront
          rw [hds, hd₂] at hd₁
          exact ⟨hs, by rw [hi, Option.some.inj hd₁]⟩

theorem typeSpecifier_eq_some_iff {ty stem : List Char} {sizes : List (Option Nat)} :
    G.typeSpecifier ty = some (stem, sizes) ↔
      G.isStem stem = true ∧
        ∃ suf, ty = stem ++ suf ∧ sizesFrom G.usizeMax none suf = some sizes := by
  constructor
  · exact G.typeSpecifier_spec
  · rintro ⟨hstem, suf, rfl, hsuf⟩
    have hsome : (G.typeSpecifier (stem ++ suf)).isSome = true := by
      refine List.findSome?_isSome_iff.mpr ⟨stem.length, ?_, ?_⟩
      · rw [List.mem_range, List.length_append]
        omega
      · rw [List.take_left, if_pos hstem, List.drop_left, hsuf]
        rfl
    obtain ⟨⟨stem', sizes'⟩, h⟩ := Option.isSome_iff_exists.mp hsome
    obtain ⟨hstem', suf', heq, hsuf'⟩ := G.typeSpecifier_spec h
    obtain ⟨rfl, rfl⟩ := G.stem_unique suf.length le_rfl hstem hstem' hsuf hsuf' heq
    exact h

/-- What alloy reads as a type is either a stem that the crate does not split,
or the crate splits off the dimension alloy puts outermost. -/
theorem typeSpecifier_cases {ty : String} {stem : List Char} {sizes : List (Option Nat)}
    (h : G.typeSpecifier ty.toList = some (stem, sizes)) :
    (stem = ty.toList ∧ sizes = [] ∧ splitArrayType G.usizeMax ty = none) ∨
      ∃ base d init, splitArrayType G.usizeMax ty = some (base, d) ∧ (∀ k, d = some k → 0 < k) ∧
        G.typeSpecifier base.toList = some (stem, init) ∧ sizes = init ++ [d] := by
  obtain ⟨hstem, suf, hty, hsuf⟩ := G.typeSpecifier_spec h
  rcases sizesFrom_cases _ hsuf with ⟨rfl, rfl⟩ | ⟨xs, ds, init, d, rfl, hds, hinit, hd, rfl⟩
  · rw [List.append_nil] at hty
    refine Or.inl ⟨hty.symm, rfl, splitArrayType_eq_none_of_getLast _ ?_⟩
    rw [hty]
    exact G.isStem_getLast _ hstem
  · rw [← List.append_assoc] at hty
    obtain ⟨hsplit, hpos⟩ := splitArrayType_of_sizeOfDigits hty hds hd
    refine Or.inr ⟨String.ofList (stem ++ xs), d, init, hsplit, hpos, ?_, rfl⟩
    rw [String.toList_ofList]
    exact G.typeSpecifier_eq_some_iff.mpr ⟨hstem, xs, rfl, hinit⟩

/-! ## `Param::resolve`, by the crate's reading -/

/-- The type of a stem, given the components. -/
def stemWith (stem : List Char) (components : List Param) : Option DynSolType :=
  if components.isEmpty then G.stemType stem
  else (G.resolveAll components).map DynSolType.tuple

theorem resolve_eq_some_iff {p : Param} {t : DynSolType} :
    G.resolve p = some t ↔
      ∃ stem sizes t', G.typeSpecifier p.ty.toList = some (stem, sizes) ∧
        G.stemWith stem p.components = some t' ∧ t = t'.wrap sizes := by
  obtain ⟨ty, name, components⟩ := p
  rw [resolve]
  cases hspec : G.typeSpecifier ty.toList with
  | none => simp
  | some spec =>
      obtain ⟨stem, sizes⟩ := spec
      simp only [Option.some.injEq, Prod.mk.injEq, stemWith]
      constructor
      · intro h
        refine ⟨stem, sizes, ?_⟩
        split at h
        · rename_i hnil
          obtain ⟨t', ht', rfl⟩ := Option.map_eq_some_iff.mp h
          exact ⟨t', ⟨rfl, rfl⟩, by rw [if_pos hnil, ht'], rfl⟩
        · rename_i hnil
          obtain ⟨ts, hts, rfl⟩ := Option.map_eq_some_iff.mp h
          exact ⟨.tuple ts, ⟨rfl, rfl⟩, by rw [if_neg hnil, hts]; rfl, rfl⟩
      · rintro ⟨_, _, t', ⟨rfl, rfl⟩, ht', rfl⟩
        split at ht'
        · rename_i hnil
          rw [if_pos hnil, ht']
          rfl
        · rename_i hnil
          obtain ⟨ts, hts, rfl⟩ := Option.map_eq_some_iff.mp ht'
          rw [if_neg hnil, hts]
          rfl

theorem wrap_append (t : DynSolType) (init : List (Option Nat)) (d : Option Nat) :
    t.wrap (init ++ [d]) = (t.wrap init).wrapOne d := by
  simp [DynSolType.wrap, List.foldl_append]

/-- What a parameter that resolves looks like to `jsonToValue`. -/
theorem resolve_cases {p : Param} {t : DynSolType} (h : G.resolve p = some t) :
    (splitArrayType G.usizeMax p.ty = none ∧ G.stemWith p.ty.toList p.components = some t) ∨
      ∃ base d t', splitArrayType G.usizeMax p.ty = some (base, d) ∧ (∀ k, d = some k → 0 < k) ∧
        (∀ name, G.resolve ⟨base, name, p.components⟩ = some t') ∧ t = t'.wrapOne d := by
  obtain ⟨stem, sizes, t', hspec, ht', rfl⟩ := G.resolve_eq_some_iff.mp h
  rcases G.typeSpecifier_cases hspec with ⟨rfl, rfl, hsplit⟩ | ⟨base, d, init, hsplit, hpos, hbase, rfl⟩
  · exact Or.inl ⟨hsplit, ht'⟩
  · refine Or.inr ⟨base, d, t'.wrap init, hsplit, hpos, fun name => ?_, wrap_append t' init d⟩
    exact G.resolve_eq_some_iff.mpr ⟨stem, init, t', hbase, ht', rfl⟩

theorem resolveAll_eq_some_iff {cs : List Param} : ∀ {ts : List DynSolType},
    G.resolveAll cs = some ts ↔ List.Forall₂ (fun c t => G.resolve c = some t) cs ts := by
  induction cs with
  | nil =>
      intro ts
      rw [resolveAll]
      constructor
      · intro h
        cases h
        exact .nil
      · intro h
        cases h
        rfl
  | cons c cs ih =>
      intro ts
      rw [resolveAll, Option.bind_eq_some_iff]
      constructor
      · rintro ⟨t, ht, h⟩
        obtain ⟨ts', hts', rfl⟩ := Option.map_eq_some_iff.mp h
        exact .cons ht (ih.mp hts')
      · intro h
        cases h with
        | cons ht hts => exact ⟨_, ht, Option.map_eq_some_iff.mpr ⟨_, ih.mpr hts, rfl⟩⟩

/-! What a stem by itself is. -/

theorem stemWith_widths {stem : List Char} {components : List Param} {t : DynSolType}
    (h : G.stemWith stem components = some t) : t.WidthsOk := by
  simp only [stemWith] at h
  split at h
  · exact G.stemType_widths stem t h
  · obtain ⟨ts, -, rfl⟩ := Option.map_eq_some_iff.mp h
    exact trivial

/-- `tuple` on its own names no type, so it comes with components. -/
theorem stemWith_tuple {components : List Param} {t : DynSolType}
    (h : G.stemWith "tuple".toList components = some t) :
    ∃ ts, List.Forall₂ (fun c t => G.resolve c = some t) components ts ∧ t = .tuple ts := by
  simp only [stemWith] at h
  split at h
  · rw [G.stemType_tuple] at h
    cases h
  · obtain ⟨ts, hts, rfl⟩ := Option.map_eq_some_iff.mp h
    exact ⟨ts, G.resolveAll_eq_some_iff.mp hts, rfl⟩

end TypeGrammar

end AmbireCrypto
