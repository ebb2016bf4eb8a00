/-
# `AmbireCrypto.TypeSlices` — array suffixes, by byte offsets

`splitArrayType` in `TypeString` reads a type by its characters.  The source slices
it by byte offsets, which can panic, so `Offsets.splitArrayType` follows the source
offset for offset, and `Offsets.splitArrayType_eq` says that it never panics and
that the two are one function.

Splitting leaves a shorter text, so doing it over and over ends; `Peels` is such a
run.  It takes the dimensions off from the outside in, each with what is left in
front of it, and stops at the type without them (`split_peels`).

The texts are any, brackets and letters outside ASCII included, and so is the
platform's `usize`: a number past it is no dimension, and the text is then no array
type.  Between the last brackets the parser of numbers takes a plus sign as well, so
more is split off than digits; `Dimension` is nothing or digits, and these are the
suffixes of which the theorem says that they all come off.
-/
import AmbireCrypto.Reference
import AmbireCrypto.Lib.StrSlice

namespace AmbireCrypto

open Numeral String StrSlice

namespace Offsets

/-- `split_array_type`, with every slice and subtraction of the source. -/
def splitArrayType (usizeMax : Nat) (ty : String) : Except Panic (Option (String × Option Nat)) :=
  match StrSlice.rfind '[' ty.toList with
  | none => .ok none
  | some open_ =>
      if ty.toList.getLast? ≠ some ']' then .ok none
      else do
        let stop ← checkedSub (utf8Len ty.toList) 1
        let inner ← slice ty.toList (open_ + 1) stop
        if inner = [] then
          let base ← sliceTo ty.toList open_
          .ok (some (String.ofList base, none))
        else
          match parseUsize usizeMax inner with
          | none => .ok none
          | some len => do
              let base ← sliceTo ty.toList open_
              .ok (some (String.ofList base, some len))

end Offsets

/-! ## What a split says -/

theorem exists_suffix {cs : List Char} (hopen : '[' ∈ cs) (hlast : cs.getLast? = some ']') :
    ∃ base inner, cs = base ++ '[' :: (inner ++ [']']) ∧ '[' ∉ inner := by
  obtain ⟨cs, rfl⟩ := List.getLast?_eq_some_iff.mp hlast
  have hmem : '[' ∈ cs.reverse := by simpa using hopen
  obtain ⟨front, back, hcs, hfront⟩ := List.eq_append_cons_of_mem hmem
  refine ⟨back.reverse, front.reverse, ?_, by simpa using hfront⟩
  rw [← List.reverse_reverse cs, hcs]
  simp

theorem splitArrayType_eq_some {usizeMax : Nat} {ty base : String} {len : Option Nat}
    (h : AmbireCrypto.splitArrayType usizeMax ty = some (base, len)) :
    ∃ inner : List Char, ty.toList = base.toList ++ '[' :: (inner ++ [']']) ∧ '[' ∉ inner ∧
      (len = none ↔ inner = []) := by
  have hopen : '[' ∈ ty.toList := by
    by_contra hn
    simp only [AmbireCrypto.splitArrayType, AmbireCrypto.rfind_eq_none_iff.mpr hn] at h
    cases h
  have hlast : ty.toList.getLast? = some ']' := by
    by_contra hn
    rw [splitArrayType_eq_none_of_getLast usizeMax hn] at h
    cases h
  obtain ⟨front, inner, hty, hinner⟩ := exists_suffix hopen hlast
  rw [splitArrayType_suffix usizeMax hty hinner] at h
  split at h
  · rename_i hnil
    cases h
    exact ⟨inner, by rw [String.toList_ofList, hty], hinner, iff_of_true rfl hnil⟩
  · rename_i hne
    obtain ⟨n, -, hn⟩ := Option.map_eq_some_iff.mp h
    cases hn
    exact ⟨inner, by rw [String.toList_ofList, hty], hinner, iff_of_false (Option.some_ne_none n) hne⟩

/-! ## The two readings are one -/

namespace Offsets

theorem splitArrayType_suffix (usizeMax : Nat) {ty : String} {base inner : List Char}
    (hty : ty.toList = base ++ '[' :: (inner ++ [']'])) (hinner : '[' ∉ inner) :
    splitArrayType usizeMax ty = .ok (AmbireCrypto.splitArrayType usizeMax ty) := by
  have hopen : StrSlice.rfind '[' ty.toList = some (utf8Len base) := by
    rw [hty]
    exact StrSlice.rfind_append (by simpa using hinner)
  have hlast : ty.toList.getLast? = some ']' := by
    rw [hty, ← List.cons_append, ← List.append_assoc, List.getLast?_concat]
  have hstop : checkedSub (utf8Len ty.toList) 1 = .ok (utf8Len (base ++ ['['] ++ inner)) := by
    rw [hty, show base ++ '[' :: (inner ++ [']']) = base ++ ['['] ++ inner ++ [']'] by simp,
      utf8Len_append]
    exact checkedSub_add _ 1
  have hslice : slice ty.toList (utf8Len base + 1) (utf8Len (base ++ ['['] ++ inner)) =
      .ok inner := by
    have hstart : utf8Len base + 1 = utf8Len (base ++ ['[']) := by
      rw [utf8Len_append]
      rfl
    rw [hty, show base ++ '[' :: (inner ++ [']']) = base ++ ['['] ++ inner ++ [']'] by simp, hstart]
    exact slice_utf8Len _ _ _
  have hbase : sliceTo ty.toList (utf8Len base) = .ok base := by
    rw [hty]
    exact sliceTo_utf8Len _ _
  rw [AmbireCrypto.splitArrayType_suffix usizeMax hty hinner]
  simp only [splitArrayType, hopen, hlast, hstop, hslice, hbase, ne_eq, not_true_eq_false,
    ↓reduceIte, Traverse.ok_bind]
  split
  · rfl
  · cases parseUsize usizeMax inner <;> rfl

/-- No slice panics, whatever the text, and what comes out is what the characters
say. -/
theorem splitArrayType_eq (usizeMax : Nat) (ty : String) :
    splitArrayType usizeMax ty = .ok (AmbireCrypto.splitArrayType usizeMax ty) := by
  by_cases hopen : '[' ∈ ty.toList
  · by_cases hlast : ty.toList.getLast? = some ']'
    · obtain ⟨base, inner, hty, hinner⟩ := exists_suffix hopen hlast
      exact splitArrayType_suffix usizeMax hty hinner
    · rw [splitArrayType_eq_none_of_getLast usizeMax hlast]
      simp only [splitArrayType, hlast, ne_eq, not_false_eq_true, ↓reduceIte]
      cases StrSlice.rfind '[' ty.toList <;> rfl
  · simp only [splitArrayType, AmbireCrypto.splitArrayType, StrSlice.rfind_of_not_mem hopen,
      AmbireCrypto.rfind_eq_none_iff.mpr hopen]

/-! ## Over and over -/

/-- Splitting `ty` over and over takes `steps` off, each a base and its dimension,
and leaves `rest`. -/
inductive Peels (usizeMax : Nat) : String → List (String × Option Nat) → String → Prop
  | done (ty : String) : Peels usizeMax ty [] ty
  | step {ty base rest : String} {len : Option Nat} {steps : List (String × Option Nat)} :
      splitArrayType usizeMax ty = .ok (some (base, len)) → Peels usizeMax base steps rest →
      Peels usizeMax ty ((base, len) :: steps) rest

theorem Peels.concat {usizeMax : Nat} {ty mid rest : String} {len : Option Nat}
    {steps : List (String × Option Nat)} (h : Peels usizeMax ty steps mid)
    (hlast : splitArrayType usizeMax mid = .ok (some (rest, len))) :
    Peels usizeMax ty (steps ++ [(rest, len)]) rest := by
  induction h with
  | done ty => exact .step hlast (.done rest)
  | step hstep _ ih => exact .step hstep (ih hlast)

theorem splitArrayType_eq_some {usizeMax : Nat} {ty base : String} {len : Option Nat}
    (h : splitArrayType usizeMax ty = .ok (some (base, len))) :
    (∃ inner : String, ty = base ++ "[" ++ inner ++ "]" ∧ '[' ∉ inner.toList ∧
      (len = none ↔ inner = "")) ∧ base.length < ty.length := by
  rw [splitArrayType_eq] at h
  obtain ⟨inner, hty, hinner, hlen⟩ := AmbireCrypto.splitArrayType_eq_some (Except.ok.inj h)
  refine ⟨⟨String.ofList inner, ?_, ?_, ?_⟩, ?_⟩
  · rw [← String.toList_inj, hty]
    simp
  · rw [String.toList_ofList]
    exact hinner
  · rw [hlen, ← String.toList_inj, String.toList_ofList]
    rfl
  · rw [← String.length_toList, ← String.length_toList, hty, List.length_append, List.length_cons]
    omega

end Offsets

/-! ## The suffixes of a type -/

/-- The text between two brackets, and the dimension it means. -/
inductive Dimension (usizeMax : Nat) : String → Option Nat → Prop
  | dynamic : Dimension usizeMax "" none
  | fixed {text : String} :
      text ≠ "" → (∀ c ∈ text.toList, c.isDigit = true) →
      Nat.ofDigitChars 10 text.toList 0 ≤ usizeMax →
      Dimension usizeMax text (some (Nat.ofDigitChars 10 text.toList 0))

/-- `r[d₁]…[dₖ]`. -/
def withDims : String → List (String × Option Nat) → String
  | r, [] => r
  | r, d :: dims => withDims (r ++ "[" ++ d.1 ++ "]") dims

/-- The dimensions from the outside in, each after the text in front of it. -/
def outsideIn : String → List (String × Option Nat) → List (String × Option Nat)
  | _, [] => []
  | r, d :: dims => outsideIn (r ++ "[" ++ d.1 ++ "]") dims ++ [(r, d.2)]

theorem parseUsize_digits {usizeMax : Nat} {digits : List Char} (hne : digits ≠ [])
    (hdigits : ∀ c ∈ digits, c.isDigit = true) (hle : Nat.ofDigitChars 10 digits 0 ≤ usizeMax) :
    parseUsize usizeMax digits = some (Nat.ofDigitChars 10 digits 0) := by
  have hread : read skipNone usizeMax digits = .ok (Nat.ofDigitChars 10 digits 0) := by
    refine read_eq_ok_iff.mpr ⟨fun c hc _ => hdigits c hc, ?_, hle⟩
    exact congrArg (Nat.ofDigitChars 10 · 0) (List.filter_eq_self.mpr fun c _ => rfl)
  simp only [parseUsize]
  split
  · exact absurd (hdigits '+' List.mem_cons_self) (by decide)
  · rw [if_neg hne, hread]

theorem Dimension.split {usizeMax : Nat} {text : String} {len : Option Nat}
    (h : Dimension usizeMax text len) (r : String) :
    Offsets.splitArrayType usizeMax (r ++ "[" ++ text ++ "]") = .ok (some (r, len)) := by
  have hty : (r ++ "[" ++ text ++ "]").toList = r.toList ++ '[' :: (text.toList ++ [']']) := by
    simp
  rw [Offsets.splitArrayType_eq]
  cases h with
  | dynamic =>
      rw [splitArrayType_suffix usizeMax hty (by simp), String.ofList_toList]
      rfl
  | fixed hne hdigits hle =>
      have hne' : text.toList ≠ [] := fun h => hne (String.toList_inj.mp h)
      rw [splitArrayType_suffix usizeMax hty (bracket_not_mem_digits hdigits), if_neg hne',
        parseUsize_digits hne' hdigits hle, String.ofList_toList]
      rfl

theorem peels_withDims {usizeMax : Nat} {dims : List (String × Option Nat)}
    (h : ∀ d ∈ dims, Dimension usizeMax d.1 d.2) :
    ∀ r, Offsets.Peels usizeMax (withDims r dims) (outsideIn r dims) r := by
  induction dims with
  | nil => exact fun r => .done r
  | cons d dims ih =>
      intro r
      have hd := h d List.mem_cons_self
      exact (ih (fun d hd => h d (List.mem_cons_of_mem _ hd)) _).concat (hd.split r)

/-- Splitting takes the suffixes off from the outside in and stops at the type they
stand on; whatever it takes off was there, and no slice it makes panics. -/
theorem split_peels (usizeMax : Nat) :
    (∀ (r : String) (dims : List (String × Option Nat)), r.toList.getLast? ≠ some ']' →
      (∀ d ∈ dims, Dimension usizeMax d.1 d.2) →
      Offsets.Peels usizeMax (withDims r dims) (outsideIn r dims) r ∧
        Offsets.splitArrayType usizeMax r = .ok none) ∧
    (∀ (ty base : String) (len : Option Nat),
      Offsets.splitArrayType usizeMax ty = .ok (some (base, len)) →
      (∃ inner : String, ty = base ++ "[" ++ inner ++ "]" ∧ '[' ∉ inner.toList ∧
        (len = none ↔ inner = "")) ∧ base.length < ty.length) ∧
    ∀ ty : String, ∃ parts, Offsets.splitArrayType usizeMax ty = .ok parts := by
  refine ⟨fun r dims hr hdims => ⟨peels_withDims hdims r, ?_⟩, fun ty base len h => ?_,
    fun ty => ⟨_, Offsets.splitArrayType_eq usizeMax ty⟩⟩
  · rw [Offsets.splitArrayType_eq, splitArrayType_eq_none_of_getLast usizeMax hr]
  · exact Offsets.splitArrayType_eq_some h

/-- An inline tuple type with a bracket of its own, a dynamic and a fixed dimension. -/
theorem split_peels_inline :
    Offsets.Peels 255 "(uint8[2],bool)[][30]"
      [("(uint8[2],bool)[]", some 30), ("(uint8[2],bool)", none)] "(uint8[2],bool)" := by
  have hdims : ∀ d ∈ [("", none), ("30", some 30)], Dimension 255 d.1 d.2 := by
    intro d hd
    rcases List.mem_cons.mp hd with rfl | hd
    · exact .dynamic
    · rw [List.mem_singleton.mp hd]
      exact @Dimension.fixed 255 "30" (by decide) (by simp) (by decide)
  exact ((split_peels 255).1 "(uint8[2],bool)" _ (by decide) hdims).1

end AmbireCrypto
