/-
# `AmbireCrypto.BigintTag` — what the tag stands for

The tag shares its one key with the objects made of tuples, whose names come from
an ABI nobody here controls, and `$` is a letter of Solidity's identifiers.  So a
tuple named like the tag, with a string in it, is shown as a tag, and that is the
only way for the answer to hold one that is no wide integer.

Going in, `argToDecimal` looks the key up in whatever object it is given and
never asks what else is there.

## What is proved

`TagContract` is what the tag is for on the way out, and what JavaScript rebuilds from it;
`SoleTag` is what it is for on the way in.  Each comes with the exact condition under
which the code keeps it:

* out: no tuple shown in the answer looks like a tag (`tagContract_iff`);
* in: the object holds nothing besides a tag that is an integer of the type
  (`soleTag_iff`).

`bigint_tag_iff` states both at once.  After it each defect is shown on one input: a
tuple with one field of that name, and a tag with a second entry beside it.
-/
import AmbireCrypto.RichJson
import AmbireCrypto.IntegerArgs

namespace AmbireCrypto

open Traverse

/-! ## Out -/

/-- Tags are wide integers, and parsing the answer gives viem's value. -/
structure TagContract (D : Deps) (p : Param) (v : DynSolValue) (j : Value) : Prop where
  wide_of_tag : ∀ (path : List Step) (s : String), j.atPath path = some (bigintTag s) →
    ∃ q w i size, Shown q w path p v ∧ w.asInt = some (i, size) ∧ 48 < size
  rebuilt : j.richParse = D.viemValue p v

theorem wide_or_looksTagged {D : Deps} {q : Param} {w : DynSolValue} {s : String}
    (h : D.valueToJson q w = .ok (bigintTag s)) :
    (∃ i size, w.asInt = some (i, size) ∧ 48 < size) ∨
      ∃ fields, w = .tuple fields ∧ LooksTagged q.components fields := by
  cases w with
  | tuple fields =>
      rw [Deps.valueToJson_tuple] at h
      obtain ⟨hlen, js, hjs, hshape⟩ := Deps.tupleToJson_eq_ok_iff.mp h
      exact Or.inr ⟨fields, rfl, (Deps.tupleShape_eq_bigintTag_iff hlen hjs).mp ⟨s, hshape⟩⟩
  | _ =>
      cases Deps.renders_of_ok _ h with
      | tag hw hsize => exact Or.inl ⟨_, _, hw, hsize⟩

theorem tagContract_iff {D : Deps} {p : Param} {v : DynSolValue} {j : Value}
    (h : D.valueToJson p v = .ok j) : TagContract D p v j ↔ Untagged p v := by
  constructor
  · intro hcontract path q fields hshown htagged
    obtain ⟨k, hat, hk⟩ := Deps.atPath_of_shown hshown h
    rw [Deps.valueToJson_tuple] at hk
    obtain ⟨hlen, js, hjs, rfl⟩ := Deps.tupleToJson_eq_ok_iff.mp hk
    obtain ⟨s, hs⟩ := (Deps.tupleShape_eq_bigintTag_iff hlen hjs).mpr htagged
    rw [hs] at hat
    obtain ⟨q', w, i, size, hshown', hw, -⟩ := hcontract.wide_of_tag path s hat
    obtain ⟨rfl, rfl⟩ := hshown.unique hshown'
    cases hw
  · intro hplain
    refine ⟨fun path s hat => ?_, Deps.richParse_eq_viemValue v h hplain⟩
    obtain ⟨q, w, hshown, hw⟩ := Deps.shown_of_object path h hat
    rcases wide_or_looksTagged hw with ⟨i, size, hint, hsize⟩ | ⟨fields, rfl, htagged⟩
    · exact ⟨q, w, i, size, hshown, hint, hsize⟩
    · exact absurd htagged (hplain path q fields hshown)

/-! ## In -/

/-- An object is taken for an integer only when it is the tag and nothing else. -/
def SoleTag (D : Deps) (p : Param) (entries : List (String × Value)) : Prop :=
  ∀ d, D.jsonToValue p (.object entries) = .ok d → ∃ s, entries = [(BIGINT_TAG, .string s)]

theorem argToDecimal_object_eq_ok_iff {entries : List (String × Value)} {s : String} :
    argToDecimal (.object entries) = .ok s ↔ entries.lookup BIGINT_TAG = some (.string s) := by
  constructor
  · intro h
    simp only [argToDecimal] at h
    rw [Value.get_object] at h
    cases hlookup : entries.lookup BIGINT_TAG with
    | none =>
        rw [hlookup] at h
        cases h
    | some x =>
        rw [hlookup] at h
        cases x with
        | string text =>
            cases h
            rfl
        | _ => cases h
  · intro h
    exact argToDecimal_of_textArg (.tag h)

/-- An object is taken exactly when it has a text under the tag's key that is an
integer of the type. -/
theorem object_accepted_iff {D : Deps} {p : Param} {ty : DynSolType}
    (hres : D.resolve p = some ty) (hty : ty.IsInteger) (entries : List (String × Value)) :
    (∃ d, D.jsonToValue p (.object entries) = .ok d) ↔
      ∃ s v, entries.lookup BIGINT_TAG = some (.string s) ∧ ParsesTo ty s v ∧ ty.Holds v := by
  simp only [jsonToValue_integer hres hty]
  constructor
  · rintro ⟨d, hd⟩
    obtain ⟨s, hs⟩ : ∃ s, argToDecimal (.object entries) = .ok s := by
      cases harg : argToDecimal (.object entries) with
      | ok s => exact ⟨s, rfl⟩
      | error e =>
          cases ty with
          | uint size =>
              rw [Deps.coerceScalar, harg] at hd
              cases hd
          | int size =>
              rw [Deps.coerceScalar, harg] at hd
              cases hd
          | _ => exact hty.elim
    obtain ⟨v, hparse, hholds, -⟩ := (coerceScalar_eq_ok_iff D hty hs).mp hd
    exact ⟨s, v, argToDecimal_object_eq_ok_iff.mp hs, hparse, hholds⟩
  · rintro ⟨s, v, hlookup, hparse, hholds⟩
    obtain ⟨d, hleaf⟩ := exists_isLeaf hty hholds
    exact ⟨d, (coerceScalar_eq_ok_iff D hty (argToDecimal_object_eq_ok_iff.mpr hlookup)).mpr
      ⟨v, hparse, hholds, hleaf⟩⟩

theorem soleTag_iff {D : Deps} {p : Param} {ty : DynSolType} (hres : D.resolve p = some ty)
    (hty : ty.IsInteger) (entries : List (String × Value)) :
    SoleTag D p entries ↔ entries.length = 1 ∨
      ¬ ∃ s v, entries.lookup BIGINT_TAG = some (.string s) ∧ ParsesTo ty s v ∧ ty.Holds v := by
  have haccept := object_accepted_iff hres hty entries
  constructor
  · intro h
    refine or_iff_not_imp_right.mpr fun hnot => ?_
    obtain ⟨d, hd⟩ := haccept.mpr (not_not.mp hnot)
    obtain ⟨s, rfl⟩ := h d hd
    rfl
  · rintro (hone | hnot) d hd
    · obtain ⟨⟨key, x⟩, rfl⟩ := List.length_eq_one_iff.mp hone
      obtain ⟨s, v, hlookup, -, -⟩ := haccept.mp ⟨d, hd⟩
      rw [SortedMap.lookup_cons_ite] at hlookup
      split at hlookup
      · rename_i hkey
        cases hlookup
        exact ⟨s, by rw [hkey]⟩
      · cases hlookup
    · exact absurd (haccept.mp ⟨d, hd⟩) hnot

/-! ## Both ways -/

/-- The tag stands for a wide integer and nothing else, except for tuples that look
like one on the way out, and objects with more in them on the way in. -/
theorem bigint_tag_iff (D : Deps) :
    (∀ (p : Param) (v : DynSolValue) (j : Value), D.valueToJson p v = .ok j →
      (TagContract D p v j ↔
        ∀ (path : List Step) (q : Param) (fields : List DynSolValue),
          Shown q (.tuple fields) path p v → ¬ LooksTagged q.components fields)) ∧
    (∀ (p : Param) (ty : DynSolType) (entries : List (String × Value)),
      D.resolve p = some ty → ty.IsInteger →
      (SoleTag D p entries ↔ entries.length = 1 ∨
        ¬ ∃ s v, entries.lookup BIGINT_TAG = some (.string s) ∧ ParsesTo ty s v ∧ ty.Holds v)) :=
  ⟨fun _ _ _ h => tagContract_iff h, fun _ _ entries hres hty => soleTag_iff hres hty entries⟩

/-! A tuple with one field, under a name of the ABI's choosing. -/

def boxParam (ty name : String) : Param := ⟨"tuple", "", [⟨ty, name, []⟩]⟩

theorem shown_box {ty name : String} {f : DynSolValue} (hf : f.Scalar) {path : List Step}
    {q : Param} {fields : List DynSolValue}
    (h : Shown q (.tuple fields) path (boxParam ty name) (.tuple [f])) :
    q = boxParam ty name ∧ fields = [f] := by
  have hinner : ∀ {i : Nat} {x : DynSolValue} {c : Param} {path : List Step},
      [f][i]? = some x → ¬ Shown q (.tuple fields) path c x := by
    intro i x c path hx hshown
    have hxf := List.mem_singleton.mp (List.mem_of_getElem? hx)
    subst hxf
    cases hshown with
    | here => exact hf
    | array _ _ => exact hf
    | fixedArray _ _ => exact hf
    | positional _ _ _ _ => exact hf
    | named _ _ _ _ _ => exact hf
  cases h with
  | here => exact ⟨rfl, rfl⟩
  | positional _ _ hx hshown => exact absurd hshown (hinner hx)
  | named _ _ hx _ hshown => exact absurd hshown (hinner hx)

theorem bigint_tag_iff_amount :
    TagContract reference₀ (boxParam "uint256" "amount") (.tuple [.uint 5 256])
      (.object [("amount", bigintTag "5")]) ∧
    SoleTag reference₀ ⟨"uint256", "amount", []⟩ [(BIGINT_TAG, .string "5")] := by
  constructor
  · refine ((bigint_tag_iff reference₀).1 _ _ _ rfl).mpr fun path q fields hshown htagged => ?_
    obtain ⟨rfl, rfl⟩ := shown_box (f := .uint 5 256) trivial hshown
    exact absurd (htagged.2.1 _ List.mem_cons_self) (by decide)
  · have hty : DynSolType.IsInteger (.uint 256) := ⟨by decide, by decide⟩
    exact ((bigint_tag_iff reference₀).2 _ _ _ rfl hty).mpr (Or.inl rfl)

theorem tag_taken_for_more :
    (¬ ∀ (D : Deps) (p : Param) (v : DynSolValue) (j : Value), D.valueToJson p v = .ok j →
      TagContract D p v j) ∧
    ¬ ∀ (D : Deps) (p : Param) (ty : DynSolType) (entries : List (String × Value)),
      D.resolve p = some ty → ty.IsInteger → SoleTag D p entries := by
  constructor
  · intro h
    have hcontract := h reference₀ (boxParam "string" "$bigint") (.tuple [.string "5"])
      (bigintTag "5") rfl
    have hrebuilt : JsValue.bigint "5" = .object [("$bigint", .string "5")] := hcontract.rebuilt
    cases hrebuilt
  · intro h
    obtain ⟨s, hs⟩ := h reference₀ ⟨"uint256", "amount", []⟩ (.uint 256)
      [(BIGINT_TAG, .string "5"), ("unit", .string "wei")] rfl ⟨by decide, by decide⟩
      (.uint 5 256) rfl
    cases congrArg List.length hs

end AmbireCrypto
