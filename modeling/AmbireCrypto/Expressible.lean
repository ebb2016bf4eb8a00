/-
# `AmbireCrypto.Expressible` — the values an argument can have

Soundness says that what coercion makes fits the type; this is the other half.  Under a
parameter whose tuples are described by their components (`Composed`), a value of the
type is what some JSON argument is coerced to exactly when

* every integer in it is inside its declared width,
* every byte word is zero behind its bytes, and
* no function pointer stands in it.

So the JSON syntax reaches every value alloy can encode but those
(`expressible_iff`).

## What it asks of the parameter

The names of the components do not matter, not even whether they are distinct: tuples
are passed as arrays.  What does matter is that there are components.  An inline tuple
type such as `(uint8,bool)` resolves, but the coercion takes it for a scalar type and
refuses whatever it is given, so there no value is expressible at all.

## How

From left to right it is `Coercion`.  From right to left an argument is built by
induction on the parameter: a leaf is passed as the answer would show it
(`scalar_roundtrip`), unless it is a string with a byte order mark in front, which is
passed as it stands although it is never shown that way.
-/
import AmbireCrypto.Reread

namespace AmbireCrypto

open Traverse

/-- Peeled as the code peels it, the type string ends in the name of a scalar type, or
in `tuple` over components of this kind. -/
inductive Composed (D : Deps) : Param → Prop
  | scalar {p : Param} {t : DynSolType} : splitArrayType D.usizeMax p.ty = none →
      p.ty ≠ "tuple" → D.resolve p = some t → t.Scalar → Composed D p
  | tuple {p : Param} : p.ty = "tuple" → (∀ c ∈ p.components, Composed D c) → Composed D p
  | array {p : Param} {base : String} {len : Option Nat} :
      splitArrayType D.usizeMax p.ty = some (base, len) → Composed D (p.element base) →
      Composed D p

namespace Deps

variable {D : Deps}

theorem exists_coerceScalar {t : DynSolType} (hwidths : t.WidthsOk) (ht : t.Scalar)
    {d : DynSolValue} (hmatch : t.Matches d) (hcanon : d.Canonical) (hfun : ∀ f, d ≠ .function f) :
    ∃ j, D.coerceScalar t j = .ok d := by
  have hd := matches_scalar ht hmatch
  by_cases hmarked : d.Marked
  · cases d with
    | string s =>
        cases t with
        | string => exact ⟨.string s, rfl⟩
        | _ => exact hmatch.elim
    | _ => exact hmarked.elim
  · obtain ⟨hwidth, -⟩ := hcanon d .here
    obtain ⟨j, -, hj⟩ := scalar_roundtrip (D := D) hwidths hd hmatch hwidth hfun ⟨"", "", []⟩
    have hnorm : d.norm = d := by
      refine (norm_eq_iff d fun x hx => (hcanon x hx).2).mpr ?_
      exact (DynSolValue.forall_in_scalar_iff hd).mpr hmarked
    exact ⟨j, hnorm ▸ hj⟩

theorem exists_jsonToValue {p : Param} (hp : Composed D p) : ∀ {t : DynSolType} {d : DynSolValue},
    D.resolve p = some t → t.Matches d → d.Canonical → (∀ f, ¬ (DynSolValue.function f).In d) →
    ∃ j, D.jsonToValue p j = .ok d := by
  induction hp with
  | scalar hsplit hty ht hscalar =>
      intro t d ht' hmatch hcanon hfun
      cases ht.symm.trans ht'
      rcases D.resolve_cases ht with ⟨-, hstem⟩ | ⟨base, len, t', hsplit', -⟩
      · obtain ⟨j, hj⟩ := exists_coerceScalar (D := D) (D.stemWith_widths hstem) hscalar hmatch
          hcanon fun f hf => hfun f (hf ▸ .here)
        refine ⟨j, ?_⟩
        rw [jsonToValue_scalar hsplit hty, ht]
        exact hj
      · cases hsplit.symm.trans hsplit'
  | @tuple p hty _ ih =>
      intro t d ht hmatch hcanon hfun
      rcases D.resolve_cases ht with ⟨-, hstem⟩ | ⟨base, len, t', hsplit, -⟩
      · rw [hty] at hstem
        obtain ⟨ts, hts, rfl⟩ := D.stemWith_tuple hstem
        obtain ⟨fields, rfl, hfields⟩ := matches_tuple hmatch
        have hlen : p.components.length = fields.length := hts.length_eq.trans hfields.length_eq
        have hfield : ∀ e ∈ p.components.zip fields, ∃ j, D.jsonToValue e.1 j = .ok e.2 := by
          intro e he
          obtain ⟨i, hi, rfl⟩ := List.mem_iff_getElem.mp he
          rw [List.length_zip, lt_min_iff] at hi
          rw [List.getElem_zip]
          have hit : i < ts.length := hts.length_eq ▸ hi.1
          have hmem : fields[i] ∈ fields := List.getElem_mem hi.2
          exact ih _ (List.getElem_mem hi.1) ((List.forall₂_iff_get.mp hts).2 i hi.1 hit)
            ((List.forall₂_iff_get.mp hfields).2 i hit hi.2) (fun x hx => hcanon x (.tuple hmem hx))
            fun f hf => hfun f (.tuple hmem hf)
        obtain ⟨js, hjlen, hjs⟩ := exists_mapM_zip_eq_ok
          (g := fun e => D.jsonToValue e.1 e.2) hlen hfield
        exact ⟨.array js, (jsonToValue_tuple_eq_ok_iff hty).mpr
          ⟨js, fields, tupleFields_array_eq_ok_iff.mpr ⟨hjlen.symm, rfl⟩, hjs, rfl⟩⟩
      · rw [hty, splitArrayType_tuple] at hsplit
        cases hsplit
  | @array p base len hsplit _ ih =>
      intro t d ht hmatch hcanon hfun
      rcases D.resolve_cases ht with ⟨hnone, -⟩ | ⟨base', len', t', hsplit', -, hbase, rfl⟩
      · cases hsplit.symm.trans hnone
      · cases hsplit.symm.trans hsplit'
        obtain ⟨items, rfl, hlen, hitems⟩ := matches_wrapOne hmatch
        have hitem : ∀ v ∈ items, ∃ j, D.jsonToValue (p.element base) j = .ok v := fun v hv =>
          ih (hbase "") (hitems v hv)
            (fun x hx => hcanon x (.of_child (DynSolValue.child_ofItems len hv) hx))
            fun f hf => hfun f (.of_child (DynSolValue.child_ofItems len hv) hf)
        obtain ⟨js, hjs⟩ := exists_mapM_eq_ok hitem
        refine ⟨.array js, (jsonToValue_array_eq_ok_iff hsplit).mpr
          ⟨js, items, rfl, fun k hk => ?_, hjs, rfl⟩⟩
        rw [length_of_mapM_eq_ok hjs]
        exact hlen k hk

end Deps

/-- The values arguments are coerced to: of the type, canonical, without function
pointers — and all of these. -/
theorem expressible_iff (D : Deps) {p : Param} (hp : Composed D p) {t : DynSolType}
    (ht : D.resolve p = some t) {d : DynSolValue} :
    (∃ j, D.jsonToValue p j = .ok d) ↔
      t.Matches d ∧ d.Canonical ∧ ∀ f, ¬ (DynSolValue.function f).In d := by
  constructor
  · rintro ⟨j, hj⟩
    have hsound := Deps.jsonToValue_matches j ht hj
    refine ⟨hsound.1, hsound.2, fun f hf => ?_⟩
    exact Deps.jsonToValue_not_refused j hj _ hf trivial
  · rintro ⟨hmatch, hcanon, hfun⟩
    exact Deps.exists_jsonToValue hp ht hmatch hcanon hfun

/-! A memo that no answer shows, next to a number of the same name. -/

def twinsParam : Param := ⟨"tuple[]", "notes", [⟨"string", "note", []⟩, ⟨"int16", "note", []⟩]⟩

theorem composed_twins : Composed reference₀ twinsParam := by
  have hmemo : Composed reference₀ ⟨"string", "note", []⟩ :=
    .scalar (t := .string) rfl (by decide) rfl trivial
  have hdelta : Composed reference₀ ⟨"int16", "note", []⟩ :=
    .scalar (t := .int 16) rfl (by decide) rfl trivial
  have hsplit : splitArrayType reference₀.usizeMax twinsParam.ty = some ("tuple", none) := rfl
  refine .array hsplit (.tuple rfl fun c hc => ?_)
  rcases List.mem_cons.mp hc with rfl | hc
  · exact hmemo
  · rw [List.mem_singleton.mp hc]
    exact hdelta

theorem expressible_notes :
    ∃ j, reference₀.jsonToValue twinsParam j = .ok (notesValue "\ufeffpaid") := by
  have hres : reference₀.resolve twinsParam = some (.array (.tuple [.string, .int 16])) := rfl
  have hmatch : (DynSolType.array (.tuple [.string, .int 16])).Matches (notesValue "\ufeffpaid") := by
    intro v hv
    rw [List.mem_singleton.mp hv]
    exact ⟨trivial, rfl, trivial⟩
  -- the only leaves are the memo and the delta
  have hin : ∀ {P : DynSolValue → Prop}, (∀ items, P (.array items)) → (∀ fields, P (.tuple fields)) →
      P (.string "\ufeffpaid") → P (.int (-5) 16) →
      ∀ x : DynSolValue, x.In (notesValue "\ufeffpaid") → P x := by
    intro P harray htuple hmemo hdelta
    refine (DynSolValue.forall_in_ofItems_iff none).mpr ⟨harray _, fun v hv => ?_⟩
    rw [List.mem_singleton.mp hv]
    refine DynSolValue.forall_in_tuple_iff.mpr ⟨htuple _, fun f hf => ?_⟩
    rcases List.mem_cons.mp hf with rfl | hf
    · exact (DynSolValue.forall_in_scalar_iff (v := .string "\ufeffpaid") trivial).mpr hmemo
    · rw [List.mem_singleton.mp hf]
      exact (DynSolValue.forall_in_scalar_iff (v := .int (-5) 16) trivial).mpr hdelta
  refine (expressible_iff reference₀ composed_twins hres).mpr ⟨hmatch, ?_, ?_⟩
  · exact hin (fun _ => ⟨trivial, trivial⟩) (fun _ => ⟨trivial, trivial⟩) ⟨trivial, trivial⟩
      ⟨⟨by decide, by decide⟩, trivial⟩
  · intro f hf
    exact hin (P := fun x => x ≠ .function f) nofun nofun nofun nofun _ hf rfl

end AmbireCrypto
