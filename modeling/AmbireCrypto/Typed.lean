/-
# `AmbireCrypto.Typed` — the values of a parameter

alloy says what a value's type is by resolving the parameter and comparing the two
trees.  The code never does: it peels the type string and looks at the components.
`Typed` says the same thing the way the code sees it, one constructor for each way
`jsonToValue` can go, so that what is proved about both directions of the conversion can
be proved by induction on it.

For parameters that are `Built`, a value of the resolved type is typed
(`Typed.of_matches`).  That is all that later modules ask, since both sources of values
give values of the resolved type: arguments that were accepted, by soundness
(`Coercion`), and return data that was decoded, because alloy makes values of the types
it was given (`detokenize_matches`, `Decoding.typed`).

Where only the components are of interest, and not the names, `Described` is enough for
the shape (`Decoding.shaped`).
-/
import AmbireCrypto.RoundTrip
import AmbireCrypto.ReturnData

namespace AmbireCrypto

open Traverse

/-- `d` is a value of the type that `p` describes. -/
inductive Typed (D : Deps) : Param → DynSolValue → Prop
  | scalar {p : Param} {t : DynSolType} {d : DynSolValue} :
      splitArrayType D.usizeMax p.ty = none → p.ty ≠ "tuple" → D.resolve p = some t →
      t.WidthsOk → t.Scalar → t.Matches d → Typed D p d
  | tuple {p : Param} {fields : List DynSolValue} :
      p.ty = "tuple" → (allNamed p.components = true → (p.components.map Param.name).Nodup) →
      p.components.length = fields.length →
      (∀ (i : Nat) (hc : i < p.components.length) (hf : i < fields.length),
        Typed D p.components[i] fields[i]) →
      Typed D p (.tuple fields)
  | array {p : Param} {base : String} {len : Option Nat} {items : List DynSolValue} :
      splitArrayType D.usizeMax p.ty = some (base, len) →
      (∀ k, len = some k → items.length = k) →
      (∀ v ∈ items, Typed D (p.element base) v) →
      Typed D p (.ofItems items len)

namespace Typed

variable {D : Deps}

theorem of_matches (d : DynSolValue) : ∀ {p : Param} {t : DynSolType},
    Built D.toTypeGrammar p → D.resolve p = some t → t.Matches d → Typed D p d := by
  induction d using DynSolValue.childInduction with
  | step d ih =>
      intro p t hp ht hmatch
      rcases D.resolve_cases ht with ⟨hsplit, hstem⟩ | ⟨base, len, t', hsplit, -, hbase, rfl⟩
      · rcases hp.unsplit hsplit with ⟨t', hty, hstem', hscalar⟩ | ⟨hty, hnames, hbuilt⟩
        · rw [hstem] at hstem'
          cases hstem'
          exact .scalar hsplit hty ht (D.stemWith_widths hstem) hscalar hmatch
        · rw [hty] at hstem
          obtain ⟨ts, hts, rfl⟩ := D.stemWith_tuple hstem
          obtain ⟨fields, rfl, hfields⟩ := matches_tuple hmatch
          refine .tuple hty hnames (hts.length_eq.trans hfields.length_eq) fun i hc hf => ?_
          have hit : i < ts.length := hts.length_eq ▸ hc
          exact ih _ (.tuple (List.getElem_mem hf)) (hbuilt _ (List.getElem_mem hc))
            ((List.forall₂_iff_get.mp hts).2 i hc hit)
            ((List.forall₂_iff_get.mp hfields).2 i hit hf)
      · obtain ⟨items, rfl, hlen, hitems⟩ := matches_wrapOne hmatch
        refine .array hsplit hlen fun v hv => ?_
        exact ih v (DynSolValue.child_ofItems len hv) (hp.element hsplit) (hbase "") (hitems v hv)

theorem shaped {p : Param} {d : DynSolValue} (h : Typed D p d) : Shaped p.components d := by
  induction h with
  | scalar _ _ _ _ hscalar hmatch => exact .scalar (matches_scalar hscalar hmatch)
  | tuple _ _ hlen _ ih =>
      refine .tuple hlen fun e he => ?_
      obtain ⟨i, hi, rfl⟩ := List.mem_iff_getElem.mp he
      rw [List.length_zip, lt_min_iff] at hi
      rw [List.getElem_zip]
      exact ih i hi.1 hi.2
  | array _ _ _ ih => exact (shaped_ofItems_iff _).mpr ih

end Typed

/-! ## Decoded values -/

section Detokenize

variable {lossy : List UInt8 → String}

theorem forall_of_detokenizeEach {t : DynSolType} {P : DynSolValue → Prop}
    (hP : ∀ token v, detokenize lossy token t = some v → P v) :
    ∀ {tokens : List DynToken} {values : List DynSolValue},
      detokenizeEach lossy tokens t = some values →
      values.length = tokens.length ∧ ∀ v ∈ values, P v
  | [], _, h => by
      cases h
      exact ⟨rfl, fun v hv => absurd hv List.not_mem_nil⟩
  | token :: tokens, _, h => by
      obtain ⟨v, hv, h⟩ := Option.bind_eq_some_iff.mp h
      obtain ⟨vs, hvs, rfl⟩ := Option.map_eq_some_iff.mp h
      obtain ⟨hlen, hall⟩ := forall_of_detokenizeEach hP hvs
      refine ⟨congrArg (· + 1) hlen, fun x hx => ?_⟩
      rcases List.mem_cons.mp hx with rfl | hx
      · exact hP token x hv
      · exact hall x hx

theorem forall₂_of_detokenizeMany {P : DynSolType → DynSolValue → Prop} :
    ∀ {tokens : List DynToken} {types : List DynSolType} {values : List DynSolValue},
      (∀ t ∈ types, ∀ token v, detokenize lossy token t = some v → P t v) →
      detokenizeMany lossy tokens types = some values → List.Forall₂ P types values
  | [], [], _, _, h => by
      cases h
      exact .nil
  | [], _ :: _, _, _, h => by cases h
  | _ :: _, [], _, _, h => by cases h
  | token :: tokens, t :: types, _, hP, h => by
      obtain ⟨v, hv, h⟩ := Option.bind_eq_some_iff.mp h
      obtain ⟨vs, hvs, rfl⟩ := Option.map_eq_some_iff.mp h
      exact .cons (hP t List.mem_cons_self token v hv)
        (forall₂_of_detokenizeMany (fun t ht => hP t (List.mem_cons_of_mem _ ht)) hvs)

/-- alloy makes values of the types it was given. -/
theorem detokenize_matches (t : DynSolType) : ∀ {token : DynToken} {v : DynSolValue},
    detokenize lossy token t = some v → t.Matches v := by
  induction t with
  | array t ih =>
      intro token v h
      cases token with
      | dynSeq tokens =>
          obtain ⟨vs, hvs, rfl⟩ := Option.map_eq_some_iff.mp h
          exact (forall_of_detokenizeEach (fun token v => ih) hvs).2
      | _ => cases h
  | fixedArray t size ih =>
      intro token v h
      cases token with
      | fixedSeq tokens =>
          rw [detokenize] at h
          split at h
          · rename_i hlen
            obtain ⟨vs, hvs, rfl⟩ := Option.map_eq_some_iff.mp h
            obtain ⟨hvlen, hall⟩ := forall_of_detokenizeEach (fun token v => ih) hvs
            exact ⟨hvlen.trans hlen, hall⟩
          · cases h
      | _ => cases h
  | tuple ts ih =>
      intro token v h
      cases token with
      | fixedSeq tokens =>
          obtain ⟨vs, hvs, rfl⟩ := Option.map_eq_some_iff.mp h
          exact matchesAll_iff.mpr (forall₂_of_detokenizeMany (fun t ht token v => ih t ht) hvs)
      | _ => cases h
  | _ =>
      intro token v h
      cases token with
      | word w => cases h <;> trivial
      | packed b => cases h <;> trivial
      | _ => cases h

end Detokenize

namespace Decoding

variable {D : Deps} {abiJson functionName dataHex : String}

theorem matches_outputs (r : Decoding D abiJson functionName dataHex) :
    ∀ e ∈ r.func.outputs.zip r.values, ∃ t, D.resolve e.1 = some t ∧ t.Matches e.2 := by
  intro e he
  obtain ⟨i, hi, rfl⟩ := List.mem_iff_getElem.mp he
  rw [List.length_zip, lt_min_iff] at hi
  rw [List.getElem_zip]
  have hit : i < r.types.length := r.resolved.length_eq ▸ hi.1
  have hmatch := forall₂_of_detokenizeMany (fun t _ token v => detokenize_matches t) r.made
  exact ⟨r.types[i], (List.forall₂_iff_get.mp r.resolved).2 i hi.1 hit,
    (List.forall₂_iff_get.mp hmatch).2 i hit hi.2⟩

theorem typed (r : Decoding D abiJson functionName dataHex)
    (hbuilt : ∀ p ∈ r.func.outputs, Built D.toTypeGrammar p) :
    ∀ e ∈ r.func.outputs.zip r.values, Typed D e.1 e.2 := by
  intro e he
  obtain ⟨t, ht, hmatch⟩ := r.matches_outputs e he
  exact .of_matches _ (hbuilt _ (List.of_mem_zip he).1) ht hmatch

theorem shaped (r : Decoding D abiJson functionName dataHex)
    (hdescribed : ∀ p ∈ r.func.outputs, ∀ t, D.resolve p = some t → Described p.components t) :
    ∀ e ∈ r.func.outputs.zip r.values, Shaped e.1.components e.2 := by
  intro e he
  obtain ⟨t, ht, hmatch⟩ := r.matches_outputs e he
  exact shaped_of_matches (hdescribed _ (List.of_mem_zip he).1 t ht) hmatch

end Decoding

end AmbireCrypto
