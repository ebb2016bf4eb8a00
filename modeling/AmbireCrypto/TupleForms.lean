/-
# `AmbireCrypto.TupleForms` — objects and positional arrays

A tuple argument may be an object keyed by component name or an array in ABI
order, at every depth and in any mixture.  `Rewrites` is the change from one form
to the other, typed by the parameter: an object at a tuple may become the array of
its values, inside arrays, fixed arrays and other tuples alike.  Rewriting
changes nothing, errors included (`tuple_forms`).

One place has two types: a key that several components of one tuple share is
read by each of them.  `typing` says which of them a rewriting there has to be
right for.  For every one of them, the rewriting is harmless; for the first one
only, as the words "a position that the parameter types as a tuple" would have
it, it is not (`first_reader_not_enough`).

The induction is on the rewriting, not on the JSON: `Rewrites` recurses into children
that are rewritten under a parameter of their own, which is what `jsonToValue` reads
them by.  Where names are distinct there is one reader for each key, and both
typings are the same.
-/
import AmbireCrypto.Coercion

namespace AmbireCrypto

open Traverse

/-! ## Changing the form -/

/-- `j'` is `j` with some of its tuples given by position instead of by name. -/
inductive Rewrites (D : Deps) (typing : List Param → Param → Prop) : Param → Value → Value → Prop
  | same {p : Param} {j : Value} : Rewrites D typing p j j
  /-- Inside the items of an array. -/
  | items {p : Param} {base : String} {len : Option Nat} {js js' : List Value} :
      splitArrayType D.usizeMax p.ty = some (base, len) → js.length = js'.length →
      (∀ (i : Nat) (hi : i < js.length) (hi' : i < js'.length),
        Rewrites D typing (p.element base) js[i] js'[i]) →
      Rewrites D typing p (.array js) (.array js')
  /-- Inside the fields of a positional tuple. -/
  | positional {p : Param} {js js' : List Value} :
      p.ty = "tuple" → js.length = js'.length →
      (∀ (i : Nat) (hc : i < p.components.length) (hi : i < js.length) (hi' : i < js'.length),
        Rewrites D typing p.components[i] js[i] js'[i]) →
      Rewrites D typing p (.array js) (.array js')
  /-- Inside the fields of an object, which may also change the order of its keys
  and every key that names no component. -/
  | object {p : Param} {es es' : List (String × Value)} :
      p.ty = "tuple" →
      (∀ c ∈ p.components, (es.lookup c.name).isSome = (es'.lookup c.name).isSome) →
      (∀ c ∈ p.components, typing p.components c → ∀ x x', es.lookup c.name = some x →
        es'.lookup c.name = some x' → Rewrites D typing c x x') →
      Rewrites D typing p (.object es) (.object es')
  /-- An object with a key for every component becomes the array of its values. -/
  | toPositional {p : Param} {es : List (String × Value)} {js : List Value} :
      p.ty = "tuple" → js.length = p.components.length →
      (∀ c ∈ p.components, (es.lookup c.name).isSome = true) →
      (∀ (i : Nat) (hc : i < p.components.length) (hi : i < js.length) (x : Value),
        es.lookup p.components[i].name = some x →
        Rewrites D typing p.components[i] x js[i]) →
      Rewrites D typing p (.object es) (.array js)

/-- A shared key has to be rewritten rightly for each of its readers. -/
def everyReader (_ : List Param) (_ : Param) : Prop := True

/-- A shared key is rewritten as its first reader types it. -/
def firstReader (components : List Param) (c : Param) : Prop :=
  ∃ before after, components = before ++ c :: after ∧ ∀ b ∈ before, b.name ≠ c.name

/-! ## What changes nothing -/

namespace Deps

variable {D : Deps}

theorem coerceArgs_congr {components : List Param} {js js' : List Value}
    (hlen : js.length = js'.length)
    (h : ∀ (i : Nat) (hc : i < components.length) (hi : i < js.length) (hi' : i < js'.length),
      D.jsonToValue components[i] js[i] = D.jsonToValue components[i] js'[i]) :
    D.coerceArgs components js = D.coerceArgs components js' := by
  refine mapM_eq_of_forall₂ (List.forall₂_iff_get.mpr ⟨?_, fun i hi hi' => ?_⟩)
  · rw [List.length_zip, List.length_zip, hlen]
  · rw [List.length_zip, Nat.lt_min] at hi hi'
    simp only [List.get_eq_getElem, List.getElem_zip]
    exact h i hi.1 hi.2 hi'.2

/-- The object and the array of its values are read field by field alike. -/
theorem mapM_lookupToValue_eq {components : List Param} {es : List (String × Value)}
    {js : List Value} (hlen : js.length = components.length)
    (hkeys : ∀ c ∈ components, (es.lookup c.name).isSome = true)
    (h : ∀ (i : Nat) (hc : i < components.length) (hi : i < js.length) (x : Value),
      es.lookup components[i].name = some x →
      D.jsonToValue components[i] x = D.jsonToValue components[i] js[i]) :
    components.mapM (D.lookupToValue es) = D.coerceArgs components js := by
  refine mapM_eq_of_forall₂ (List.forall₂_iff_get.mpr ⟨?_, fun i hc hi => ?_⟩)
  · rw [List.length_zip, hlen, Nat.min_self]
  · rw [List.length_zip, Nat.lt_min] at hi
    simp only [List.get_eq_getElem, List.getElem_zip]
    obtain ⟨x, hx⟩ := Option.isSome_iff_exists.mp (hkeys _ (List.getElem_mem hc))
    rw [lookupToValue, hx]
    exact h i hc hi.2 x hx

theorem jsonToValue_of_rewrites {p : Param} {j j' : Value}
    (h : Rewrites D everyReader p j j') : D.jsonToValue p j = D.jsonToValue p j' := by
  induction h with
  | same => rfl
  | items hsplit hlen _ ih =>
      rw [jsonToValue_array hsplit, jsonToValue_array hsplit, hlen]
      congr 1
      funext _
      rw [mapM_eq_of_forall₂ (List.forall₂_iff_get.mpr ⟨hlen, fun i hi hi' => ih i hi hi'⟩)]
  | positional hty hlen _ ih =>
      rw [jsonToValue_positional hty, jsonToValue_positional hty, hlen,
        coerceArgs_congr hlen fun i hc hi hi' => ih i hc hi hi']
  | @object p es es' hty hkeys _ ih =>
      rw [jsonToValue_object hty, jsonToValue_object hty]
      refine congrArg _ (mapM_congr fun c hc => ?_)
      have hsome := hkeys c hc
      simp only [lookupToValue]
      cases hx : es.lookup c.name with
      | none =>
          have hx' : es'.lookup c.name = none := by
            rw [hx] at hsome
            exact Option.not_isSome_iff_eq_none.mp (by rw [← hsome]; exact Bool.false_ne_true)
          rw [hx']
      | some x =>
          rw [hx] at hsome
          obtain ⟨x', hx'⟩ := Option.isSome_iff_exists.mp hsome.symm
          rw [hx']
          exact ih c hc trivial x x' hx hx'
  | toPositional hty hlen hkeys _ ih =>
      rw [jsonToValue_object hty, jsonToValue_positional hty, if_neg (not_not.mpr hlen),
        mapM_lookupToValue_eq hlen hkeys fun i hc hi x hx => ih i hc hi x hx]

end Deps

/-- Tuples may be given by name or by position, in any mixture: the argument and
the calldata stay the same, whatever the order of an object's keys and whatever
else it holds. -/
theorem tuple_forms (D : Deps) :
    (∀ (p : Param) (j j' : Value), Rewrites D everyReader p j j' →
      D.jsonToValue p j = D.jsonToValue p j') ∧
    (∀ (p : Param) (es es' : List (String × Value)), p.ty = "tuple" →
      (∀ c ∈ p.components, es.lookup c.name = es'.lookup c.name) →
      D.jsonToValue p (.object es) = D.jsonToValue p (.object es')) ∧
    ∀ (func : Function) (args args' : List Value), args.length = args'.length →
      (∀ (i : Nat) (hp : i < func.inputs.length) (hi : i < args.length) (hi' : i < args'.length),
        Rewrites D everyReader func.inputs[i] args[i] args'[i]) →
      D.encodeArgs func (.array args) = D.encodeArgs func (.array args') := by
  refine ⟨?_, ?_, ?_⟩
  · intro p j j' h
    exact Deps.jsonToValue_of_rewrites h
  · intro p es es' hty h
    refine Deps.jsonToValue_of_rewrites (.object hty (fun c hc => by rw [h c hc]) ?_)
    intro c hc _ x x' hx hx'
    rw [h c hc, hx'] at hx
    cases hx
    exact .same
  · intro func args args' hlen h
    have hargs : D.coerceArgs func.inputs args = D.coerceArgs func.inputs args' :=
      Deps.coerceArgs_congr hlen fun i hp hi hi' => Deps.jsonToValue_of_rewrites (h i hp hi hi')
    simp only [Deps.encodeArgs, Value.asArray, hlen, hargs]

def pointParam (x y : String) : Param := ⟨"tuple", "a", [⟨"uint8", x, []⟩, ⟨"uint8", y, []⟩]⟩

def pointsParam : Param := ⟨"tuple[]", "points", (pointParam "x" "y").components⟩

theorem rewrites_point (typing : List Param → Param → Prop) {p : Param} (hty : p.ty = "tuple")
    (hp : p.components = (pointParam "x" "y").components) :
    Rewrites reference₀ typing p (.object [("x", digit 1), ("y", digit 2)])
      (.array [digit 1, digit 2]) := by
  refine .toPositional hty (by rw [hp]; rfl) ?_ ?_
  · rw [hp]
    intro c hc
    rcases List.mem_cons.mp hc with rfl | hc
    · rfl
    · rw [List.mem_singleton.mp hc]
      rfl
  · simp only [hp]
    intro i hc hi x hx
    match i, hc, hi with
    | 0, _, _ =>
        cases hx
        exact .same
    | 1, _, _ =>
        cases hx
        exact .same

theorem tuple_forms_points :
    reference₀.jsonToValue pointsParam
        (.array [.object [("x", digit 1), ("y", digit 2)], .array [digit 2, digit 1]]) =
      reference₀.jsonToValue pointsParam
        (.array [.array [digit 1, digit 2], .array [digit 2, digit 1]]) := by
  refine (tuple_forms reference₀).1 _ _ _ (.items rfl rfl fun i hi hi' => ?_)
  match i, hi, hi' with
  | 0, _, _ => exact rewrites_point everyReader rfl rfl
  | 1, _, _ => exact .same

/-- Two components called `a` read one key in two ways. -/
def sharedParam : Param := ⟨"tuple", "", [pointParam "x" "y", pointParam "y" "x"]⟩

theorem first_reader_not_enough :
    ¬ ∀ (D : Deps) (p : Param) (j j' : Value), Rewrites D firstReader p j j' →
      ∀ d, D.jsonToValue p j = .ok d ↔ D.jsonToValue p j' = .ok d := by
  intro h
  have hrewrites : Rewrites reference₀ firstReader sharedParam
      (.object [("a", .object [("x", digit 1), ("y", digit 2)])])
      (.object [("a", .array [digit 1, digit 2])]) := by
    refine .object rfl ?_ ?_
    · intro c hc
      rcases List.mem_cons.mp hc with rfl | hc
      · rfl
      · rw [List.mem_singleton.mp hc]
        rfl
    · rintro c hc ⟨before, after, hsplit, hbefore⟩ x x' hx hx'
      cases before with
      | nil =>
          obtain ⟨rfl, -⟩ := List.cons.inj hsplit
          cases hx
          cases hx'
          exact rewrites_point firstReader rfl rfl
      | cons b before =>
          obtain ⟨rfl, htail⟩ := List.cons.inj hsplit
          refine absurd ?_ (hbefore _ List.mem_cons_self)
          have hmem : c ∈ [pointParam "y" "x"] := htail ▸ List.mem_append_right _ List.mem_cons_self
          rw [List.mem_singleton.mp hmem]
          rfl
  have heq := (h _ _ _ _ hrewrites
    (.tuple [.tuple [.uint 1 8, .uint 2 8], .tuple [.uint 2 8, .uint 1 8]])).mp rfl
  injection heq with heq
  injection heq with heq
  injection heq with _ heq
  injection heq with heq _
  injection heq with heq
  injection heq with heq _
  injection heq with heq _
  exact absurd heq (by decide)

end AmbireCrypto
