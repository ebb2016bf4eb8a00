/-
# `AmbireCrypto.Refusals` — which error is reported

A call stops at its first error and hands that one to JavaScript, so of several
mistakes in the arguments one is named.  Both conversions are compared with a list of
the places they look at, in reading order: the error reported is the one of the first
place that is refused by itself, whatever stands behind it, and there is none exactly
when no place is refused.

An object is read in the order of the components, not of its keys.

## What is proved

* `encode_reports_first`, for arguments.  `places` lists an argument before what is
  below it, and `ownRefusal` is what a place is refused with, given that what is below
  it is not looked at.
* `decode_reports_first`, for return data.  Here only the leaves can be refused, so the
  list is that of the leaves.

Both are one induction over the conversion, in the form `refused`: the error of a
result, if there is one.  A loop over the children reports what the first refused place
below them says (`refused_mapM_eq`), so the recursion and the list go hand in hand.

## The hypotheses

The calls have come as far as the conversion: the function was found, its inputs
resolve and the arguments are as many, or the data was decoded.  What is decoded has to
fit the components (`Described`), or a tuple would be refused before its leaves; an
inline tuple type, which has no components, is such a case.
-/
import AmbireCrypto.Answers

namespace AmbireCrypto

open Traverse

/-! ## The places an argument is read at -/

/-- A value under the parameter it is read by, or a component without a key. -/
inductive Place
  | value (p : Param) (v : Value)
  | missing (component : Param)

namespace Deps

variable (D : Deps)

mutual
def places (p : Param) (v : Value) : List Place :=
  .value p v ::
    match splitArrayType D.usizeMax p.ty with
    | some (base, _) =>
        match v with
        | .array items => itemPlaces (p.element base) items
        | _ => []
    | none =>
        if p.ty = "tuple" then
          match v with
          | .object entries => p.components.flatMap fun c => entryPlaces c entries
          | .array items => fieldPlaces p.components items
          | _ => []
        else []
def itemPlaces (element : Param) (items : List Value) : List Place :=
  match items with
  | [] => []
  | item :: items => places element item ++ itemPlaces element items
def fieldPlaces (components : List Param) (items : List Value) : List Place :=
  match items with
  | [] => []
  | item :: items =>
      match components with
      | [] => []
      | component :: components => places component item ++ fieldPlaces components items
def entryPlaces (component : Param) (entries : List (String × Value)) : List Place :=
  match entries with
  | [] => [.missing component]
  | e :: entries =>
      if component.name = e.1 then places component e.2 else entryPlaces component entries
end

/-- What is wrong with a value itself, whatever stands inside it. -/
def ownRefusal (p : Param) (v : Value) : Option AbiError :=
  match splitArrayType D.usizeMax p.ty with
  | some (_, len) =>
      match v with
      | .array items => refused (checkLength p.ty len items.length)
      | _ => some (.invalidArgument ("expected an array for " ++ p.ty))
  | none =>
      if p.ty = "tuple" then
        match v with
        | .object _ => none
        | .array items =>
            if items.length ≠ p.components.length then
              some (arityMismatch "tuple fields" p.components.length items.length)
            else none
        | _ => some (.invalidArgument "expected an object or array for a tuple")
      else
        match D.resolve p with
        | none => some (.unsupportedType (p.ty ++ ": " ++ D.resolveErrorText p))
        | some t => refused (D.coerceScalar t v)

def refusal : Place → Option AbiError
  | .value p v => D.ownRefusal p v
  | .missing component => some (missingField component)

/-! ## The loops, put back -/

theorem itemPlaces_eq (element : Param) : ∀ items : List Value,
    D.itemPlaces element items = items.flatMap (D.places element)
  | [] => rfl
  | item :: items => by rw [itemPlaces, itemPlaces_eq element items, List.flatMap_cons]

theorem fieldPlaces_eq : ∀ (components : List Param) (items : List Value),
    D.fieldPlaces components items = (components.zip items).flatMap fun e => D.places e.1 e.2
  | [], [] => rfl
  | [], _ :: _ => rfl
  | _ :: _, [] => rfl
  | component :: components, item :: items => by
      rw [fieldPlaces, fieldPlaces_eq components items, List.zip_cons_cons, List.flatMap_cons]

/-- The places a component is read at in an object. -/
def lookupPlaces (entries : List (String × Value)) (component : Param) : List Place :=
  match entries.lookup component.name with
  | none => [.missing component]
  | some field => D.places component field

theorem entryPlaces_eq (component : Param) : ∀ entries : List (String × Value),
    D.entryPlaces component entries = D.lookupPlaces entries component
  | [] => rfl
  | e :: entries => by
      rw [entryPlaces, entryPlaces_eq component entries, lookupPlaces, lookupPlaces,
        SortedMap.lookup_cons_ite]
      split <;> rfl

variable {D} {p : Param} {base : String} {len : Option Nat}

theorem places_array (h : splitArrayType D.usizeMax p.ty = some (base, len)) (items : List Value) :
    D.places p (.array items) =
      .value p (.array items) :: items.flatMap (D.places (p.element base)) := by
  rw [places, h, ← itemPlaces_eq]

theorem places_object (h : p.ty = "tuple") (entries : List (String × Value)) :
    D.places p (.object entries) =
      .value p (.object entries) :: p.components.flatMap (D.lookupPlaces entries) := by
  rw [places, h, splitArrayType_tuple]
  simp only [↓reduceIte, entryPlaces_eq]

theorem places_positional (h : p.ty = "tuple") (items : List Value) :
    D.places p (.array items) =
      .value p (.array items) :: (p.components.zip items).flatMap fun e => D.places e.1 e.2 := by
  rw [places, h, splitArrayType_tuple, ← fieldPlaces_eq]
  rfl

theorem places_scalar (hsplit : splitArrayType D.usizeMax p.ty = none) (h : p.ty ≠ "tuple")
    (v : Value) : D.places p v = [.value p v] := by
  unfold places
  rw [hsplit]
  simp only [if_neg h]

/-- A place refused by itself hides what is below it. -/
theorem findSome?_places_of_refused {v : Value} {e : AbiError}
    (h : D.ownRefusal p v = some e) : (D.places p v).findSome? D.refusal = some e := by
  unfold places
  rw [findSome?_cons_eq_or, refusal, h]
  rfl

/-! ## The first of them -/

theorem refused_lookupToValue {entries : List (String × Value)} {component : Param}
    (h : ∀ field, entries.lookup component.name = some field →
      refused (D.jsonToValue component field) = (D.places component field).findSome? D.refusal) :
    refused (D.lookupToValue entries component) =
      (D.lookupPlaces entries component).findSome? D.refusal := by
  unfold lookupToValue lookupPlaces
  cases hfield : entries.lookup component.name with
  | none => rfl
  | some field => exact h field hfield

/-- An argument is refused with what its first refused place says. -/
theorem refused_jsonToValue (v : Value) : ∀ p : Param,
    refused (D.jsonToValue p v) = (D.places p v).findSome? D.refusal := by
  induction v using Value.childInduction with
  | step v ih =>
      intro p
      cases hsplit : splitArrayType D.usizeMax p.ty with
      | some s =>
          obtain ⟨base, len⟩ := s
          cases v with
          | array items =>
              have hown : D.ownRefusal p (.array items) =
                  refused (checkLength p.ty len items.length) := by
                unfold ownRefusal
                rw [hsplit]
              rw [jsonToValue_array hsplit, refused_seq, refused_map, places_array hsplit,
                findSome?_cons_eq_or, refusal, hown,
                refused_mapM_eq fun item hitem => ih item (.item hitem) (p.element base)]
          | _ =>
              rw [jsonToValue_not_array hsplit rfl, findSome?_places_of_refused]
              · rfl
              · unfold ownRefusal
                rw [hsplit]
      | none =>
          by_cases hty : p.ty = "tuple"
          · cases v with
            | object entries =>
                have hown : D.ownRefusal p (.object entries) = none := by
                  unfold ownRefusal
                  rw [hsplit]
                  exact if_pos hty
                rw [jsonToValue_object hty, refused_map, places_object hty, findSome?_cons_eq_or,
                  refusal, hown, Option.none_or]
                refine refused_mapM_eq fun c _ => refused_lookupToValue fun field hfield => ?_
                obtain ⟨l₁, l₂, heq, -⟩ := List.lookup_eq_some_iff.mp hfield
                exact ih field (.entry (heq ▸ List.mem_append_right l₁ List.mem_cons_self)) c
            | array items =>
                have hown : D.ownRefusal p (.array items) =
                    if items.length ≠ p.components.length then
                      some (arityMismatch "tuple fields" p.components.length items.length)
                    else none := by
                  unfold ownRefusal
                  rw [hsplit]
                  exact if_pos hty
                rw [jsonToValue_positional hty, places_positional hty, findSome?_cons_eq_or,
                  refusal, hown]
                split
                · rfl
                · rw [refused_map, Option.none_or]
                  exact refused_mapM_eq fun e he => ih e.2 (.item (List.of_mem_zip he).2) e.1
            | _ =>
                rw [jsonToValue_not_tuple hty rfl rfl, findSome?_places_of_refused]
                · rfl
                · unfold ownRefusal
                  rw [hsplit]
                  exact if_pos hty
          · rw [jsonToValue_scalar hsplit hty, places_scalar hsplit hty, findSome?_cons_eq_or,
              List.findSome?_nil, Option.or_none, refusal]
            unfold ownRefusal
            rw [hsplit]
            simp only [if_neg hty]
            cases D.resolve p <;> rfl

theorem refused_coerceArgs (inputs : List Param) (args : List Value) :
    refused (D.coerceArgs inputs args) =
      ((inputs.zip args).flatMap fun e => D.places e.1 e.2).findSome? D.refusal :=
  refused_mapM_eq fun e _ => refused_jsonToValue e.2 e.1

end Deps

/-! ## The leaves an answer is made of -/

namespace DynSolValue

mutual
/-- The scalars of a value, in reading order. -/
def leaves (v : DynSolValue) : List DynSolValue :=
  match v with
  | .array items => leavesAll items
  | .fixedArray items => leavesAll items
  | .tuple fields => leavesAll fields
  | leaf => [leaf]
def leavesAll (vs : List DynSolValue) : List DynSolValue :=
  match vs with
  | [] => []
  | v :: vs => v.leaves ++ leavesAll vs
end

theorem leavesAll_eq : ∀ vs : List DynSolValue, leavesAll vs = vs.flatMap leaves
  | [] => rfl
  | v :: vs => by rw [leavesAll, leavesAll_eq vs, List.flatMap_cons]

theorem leaves_ofItems (items : List DynSolValue) (len : Option Nat) :
    (ofItems items len).leaves = items.flatMap leaves := by
  cases len with
  | none => rw [ofItems, leaves, leavesAll_eq]
  | some k => rw [ofItems, leaves, leavesAll_eq]

theorem leaves_tuple (fields : List DynSolValue) :
    (DynSolValue.tuple fields).leaves = fields.flatMap leaves := by
  rw [leaves, leavesAll_eq]

theorem leaves_scalar {v : DynSolValue} (hv : v.Scalar) : v.leaves = [v] := by
  cases v with
  | array _ => exact hv.elim
  | fixedArray _ => exact hv.elim
  | tuple _ => exact hv.elim
  | _ => rw [leaves] <;> nofun

end DynSolValue

namespace Deps

variable (D : Deps)

/-- What a scalar is refused with. -/
def leafRefusal : DynSolValue → Option AbiError
  | .uint u size => refused (intToJson u.toNat.repr size)
  | .int i size => refused (intToJson i.toInt.repr size)
  | .function f => some (.unsupportedType (D.debugValue (.function f)))
  | _ => none

variable {D}

theorem refused_scalar {p : Param} {v : DynSolValue} (hv : v.Scalar) :
    refused (D.valueToJson p v) = D.leafRefusal v := by
  cases v with
  | array _ => exact hv.elim
  | fixedArray _ => exact hv.elim
  | tuple _ => exact hv.elim
  | _ => rfl

theorem leafRefusal_eq_none {v : DynSolValue} : D.leafRefusal v = none ↔ ¬ v.Refused := by
  cases v with
  | uint u size => exact refused_eq_none.trans (intToJson_ok_iff (v := u.toNat))
  | int i size => exact refused_eq_none.trans intToJson_ok_iff
  | function f => exact ⟨nofun, fun h => absurd trivial h⟩
  | _ => exact ⟨fun _ => id, fun _ => rfl⟩

theorem flatMap_snd_zip {components : List Param} {fields : List DynSolValue}
    (hlen : components.length = fields.length) :
    ((components.zip fields).flatMap fun e => e.2.leaves) = fields.flatMap DynSolValue.leaves := by
  have hsnd : (components.zip fields).map Prod.snd = fields := List.map_snd_zip hlen.ge
  calc (components.zip fields).flatMap (fun e => e.2.leaves)
      = ((components.zip fields).map Prod.snd).flatMap DynSolValue.leaves := by
        rw [List.flatMap_map]
    _ = fields.flatMap DynSolValue.leaves := by rw [hsnd]

/-- Under components that fit, a value is refused with what its first refused leaf
says. -/
theorem refused_valueToJson (v : DynSolValue) : ∀ {p : Param}, Shaped p.components v →
    refused (D.valueToJson p v) = v.leaves.findSome? D.leafRefusal := by
  induction v using DynSolValue.nodeInduction with
  | scalar v hv =>
      intro p _
      rw [refused_scalar hv, DynSolValue.leaves_scalar hv, findSome?_cons_eq_or, List.findSome?_nil,
        Option.or_none]
  | items items len ih =>
      intro p hshape
      rw [valueToJson_ofItems, refused_map, DynSolValue.leaves_ofItems]
      exact refused_mapM_eq fun v hv => ih v hv ((shaped_ofItems_iff len).mp hshape v hv)
  | tuple fields ih =>
      intro p hshape
      cases hshape with
      | scalar hs => exact hs.elim
      | tuple hlen hs =>
          rw [valueToJson_tuple, tupleToJson, if_neg (not_not.mpr hlen), refused_map,
            DynSolValue.leaves_tuple, ← flatMap_snd_zip hlen]
          exact refused_mapM_eq fun e he => ih e.2 (List.of_mem_zip he).2 (hs e he)

end Deps

/-! ## The calls -/

/-- Arguments of the right number are refused with what the first refused place says,
and accepted exactly when there is none. -/
theorem encode_reports_first (D : Deps) {abiJson functionName argsJson : String} {abi : JsonAbi}
    {func : Function} {args : List Value} (habi : D.parseAbi abiJson = .ok abi)
    (hfound : findFunction abi functionName = .ok func)
    (hargs : D.parseJson argsJson = .ok (.array args)) (hlen : args.length = func.inputs.length)
    (hresolve : ∀ p ∈ func.inputs, ∃ t, D.resolve p = some t) :
    (∀ e, D.encodeFunctionData abiJson functionName argsJson = .error e ↔
      ∃ before place after,
        ((func.inputs.zip args).flatMap fun e => D.places e.1 e.2) = before ++ place :: after ∧
          D.refusal place = some e ∧ ∀ x ∈ before, D.refusal x = none) ∧
    ((∃ out, D.encodeFunctionData abiJson functionName argsJson = .ok out) ↔
      ∀ e ∈ func.inputs.zip args, ∀ place ∈ D.places e.1 e.2, D.refusal place = none) := by
  have hcall : refused (D.encodeFunctionData abiJson functionName argsJson) =
      refused (D.coerceArgs func.inputs args) := by
    have heq : D.encodeFunctionData abiJson functionName argsJson =
        D.encodeArgs func (.array args) := by
      simp only [Deps.encodeFunctionData, habi, hfound, hargs, ok_bind]
    rw [heq]
    cases hvalues : D.coerceArgs func.inputs args with
    | error e =>
        simp only [Deps.encodeArgs, Value.asArray, ne_eq, hlen, not_true_eq_false, ↓reduceIte,
          hvalues]
        rfl
    | ok values =>
        obtain ⟨calldata, -, hout⟩ := Deps.encodeArgs_of_coerced hresolve hlen hvalues
        rw [hout]
        rfl
  rw [Deps.refused_coerceArgs] at hcall
  constructor
  · intro e
    rw [← refused_eq_some, hcall, List.findSome?_eq_some_iff]
  · rw [← refused_eq_none, hcall, List.findSome?_eq_none_iff]
    constructor
    · intro h e he place hplace
      exact h place (List.mem_flatMap.mpr ⟨e, he, hplace⟩)
    · intro h place hplace
      obtain ⟨e, he, hplace⟩ := List.mem_flatMap.mp hplace
      exact h e he place hplace

/-! A transfer with both arguments wrong. -/

def flagsDeps : Deps :=
  reference ⟨[("transfer", [transferFunction])]⟩ (.array [.bool true, .bool false])

theorem encode_reports_first_flags :
    flagsDeps.encodeFunctionData transferAbiJson "transfer" "[true,false]" =
      .error (.invalidArgument "expected a address string, got true") := by
  have habi : flagsDeps.parseAbi transferAbiJson = .ok ⟨[("transfer", [transferFunction])]⟩ := rfl
  have hfound : findFunction ⟨[("transfer", [transferFunction])]⟩ "transfer" = .ok transferFunction :=
    rfl
  have hargs : flagsDeps.parseJson "[true,false]" = .ok (.array [.bool true, .bool false]) := rfl
  refine ((encode_reports_first flagsDeps habi hfound hargs rfl fun p hp => ?_).1 _).mpr
    ⟨[], _, _, rfl, rfl, fun x hx => absurd hx List.not_mem_nil⟩
  rcases List.mem_cons.mp hp with rfl | hp
  · exact ⟨.address, rfl⟩
  · rw [List.mem_singleton.mp hp]
    exact ⟨.uint 256, rfl⟩

/-- Return data that decodes is refused with what the first refused leaf says. -/
theorem decode_reports_first (D : Deps) {abiJson functionName dataHex : String}
    (r : Decoding D abiJson functionName dataHex)
    (hdescribed : ∀ p ∈ r.func.outputs, ∀ t, D.resolve p = some t → Described p.components t)
    {e : AbiError} :
    D.decodeFunctionResult abiJson functionName dataHex = .error e ↔
      ∃ before leaf after, r.values.flatMap DynSolValue.leaves = before ++ leaf :: after ∧
        D.leafRefusal leaf = some e ∧ ∀ x ∈ before, ¬ x.Refused := by
  have hvalues : refused ((r.func.outputs.zip r.values).mapM D.renderField) =
      (r.values.flatMap DynSolValue.leaves).findSome? D.leafRefusal := by
    rw [← Deps.flatMap_snd_zip r.length_values]
    exact refused_mapM_eq fun e he => Deps.refused_valueToJson e.2 (r.shaped hdescribed e he)
  rw [← refused_eq_some, Deps.decodeFunctionResult_eq r, refused_map, hvalues,
    List.findSome?_eq_some_iff]
  simp only [Deps.leafRefusal_eq_none]

/-! A flag that is shown, and a callback that is not. -/

def hookFunction : Function := ⟨"hook", [], [⟨"bool", "paused", []⟩, ⟨"function", "callback", []⟩]⟩

def hookAbiJson : String :=
  "[\x7b\"type\":\"function\",\"name\":\"hook\",\"stateMutability\":\"view\",\"inputs\":[]," ++
    "\"outputs\":[\x7b\"name\":\"paused\",\"type\":\"bool\"\x7d," ++
    "\x7b\"name\":\"callback\",\"type\":\"function\"\x7d]\x7d]"

def hookDeps : Deps := reference ⟨[("hook", [hookFunction])]⟩ .null

theorem callback_fits : 0 + 24 ≤ 32 := by decide

/-- A callback that points nowhere. -/
def noCallback : DynSolValue := .function ((wordOf 0).part 0 24 callback_fits)

def hookData : List UInt8 := (wordOf 1).bytes ++ (wordOf 0).bytes

def hookDecoding : Decoding hookDeps hookAbiJson "hook" (hexEncodePrefixed hookData) where
  abi := ⟨[("hook", [hookFunction])]⟩
  func := hookFunction
  data := hookData
  types := [.bool, .function]
  tokens := [.word (wordOf 1), .word (wordOf 0)]
  values := [.bool (decide ((wordOf 1).toWord ≠ 0)), noCallback]
  parsed := rfl
  found := rfl
  read := Deps.decodeViemHex_hexEncodePrefixed _
  resolved := .cons rfl (.cons rfl .nil)
  cut := rfl
  made := rfl

theorem described_hook : ∀ p ∈ hookFunction.outputs, ∀ t, hookDeps.resolve p = some t →
    Described p.components t := by
  have hbool : hookDeps.resolve ⟨"bool", "paused", []⟩ = some .bool := rfl
  have hcallback : hookDeps.resolve ⟨"function", "callback", []⟩ = some .function := rfl
  intro p hp t ht
  rcases List.mem_cons.mp hp with rfl | hp
  · cases hbool.symm.trans ht
    exact .scalar trivial
  · rw [List.mem_singleton.mp hp] at ht ⊢
    cases hcallback.symm.trans ht
    exact .scalar trivial

theorem decode_reports_first_hook :
    hookDeps.decodeFunctionResult hookAbiJson "hook" (hexEncodePrefixed hookData) =
      .error (.unsupportedType "Function(..)") := by
  have hleaves : hookDecoding.values.flatMap DynSolValue.leaves =
      [.bool (decide ((wordOf 1).toWord ≠ 0))] ++ noCallback :: [] := rfl
  refine (decode_reports_first hookDeps hookDecoding described_hook).mpr ⟨_, _, _, hleaves, rfl, ?_⟩
  intro x hx
  rw [List.mem_singleton.mp hx]
  exact id

end AmbireCrypto
