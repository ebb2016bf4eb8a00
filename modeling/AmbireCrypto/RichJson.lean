/-
# `AmbireCrypto.RichJson` — the answer on the other side

JavaScript parses the answer with `richJson`, which is `JSON.parse` with one
thing added: an object with the single key `$bigint` and a string in it becomes
that `BigInt`.  `richParse` is this, and `viemValue` is what viem itself returns
for a decoded value.

They agree on every answer, except where a tuple's own names make it look like a
tag: `richParse_eq_viemValue`.

## Which tuples look like a tag

All components have the tag's key for a name, and the last field is shown as a string
(`LooksTagged`).  Repeated names matter here, since the map keeps one entry of them; so
does the kind of the field, since a number under that key is no tag.
`tupleShape_eq_bigintTag_iff` says that these tuples are shown as a tag and no others.

## What is taken from elsewhere

The parser is not under `src/`; what it does with a tag is what the comments of the
crate say it is there for.  The keys of a JavaScript object are kept sorted here, so their
order, which is the matter of `KeyOrder`, plays no part.
-/
import AmbireCrypto.Positions

namespace AmbireCrypto

open Traverse

/-! ## JavaScript values -/

/-- A JavaScript value.  A `BigInt` is given by its decimal.  The keys of an
object are kept sorted, so objects that differ in the order of their keys are the
same here. -/
inductive JsValue
  | null
  | bool (b : Bool)
  | number (i : Int)
  | float (text : String)
  | bigint (decimal : String)
  | string (s : String)
  | array (items : List JsValue)
  | object (entries : List (String × JsValue))

/-- What `JSON.parse` makes of a number.  The answer's are safe integers, so
nothing is rounded. -/
def Number.toJs : Number → JsValue
  | posInt n _ => .number n
  | negInt i _ => .number i
  | float text => .float text

/-- The text under the tag, where the value is one. -/
def Value.tagText : Value → Option String
  | .object [(key, .string text)] => if key = BIGINT_TAG then some text else none
  | _ => none

mutual
/-- `richJson`'s parser. -/
def Value.richParse : Value → JsValue
  | .null => .null
  | .bool b => .bool b
  | .number n => n.toJs
  | .string s => .string s
  | .array items => .array (richParseItems items)
  | .object entries =>
      match Value.tagText (.object entries) with
      | some text => .bigint text
      | none => .object (richParseEntries entries)
def richParseItems : List Value → List JsValue
  | [] => []
  | v :: vs => v.richParse :: richParseItems vs
def richParseEntries : List (String × Value) → List (String × JsValue)
  | [] => []
  | e :: es => (e.1, e.2.richParse) :: richParseEntries es
end

theorem richParseItems_eq : ∀ items : List Value, richParseItems items = items.map Value.richParse
  | [] => rfl
  | v :: vs => by rw [richParseItems, richParseItems_eq vs, List.map_cons]

theorem richParseEntries_eq : ∀ entries : List (String × Value),
    richParseEntries entries = entries.map fun e => (e.1, e.2.richParse)
  | [] => rfl
  | e :: es => by rw [richParseEntries, richParseEntries_eq es, List.map_cons]

theorem Value.tagText_eq_some_iff {v : Value} {s : String} :
    v.tagText = some s ↔ v = bigintTag s := by
  constructor
  · intro h
    simp only [Value.tagText] at h
    split at h
    · split at h
      · rename_i hkey
        cases h
        rw [hkey]
        rfl
      · cases h
    · cases h
  · rintro rfl
    rfl

@[simp] theorem Value.richParse_array (items : List Value) :
    (Value.array items).richParse = .array (items.map Value.richParse) := by
  rw [Value.richParse, richParseItems_eq]

theorem Value.richParse_object {entries : List (String × Value)}
    (h : ∀ s, Value.object entries ≠ bigintTag s) :
    (Value.object entries).richParse = .object (entries.map fun e => (e.1, e.2.richParse)) := by
  have hnone : Value.tagText (.object entries) = none := by
    refine Option.eq_none_iff_forall_ne_some.mpr fun s hs => ?_
    exact h s (Value.tagText_eq_some_iff.mp hs)
  rw [Value.richParse, hnone, richParseEntries_eq]

/-! ## viem's values -/

namespace Deps

variable (D : Deps)

/-- viem's JavaScript for an integer: a number up to 48 bits, a `BigInt` past them. -/
def viemInt (i : Int) (size : Nat) : JsValue :=
  if 48 < size then .bigint i.repr else .number i

mutual
/-- What viem returns for a value: the fields of a tuple under their names where
all have one, in an array otherwise. -/
def viemValue (param : Param) : DynSolValue → JsValue
  | .uint u size => viemInt u.toNat size
  | .int i size => viemInt i.toInt size
  | .bool b => .bool b
  | .address a => .string (toChecksum D.keccak256 a)
  | .bytes b => .string (hexEncodePrefixed b)
  | .fixedBytes word size => .string (hexEncodePrefixed (word.bytes.take size))
  | .string s => .string (stripByteOrderMark s)
  | .array items => .array (viemItems param items)
  | .fixedArray items => .array (viemItems param items)
  | .tuple fields =>
      if allNamed param.components then
        .object ((SortedMap.empty : SortedMap String JsValue).insertAll
          ((param.components.map Param.name).zip (viemFields param.components fields))).entries
      else .array (viemFields param.components fields)
  -- viem has no such type, and the decoder refuses it
  | .function _ => .null
def viemItems (param : Param) : List DynSolValue → List JsValue
  | [] => []
  | item :: items => viemValue param item :: viemItems param items
def viemFields : List Param → List DynSolValue → List JsValue
  | _, [] => []
  | [], _ :: _ => []
  | component :: components, field :: fields =>
      viemValue component field :: viemFields components fields
end

theorem viemItems_eq (p : Param) : ∀ items : List DynSolValue,
    D.viemItems p items = items.map (D.viemValue p)
  | [] => rfl
  | item :: items => by rw [viemItems, viemItems_eq p items, List.map_cons]

theorem viemValue_ofItems (p : Param) (items : List DynSolValue) (len : Option Nat) :
    D.viemValue p (.ofItems items len) = .array (items.map (D.viemValue p)) := by
  cases len with
  | none => rw [DynSolValue.ofItems, viemValue, viemItems_eq]
  | some k => rw [DynSolValue.ofItems, viemValue, viemItems_eq]

theorem viemFields_eq : ∀ (components : List Param) (fields : List DynSolValue),
    D.viemFields components fields = (components.zip fields).map fun e => D.viemValue e.1 e.2
  | [], [] => rfl
  | _ :: _, [] => rfl
  | [], _ :: _ => rfl
  | component :: components, field :: fields => by
      rw [viemFields, viemFields_eq components fields, List.zip_cons_cons, List.map_cons]

end Deps

/-! ## Tuples that look like a tag -/

/-- A leaf that is shown as a string. -/
def DynSolValue.Text : DynSolValue → Prop
  | .address _ | .bytes _ | .fixedBytes _ _ | .string _ => True
  | _ => False

/-- A tuple whose names are all the tag's key, with a string shown under it. -/
def LooksTagged (components : List Param) (fields : List DynSolValue) : Prop :=
  components ≠ [] ∧ (∀ c ∈ components, c.name = BIGINT_TAG) ∧
    ∃ f, fields.getLast? = some f ∧ f.Text

/-- No tuple that is shown looks like a tag. -/
def Untagged (p : Param) (v : DynSolValue) : Prop :=
  ∀ (path : List Step) (q : Param) (fields : List DynSolValue),
    Shown q (.tuple fields) path p v → ¬ LooksTagged q.components fields

theorem LooksTagged.allNamed {components : List Param} {fields : List DynSolValue}
    (h : LooksTagged components fields) : allNamed components = true := by
  refine allNamed_iff.mpr ⟨h.1, fun c hc => ?_⟩
  rw [h.2.1 c hc]
  decide

namespace Deps

variable {D : Deps}

theorem text_iff {p : Param} {v : DynSolValue} {j : Value} (h : D.valueToJson p v = .ok j) :
    v.Text ↔ ∃ s, j = .string s := by
  have hleaf : ∀ {v : DynSolValue} {i : Int} {size : Nat}, v.asInt = some (i, size) → ¬ v.Text := by
    intro v i size hv htext
    cases v with
    | uint u size => exact htext
    | int i size => exact htext
    | _ => cases hv
  cases renders_of_ok v h with
  | number hv _ _ =>
      refine ⟨fun htext => absurd htext (hleaf hv), ?_⟩
      rintro ⟨s, hs⟩
      cases hs
  | tag hv _ =>
      refine ⟨fun htext => absurd htext (hleaf hv), ?_⟩
      rintro ⟨s, hs⟩
      cases hs
  | address => exact ⟨fun _ => ⟨_, rfl⟩, fun _ => trivial⟩
  | bytes => exact ⟨fun _ => ⟨_, rfl⟩, fun _ => trivial⟩
  | fixedBytes => exact ⟨fun _ => ⟨_, rfl⟩, fun _ => trivial⟩
  | string => exact ⟨fun _ => ⟨_, rfl⟩, fun _ => trivial⟩
  | _ =>
      refine ⟨fun htext => htext.elim, ?_⟩
      rintro ⟨s, hs⟩
      cases hs

/-- A tuple is shown as a tag exactly when it looks like one. -/
theorem tupleShape_eq_bigintTag_iff {components : List Param} {fields : List DynSolValue}
    {js : List Value} (hlen : components.length = fields.length)
    (hjs : (components.zip fields).mapM D.renderField = .ok js) :
    (∃ s, tupleShape components js = bigintTag s) ↔ LooksTagged components fields := by
  have hlen' := length_rendered hlen hjs
  constructor
  · rintro ⟨s, hs⟩
    simp only [tupleShape] at hs
    split at hs
    · rename_i hnamed
      have hentries := Value.object.inj hs
      have hnames : ∀ c ∈ components, c.name = BIGINT_TAG := by
        intro c hc
        have hkey : c.name ∈ ((SortedMap.empty : Map).insertAll (insertions components js)).keys := by
          rw [SortedMap.mem_keys_insertAll_empty, map_fst_insertions hlen']
          exact List.mem_map_of_mem hc
        rw [SortedMap.keys, hentries] at hkey
        exact List.mem_singleton.mp hkey
      refine ⟨(allNamed_iff.mp hnamed).1, hnames, ?_⟩
      have hlookup : ((SortedMap.empty : Map).insertAll
          (insertions components js)).entries.lookup BIGINT_TAG = some (.string s) := by
        rw [hentries]
        rfl
      obtain ⟨i, hc, hj, -, hx, hlast⟩ := (lookup_rendered_iff hlen').mp hlookup
      -- all share the name, so the last of the name is the last of all
      have hi : i = fields.length - 1 := by
        by_contra hne
        exact hlast (i + 1) (by omega) (Nat.lt_succ_self i) (hnames _ (List.getElem_mem _))
      obtain ⟨x, hget, hfield⟩ := renderField_getElem hjs (List.getElem?_eq_getElem hc)
        (List.getElem?_eq_getElem (hlen ▸ hc))
      rw [List.getElem?_eq_getElem hj] at hget
      cases hget
      refine ⟨_, ?_, (text_iff hfield).mpr ⟨s, hx⟩⟩
      rw [List.getLast?_eq_getElem?, ← hi, List.getElem?_eq_getElem]
    · cases hs
  · intro h
    obtain ⟨f, hf, htext⟩ := h.2.2
    rw [List.getLast?_eq_getElem?] at hf
    have hpos : 0 < components.length := List.length_pos_of_ne_nil h.1
    have hc : fields.length - 1 < components.length := by omega
    obtain ⟨x, hx, hfield⟩ := renderField_getElem hjs (List.getElem?_eq_getElem hc) hf
    obtain ⟨s, rfl⟩ := (text_iff hfield).mp htext
    obtain ⟨hj, hget⟩ := List.getElem?_eq_some_iff.mp hx
    refine ⟨s, ?_⟩
    rw [tupleShape, h.allNamed]
    refine congrArg Value.object (SortedMap.entries_eq_singleton ?_ ?_)
    · intro key hkey
      rw [SortedMap.mem_keys_insertAll_empty, map_fst_insertions hlen'] at hkey
      obtain ⟨c, hcmem, rfl⟩ := List.mem_map.mp hkey
      exact h.2.1 c hcmem
    · refine (lookup_rendered_iff hlen').mpr ⟨_, hc, hj, h.2.1 _ (List.getElem_mem hc), hget, ?_⟩
      intro k hk hik
      omega

/-! ## The parser rebuilds viem's value -/

theorem richParse_int {size : Nat} {v : Int} {j : Value} (h : intToJson v.repr size = .ok j) :
    j.richParse = viemInt v size := by
  by_cases hsize : JS_SAFE_INT_BITS < size
  · rw [intToJson_wide hsize] at h
    cases h
    exact (if_pos hsize).symm
  · obtain ⟨hsafe, rfl⟩ := (intToJson_narrow_iff hsize).mp h
    refine Eq.trans ?_ (if_neg hsize).symm
    show hsafe.number.toJs = .number v
    have hint := hsafe.asInt_number
    cases hn : hsafe.number with
    | posInt n _ =>
        rw [hn] at hint
        exact congrArg JsValue.number (Option.some.inj hint)
    | negInt i _ =>
        rw [hn] at hint
        exact congrArg JsValue.number (Option.some.inj hint)
    | float text =>
        rw [hn] at hint
        cases hint

theorem richParse_scalar {p : Param} {v : DynSolValue} (hv : v.Scalar) {j : Value}
    (h : D.valueToJson p v = .ok j) : j.richParse = D.viemValue p v := by
  cases v with
  | uint u size => exact richParse_int (v := u.toNat) h
  | int i size => exact richParse_int h
  | function f => cases h
  | array items => exact hv.elim
  | fixedArray items => exact hv.elim
  | tuple fields => exact hv.elim
  | _ =>
      cases h
      rfl

theorem richParse_items {p : Param} {items : List DynSolValue} {js : List Value}
    (hjs : items.mapM (D.valueToJson p) = .ok js)
    (ih : ∀ (i : Nat) (hi : i < items.length) (x : Value), D.valueToJson p items[i] = .ok x →
      x.richParse = D.viemValue p items[i]) :
    js.map Value.richParse = items.map (D.viemValue p) := by
  have hlen := length_of_mapM_eq_ok hjs
  refine List.ext_getElem (by rw [List.length_map, List.length_map, hlen]) fun i hi hi' => ?_
  rw [List.getElem_map, List.getElem_map]
  rw [List.length_map] at hi hi'
  exact ih i hi' _ (getElem_of_mapM_eq_ok hjs i hi' hi)

/-- A tuple, its fields rebuilt.  Under a repeated name only the last field is
there to be rebuilt. -/
theorem richParse_tuple {components : List Param} {fields : List DynSolValue} {js : List Value}
    (hlen : components.length = fields.length) (hlen' : components.length = js.length)
    (hplain : ¬ LooksTagged components fields)
    (hjs : (components.zip fields).mapM D.renderField = .ok js)
    (ih : ∀ (i : Nat) (hc : i < components.length) (hf : i < fields.length) (hj : i < js.length),
      (allNamed components = true →
        ∀ (k : Nat) (hk : k < components.length), i < k → components[k].name ≠ components[i].name) →
      js[i].richParse = D.viemValue components[i] fields[i]) :
    (tupleShape components js).richParse =
      if allNamed components = true then
        .object ((SortedMap.empty : SortedMap String JsValue).insertAll
          ((components.map Param.name).zip (D.viemFields components fields))).entries
      else .array (D.viemFields components fields) := by
  rw [viemFields_eq]
  have hviem : ((components.zip fields).map fun e => D.viemValue e.1 e.2).length =
      components.length := by
    rw [List.length_map, List.length_zip, ← hlen, Nat.min_self]
  cases hnamed : allNamed components with
  | false =>
      rw [tupleShape, hnamed]
      show (Value.array js).richParse = .array _
      rw [Value.richParse_array]
      refine congrArg JsValue.array (List.ext_getElem ?_ fun i hi hi' => ?_)
      · rw [List.length_map, hviem, hlen']
      · rw [List.length_map] at hi
        rw [List.getElem_map, List.getElem_map, List.getElem_zip]
        refine ih i (hlen' ▸ hi) (by omega) hi fun h => ?_
        rw [hnamed] at h
        cases h
  | true =>
      have hne : ∀ s, tupleShape components js ≠ bigintTag s := fun s hs =>
        hplain ((tupleShape_eq_bigintTag_iff hlen hjs).mp ⟨s, hs⟩)
      rw [tupleShape, hnamed] at hne ⊢
      show (Value.object _).richParse = .object _
      rw [Value.richParse_object hne]
      refine congrArg JsValue.object (congrArg SortedMap.entries
        (SortedMap.mapValues_insertAll (f := Value.richParse) ?_ ?_))
      · rw [map_fst_insertions hlen', List.map_fst_zip]
        rw [List.length_map, hviem]
      · intro i hi hi' hlast
        have hins : i < components.length := by
          rw [length_insertions] at hi
          omega
        rw [getElem_insertions hi hins (hlen' ▸ hins), List.getElem_zip]
        show _ = ((components.zip fields).map fun e => D.viemValue e.1 e.2)[i]
        rw [List.getElem_map, List.getElem_zip]
        refine ih i hins (hlen ▸ hins) (hlen' ▸ hins) fun _ k hk hik => ?_
        have hk' : k < (insertions components js).length := by
          rw [length_insertions]
          omega
        have h := hlast k hk' hik
        rwa [getElem_insertions hk' hk (hlen' ▸ hk),
          getElem_insertions hi hins (hlen' ▸ hins)] at h

/-- Unless a tuple shown in it looks like a tag, the answer is parsed back to
viem's value. -/
theorem richParse_eq_viemValue (v : DynSolValue) : ∀ {p : Param} {j : Value},
    D.valueToJson p v = .ok j → Untagged p v → j.richParse = D.viemValue p v := by
  induction v using DynSolValue.nodeInduction with
  | scalar v hv =>
      intro p j h _
      exact richParse_scalar hv h
  | items items len ih =>
      intro p j h hplain
      rw [valueToJson_ofItems] at h
      obtain ⟨js, hjs, rfl⟩ := map_eq_ok.mp h
      rw [Value.richParse_array, viemValue_ofItems]
      refine congrArg JsValue.array (richParse_items hjs fun i hi x hx => ?_)
      exact ih _ (List.getElem_mem hi) hx fun path q fields hshown =>
        hplain _ q fields (.items len (List.getElem?_eq_getElem hi) hshown)
  | tuple fields ih =>
      intro p j h hplain
      rw [valueToJson_tuple] at h
      obtain ⟨hlen, js, hjs, rfl⟩ := tupleToJson_eq_ok_iff.mp h
      rw [viemValue]
      refine richParse_tuple hlen (length_rendered hlen hjs) (hplain [] p fields .here) hjs
        fun i hc hf hj hlast => ?_
      have hfield : D.valueToJson p.components[i] fields[i] = .ok js[i] := by
        obtain ⟨x, hx, hfield⟩ := renderField_getElem hjs (List.getElem?_eq_getElem hc)
          (List.getElem?_eq_getElem hf)
        rw [List.getElem?_eq_getElem hj] at hx
        cases hx
        exact hfield
      refine ih _ (List.getElem_mem hf) hfield fun path q fs hshown => ?_
      cases hnamed : allNamed p.components with
      | false =>
          exact hplain _ q fs (.positional hnamed (List.getElem?_eq_getElem hc)
            (List.getElem?_eq_getElem hf) hshown)
      | true =>
          exact hplain _ q fs (.named hnamed (List.getElem?_eq_getElem hc)
            (List.getElem?_eq_getElem hf) (hlast hnamed) hshown)

end Deps

end AmbireCrypto
