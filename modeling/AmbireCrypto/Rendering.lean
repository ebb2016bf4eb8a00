/-
# `AmbireCrypto.Rendering` — what `valueToJson` refuses, and what it shows

Return data comes from any contract, so a value's integers may be anything their
words can hold.  Two descriptions of the decoder, each by one induction over the
value:

* `valueToJson_ok_iff` — it answers exactly on the values whose tuples have one
  field for each component (`Shaped`) and that hold nothing JavaScript cannot
  (`Refused`);
* `renders_of_ok` — an answer has viem's shape at every node (`Renders`).

A value of the resolved type is shaped as soon as the type's tuples come from
`components` (`Described`); an inline tuple type has none, which is the one way
to reach the arity error.

`decode_renders` is both for a whole value: refused exactly for what is in it, never
with an arity error, and otherwise of viem's shape, without `null`.

## What `Renders` says, and what it takes as it is

It is a relation between components, value and JSON, one constructor for each shape, and
refers to no function of the decoder's recursion.  Of a fully named tuple it says which
keys the object has and that the last of a repeated name gives the value; of the order
of the keys it says nothing, which is `KeyOrder`.

How a leaf is written it takes from the code: the checksum, the hex digits, and a text
without its byte order mark are the functions the decoder calls.
-/
import AmbireCrypto.Reference

namespace AmbireCrypto

open Numeral Traverse

/-! ## Integers -/

/-- What a JavaScript number holds without loss. -/
def Safe (v : Int) : Prop := -JS_MAX_SAFE_INTEGER ≤ v ∧ v ≤ JS_MAX_SAFE_INTEGER

def Number.asInt : Number → Option Int
  | posInt n _ => some n
  | negInt i _ => some i
  | float _ => none

theorem Number.asInt_ofI64 (i : Int) (lo : -(2 ^ 63) ≤ i) (hi : i < 2 ^ 63) :
    (Number.ofI64 i lo hi).asInt = some i := by
  simp only [Number.ofI64]
  split
  · rfl
  · rename_i hneg
    show some ((i.toNat : Nat) : Int) = some i
    rw [Int.toNat_of_nonneg (not_lt.mp hneg)]

theorem Safe.lower {v : Int} (h : Safe v) : -(2 ^ 63) ≤ v := by
  simp only [Safe, JS_MAX_SAFE_INTEGER] at h
  omega

theorem Safe.upper {v : Int} (h : Safe v) : v < 2 ^ 63 := by
  simp only [Safe, JS_MAX_SAFE_INTEGER] at h
  omega

/-- The JSON number of a safe integer. -/
def Safe.number {v : Int} (h : Safe v) : Number := .ofI64 v h.lower h.upper

theorem Safe.asInt_number {v : Int} (h : Safe v) : h.number.asInt = some v :=
  Number.asInt_ofI64 v _ _

/-- A decimal is read back when it fits, and only then. -/
theorem parseI64_repr_iff {v n : Int} :
    parseI64 v.repr = .ok n ↔ n = v ∧ -(2 ^ 63) ≤ v ∧ v < 2 ^ 63 := by
  have hne : v.repr.toList ≠ [] := by
    rw [toList_repr]
    split
    · exact List.cons_ne_nil _ _
    · exact Nat.toDigits_ne_nil
  have hread : ∀ max m, read skipNone max (Nat.toDigits 10 v.natAbs) = .ok m ↔
      v.natAbs = m ∧ v.natAbs ≤ max := fun _ _ => read_toDigits_iff fun _ _ => rfl
  have hmax : v.natAbs ≤ (if decide (v < 0) = true then 2 ^ 63 else 2 ^ 63 - 1) ↔
      -(2 ^ 63) ≤ v ∧ v < 2 ^ 63 := by
    split <;> simp_all only [decide_eq_true_eq, not_lt] <;> omega
  simp only [parseI64]
  rw [splitSign_repr]
  show (if _ then _ else if _ then _ else _) = _ ↔ _
  rw [if_neg hne, if_neg Nat.toDigits_ne_nil]
  cases h : read skipNone (if decide (v < 0) = true then 2 ^ 63 else 2 ^ 63 - 1)
      (Nat.toDigits 10 v.natAbs) with
  | error e =>
      constructor
      · nofun
      · rintro ⟨-, hrange⟩
        rw [(hread _ _).mpr ⟨rfl, hmax.mpr hrange⟩] at h
        cases h
  | ok m =>
      obtain ⟨rfl, hle⟩ := (hread _ _).mp h
      show Except.ok (signed _ _) = _ ↔ _
      rw [signed_natAbs]
      constructor
      · intro hn
        exact ⟨(Except.ok.inj hn).symm, hmax.mp hle⟩
      · rintro ⟨rfl, -⟩
        rfl

theorem intToJson_wide {size : Nat} (h : JS_SAFE_INT_BITS < size) (decimal : String) :
    intToJson decimal size = .ok (bigintTag decimal) :=
  if_pos h

theorem intToJson_narrow_iff {size : Nat} (hsize : ¬ JS_SAFE_INT_BITS < size) {v : Int}
    {j : Value} : intToJson v.repr size = .ok j ↔ ∃ h : Safe v, j = .number h.number := by
  simp only [intToJson]
  rw [if_neg hsize]
  cases hparse : parseI64 v.repr with
  | error e =>
      constructor
      · nofun
      · rintro ⟨hsafe, -⟩
        have hok := parseI64_repr_iff.mpr ⟨rfl, hsafe.lower, hsafe.upper⟩
        rw [hparse] at hok
        cases hok
  | ok number =>
      obtain ⟨rfl, -⟩ := parseI64_repr_iff.mp hparse
      constructor
      · intro h
        by_cases hsafe : Safe number
        · exact ⟨hsafe, (Except.ok.inj ((dif_pos hsafe).symm.trans h)).symm⟩
        · cases (dif_neg hsafe).symm.trans h
      · rintro ⟨hsafe, rfl⟩
        exact dif_pos hsafe

theorem intToJson_error {decimal : String} {size : Nat} {e : AbiError}
    (h : intToJson decimal size = .error e) : ∃ msg, e = .decodeFailed msg := by
  simp only [intToJson] at h
  split at h
  · cases h
  · split at h
    · cases h
      exact ⟨_, rfl⟩
    · split at h
      · cases h
      · cases h
        exact ⟨_, rfl⟩

/-! ## Which values are shown -/

/-- A leaf JavaScript cannot hold. -/
def DynSolValue.Refused : DynSolValue → Prop
  | .function _ => True
  | .uint u size => ¬ JS_SAFE_INT_BITS < size ∧ ¬ Safe u.toNat
  | .int i size => ¬ JS_SAFE_INT_BITS < size ∧ ¬ Safe i.toInt
  | _ => False

/-- Every tuple has one field for each of the components that describe it. -/
inductive Shaped : List Param → DynSolValue → Prop
  | scalar {components : List Param} {v : DynSolValue} : v.Scalar → Shaped components v
  | array {components : List Param} {items : List DynSolValue} :
      (∀ v ∈ items, Shaped components v) → Shaped components (.array items)
  | fixedArray {components : List Param} {items : List DynSolValue} :
      (∀ v ∈ items, Shaped components v) → Shaped components (.fixedArray items)
  | tuple {components : List Param} {fields : List DynSolValue} :
      components.length = fields.length →
      (∀ e ∈ components.zip fields, Shaped e.1.components e.2) →
      Shaped components (.tuple fields)

theorem shaped_ofItems_iff {components : List Param} {items : List DynSolValue}
    (len : Option Nat) :
    Shaped components (.ofItems items len) ↔ ∀ v ∈ items, Shaped components v := by
  cases len with
  | none =>
      constructor
      · intro h
        cases h with
        | scalar hs => exact hs.elim
        | array hs => exact hs
      · exact .array
  | some k =>
      constructor
      · intro h
        cases h with
        | scalar hs => exact hs.elim
        | fixedArray hs => exact hs
      · exact .fixedArray

theorem not_refused_ofItems (items : List DynSolValue) (len : Option Nat) :
    ¬ (DynSolValue.ofItems items len).Refused := by
  cases len with
  | none => exact id
  | some k => exact id

namespace Deps

variable {D : Deps}

theorem tupleToJson_eq_ok_iff {components : List Param} {fields : List DynSolValue} {j : Value} :
    D.tupleToJson components fields = .ok j ↔
      components.length = fields.length ∧
        ∃ js, (components.zip fields).mapM D.renderField = .ok js ∧ tupleShape components js = j := by
  rw [tupleToJson, ← map_eq_ok]
  constructor
  · intro h
    split at h
    · cases h
    · rename_i hlen
      exact ⟨not_not.mp hlen, h⟩
  · rintro ⟨hlen, h⟩
    rw [if_neg (not_not.mpr hlen)]
    exact h

theorem exists_tupleToJson_iff {components : List Param} {fields : List DynSolValue} :
    (∃ j, D.tupleToJson components fields = .ok j) ↔
      components.length = fields.length ∧
        ∀ e ∈ components.zip fields, ∃ j, D.valueToJson e.1 e.2 = .ok j := by
  simp only [tupleToJson_eq_ok_iff]
  constructor
  · rintro ⟨j, hlen, js, hjs, -⟩
    exact ⟨hlen, exists_mapM_eq_ok_iff.mp ⟨js, hjs⟩⟩
  · rintro ⟨hlen, h⟩
    obtain ⟨js, hjs⟩ := exists_mapM_eq_ok_iff.mpr h
    exact ⟨_, hlen, js, hjs, rfl⟩

theorem intToJson_ok_iff {size : Nat} {v : Int} :
    (∃ j, intToJson v.repr size = .ok j) ↔ ¬ (¬ JS_SAFE_INT_BITS < size ∧ ¬ Safe v) := by
  by_cases hsize : JS_SAFE_INT_BITS < size
  · exact ⟨fun _ h => h.1 hsize, fun _ => ⟨_, intToJson_wide hsize _⟩⟩
  · simp only [intToJson_narrow_iff hsize]
    constructor
    · rintro ⟨_, hsafe, -⟩ h
      exact h.2 hsafe
    · intro h
      have hsafe : Safe v := by
        by_contra hn
        exact h ⟨hsize, hn⟩
      exact ⟨_, hsafe, rfl⟩

theorem scalar_ok_iff {p : Param} {v : DynSolValue} (hv : v.Scalar) :
    (∃ j, D.valueToJson p v = .ok j) ↔ ¬ v.Refused := by
  cases v with
  | uint u size => exact intToJson_ok_iff (v := u.toNat)
  | int i size => exact intToJson_ok_iff
  | function f =>
      constructor
      · rintro ⟨_, h⟩
        cases h
      · intro h
        exact absurd trivial h
  | array items => exact hv.elim
  | fixedArray items => exact hv.elim
  | tuple fields => exact hv.elim
  | _ => exact ⟨fun _ h => h, fun _ => ⟨_, rfl⟩⟩

/-- A value is shown exactly when its tuples fit their components and every leaf
is one JavaScript can hold. -/
theorem valueToJson_ok_iff (v : DynSolValue) : ∀ p : Param,
    (∃ j, D.valueToJson p v = .ok j) ↔
      Shaped p.components v ∧ ∀ x : DynSolValue, x.In v → ¬ x.Refused := by
  induction v using DynSolValue.nodeInduction with
  | scalar v hv =>
      intro p
      rw [scalar_ok_iff hv, DynSolValue.forall_in_scalar_iff hv]
      exact ⟨fun h => ⟨.scalar hv, h⟩, fun h => h.2⟩
  | items items len ih =>
      intro p
      rw [valueToJson_ofItems, exists_map_eq_ok, exists_mapM_eq_ok_iff, shaped_ofItems_iff,
        DynSolValue.forall_in_ofItems_iff]
      constructor
      · intro h
        exact ⟨fun v hv => ((ih v hv p).mp (h v hv)).1, not_refused_ofItems items len,
          fun v hv => ((ih v hv p).mp (h v hv)).2⟩
      · rintro ⟨hshape, -, h⟩ v hv
        exact (ih v hv p).mpr ⟨hshape v hv, h v hv⟩
  | tuple fields ih =>
      intro p
      rw [valueToJson_tuple, exists_tupleToJson_iff, DynSolValue.forall_in_tuple_iff]
      constructor
      · rintro ⟨hlen, h⟩
        have hfield : ∀ e ∈ p.components.zip fields,
            Shaped e.1.components e.2 ∧ ∀ x : DynSolValue, x.In e.2 → ¬ x.Refused :=
          fun e he => (ih e.2 (List.of_mem_zip he).2 e.1).mp (h e he)
        refine ⟨.tuple hlen fun e he => (hfield e he).1, id, fun f hf => ?_⟩
        obtain ⟨c, hc⟩ := exists_mem_zip_right hlen hf
        exact (hfield (c, f) hc).2
      · rintro ⟨hshape, -, h⟩
        cases hshape with
        | scalar hs => exact hs.elim
        | tuple hlen hs =>
            refine ⟨hlen, fun e he => ?_⟩
            have hmem := (List.of_mem_zip he).2
            exact (ih e.2 hmem e.1).mpr ⟨hs e he, h e.2 hmem⟩

end Deps

/-! ## What is shown -/

/-- An integer leaf: its value and its declared width. -/
def DynSolValue.asInt : DynSolValue → Option (Int × Nat)
  | .uint u size => some (u.toNat, size)
  | .int i size => some (i.toInt, size)
  | _ => none

theorem allNamed_iff {components : List Param} :
    allNamed components = true ↔ components ≠ [] ∧ ∀ c ∈ components, c.name ≠ "" := by
  rw [allNamed, Bool.and_eq_true_iff, List.all_eq_true, Bool.not_eq_true']
  refine and_congr ?_ ?_
  · rw [ne_eq, ← List.isEmpty_iff, Bool.not_eq_true]
  · simp only [Bool.not_eq_true', ← Bool.not_eq_true, String.isEmpty_iff, ne_eq]

/-- viem's shape of a value, given the components that describe its tuples. -/
inductive Renders (D : Deps) : List Param → DynSolValue → Value → Prop
  | number {components : List Param} {v : DynSolValue} {i : Int} {size : Nat} {n : Number} :
      v.asInt = some (i, size) → size ≤ 48 → n.asInt = some i →
      Renders D components v (.number n)
  | tag {components : List Param} {v : DynSolValue} {i : Int} {size : Nat} :
      v.asInt = some (i, size) → 48 < size →
      Renders D components v (.object [("$bigint", .string i.repr)])
  | bool {components : List Param} {b : Bool} : Renders D components (.bool b) (.bool b)
  | address {components : List Param} {a : Address} :
      Renders D components (.address a) (.string (toChecksum D.keccak256 a))
  | bytes {components : List Param} {b : List UInt8} :
      Renders D components (.bytes b) (.string (hexEncodePrefixed b))
  | fixedBytes {components : List Param} {word : B256} {size : Nat} :
      Renders D components (.fixedBytes word size)
        (.string (hexEncodePrefixed (word.bytes.take size)))
  | string {components : List Param} {s : String} :
      Renders D components (.string s) (.string (stripByteOrderMark s))
  | array {components : List Param} {items : List DynSolValue} {js : List Value} :
      items.length = js.length →
      (∀ (i : Nat) (hi : i < items.length) (hj : i < js.length),
        Renders D components items[i] js[i]) →
      Renders D components (.array items) (.array js)
  | fixedArray {components : List Param} {items : List DynSolValue} {js : List Value} :
      items.length = js.length →
      (∀ (i : Nat) (hi : i < items.length) (hj : i < js.length),
        Renders D components items[i] js[i]) →
      Renders D components (.fixedArray items) (.array js)
  /-- A fully named tuple: the names are the keys, and the last of a repeated
  name gives the value. -/
  | named {components : List Param} {fields : List DynSolValue} {js : List Value}
      {entries : List (String × Value)} :
      (components ≠ [] ∧ ∀ c ∈ components, c.name ≠ "") →
      components.length = fields.length → fields.length = js.length →
      (∀ (i : Nat) (hc : i < components.length) (hf : i < fields.length) (hj : i < js.length),
        Renders D components[i].components fields[i] js[i]) →
      (∀ e ∈ entries, e ∈ insertions components js) →
      (entries.map Prod.fst).Nodup →
      (∀ key, key ∈ entries.map Prod.fst ↔ key ∈ components.map Param.name) →
      (∀ (i : Nat) (hc : i < components.length) (hj : i < js.length),
        (∀ (k : Nat) (hk : k < components.length), i < k → components[k].name ≠ components[i].name) →
        entries.lookup components[i].name = some js[i]) →
      Renders D components (.tuple fields) (.object entries)
  /-- Any other tuple: one entry for each component, in order. -/
  | positional {components : List Param} {fields : List DynSolValue} {js : List Value} :
      ¬ (components ≠ [] ∧ ∀ c ∈ components, c.name ≠ "") →
      components.length = fields.length → fields.length = js.length →
      (∀ (i : Nat) (hc : i < components.length) (hf : i < fields.length) (hj : i < js.length),
        Renders D components[i].components fields[i] js[i]) →
      Renders D components (.tuple fields) (.array js)

namespace Deps

variable {D : Deps}

theorem renders_int {components : List Param} {v : DynSolValue} {i : Int} {size : Nat}
    {j : Value} (hv : v.asInt = some (i, size)) (h : intToJson i.repr size = .ok j) :
    Renders D components v j := by
  by_cases hsize : JS_SAFE_INT_BITS < size
  · rw [intToJson_wide hsize] at h
    cases h
    exact .tag hv hsize
  · obtain ⟨hsafe, rfl⟩ := (intToJson_narrow_iff hsize).mp h
    exact .number hv (not_lt.mp hsize) hsafe.asInt_number

theorem renders_scalar {p : Param} {v : DynSolValue} (hv : v.Scalar) {j : Value}
    (h : D.valueToJson p v = .ok j) : Renders D p.components v j := by
  cases v with
  | uint u size => exact renders_int (i := u.toNat) rfl h
  | int i size => exact renders_int rfl h
  | function f => cases h
  | array items => exact hv.elim
  | fixedArray items => exact hv.elim
  | tuple fields => exact hv.elim
  | _ =>
      cases h
      constructor

theorem renders_ofItems {components : List Param} {items : List DynSolValue} {js : List Value}
    (len : Option Nat) (hlen : items.length = js.length)
    (h : ∀ (i : Nat) (hi : i < items.length) (hj : i < js.length),
      Renders D components items[i] js[i]) :
    Renders D components (.ofItems items len) (.array js) := by
  cases len with
  | none => exact .array hlen h
  | some k => exact .fixedArray hlen h

theorem map_fst_insertions {components : List Param} {js : List Value}
    (h : components.length = js.length) :
    (insertions components js).map Prod.fst = components.map Param.name :=
  List.map_fst_zip (by rw [List.length_map, h])

theorem length_insertions (components : List Param) (js : List Value) :
    (insertions components js).length = min components.length js.length := by
  rw [insertions, List.length_zip, List.length_map]

theorem getElem_insertions {components : List Param} {js : List Value} {i : Nat}
    (h : i < (insertions components js).length) (hc : i < components.length)
    (hj : i < js.length) : (insertions components js)[i] = (components[i].name, js[i]) := by
  simp only [insertions, List.getElem_zip, List.getElem_map]

/-- What a named tuple's object holds at a key: the field of the last component of
that name. -/
theorem lookup_rendered_iff {components : List Param} {js : List Value}
    (hlen : components.length = js.length) {key : String} {x : Value} :
    ((SortedMap.empty : Map).insertAll (insertions components js)).entries.lookup key = some x ↔
      ∃ (i : Nat) (hc : i < components.length) (hj : i < js.length),
        components[i].name = key ∧ js[i] = x ∧
        ∀ (k : Nat) (hk : k < components.length), i < k → components[k].name ≠ key := by
  have hins : (insertions components js).length = components.length := by
    rw [length_insertions, hlen, Nat.min_self]
  show SortedMap.get _ key = some x ↔ _
  rw [SortedMap.get_insertAll_empty, SortedMap.lookup_reverse_eq_some_iff]
  constructor
  · rintro ⟨i, hi, heq, hlast⟩
    have hc := hins ▸ hi
    have hj := hlen ▸ hc
    rw [getElem_insertions hi hc hj, Prod.mk.injEq] at heq
    refine ⟨i, hc, hj, heq.1, heq.2, fun k hk hik => ?_⟩
    have hne := hlast k (hins.symm ▸ hk) hik
    rwa [getElem_insertions _ hk (hlen ▸ hk)] at hne
  · rintro ⟨i, hc, hj, rfl, rfl, hlast⟩
    refine ⟨i, hins.symm ▸ hc, getElem_insertions _ hc hj, fun k hk hik => ?_⟩
    have hkc := hins ▸ hk
    rw [getElem_insertions hk hkc (hlen ▸ hkc)]
    exact hlast k hkc hik

theorem renders_tuple {components : List Param} {fields : List DynSolValue} {js : List Value}
    (hlen : components.length = fields.length) (hlen' : fields.length = js.length)
    (h : ∀ (i : Nat) (hc : i < components.length) (hf : i < fields.length) (hj : i < js.length),
      Renders D components[i].components fields[i] js[i]) :
    Renders D components (.tuple fields) (tupleShape components js) := by
  simp only [tupleShape]
  cases hnamed : allNamed components with
  | false =>
      refine .positional (fun hnames => ?_) hlen hlen' h
      rw [allNamed_iff.mpr hnames] at hnamed
      cases hnamed
  | true =>
      have hfst := map_fst_insertions (hlen.trans hlen')
      refine .named (allNamed_iff.mp hnamed) hlen hlen' h ?_ ?_ ?_ ?_
      · intro e he
        exact SortedMap.mem_of_mem_insertAll_empty he
      · exact SortedMap.keys_nodup _
      · intro key
        rw [← hfst]
        exact SortedMap.mem_keys_insertAll_empty key _
      · intro i hc hj hlast
        exact (lookup_rendered_iff (hlen.trans hlen')).mpr ⟨i, hc, hj, rfl, rfl, hlast⟩

/-- An answer has viem's shape. -/
theorem renders_of_ok (v : DynSolValue) : ∀ {p : Param} {j : Value},
    D.valueToJson p v = .ok j → Renders D p.components v j := by
  induction v using DynSolValue.nodeInduction with
  | scalar v hv =>
      intro p j h
      exact renders_scalar hv h
  | items items len ih =>
      intro p j h
      rw [valueToJson_ofItems] at h
      obtain ⟨js, hjs, rfl⟩ := map_eq_ok.mp h
      refine renders_ofItems len (length_of_mapM_eq_ok hjs) fun i hi hj => ?_
      exact ih _ (List.getElem_mem hi) (getElem_of_mapM_eq_ok hjs i hi hj)
  | tuple fields ih =>
      intro p j h
      rw [valueToJson_tuple] at h
      obtain ⟨hlen, js, hjs, rfl⟩ := tupleToJson_eq_ok_iff.mp h
      have hlen' := length_of_mapM_eq_ok hjs
      rw [List.length_zip, hlen, Nat.min_self] at hlen'
      refine renders_tuple hlen hlen' fun i hc hf hj => ?_
      have hi : i < (p.components.zip fields).length := by
        rw [List.length_zip]
        exact lt_min hc hf
      have hfield := getElem_of_mapM_eq_ok hjs i hi hj
      rw [List.getElem_zip] at hfield
      exact ih _ (List.getElem_mem hf) hfield

/-- Where the tuples fit, a refusal is about a leaf. -/
theorem error_of_shaped (v : DynSolValue) : ∀ {p : Param} {e : AbiError},
    Shaped p.components v → D.valueToJson p v = .error e →
      (∃ msg, e = .decodeFailed msg) ∨ ∃ ty, e = .unsupportedType ty := by
  induction v using DynSolValue.nodeInduction with
  | scalar v hv =>
      intro p e _ h
      cases v with
      | uint u size => exact Or.inl (intToJson_error h)
      | int i size => exact Or.inl (intToJson_error h)
      | function f =>
          cases h
          exact Or.inr ⟨_, rfl⟩
      | array items => exact hv.elim
      | fixedArray items => exact hv.elim
      | tuple fields => exact hv.elim
      | _ => cases h
  | items items len ih =>
      intro p e hshape h
      rw [valueToJson_ofItems] at h
      obtain ⟨v, hv, he⟩ := exists_of_mapM_eq_error (map_eq_error.mp h)
      exact ih v hv ((shaped_ofItems_iff len).mp hshape v hv) he
  | tuple fields ih =>
      intro p e hshape h
      cases hshape with
      | scalar hs => exact hs.elim
      | tuple hlen hs =>
          rw [valueToJson_tuple, tupleToJson, if_neg (not_not.mpr hlen)] at h
          obtain ⟨x, hx, he⟩ := exists_of_mapM_eq_error (map_eq_error.mp h)
          exact ih x.2 (List.of_mem_zip hx).2 (hs x hx) he

end Deps

theorem Renders.null_free {D : Deps} {components : List Param} {v : DynSolValue} {j : Value}
    (h : Renders D components v j) : ¬ Value.Within .null j := by
  -- a `null` inside an array or an object is inside one of its children
  have hchild : ∀ {j : Value}, j ≠ .null → (∀ x, Value.Child x j → ¬ Value.Within .null x) →
      ¬ Value.Within .null j := by
    intro j hne hall hwithin
    rcases Relation.ReflTransGen.cases_tail hwithin with rfl | ⟨x, hx, hxj⟩
    · exact hne rfl
    · exact hall x hxj hx
  induction h with
  | number _ _ _ => exact hchild nofun nofun
  | tag _ _ =>
      refine hchild nofun fun x hx => ?_
      cases hx with
      | entry hmem =>
          cases List.mem_singleton.mp hmem
          exact hchild nofun nofun
  | bool => exact hchild nofun nofun
  | address => exact hchild nofun nofun
  | bytes => exact hchild nofun nofun
  | fixedBytes => exact hchild nofun nofun
  | string => exact hchild nofun nofun
  | array hlen _ ih =>
      refine hchild nofun fun x hx => ?_
      cases hx with
      | item hmem =>
          obtain ⟨i, hi, rfl⟩ := List.mem_iff_getElem.mp hmem
          exact ih i (hlen ▸ hi) hi
  | fixedArray hlen _ ih =>
      refine hchild nofun fun x hx => ?_
      cases hx with
      | item hmem =>
          obtain ⟨i, hi, rfl⟩ := List.mem_iff_getElem.mp hmem
          exact ih i (hlen ▸ hi) hi
  | named _ hlen hlen' _ hmem _ _ _ ih =>
      refine hchild nofun fun x hx => ?_
      cases hx with
      | entry he =>
          obtain ⟨i, hi, rfl⟩ := List.mem_iff_getElem.mp (List.of_mem_zip (hmem _ he)).2
          exact ih i (by omega) (by omega) hi
  | positional _ hlen hlen' _ ih =>
      refine hchild nofun fun x hx => ?_
      cases hx with
      | item hmem =>
          obtain ⟨i, hi, rfl⟩ := List.mem_iff_getElem.mp hmem
          exact ih i (by omega) (by omega) hi

/-! ## Tuples described by components -/

/-- Neither an array nor a tuple. -/
def DynSolType.Scalar : DynSolType → Prop
  | .array _ | .fixedArray _ _ | .tuple _ => False
  | _ => True

/-- Every tuple of the type is the tuple of its components. -/
inductive Described : List Param → DynSolType → Prop
  | scalar {components : List Param} {t : DynSolType} : t.Scalar → Described components t
  | array {components : List Param} {t : DynSolType} :
      Described components t → Described components (.array t)
  | fixedArray {components : List Param} {t : DynSolType} {size : Nat} :
      Described components t → Described components (.fixedArray t size)
  | tuple {components : List Param} {ts : List DynSolType} :
      components.length = ts.length →
      (∀ (i : Nat) (hc : i < components.length) (ht : i < ts.length),
        Described components[i].components ts[i]) →
      Described components (.tuple ts)

theorem matches_scalar {t : DynSolType} (ht : t.Scalar) {v : DynSolValue} (hv : t.Matches v) :
    v.Scalar := by
  cases t with
  | array _ => exact ht.elim
  | fixedArray _ _ => exact ht.elim
  | tuple _ => exact ht.elim
  | _ =>
      cases v with
      | array _ => exact hv.elim
      | fixedArray _ => exact hv.elim
      | tuple _ => exact hv.elim
      | _ => trivial

/-- A value of a described type has the shape of the components. -/
theorem shaped_of_matches {components : List Param} {t : DynSolType}
    (h : Described components t) : ∀ {v : DynSolValue}, t.Matches v → Shaped components v := by
  induction h with
  | scalar ht =>
      intro v hv
      exact .scalar (matches_scalar ht hv)
  | array _ ih =>
      intro v hv
      cases v with
      | array items => exact .array fun x hx => ih (hv x hx)
      | _ => exact hv.elim
  | fixedArray _ ih =>
      intro v hv
      cases v with
      | fixedArray items => exact .fixedArray fun x hx => ih (hv.2 x hx)
      | _ => exact hv.elim
  | tuple hlen _ ih =>
      intro v hv
      cases v with
      | tuple fields =>
          obtain ⟨hlen', hget⟩ := List.forall₂_iff_get.mp (matchesAll_iff.mp hv)
          refine .tuple (hlen.trans hlen') fun e he => ?_
          obtain ⟨i, hi, rfl⟩ := List.mem_iff_getElem.mp he
          rw [List.length_zip, lt_min_iff] at hi
          rw [List.getElem_zip]
          exact ih i hi.1 (hlen ▸ hi.1) (hget i (hlen ▸ hi.1) hi.2)
      | _ => exact hv.elim

/-- Decoding refuses exactly what JavaScript cannot hold, and otherwise shows
viem's shape. -/
theorem decode_renders (D : Deps) {p : Param}
    (hp : ∀ t, D.resolve p = some t → Described p.components t) {t : DynSolType}
    (ht : D.resolve p = some t) {v : DynSolValue} (hv : t.Matches v) :
    ((∃ e, D.valueToJson p v = .error e) ↔ ∃ x : DynSolValue, x.In v ∧ x.Refused) ∧
    (∀ what expected actual,
      D.valueToJson p v ≠ .error (.arityMismatch what expected actual)) ∧
    ∀ j, D.valueToJson p v = .ok j → Renders D p.components v j ∧ ¬ Value.Within .null j := by
  have hshape := shaped_of_matches (hp t ht) hv
  refine ⟨?_, ?_, ?_⟩
  · rw [← not_ok_iff_error, Deps.valueToJson_ok_iff]
    simp only [hshape, true_and, not_forall, not_not, exists_prop]
  · intro what expected actual h
    rcases Deps.error_of_shaped v hshape h with ⟨msg, he⟩ | ⟨ty, he⟩
    · cases he
    · cases he
  · intro j h
    have hrenders := Deps.renders_of_ok v h
    exact ⟨hrenders, hrenders.null_free⟩

/-! A list of orders: a fully named tuple with a narrow and a wide field. -/

def ordersParam : Param :=
  ⟨"tuple[]", "orders", [⟨"uint48", "nonce", []⟩, ⟨"uint256", "amount", []⟩]⟩

def ordersType : DynSolType := .array (.tuple [.uint 48, .uint 256])

def ordersValue (nonce : U256) : DynSolValue := .array [.tuple [.uint nonce 48, .uint 5 256]]

theorem described_orders : Described ordersParam.components (.tuple [.uint 48, .uint 256]) :=
  .tuple rfl fun i hc ht => by
    match i, hc, ht with
    | 0, _, _ => exact .scalar trivial
    | 1, _, _ => exact .scalar trivial

theorem decode_renders_orders :
    Renders reference₀ ordersParam.components (ordersValue 7)
      (.array [.object [("amount", bigintTag "5"), ("nonce", digit 7)]]) ∧
    ∃ e, reference₀.valueToJson ordersParam (ordersValue 9007199254740992) = .error e := by
  have hres : reference₀.resolve ordersParam = some ordersType := rfl
  have hp : ∀ t, reference₀.resolve ordersParam = some t → Described ordersParam.components t := by
    intro t ht
    rw [hres] at ht
    cases ht
    exact .array described_orders
  have hmatches : ∀ nonce, ordersType.Matches (ordersValue nonce) := by
    intro nonce v hv
    rw [List.mem_singleton.mp hv]
    exact ⟨rfl, rfl, trivial⟩
  constructor
  · exact ((decode_renders reference₀ hp hres (hmatches 7)).2.2 _ rfl).1
  · refine (decode_renders reference₀ hp hres (hmatches 9007199254740992)).1.mpr
      ⟨.uint 9007199254740992 48, ?_, ?_⟩
    · exact .array List.mem_cons_self (.tuple List.mem_cons_self .here)
    · exact ⟨by decide, by unfold Safe; decide⟩

end AmbireCrypto
