/-
# `AmbireCrypto.KeyOrder` — the order of an object's keys

`tupleToJson` inserts the fields in ABI order, which is the order viem assigns
them in.  The map they go into sorts its keys by their bytes, so that order
survives only where it was ascending already.

## What is proved

`KeepsAbiOrder` is what viem does, for every tuple shown in an answer whose components
are all named and no two of them alike.  `key_order_iff` says that an answer has it
exactly when the names of each such tuple ascend; of the values it asks nothing.

One tuple is a run of insertions, and the map's own lemma says in which order its
keys come out (`SortedMap.keys_insertAll_eq_iff`, here `keys_tupleShape_iff`).
`atPath_of_shown` finds the object of each tuple in the answer, wherever it stands.

Tuples with a name given twice are left out: of those fewer keys come out than there are
names, and which fields survive is in `Positions`.
-/
import AmbireCrypto.Positions
import AmbireCrypto.Lib.Utf8Order

namespace AmbireCrypto

open Traverse

/-- All named, and no two alike. -/
def NamedApart (components : List Param) : Prop :=
  allNamed components = true ∧ (components.map Param.name).Nodup

/-- Every fully and distinctly named tuple is shown as an object with its keys in
ABI order. -/
def KeepsAbiOrder (p : Param) (v : DynSolValue) (j : Value) : Prop :=
  ∀ (path : List Step) (q : Param) (fields : List DynSolValue),
    Shown q (.tuple fields) path p v → NamedApart q.components →
      ∃ es, j.atPath path = some (.object es) ∧ es.map Prod.fst = q.components.map Param.name

/-- The names ascend, as bytes. -/
def NamesAscend (components : List Param) : Prop :=
  (components.map Param.name).Pairwise fun a b => Utf8Order.bytes a < Utf8Order.bytes b

theorem namesAscend_iff {components : List Param} :
    NamesAscend components ↔ (components.map Param.name).Pairwise (· < ·) := by
  simp only [NamesAscend]
  simp only [Utf8Order.bytes_lt_iff]

/-- The keys of a named tuple's object are its names in order exactly when the
names ascend. -/
theorem keys_tupleShape_iff {components : List Param} {js : List Value}
    (hnamed : allNamed components = true) (hlen : components.length = js.length) :
    (∃ es, tupleShape components js = .object es ∧ es.map Prod.fst = components.map Param.name) ↔
      NamesAscend components := by
  have hiff := SortedMap.keys_insertAll_eq_iff (insertions components js)
  rw [Deps.map_fst_insertions hlen] at hiff
  rw [namesAscend_iff, ← hiff, tupleShape, hnamed]
  constructor
  · rintro ⟨es, heq, hkeys⟩
    cases heq
    exact hkeys
  · intro hkeys
    exact ⟨_, rfl, hkeys⟩

/-- ABI order is kept exactly when the names of every such tuple ascend. -/
theorem key_order_iff (D : Deps) {p : Param} {v : DynSolValue} {j : Value}
    (h : D.valueToJson p v = .ok j) :
    KeepsAbiOrder p v j ↔
      ∀ (path : List Step) (q : Param) (fields : List DynSolValue),
        Shown q (.tuple fields) path p v → NamedApart q.components →
          NamesAscend q.components := by
  refine forall₃_congr fun path q fields => forall₂_congr fun hshown hnames => ?_
  obtain ⟨k, hat, hk⟩ := Deps.atPath_of_shown hshown h
  rw [Deps.valueToJson_tuple] at hk
  obtain ⟨hlen, js, hjs, rfl⟩ := Deps.tupleToJson_eq_ok_iff.mp hk
  rw [hat, ← keys_tupleShape_iff hnames.1 (Deps.length_rendered hlen hjs)]
  simp only [Option.some.injEq]

/-- A reserve pair, its names in descending order. -/
def pairParam (first second : String) : Param :=
  ⟨"tuple", "", [⟨"uint8", first, []⟩, ⟨"uint8", second, []⟩]⟩

def pairValue : DynSolValue := .tuple [.uint 1 8, .uint 2 8]

def pairJson (first second : String) : Value :=
  .object [(first, digit 1), (second, digit 2)]

theorem exists_of_getElem?_pair {i : Nat} {f : DynSolValue}
    (hf : [DynSolValue.uint 1 8, .uint 2 8][i]? = some f) : ∃ n, f = .uint n 8 := by
  obtain ⟨hi, rfl⟩ := List.getElem?_eq_some_iff.mp hf
  match i, hi with
  | 0, _ => exact ⟨1, rfl⟩
  | 1, _ => exact ⟨2, rfl⟩

theorem shown_pair {first second : String} {path : List Step} {q : Param}
    {fields : List DynSolValue} (h : Shown q (.tuple fields) path (pairParam first second) pairValue) :
    path = [] ∧ q = pairParam first second := by
  cases h with
  | here => exact ⟨rfl, rfl⟩
  | positional _ _ hf hshown =>
      obtain ⟨i, rfl⟩ := exists_of_getElem?_pair hf
      cases hshown
  | named _ _ hf _ hshown =>
      obtain ⟨i, rfl⟩ := exists_of_getElem?_pair hf
      cases hshown

theorem key_order_iff_ascending :
    KeepsAbiOrder (pairParam "reserve0" "reserve1") pairValue (pairJson "reserve0" "reserve1") := by
  refine (key_order_iff reference₀ rfl).mpr fun path q fields hshown _ => ?_
  obtain ⟨-, rfl⟩ := shown_pair hshown
  rw [namesAscend_iff]
  decide

theorem descending_names_sorted :
    ¬ ∀ (D : Deps) (p : Param) (v : DynSolValue) (j : Value), D.valueToJson p v = .ok j →
      KeepsAbiOrder p v j := by
  intro h
  obtain ⟨es, hat, hkeys⟩ := h reference₀ (pairParam "to" "amount") pairValue
    (.object [("amount", digit 2), ("to", digit 1)])
    rfl [] _ _ .here ⟨rfl, by decide⟩
  cases hat
  exact absurd hkeys (by decide)

end AmbireCrypto
