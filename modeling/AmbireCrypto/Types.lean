/-
# `AmbireCrypto.Types` — the data the crate passes around

The error type the exported functions hand back, the ABI description alloy
parses (`Param`, `Function`, `JsonAbi`), its types and its values.

Integers are 256-bit words next to the width the type declares, because that is
what alloy decodes: nothing ties the word to the width.  `DynSolValue::Int` and
`DynSolValue::Uint` therefore share the word type, and a signed word is read
with `BitVec.toInt`.

The three recursive types nest through `List`, so each gets the induction
principle that hands its hypothesis out entry by entry; `induction` uses these
from here on.
-/
import Mathlib.Data.List.Basic
import Mathlib.Algebra.Order.Ring.Int

namespace AmbireCrypto

/-! ## Errors -/

/-- Every way a native call can hand back to viem.  A failure of the crates
underneath arrives as the text of its message. -/
inductive AbiError
  | invalidAbi (msg : String)
  | functionNotFound (name : String)
  | ambiguousOverload (name : String) (count : Nat)
  | invalidHex (msg : String)
  | unsupportedType (ty : String)
  | arityMismatch (what : String) (expected actual : Nat)
  | decodeFailed (msg : String)
  | encodeFailed (msg : String)
  | invalidArgument (msg : String)
  | invalidAddress (msg : String)
  | bytesSizeMismatch (expected actual : Nat)
  | integerOutOfRange (value ty : String)
deriving DecidableEq, Repr

/-- ABI counts always fit a `u32`; one that did not would be clamped. -/
def abiCount (count : Nat) : Nat := min count (2 ^ 32 - 1)

/-- The source's `arity_mismatch`: the counts of both sides, clamped. -/
def arityMismatch (what : String) (expected actual : Nat) : AbiError :=
  .arityMismatch what (abiCount expected) (abiCount actual)

/-! ## Bytes and words -/

/-- A byte string of a fixed length. -/
structure FixedBytes (n : Nat) where
  bytes : List UInt8
  length_eq : bytes.length = n
deriving DecidableEq

abbrev Address := FixedBytes 20

abbrev B256 := FixedBytes 32

/-- A 256-bit machine word, signed or not. -/
abbrev U256 := BitVec 256

/-! ## The ABI -/

/-- A parameter, or a component of a tuple.  `components` describe a tuple's
fields, or the fields of each element in an array of tuples. -/
structure Param where
  ty : String
  name : String
  components : List Param

structure Function where
  name : String
  inputs : List Param
  outputs : List Param

/-- The functions of a contract, by name; overloads share one. -/
structure JsonAbi where
  functions : List (String × List Function)

/-- A Solidity type, resolved. -/
inductive DynSolType
  | bool
  | int (size : Nat)
  | uint (size : Nat)
  | fixedBytes (size : Nat)
  | address
  | function
  | bytes
  | string
  | array (inner : DynSolType)
  | fixedArray (inner : DynSolType) (size : Nat)
  | tuple (fields : List DynSolType)

/-- A Solidity value.  An integer carries the word it was decoded from and the
width its type declares. -/
inductive DynSolValue
  | bool (b : Bool)
  | int (i : U256) (size : Nat)
  | uint (u : U256) (size : Nat)
  | fixedBytes (word : B256) (size : Nat)
  | address (a : Address)
  | function (f : FixedBytes 24)
  | bytes (b : List UInt8)
  | string (s : String)
  | array (items : List DynSolValue)
  | fixedArray (items : List DynSolValue)
  | tuple (fields : List DynSolValue)

/-! ## Induction through the lists -/

@[elab_as_elim, induction_eliminator]
theorem Param.induction {motive : Param → Prop}
    (mk : ∀ ty name components, (∀ c ∈ components, motive c) → motive ⟨ty, name, components⟩)
    (p : Param) : motive p :=
  @Param.rec motive (fun cs => ∀ c ∈ cs, motive c)
    mk (fun _ h => absurd h List.not_mem_nil)
    (fun _ _ ih ihs c hc => by
      rcases List.mem_cons.mp hc with rfl | hc
      · exact ih
      · exact ihs c hc) p

@[elab_as_elim, induction_eliminator]
theorem DynSolType.induction {motive : DynSolType → Prop}
    (bool : motive .bool) (int : ∀ size, motive (.int size)) (uint : ∀ size, motive (.uint size))
    (fixedBytes : ∀ size, motive (.fixedBytes size)) (address : motive .address)
    (function : motive .function) (bytes : motive .bytes) (string : motive .string)
    (array : ∀ inner, motive inner → motive (.array inner))
    (fixedArray : ∀ inner size, motive inner → motive (.fixedArray inner size))
    (tuple : ∀ fields, (∀ t ∈ fields, motive t) → motive (.tuple fields))
    (t : DynSolType) : motive t :=
  @DynSolType.rec motive (fun ts => ∀ t ∈ ts, motive t)
    bool int uint fixedBytes address function bytes string array fixedArray tuple
    (fun _ h => absurd h List.not_mem_nil)
    (fun _ _ ih ihs t ht => by
      rcases List.mem_cons.mp ht with rfl | ht
      · exact ih
      · exact ihs t ht) t

@[elab_as_elim, induction_eliminator]
theorem DynSolValue.induction {motive : DynSolValue → Prop}
    (bool : ∀ b, motive (.bool b)) (int : ∀ i size, motive (.int i size))
    (uint : ∀ u size, motive (.uint u size))
    (fixedBytes : ∀ word size, motive (.fixedBytes word size))
    (address : ∀ a, motive (.address a)) (function : ∀ f, motive (.function f))
    (bytes : ∀ b, motive (.bytes b)) (string : ∀ s, motive (.string s))
    (array : ∀ items, (∀ v ∈ items, motive v) → motive (.array items))
    (fixedArray : ∀ items, (∀ v ∈ items, motive v) → motive (.fixedArray items))
    (tuple : ∀ fields, (∀ v ∈ fields, motive v) → motive (.tuple fields))
    (v : DynSolValue) : motive v :=
  @DynSolValue.rec motive (fun vs => ∀ v ∈ vs, motive v)
    bool int uint fixedBytes address function bytes string array fixedArray tuple
    (fun _ h => absurd h List.not_mem_nil)
    (fun _ _ ih ihs v hv => by
      rcases List.mem_cons.mp hv with rfl | hv
      · exact ih
      · exact ihs v hv) v

/-! ## Inside a value -/

namespace DynSolValue

/-- `x.In v`: `x` is `v`, or stands somewhere inside it. -/
inductive In (x : DynSolValue) : DynSolValue → Prop
  | here : In x x
  | array {items : List DynSolValue} {v : DynSolValue} : v ∈ items → In x v → In x (.array items)
  | fixedArray {items : List DynSolValue} {v : DynSolValue} :
      v ∈ items → In x v → In x (.fixedArray items)
  | tuple {fields : List DynSolValue} {v : DynSolValue} :
      v ∈ fields → In x v → In x (.tuple fields)

/-- `x.Child v`: `x` is an item or a field of `v`. -/
inductive Child (x : DynSolValue) : DynSolValue → Prop
  | array {items : List DynSolValue} : x ∈ items → Child x (.array items)
  | fixedArray {items : List DynSolValue} : x ∈ items → Child x (.fixedArray items)
  | tuple {fields : List DynSolValue} : x ∈ fields → Child x (.tuple fields)

theorem In.of_child {x y v : DynSolValue} (hy : Child y v) (hx : In x y) : In x v := by
  cases hy with
  | array hmem => exact .array hmem hx
  | fixedArray hmem => exact .fixedArray hmem hx
  | tuple hmem => exact .tuple hmem hx

@[elab_as_elim]
theorem childInduction {motive : DynSolValue → Prop}
    (step : ∀ v, (∀ x, Child x v → motive x) → motive v) (v : DynSolValue) : motive v := by
  induction v with
  | array items ih =>
      refine step _ fun x hx => ?_
      cases hx with
      | array hmem => exact ih x hmem
  | fixedArray items ih =>
      refine step _ fun x hx => ?_
      cases hx with
      | fixedArray hmem => exact ih x hmem
  | tuple fields ih =>
      refine step _ fun x hx => ?_
      cases hx with
      | tuple hmem => exact ih x hmem
  | _ => exact step _ nofun

/-- The range of an integer leaf's declared width; nothing for other nodes. -/
def InWidth : DynSolValue → Prop
  | .uint u size => u.toNat < 2 ^ size
  | .int i size => -(2 ^ (size - 1)) ≤ i.toInt ∧ i.toInt < 2 ^ (size - 1)
  | _ => True

/-- A byte leaf is zero behind its declared bytes; nothing for other nodes. -/
def ZeroPadded : DynSolValue → Prop
  | .fixedBytes word size => ∀ b ∈ word.bytes.drop size, b = 0
  | _ => True

/-- Every leaf is one that alloy's own decoder could not have made wider. -/
def Canonical (v : DynSolValue) : Prop :=
  ∀ x : DynSolValue, x.In v → x.InWidth ∧ x.ZeroPadded

/-- An array value of a dimension: of a fixed length or not. -/
def ofItems (items : List DynSolValue) : Option Nat → DynSolValue
  | some _ => .fixedArray items
  | none => .array items

theorem child_ofItems {items : List DynSolValue} (len : Option Nat) {v : DynSolValue}
    (hv : v ∈ items) : v.Child (ofItems items len) := by
  cases len with
  | none => exact .array hv
  | some k => exact .fixedArray hv

theorem forall_in_ofItems_iff {P : DynSolValue → Prop} {items : List DynSolValue}
    (len : Option Nat) :
    (∀ x, In x (ofItems items len) → P x) ↔
      P (ofItems items len) ∧ ∀ v ∈ items, ∀ x, In x v → P x := by
  constructor
  · intro h
    exact ⟨h _ .here, fun v hv x hx => h x (.of_child (child_ofItems len hv) hx)⟩
  · rintro ⟨hnode, h⟩ x hx
    cases len with
    | none =>
        cases hx with
        | here => exact hnode
        | array hv hx => exact h _ hv x hx
    | some k =>
        cases hx with
        | here => exact hnode
        | fixedArray hv hx => exact h _ hv x hx

theorem forall_in_tuple_iff {P : DynSolValue → Prop} {fields : List DynSolValue} :
    (∀ x, In x (.tuple fields) → P x) ↔ P (.tuple fields) ∧ ∀ v ∈ fields, ∀ x, In x v → P x := by
  constructor
  · intro h
    exact ⟨h _ .here, fun v hv x hx => h x (.tuple hv hx)⟩
  · rintro ⟨hnode, h⟩ x hx
    cases hx with
    | here => exact hnode
    | tuple hv hx => exact h _ hv x hx

/-- Not an array and not a tuple. -/
def Scalar : DynSolValue → Prop
  | .array _ | .fixedArray _ | .tuple _ => False
  | _ => True

/-- Induction over the nodes: the scalars all at once, and so the two kinds of
array. -/
@[elab_as_elim]
theorem nodeInduction {motive : DynSolValue → Prop} (scalar : ∀ v, Scalar v → motive v)
    (items : ∀ items len, (∀ v ∈ items, motive v) → motive (ofItems items len))
    (tuple : ∀ fields, (∀ v ∈ fields, motive v) → motive (.tuple fields))
    (v : DynSolValue) : motive v := by
  induction v with
  | array xs ih => exact items xs none ih
  | fixedArray xs ih => exact items xs (some xs.length) ih
  | tuple fields ih => exact tuple fields ih
  | _ => exact scalar _ trivial

theorem forall_in_scalar_iff {P : DynSolValue → Prop} {v : DynSolValue} (hv : v.Scalar) :
    (∀ x, In x v → P x) ↔ P v := by
  constructor
  · intro h
    exact h v .here
  · intro h x hx
    cases hx with
    | here => exact h
    | array _ _ => exact hv.elim
    | fixedArray _ _ => exact hv.elim
    | tuple _ _ => exact hv.elim

end DynSolValue

end AmbireCrypto
