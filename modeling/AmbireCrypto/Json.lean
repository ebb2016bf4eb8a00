/-
# `AmbireCrypto.Json` — `serde_json::Value`

A number is what `serde_json` keeps of a literal without its
`arbitrary_precision` feature: an unsigned or a negative 64-bit integer, or else
a float.  The integer bounds are fields, so a `Number` cannot hold an integer
that serde would have turned into a float.  Of a float nothing but its text is
ever used.

An object is a list of entries.  The ones built here come from a `Map`, which
without the `preserve_order` feature keeps its keys in ascending order: that of
their bytes, and so of their characters (`Lib.Utf8Order`).
-/
import AmbireCrypto.Lib.SortedMap
import Mathlib.Data.String.Basic
import Mathlib.Algebra.Order.Ring.Int

namespace AmbireCrypto

/-! ## Numbers -/

inductive Number
  | posInt (n : Nat) (fits : n < 2 ^ 64)
  | negInt (i : Int) (fits : -(2 ^ 63) ≤ i ∧ i < 0)
  | float (text : String)
deriving DecidableEq

namespace Number

def isI64 : Number → Bool
  | posInt n _ => n ≤ 2 ^ 63 - 1
  | negInt _ _ => true
  | float _ => false

def isU64 : Number → Bool
  | posInt _ _ => true
  | negInt _ _ => false
  | float _ => false

def display : Number → String
  | posInt n _ => n.repr
  | negInt i _ => i.repr
  | float text => text

/-- `Number::from(i64)`. -/
def ofI64 (i : Int) (lo : -(2 ^ 63) ≤ i) (hi : i < 2 ^ 63) : Number :=
  if h : i < 0 then negInt i ⟨lo, h⟩ else posInt i.toNat (by omega)

end Number

/-- An integer literal as written: its sign and its digits. -/
structure IntLiteral where
  negative : Bool
  magnitude : Nat

namespace IntLiteral

def value (l : IntLiteral) : Int := if l.negative then -l.magnitude else l.magnitude

/-- The number `serde_json` makes of an integer literal: an integer if it fits
`i64` or `u64`, a float otherwise.  `-0` is a float, as only that has one.
`floatText` is how the float prints. -/
def toNumber (floatText : IntLiteral → String) (l : IntLiteral) : Number :=
  if l.negative then
    if h : 0 < l.magnitude ∧ l.magnitude ≤ 2 ^ 63 then
      .negInt (-l.magnitude) (by omega)
    else .float (floatText l)
  else
    if h : l.magnitude < 2 ^ 64 then .posInt l.magnitude h else .float (floatText l)

end IntLiteral

/-! ## Values -/

inductive Value
  | null
  | bool (b : Bool)
  | number (n : Number)
  | string (s : String)
  | array (items : List Value)
  | object (entries : List (String × Value))

/-- `serde_json::Map`, a `BTreeMap`. -/
abbrev Map := SortedMap String Value

@[elab_as_elim, induction_eliminator]
theorem Value.induction {motive : Value → Prop}
    (null : motive .null) (bool : ∀ b, motive (.bool b)) (number : ∀ n, motive (.number n))
    (string : ∀ s, motive (.string s))
    (array : ∀ items, (∀ v ∈ items, motive v) → motive (.array items))
    (object : ∀ entries, (∀ e ∈ entries, motive e.2) → motive (.object entries))
    (v : Value) : motive v :=
  @Value.rec motive (fun vs => ∀ v ∈ vs, motive v) (fun es => ∀ e ∈ es, motive e.2)
    (fun e => motive e.2)
    null bool number string array object
    (fun _ h => absurd h List.not_mem_nil)
    (fun _ _ ih ihs v hv => by
      rcases List.mem_cons.mp hv with rfl | hv
      · exact ih
      · exact ihs v hv)
    (fun _ h => absurd h List.not_mem_nil)
    (fun _ _ ih ihs e he => by
      rcases List.mem_cons.mp he with rfl | he
      · exact ih
      · exact ihs e he)
    (fun _ _ ih => ih) v

namespace Value

/-- `x.Child v`: `x` is an item or a field of `v`. -/
inductive Child (x : Value) : Value → Prop
  | item {items : List Value} : x ∈ items → Child x (.array items)
  | entry {entries : List (String × Value)} {key : String} :
      (key, x) ∈ entries → Child x (.object entries)

/-- `x.Within v`: `x` is `v`, or stands somewhere inside it. -/
abbrev Within : Value → Value → Prop := Relation.ReflTransGen Child

@[elab_as_elim]
theorem childInduction {motive : Value → Prop}
    (step : ∀ v, (∀ x, Child x v → motive x) → motive v) (v : Value) : motive v := by
  induction v with
  | null => exact step _ nofun
  | bool b => exact step _ nofun
  | number n => exact step _ nofun
  | string s => exact step _ nofun
  | array items ih =>
      refine step _ fun x hx => ?_
      cases hx with
      | item hmem => exact ih x hmem
  | object entries ih =>
      refine step _ fun x hx => ?_
      cases hx with
      | entry hmem => exact ih _ hmem

/-- `Value::get` with a string index: only an object has keys. -/
def get (key : String) : Value → Option Value
  | object entries => entries.lookup key
  | _ => none

@[simp] theorem get_object (key : String) (entries : List (String × Value)) :
    (object entries).get key = entries.lookup key := rfl

def asStr : Value → Option String
  | string s => some s
  | _ => none

def asNumber : Value → Option Number
  | number n => some n
  | _ => none

def asBool : Value → Option Bool
  | bool b => some b
  | _ => none

def asArray : Value → Option (List Value)
  | array items => some items
  | _ => none

def asObject : Value → Option (List (String × Value))
  | object entries => some entries
  | _ => none

end Value

/-! ## The compact text -/

/-- One character of a JSON string: the short escapes, `\u00xx` for the other
control characters, anything else as it is. -/
def escapeChar (c : Char) : List Char :=
  if c = '"' then ['\\', '"']
  else if c = '\\' then ['\\', '\\']
  else if c.toNat = 8 then ['\\', 'b']
  else if c.toNat = 9 then ['\\', 't']
  else if c.toNat = 10 then ['\\', 'n']
  else if c.toNat = 12 then ['\\', 'f']
  else if c.toNat = 13 then ['\\', 'r']
  else if c.toNat < 32 then
    ['\\', 'u', '0', '0', Nat.digitChar (c.toNat / 16), Nat.digitChar (c.toNat % 16)]
  else [c]

def quote (s : String) : String :=
  String.ofList ('"' :: s.toList.flatMap escapeChar ++ ['"'])

mutual
/-- `Display` of a value, which is also what `serde_json::to_string` writes. -/
def Value.display : Value → String
  | .null => "null"
  | .bool b => if b then "true" else "false"
  | .number n => n.display
  | .string s => quote s
  | .array items => "[" ++ ",".intercalate (displayItems items) ++ "]"
  | .object entries => String.ofList ['\x7b'] ++ ",".intercalate (displayEntries entries)
      ++ String.ofList ['\x7d']
def displayItems : List Value → List String
  | [] => []
  | v :: vs => v.display :: displayItems vs
def displayEntries : List (String × Value) → List String
  | [] => []
  | e :: es => (quote e.1 ++ ":" ++ e.2.display) :: displayEntries es
end

example : (Value.object [("amount", .array [.number (.posInt 18 (by decide)), .null])]).display
    = "\x7b\"amount\":[18,null]\x7d" := by decide

end AmbireCrypto
