/-
# `AmbireCrypto.Decode` — from return data to JSON

`valueToJson` and what it calls.  The value's constructors drive it; the
parameter only supplies names.  Every level of an array reuses one parameter,
whose components describe the innermost element.

Nothing checks a decoded word against its declared width, so a narrow integer
can hold far more than its type says.  `intToJson` is where that is caught.

The recursion is on the value; the loops are put back into `mapM` form below, as
in `Encode`.
-/
import AmbireCrypto.Encode

namespace AmbireCrypto

/-- Where viem switches from a plain JS number to a `BigInt`. -/
def JS_SAFE_INT_BITS : Nat := 48

/-- `Number.MAX_SAFE_INTEGER`. -/
def JS_MAX_SAFE_INTEGER : Int := 2 ^ 53 - 1

/-- What viem's `TextDecoder` drops from the start of a decoded string. -/
def BYTE_ORDER_MARK : Char := '\ufeff'

/-! ## Leaves -/

def bigintTag (decimal : String) : Value :=
  .object ((SortedMap.empty : Map).insert BIGINT_TAG (.string decimal)).entries

def intToJson (decimal : String) (size : Nat) : Except AbiError Value :=
  if JS_SAFE_INT_BITS < size then .ok (bigintTag decimal)
  else
    match parseI64 decimal with
    | .error e =>
        .error (.decodeFailed
          (decimal ++ " does not fit the declared " ++ size.repr ++ "-bit width: " ++ e))
    | .ok number =>
        if h : -JS_MAX_SAFE_INTEGER ≤ number ∧ number ≤ JS_MAX_SAFE_INTEGER then
          .ok (.number (.ofI64 number (by unfold JS_MAX_SAFE_INTEGER at h; omega)
            (by unfold JS_MAX_SAFE_INTEGER at h; omega)))
        else .error (.decodeFailed (decimal ++ " is outside the JavaScript safe integer range"))

def stripByteOrderMark (s : String) : String :=
  match stripPrefix [BYTE_ORDER_MARK] s.toList with
  | some rest => String.ofList rest
  | none => s

/-! ## Tuples -/

/-- viem keys by name only when every component has one. -/
def allNamed (components : List Param) : Bool :=
  !components.isEmpty && components.all fun c => !c.name.isEmpty

/-- The names and the rendered fields, in the order they are inserted. -/
def insertions (components : List Param) (rendered : List Value) : List (String × Value) :=
  (components.map Param.name).zip rendered

/-- The object or the array a tuple's rendered fields are put into. -/
def tupleShape (components : List Param) (rendered : List Value) : Value :=
  if allNamed components then
    .object ((SortedMap.empty : Map).insertAll (insertions components rendered)).entries
  else .array rendered

namespace Deps

variable (D : Deps)

mutual
def valueToJson (param : Param) (value : DynSolValue) : Except AbiError Value :=
  match value with
  | .uint u size => intToJson u.toNat.repr size
  | .int i size => intToJson i.toInt.repr size
  | .bool b => .ok (.bool b)
  | .address a => .ok (.string (toChecksum D.keccak256 a))
  | .bytes b => .ok (.string (hexEncodePrefixed b))
  | .fixedBytes word size => .ok (.string (hexEncodePrefixed (word.bytes.take size)))
  | .string s => .ok (.string (stripByteOrderMark s))
  -- elements reuse the same `param`; the value says whether each is a tuple
  | .array items => Value.array <$> itemsToJson param items
  | .fixedArray items => Value.array <$> itemsToJson param items
  -- `tuple_to_json`, spelled out; see `tupleToJson`
  | .tuple fields =>
      if param.components.length ≠ fields.length then
        .error (arityMismatch "tuple fields" param.components.length fields.length)
      else if allNamed param.components then
        (fun obj : Map => Value.object obj.entries) <$>
          namedToJson param.components fields SortedMap.empty
      else Value.array <$> fieldsToJson param.components fields
  | .function f => .error (.unsupportedType (D.debugValue (.function f)))
def itemsToJson (param : Param) (items : List DynSolValue) : Except AbiError (List Value) :=
  match items with
  | [] => .ok []
  | item :: items => do
      let v ← valueToJson param item
      let vs ← itemsToJson param items
      .ok (v :: vs)
/-- The fields of a positional tuple, zipped with the components. -/
def fieldsToJson (components : List Param) (fields : List DynSolValue) :
    Except AbiError (List Value) :=
  match fields with
  | [] => .ok []
  | field :: fields =>
      match components with
      | [] => .ok []
      | component :: components => do
          let v ← valueToJson component field
          let vs ← fieldsToJson components fields
          .ok (v :: vs)
/-- The fields of a named tuple, each inserted once it is rendered. -/
def namedToJson (components : List Param) (fields : List DynSolValue) (obj : Map) :
    Except AbiError Map :=
  match fields with
  | [] => .ok obj
  | field :: fields =>
      match components with
      | [] => .ok obj
      | component :: components => do
          let v ← valueToJson component field
          namedToJson components fields (obj.insert component.name v)
end

/-! ## The call -/

/-- One field, rendered under the name of its component. -/
def renderField (e : Param × DynSolValue) : Except AbiError Value := D.valueToJson e.1 e.2

/-- `decode_function_result` between the decoded values and the text. -/
def valuesToJson (outputs : List Param) (values : List DynSolValue) : Except AbiError Value :=
  if values.length ≠ outputs.length then
    .error (arityMismatch "decoded outputs" outputs.length values.length)
  else
    match outputs.zip values with
    | [] => .ok .null
    | [output] => D.renderField output
    | outputs => Value.array <$> outputs.mapM D.renderField

def decodeFunctionResult (abiJson functionName dataHex : String) : Except AbiError String :=
  match D.parseAbi abiJson with
  | .error msg => .error (.invalidAbi msg)
  | .ok abi => do
      let func ← findFunction abi functionName
      let data ← D.decodeViemHex dataHex
      match D.abiDecodeOutput func data with
      | .error msg => .error (.decodeFailed msg)
      | .ok values => do
          let json ← D.valuesToJson func.outputs values
          .ok json.display

/-! ## The loops, put back -/

theorem itemsToJson_eq (param : Param) : ∀ items : List DynSolValue,
    D.itemsToJson param items = items.mapM (D.valueToJson param)
  | [] => rfl
  | item :: items => by
      rw [itemsToJson, itemsToJson_eq param items, List.mapM_cons]
      rfl

theorem fieldsToJson_eq : ∀ (components : List Param) (fields : List DynSolValue),
    D.fieldsToJson components fields = (components.zip fields).mapM D.renderField
  | [], [] => rfl
  | [], _ :: _ => rfl
  | _ :: _, [] => rfl
  | component :: components, field :: fields => by
      rw [fieldsToJson, fieldsToJson_eq components fields, List.zip_cons_cons, List.mapM_cons]
      rfl

/-- Inserting while rendering is rendering, then inserting. -/
theorem namedToJson_eq : ∀ (components : List Param) (fields : List DynSolValue) (obj : Map),
    D.namedToJson components fields obj =
      (fun rendered => obj.insertAll (insertions components rendered)) <$>
        (components.zip fields).mapM D.renderField
  | [], [], _ => rfl
  | [], _ :: _, _ => rfl
  | _ :: _, [], _ => rfl
  | component :: components, field :: fields, obj => by
      rw [namedToJson, List.zip_cons_cons, List.mapM_cons]
      show (D.valueToJson component field >>= _) = _ <$> (D.valueToJson component field >>= _)
      cases D.valueToJson component field with
      | error e => rfl
      | ok v =>
          show D.namedToJson components fields (obj.insert component.name v) = _ <$> (_ >>= _)
          rw [namedToJson_eq components fields]
          cases (components.zip fields).mapM D.renderField <;> rfl

/-- The source's `tuple_to_json`. -/
def tupleToJson (components : List Param) (fields : List DynSolValue) : Except AbiError Value :=
  if components.length ≠ fields.length then
    .error (arityMismatch "tuple fields" components.length fields.length)
  else tupleShape components <$> (components.zip fields).mapM D.renderField

@[simp] theorem valueToJson_tuple (p : Param) (fields : List DynSolValue) :
    D.valueToJson p (.tuple fields) = D.tupleToJson p.components fields := by
  rw [valueToJson, namedToJson_eq, fieldsToJson_eq, tupleToJson]
  unfold tupleShape
  cases allNamed p.components <;> cases (p.components.zip fields).mapM D.renderField <;> rfl

@[simp] theorem valueToJson_ofItems (p : Param) (items : List DynSolValue) (len : Option Nat) :
    D.valueToJson p (.ofItems items len) = Value.array <$> items.mapM (D.valueToJson p) := by
  cases len with
  | none => rw [DynSolValue.ofItems, valueToJson, itemsToJson_eq]
  | some k => rw [DynSolValue.ofItems, valueToJson, itemsToJson_eq]

end Deps

end AmbireCrypto
