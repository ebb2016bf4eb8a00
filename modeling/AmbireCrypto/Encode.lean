/-
# `AmbireCrypto.Encode` — from JSON arguments to calldata

`jsonToValue` and what it calls.  An array type is peeled off the type string,
a tuple is taken as an object or as an array, and only what is left is resolved
by alloy and coerced.

The recursion is on the JSON, so the three loops of the source are members of one
mutual block: over the items of an array, over the items of a positional tuple,
and over the entries of an object up to the key looked for.  The lemmas at the
end put the loops back: each is a `mapM`, and a lookup a lookup.
-/
import AmbireCrypto.Hex
import AmbireCrypto.Lib.Traverse

namespace AmbireCrypto

def BIGINT_TAG : String := "$bigint"

/-! ## Scalars -/

/-- The richJson tag, a plain string, or a number `serde_json` kept as an
integer. -/
def argToDecimal (value : Value) : Except AbiError String :=
  match (value.get BIGINT_TAG).bind Value.asStr with
  | some tag => .ok tag
  | none =>
      match value.asStr with
      | some s => .ok s
      | none =>
          match value.asNumber with
          | some number =>
              if number.isI64 || number.isU64 then .ok number.display
              else .error (.invalidArgument (number.display ++ " is not an exact integer"))
          | none => .error (.invalidArgument ("expected an integer, got " ++ value.display))

def argToStr (value : Value) (what : String) : Except AbiError String :=
  match value.asStr with
  | some s => .ok s
  | none =>
      .error (.invalidArgument ("expected a " ++ what ++ " string, got " ++ value.display))

/-- A zero word with `bytes` copied over its front. -/
def wordOfPrefix (bytes : List UInt8) : B256 :=
  ⟨(bytes ++ List.replicate 32 0).take 32, by simp⟩

namespace Deps

variable (D : Deps)

/-- `coerce_scalar` of a `uint`, once the text is known. -/
def coerceUint (size : Nat) (decimal : String) : Except AbiError DynSolValue :=
  match u256FromStrRadix10 decimal with
  | .error _ =>
      .error (.invalidArgument ("invalid uint " ++ decimal ++ ": " ++ D.uintErrorText decimal))
  | .ok parsed =>
      if size < Width.bitLen parsed.toNat then
        .error (.integerOutOfRange decimal ("uint" ++ size.repr))
      else .ok (.uint parsed size)

/-- `coerce_scalar` of an `int`.  `bits` counts the sign bit. -/
def coerceInt (size : Nat) (decimal : String) : Except AbiError DynSolValue :=
  match i256FromDecStr decimal with
  | .error _ =>
      .error (.invalidArgument ("invalid int " ++ decimal ++ ": " ++ D.intErrorText decimal))
  | .ok parsed =>
      if size < Width.signedBits parsed.toInt then
        .error (.integerOutOfRange decimal ("int" ++ size.repr))
      else .ok (.int parsed size)

def coerceFixedBytes (n : Nat) (bytes : List UInt8) : Except AbiError DynSolValue :=
  if bytes.length ≠ n then .error (.bytesSizeMismatch (abiCount n) (abiCount bytes.length))
  else .ok (.fixedBytes (wordOfPrefix bytes) n)

def coerceScalar (ty : DynSolType) (value : Value) : Except AbiError DynSolValue :=
  match ty with
  | .bool =>
      match value.asBool with
      | some b => .ok (.bool b)
      | none => .error (.invalidArgument ("expected a bool, got " ++ value.display))
  | .uint size => argToDecimal value >>= D.coerceUint size
  | .int size => argToDecimal value >>= D.coerceInt size
  | .address => DynSolValue.address <$> (argToStr value "address" >>= D.parseViemStrictAddress)
  | .bytes => DynSolValue.bytes <$> (argToStr value "bytes" >>= D.decodeViemHex)
  | .fixedBytes n => argToStr value "bytes" >>= D.decodeViemHex >>= coerceFixedBytes n
  | .string => DynSolValue.string <$> argToStr value "string"
  | other => .error (.unsupportedType (D.debugType other))

end Deps

/-! ## Arrays and tuples -/

/-- The parameter an array's elements are read by: the type without its last
dimension, and no name. -/
def Param.element (param : Param) (base : String) : Param := ⟨base, "", param.components⟩

/-- A fixed array type wants exactly its length. -/
def checkLength (ty : String) (len : Option Nat) (actual : Nat) : Except AbiError Unit :=
  match len with
  | some expected =>
      if actual ≠ expected then .error (arityMismatch (ty ++ " items") expected actual) else .ok ()
  | none => .ok ()

def missingField (component : Param) : AbiError :=
  .invalidArgument ("missing tuple field: " ++ component.name)

namespace Deps

variable (D : Deps)

mutual
def jsonToValue (param : Param) (value : Value) : Except AbiError DynSolValue :=
  match splitArrayType D.usizeMax param.ty with
  | some (base, len) =>
      match value with
      | .array items => do
          checkLength param.ty len items.length
          let values ← itemsToValues (param.element base) items
          .ok (DynSolValue.ofItems values len)
      | _ => .error (.invalidArgument ("expected an array for " ++ param.ty))
  | none =>
      if param.ty = "tuple" then
        match value with
        | .object entries =>
            DynSolValue.tuple <$> param.components.mapM fun component =>
              entryToValue component entries
        | .array items =>
            if items.length ≠ param.components.length then
              .error (arityMismatch "tuple fields" param.components.length items.length)
            else DynSolValue.tuple <$> fieldsToValues param.components items
        | _ => .error (.invalidArgument "expected an object or array for a tuple")
      else
        match D.resolve param with
        | none => .error (.unsupportedType (param.ty ++ ": " ++ D.resolveErrorText param))
        | some ty => D.coerceScalar ty value
/-- The items of an array, all by one parameter. -/
def itemsToValues (element : Param) (items : List Value) : Except AbiError (List DynSolValue) :=
  match items with
  | [] => .ok []
  | item :: items => do
      let v ← jsonToValue element item
      let vs ← itemsToValues element items
      .ok (v :: vs)
/-- The items of a positional tuple, zipped with the components. -/
def fieldsToValues (components : List Param) (items : List Value) :
    Except AbiError (List DynSolValue) :=
  match items with
  | [] => .ok []
  | item :: items =>
      match components with
      | [] => .ok []
      | component :: components => do
          let v ← jsonToValue component item
          let vs ← fieldsToValues components items
          .ok (v :: vs)
/-- The field a component names: the walk ends at its key. -/
def entryToValue (component : Param) (entries : List (String × Value)) :
    Except AbiError DynSolValue :=
  match entries with
  | [] => .error (missingField component)
  | e :: entries =>
      if component.name = e.1 then jsonToValue component e.2 else entryToValue component entries
end

end Deps

/-! ## The call -/

def findFunction (abi : JsonAbi) (name : String) : Except AbiError Function :=
  match abi.functions.lookup name with
  | none => .error (.functionNotFound name)
  | some [] => .error (.functionNotFound name)
  | some [func] => .ok func
  | some overloads => .error (.ambiguousOverload name (abiCount overloads.length))

namespace Deps

variable (D : Deps)

/-- All arguments, coerced. -/
def coerceArgs (inputs : List Param) (args : List Value) : Except AbiError (List DynSolValue) :=
  (inputs.zip args).mapM fun e => D.jsonToValue e.1 e.2

/-- `encode_function_data` after the ABI and the arguments are parsed. -/
def encodeArgs (func : Function) (args : Value) : Except AbiError String :=
  match args.asArray with
  | none => .error (.invalidArgument "args must be a JSON array")
  | some args =>
      if args.length ≠ func.inputs.length then
        .error (arityMismatch "args" func.inputs.length args.length)
      else do
        let values ← D.coerceArgs func.inputs args
        match D.abiEncodeInput func values with
        | .error msg => .error (.encodeFailed msg)
        | .ok calldata => .ok (hexEncodePrefixed calldata)

def encodeFunctionData (abiJson functionName argsJson : String) : Except AbiError String :=
  match D.parseAbi abiJson with
  | .error msg => .error (.invalidAbi msg)
  | .ok abi => do
      let func ← findFunction abi functionName
      match D.parseJson argsJson with
      | .error msg => .error (.invalidArgument msg)
      | .ok args => D.encodeArgs func args

/-! ## The loops, put back -/

theorem itemsToValues_eq (element : Param) : ∀ items : List Value,
    D.itemsToValues element items = items.mapM (D.jsonToValue element)
  | [] => rfl
  | item :: items => by
      rw [itemsToValues, itemsToValues_eq element items, List.mapM_cons]
      rfl

theorem fieldsToValues_eq : ∀ (components : List Param) (items : List Value),
    D.fieldsToValues components items = D.coerceArgs components items
  | [], [] => rfl
  | [], _ :: _ => rfl
  | _ :: _, [] => rfl
  | component :: components, item :: items => by
      rw [fieldsToValues, fieldsToValues_eq components items, coerceArgs, coerceArgs,
        List.zip_cons_cons, List.mapM_cons]
      rfl

/-- What an object holds for a component, read by it. -/
def lookupToValue (entries : List (String × Value)) (component : Param) :
    Except AbiError DynSolValue :=
  match entries.lookup component.name with
  | none => .error (missingField component)
  | some field => D.jsonToValue component field

theorem entryToValue_eq (component : Param) : ∀ entries : List (String × Value),
    D.entryToValue component entries = D.lookupToValue entries component
  | [] => rfl
  | e :: entries => by
      rw [entryToValue, entryToValue_eq component entries, lookupToValue, lookupToValue,
        SortedMap.lookup_cons_ite]
      split <;> rfl

/-! ## One equation for each shape -/

section Shapes

variable {D} {p : Param} {base : String} {len : Option Nat}

theorem jsonToValue_array (h : splitArrayType D.usizeMax p.ty = some (base, len))
    (items : List Value) :
    D.jsonToValue p (.array items) =
      checkLength p.ty len items.length >>= fun _ =>
        (DynSolValue.ofItems · len) <$> items.mapM (D.jsonToValue (p.element base)) := by
  rw [jsonToValue, h]
  show (checkLength _ _ _ >>= fun _ => D.itemsToValues _ _ >>= _) = _
  rw [itemsToValues_eq]
  rfl

theorem jsonToValue_not_array (h : splitArrayType D.usizeMax p.ty = some (base, len))
    {v : Value} (hv : v.asArray = none) :
    D.jsonToValue p v = .error (.invalidArgument ("expected an array for " ++ p.ty)) := by
  unfold jsonToValue
  rw [h]
  cases v with
  | array items => cases hv
  | _ => rfl

theorem jsonToValue_object (h : p.ty = "tuple") (entries : List (String × Value)) :
    D.jsonToValue p (.object entries) =
      DynSolValue.tuple <$> p.components.mapM (D.lookupToValue entries) := by
  rw [jsonToValue, h, splitArrayType_tuple]
  show DynSolValue.tuple <$> p.components.mapM _ = _
  rw [Traverse.mapM_congr fun component _ => D.entryToValue_eq component entries]

theorem jsonToValue_positional (h : p.ty = "tuple") (items : List Value) :
    D.jsonToValue p (.array items) =
      if items.length ≠ p.components.length then
        .error (arityMismatch "tuple fields" p.components.length items.length)
      else DynSolValue.tuple <$> D.coerceArgs p.components items := by
  rw [jsonToValue, h, splitArrayType_tuple, ← fieldsToValues_eq]
  rfl

theorem jsonToValue_not_tuple (h : p.ty = "tuple") {v : Value} (hv : v.asArray = none)
    (hobj : v.asObject = none) :
    D.jsonToValue p v = .error (.invalidArgument "expected an object or array for a tuple") := by
  unfold jsonToValue
  rw [h, splitArrayType_tuple]
  cases v with
  | array items => cases hv
  | object entries => cases hobj
  | _ => rfl

theorem jsonToValue_scalar (hsplit : splitArrayType D.usizeMax p.ty = none) (h : p.ty ≠ "tuple")
    (v : Value) :
    D.jsonToValue p v =
      match D.resolve p with
      | none => .error (.unsupportedType (p.ty ++ ": " ++ D.resolveErrorText p))
      | some ty => D.coerceScalar ty v := by
  unfold jsonToValue
  rw [hsplit]
  exact if_neg h

end Shapes

end Deps

end AmbireCrypto
