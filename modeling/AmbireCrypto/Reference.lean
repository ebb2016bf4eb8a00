/-
# `AmbireCrypto.Reference` — one instance of the dependencies

`Deps` is a list of assumptions, so it needs an inhabitant, and the concrete runs
later on need one that answers as the real crates do.  `reference` does, on what
those runs ask of it: Solidity's elementary types under their usual names, the
ABI layout of words, one known hash, and the two JSON texts given to it.

It is not a model of alloy.  Outside that domain it answers something admissible,
and no general result mentions it.
-/
import AmbireCrypto.Decode

namespace AmbireCrypto

open Numeral

namespace Reference

/-! ## Types -/

def isIdentifierChar (c : Char) : Bool := c.isAlphanum || c == '_' || c == '$'

def isIdentifier (cs : List Char) : Bool := !cs.isEmpty && cs.all isIdentifierChar

/-- The bits of `uint` and `int`; 256 when none are given. -/
def intWidth (ds : List Char) : Option Nat :=
  if ds = [] then some 256
  else
    match read skipNone 256 ds with
    | .ok n => if 0 < n ∧ n % 8 = 0 then some n else none
    | .error _ => none

/-- The bytes of a `bytesN`. -/
def byteWidth (ds : List Char) : Option Nat :=
  match read skipNone 32 ds with
  | .ok n => if 0 < n then some n else none
  | .error _ => none

def stemType (cs : List Char) : Option DynSolType :=
  if cs = "bool".toList then some .bool
  else if cs = "address".toList then some .address
  else if cs = "function".toList then some .function
  else if cs = "bytes".toList then some .bytes
  else if cs = "string".toList then some .string
  else
    match stripPrefix "uint".toList cs with
    | some ds => (intWidth ds).map .uint
    | none =>
        match stripPrefix "int".toList cs with
        | some ds => (intWidth ds).map .int
        | none => (stripPrefix "bytes".toList cs).bind fun ds => (byteWidth ds).map .fixedBytes

theorem isIdentifier_getLast (s : List Char) (h : isIdentifier s = true) :
    s.getLast? ≠ some ']' := by
  intro hlast
  have hall := (Bool.and_eq_true_iff.mp h).2
  have hc := List.all_eq_true.mp hall ']' (List.mem_of_getLast? hlast)
  exact absurd hc (by decide)

theorem intWidth_ok {ds : List Char} {n : Nat} (h : intWidth ds = some n) :
    0 < n ∧ n ≤ 256 ∧ n % 8 = 0 := by
  simp only [intWidth] at h
  split at h
  · cases h
    decide
  · split at h
    · rename_i m hread
      split at h
      · rename_i hm
        cases h
        exact ⟨hm.1, (read_eq_ok_iff.mp hread).2.2, hm.2⟩
      · cases h
    · cases h

theorem byteWidth_ok {ds : List Char} {n : Nat} (h : byteWidth ds = some n) :
    0 < n ∧ n ≤ 32 := by
  simp only [byteWidth] at h
  split at h
  · rename_i m hread
    split at h
    · rename_i hm
      cases h
      exact ⟨hm, (read_eq_ok_iff.mp hread).2.2⟩
    · cases h
  · cases h

theorem stemType_widths (s : List Char) (t : DynSolType) (h : stemType s = some t) :
    t.WidthsOk := by
  simp only [stemType] at h
  split_ifs at h
  iterate 5
    · cases h
      trivial
  split at h
  · obtain ⟨n, hn, rfl⟩ := Option.map_eq_some_iff.mp h
    exact intWidth_ok hn
  · split at h
    · obtain ⟨n, hn, rfl⟩ := Option.map_eq_some_iff.mp h
      exact intWidth_ok hn
    · obtain ⟨ds, -, h⟩ := Option.bind_eq_some_iff.mp h
      obtain ⟨n, hn, rfl⟩ := Option.map_eq_some_iff.mp h
      exact byteWidth_ok hn

def grammar : TypeGrammar where
  usizeMax := 2 ^ 64 - 1
  isStem := isIdentifier
  stemType := stemType
  isStem_getLast := isIdentifier_getLast
  stemType_tuple := by decide
  stemType_widths := stemType_widths

/-! ## Words -/

/-- A word as 32 bytes, most significant first. -/
def bytesOfWord (w : U256) : List UInt8 :=
  (List.range 32).map fun i => UInt8.ofNat (w.toNat >>> (8 * (31 - i)))

/-- The head of an argument of an elementary static type. -/
def headOf : DynSolValue → List UInt8
  | .bool b => bytesOfWord (if b then 1 else 0)
  | .int i _ => bytesOfWord i
  | .uint u _ => bytesOfWord u
  | .fixedBytes word _ => word.bytes
  | .address a => List.replicate 12 0 ++ a.bytes
  | _ => []

/-- `name(ty,…)`, as its ASCII bytes. -/
def signature (f : Function) : List UInt8 :=
  (f.name ++ "(" ++ ",".intercalate (f.inputs.map Param.ty) ++ ")").toList.map
    fun c => UInt8.ofNat c.toNat

/-- The hash of `transfer(address,uint256)`, and zeros for anything else. -/
def keccak256 (input : List UInt8) : List UInt8 :=
  if input = "transfer(address,uint256)".toList.map (fun c => UInt8.ofNat c.toNat) then
    [0xa9, 0x05, 0x9c, 0xbb, 0x2a, 0xb0, 0x9e, 0xb2, 0x19, 0x58, 0x3f, 0x4a, 0x59, 0xa5, 0xd0, 0x62,
      0x3a, 0xde, 0x34, 0x6d, 0x96, 0x2b, 0xcd, 0x4e, 0x46, 0xb1, 0x1d, 0xa0, 0x47, 0xc9, 0x04, 0x9b]
  else List.replicate 32 0

/-- One word for each type, in order. -/
def decodeTokens : List DynSolType → List UInt8 → Except String (List DynToken)
  | [], _ => .ok []
  | _ :: types, data =>
      if h : 32 ≤ data.length then
        (DynToken.word ⟨data.take 32, by rw [List.length_take]; omega⟩ :: ·) <$>
          decodeTokens types (data.drop 32)
      else .error "buffer overrun while deserializing"

end Reference

/-- The dependencies, given what one ABI text and one argument text parse to. -/
def reference (abi : JsonAbi) (args : Value) : Deps where
  toTypeGrammar := Reference.grammar
  keccak256 := Reference.keccak256
  parseAbi := fun _ => .ok abi
  parseJson := fun _ => .ok args
  abiEncodeInput := fun f values =>
    .ok ((Reference.keccak256 (Reference.signature f)).take 4 ++ values.flatMap Reference.headOf)
  abiEncodeInput_ok := fun _ _ _ => ⟨_, rfl⟩
  decodeTokens := Reference.decodeTokens
  stringFromUtf8Lossy := fun bytes => String.ofList (bytes.map fun b => Char.ofNat b.toNat)
  floatText := fun l => (if l.negative then "-" else "") ++ l.magnitude.repr ++ ".0"
  resolveErrorText := fun p => "invalid type string: " ++ p.ty
  uintErrorText := fun _ => "invalid digit"
  intErrorText := fun _ => "invalid digit"
  hexErrorText := fun _ => "invalid hex"
  addressErrorText := fun _ => "invalid hex"
  detokenizeErrorText := "type mismatch"
  debugType := fun _ => "Function"
  debugValue := fun _ => "Function(..)"

/-- The dependencies where no JSON text is parsed. -/
def reference₀ : Deps := reference ⟨[]⟩ .null

/-- A one-digit JSON number. -/
def digit (d : Fin 10) : Value := .number (.posInt d.val (d.isLt.trans (by decide)))

example : (reference₀.jsonToValue ⟨"uint256[2]", "amounts", []⟩ (.array [.string "5", digit 7]))
      = .ok (.fixedArray [.uint 5 256, .uint 7 256]) := rfl

end AmbireCrypto
