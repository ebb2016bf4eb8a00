/-
# `AmbireCrypto.Deps` — the crates underneath

What the crate calls and does not define.  Three kinds of it:

* functions with a documented result for every input are written out — ruint's
  and alloy's integer parsers, `const-hex`, `Address::from_str`, the EIP-55
  rule, `DynSolType::matches`, `DynSolType::detokenize`;
* functions the results must not depend on are fields of `Deps` without a law —
  the hash, the ABI and JSON text parsers, the ABI byte layout, and the texts of
  the error messages and debug prints;
* the two laws the crate does rely on are fields as well: `TypeGrammar`'s, and
  `abiEncodeInput_ok`, which says when encoding may fail.
-/
import AmbireCrypto.Json
import AmbireCrypto.TypeString
import AmbireCrypto.Lib.HexCodec
import AmbireCrypto.Lib.Width

namespace AmbireCrypto

open Numeral

/-! ## Integer parsers -/

/-- ruint ignores underscores anywhere in a numeral. -/
def skipUnderscore (c : Char) : Bool := c == '_'

/-- `U256::from_str_radix(_, 10)`. -/
def u256FromStrRadix10 (src : String) : Except ReadError U256 :=
  (read skipUnderscore (2 ^ 256 - 1) src.toList).map (BitVec.ofNat 256)

/-- A sign in front of a number. -/
def signed (negative : Bool) (n : Nat) : Int := if negative then -n else n

theorem signed_natAbs (v : Int) : signed (decide (v < 0)) v.natAbs = v := by
  rcases lt_or_ge v 0 with hneg | hpos
  · rw [decide_eq_true hneg]
    show -((v.natAbs : Nat) : Int) = v
    omega
  · rw [decide_eq_false (not_lt.mpr hpos)]
    show ((v.natAbs : Nat) : Int) = v
    omega

/-- The signed word of a sign and an absolute value, if there is one. -/
def i256FromSignAndAbs (negative : Bool) (abs : Nat) : Except ReadError U256 :=
  if negative then
    if abs ≤ 2 ^ 255 then .ok (BitVec.ofInt 256 (-abs)) else .error .overflow
  else
    if abs < 2 ^ 255 then .ok (BitVec.ofInt 256 abs) else .error .overflow

/-- `I256::from_dec_str`: a sign in front, then the absolute value read the same
way, then the range check of the signed word. -/
def i256FromDecStr (src : String) : Except ReadError U256 :=
  read skipUnderscore (2 ^ 256 - 1) (splitSign src.toList).2 >>=
    i256FromSignAndAbs (splitSign src.toList).1

/-- The message of `ParseIntError`. -/
def parseIntErrorText (negative : Bool) : ReadError → String
  | .invalidDigit => "invalid digit found in string"
  | .overflow =>
      if negative then "number too small to fit in target type"
      else "number too large to fit in target type"

/-- `str::parse::<i64>`. -/
def parseI64 (src : String) : Except String Int :=
  let (negative, digits) := splitSign src.toList
  if src.toList = [] then .error "cannot parse integer from empty string"
  else if digits = [] then .error (parseIntErrorText negative .invalidDigit)
  else
    match read skipNone (if negative then 2 ^ 63 else 2 ^ 63 - 1) digits with
    | .error e => .error (parseIntErrorText negative e)
    | .ok abs => .ok (signed negative abs)

/-! ## Hex and addresses -/

/-- `hex::encode_prefixed`. -/
def hexEncodePrefixed (bytes : List UInt8) : String :=
  String.ofList ('0' :: 'x' :: HexCodec.encode bytes)

/-- The one `0x` that `const-hex` drops by itself. -/
def hexStripPrefix : List Char → List Char
  | '0' :: 'x' :: rest => rest
  | cs => cs

/-- `hex::decode`. -/
def hexDecode (src : String) : Option (List UInt8) :=
  HexCodec.decode (hexStripPrefix src.toList)

/-- `Address::from_str`: twenty bytes of hex, the prefix optional. -/
def addressFromStr (src : String) : Option Address :=
  match HexCodec.decode (hexStripPrefix src.toList) with
  | none => none
  | some bytes => if h : bytes.length = 20 then some ⟨bytes, h⟩ else none

/-- The EIP-55 case of the `i`th digit: upper where the hash has a high nibble. -/
def checksumChar (hash : List UInt8) (i : Nat) (c : Char) : Char :=
  let byte := (hash.getD (i / 2) 0).toNat
  let nibble := if i % 2 = 0 then byte / 16 else byte % 16
  if 8 ≤ nibble then c.toUpper else c

/-- `Address::to_checksum(None)`, for any hash. -/
def toChecksum (keccak256 : List UInt8 → List UInt8) (a : Address) : String :=
  let digits := HexCodec.encode a.bytes
  let hash := keccak256 (digits.map fun c => UInt8.ofNat c.toNat)
  String.ofList ('0' :: 'x' :: digits.mapIdx (checksumChar hash))

/-! ## Matching -/

mutual
/-- `DynSolType::matches`: constructors, widths and lengths agree at every node. -/
def DynSolType.Matches : DynSolType → DynSolValue → Prop
  | .bool, .bool _ => True
  | .int size, .int _ size' => size = size'
  | .uint size, .uint _ size' => size = size'
  | .fixedBytes size, .fixedBytes _ size' => size = size'
  | .address, .address _ => True
  | .function, .function _ => True
  | .bytes, .bytes _ => True
  | .string, .string _ => True
  | .array t, .array items => ∀ v ∈ items, t.Matches v
  | .fixedArray t k, .fixedArray items => items.length = k ∧ ∀ v ∈ items, t.Matches v
  | .tuple ts, .tuple fields => MatchesAll ts fields
  | _, _ => False
def MatchesAll : List DynSolType → List DynSolValue → Prop
  | [], [] => True
  | t :: ts, v :: vs => t.Matches v ∧ MatchesAll ts vs
  | _, _ => False
end

theorem matchesAll_iff : ∀ {ts : List DynSolType} {vs : List DynSolValue},
    MatchesAll ts vs ↔ List.Forall₂ DynSolType.Matches ts vs
  | [], [] => ⟨fun _ => .nil, fun _ => trivial⟩
  | t :: ts, v :: vs => by
      rw [MatchesAll, List.forall₂_cons, matchesAll_iff]
  | [], _ :: _ => by simp [MatchesAll]
  | _ :: _, [] => by simp [MatchesAll]

/-! ## Tokens -/

/-- ABI data, cut into the words and byte strings it is made of. -/
inductive DynToken
  | word (w : B256)
  | fixedSeq (tokens : List DynToken)
  | dynSeq (tokens : List DynToken)
  | packed (bytes : List UInt8)

/-- A word as the integer it spells, most significant byte first. -/
def FixedBytes.toWord (w : B256) : U256 :=
  BitVec.ofNat 256 (w.bytes.foldl (fun acc b => 256 * acc + b.toNat) 0)

/-- The `n` bytes of a word after the first `skip`. -/
def FixedBytes.part (w : B256) (skip n : Nat) (h : skip + n ≤ 32) : FixedBytes n :=
  ⟨(w.bytes.drop skip).take n, by
    rw [List.length_take, List.length_drop, w.length_eq]
    omega⟩

mutual
/-- `DynSolType::detokenize`.  No word is checked: a boolean is any word other
than zero, and an integer keeps its word whatever its width. -/
def detokenize (lossy : List UInt8 → String) : DynToken → DynSolType → Option DynSolValue
  | .word w, .bool => some (.bool (decide (w.toWord ≠ 0)))
  | .word w, .int size => some (.int w.toWord size)
  | .word w, .uint size => some (.uint w.toWord size)
  | .word w, .fixedBytes size => some (.fixedBytes w size)
  | .word w, .address => some (.address (w.part 12 20 (by decide)))
  | .word w, .function => some (.function (w.part 0 24 (by decide)))
  | .packed b, .bytes => some (.bytes b)
  | .packed b, .string => some (.string (lossy b))
  | .dynSeq tokens, .array t => (detokenizeEach lossy tokens t).map .array
  | .fixedSeq tokens, .fixedArray t k =>
      if tokens.length = k then (detokenizeEach lossy tokens t).map .fixedArray else none
  | .fixedSeq tokens, .tuple ts => (detokenizeMany lossy tokens ts).map .tuple
  | _, _ => none
def detokenizeEach (lossy : List UInt8 → String) :
    List DynToken → DynSolType → Option (List DynSolValue)
  | [], _ => some []
  | token :: tokens, t =>
      (detokenize lossy token t).bind fun v => (detokenizeEach lossy tokens t).map (v :: ·)
def detokenizeMany (lossy : List UInt8 → String) :
    List DynToken → List DynSolType → Option (List DynSolValue)
  | [], [] => some []
  | token :: tokens, t :: ts =>
      (detokenize lossy token t).bind fun v => (detokenizeMany lossy tokens ts).map (v :: ·)
  | _, _ => none
end

/-! ## What stays open -/

/-- The dependencies, as far as the crate can see them. -/
structure Deps extends TypeGrammar where
  keccak256 : List UInt8 → List UInt8
  /-- `serde_json::from_str::<JsonAbi>`. -/
  parseAbi : String → Except String JsonAbi
  /-- `serde_json::from_str::<Value>`. -/
  parseJson : String → Except String Value
  /-- `Function::abi_encode_input`. -/
  abiEncodeInput : Function → List DynSolValue → Except String (List UInt8)
  /-- It fails only on a parameter that does not resolve, on the wrong number of
  values, or on a value that does not match its type. -/
  abiEncodeInput_ok : ∀ (f : Function) (values : List DynSolValue),
    List.Forall₂ (fun p v => ∃ t, toTypeGrammar.resolve p = some t ∧ t.Matches v) f.inputs values →
      ∃ calldata, abiEncodeInput f values = .ok calldata
  /-- The tokens of some data at a list of types, before anything is made of them. -/
  decodeTokens : List DynSolType → List UInt8 → Except String (List DynToken)
  stringFromUtf8Lossy : List UInt8 → String
  floatText : IntLiteral → String
  resolveErrorText : Param → String
  uintErrorText : String → String
  intErrorText : String → String
  hexErrorText : String → String
  addressErrorText : String → String
  detokenizeErrorText : String
  debugType : DynSolType → String
  debugValue : DynSolValue → String

namespace Deps

variable (D : Deps)

/-- `Function::abi_decode_output`: resolve the outputs, cut the data, and make
values of the tokens. -/
def abiDecodeOutput (f : Function) (data : List UInt8) : Except String (List DynSolValue) := do
  let types ← f.outputs.mapM fun p =>
    match D.resolve p with
    | some t => .ok t
    | none => .error (D.resolveErrorText p)
  let tokens ← D.decodeTokens types data
  match detokenizeMany D.stringFromUtf8Lossy tokens types with
  | some values => .ok values
  | none => .error D.detokenizeErrorText

end Deps

end AmbireCrypto
