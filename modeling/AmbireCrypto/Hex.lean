/-
# `AmbireCrypto.Hex` — hex text and addresses

`const-hex` drops a `0x` of its own, so every parser here first takes one prefix
off and refuses a second.  Which prefixes are let through differs: ethers takes
`0X`, viem does not.  A string slice is the list of its characters.

Which texts the parsers accept is in `HexGrammar` and `Addresses`.
-/
import AmbireCrypto.Deps

namespace AmbireCrypto

def HEX_PREFIX : List Char := ['0', 'x']

def HEX_PREFIX_UPPER : List Char := ['0', 'X']

/-- `str::strip_prefix`. -/
def stripPrefix (pre : List Char) (value : List Char) : Option (List Char) :=
  if pre.isPrefixOf value then some (value.drop pre.length) else none

def stripOneHexPrefix (value : List Char) : Option (List Char) :=
  (stripPrefix HEX_PREFIX value).or (stripPrefix HEX_PREFIX_UPPER value)

/-- No valid body starts with a prefix, `x` not being a hex digit. -/
def rejectRepeatedHexPrefix (body : List Char) : Except AbiError (List Char) :=
  if (stripOneHexPrefix body).isSome then .error (.invalidHex "repeated 0x prefix")
  else .ok body

def ethersHexBody (value : String) : Except AbiError (List Char) :=
  match stripOneHexPrefix value.toList with
  | none => .error (.invalidHex "missing 0x prefix")
  | some body => rejectRepeatedHexPrefix body

def viemHexBody (value : String) : Except AbiError (List Char) :=
  match stripPrefix HEX_PREFIX value.toList with
  | none => .error (.invalidHex (value ++ ": expected a lower-case 0x prefix"))
  | some body => rejectRepeatedHexPrefix body

namespace Deps

variable (D : Deps)

/-- `hex::decode`, its error mapped to the crate's. -/
def decodeBody (body : List Char) : Except AbiError (List UInt8) :=
  match hexDecode (String.ofList body) with
  | none => .error (.invalidHex (D.hexErrorText (String.ofList body)))
  | some bytes => .ok bytes

def decodeViemHex (value : String) : Except AbiError (List UInt8) :=
  viemHexBody value >>= D.decodeBody

def bytesToHex (input : List UInt8) : String := hexEncodePrefixed input

def hexToBytes (input : String) : Except AbiError (List UInt8) :=
  ethersHexBody input >>= D.decodeBody

def parseViemAddress (value : String) : Except AbiError Address :=
  if HEX_PREFIX.isPrefixOf value.toList then
    match addressFromStr value with
    | none => .error (.invalidAddress (value ++ ": " ++ D.addressErrorText value))
    | some a => .ok a
  else .error (.invalidAddress (value ++ ": expected a lower-case 0x prefix"))

/-- An address with an upper-case digit must also carry a valid checksum. -/
def parseViemStrictAddress (value : String) : Except AbiError Address := do
  let parsed ← D.parseViemAddress value
  if value.toList.any Char.isUpper ∧ toChecksum D.keccak256 parsed ≠ value then
    .error (.invalidAddress (value ++ ": invalid checksum"))
  else .ok parsed

def checksumAddress (address : String) : Except AbiError String := do
  let parsed ← D.parseViemAddress address
  .ok (toChecksum D.keccak256 parsed)

end Deps

end AmbireCrypto
