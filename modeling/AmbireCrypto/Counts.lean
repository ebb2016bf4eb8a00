/-
# `AmbireCrypto.Counts` — the numbers in an error

The bindings read a count as a `u32`, and `abi_count` clamps every count to one.  An
error can come from anywhere in a call, so this is a statement about every error of
every exported function.

`Counted` is the property, and `FailsWith Counted` says of a fallible result that its
error, if there is one, has it.  The rules of `FailsWith` take it through the binds and
the loops of each function:

* errors about hex and addresses hold no counts at all (`counted_of_nil`);
* for arguments it is read off the places of `Refusals`, since whatever is reported is
  what one place is refused with (`counted_coerceArgs`);
* of all that shows return data only `tupleToJson` counts anything.

Past `u32::MAX` the number reported is not the one counted; that is what the clamp is
for, and nothing here says otherwise.
-/
import AmbireCrypto.ErrorWire
import AmbireCrypto.Refusals

namespace AmbireCrypto

open Traverse

/-! ## What an error holds -/

namespace AbiError

def counts (e : AbiError) : List Nat :=
  e.message.fields.filterMap fun
    | (_, ⟨.uint32, n⟩) => some n
    | (_, ⟨.string, _⟩) => none

def texts (e : AbiError) : List String :=
  e.message.fields.filterMap fun
    | (_, ⟨.uint32, _⟩) => none
    | (_, ⟨.string, s⟩) => some s

/-- The counts fit a `u32`, which is what the bindings read. -/
def Counted (e : AbiError) : Prop := ∀ n ∈ e.counts, n < 2 ^ 32

theorem fits_of_counted {e : AbiError} (hcounts : e.Counted)
    (htexts : ∀ s ∈ e.texts, (Utf8Order.bytes s).length < 2 ^ 31) : e.Fits := by
  rintro ⟨name, k, v⟩ hv
  cases k with
  | string => exact htexts v (List.mem_filterMap.mpr ⟨_, hv, rfl⟩)
  | uint32 => exact hcounts v (List.mem_filterMap.mpr ⟨_, hv, rfl⟩)

theorem counted_of_nil {e : AbiError} (h : e.counts = []) : e.Counted := fun n hn => by
  rw [h] at hn
  exact absurd hn List.not_mem_nil

theorem abiCount_lt (count : Nat) : abiCount count < 2 ^ 32 := by
  have := Nat.min_le_right count (2 ^ 32 - 1)
  show min count (2 ^ 32 - 1) < 2 ^ 32
  omega

theorem counted_ambiguousOverload (name : String) (count : Nat) :
    (ambiguousOverload name (abiCount count)).Counted := by
  intro n hn
  rw [List.mem_singleton.mp hn]
  exact abiCount_lt count

theorem counted_pair {e : AbiError} {expected actual : Nat}
    (h : e.counts = [abiCount expected, abiCount actual]) : e.Counted := by
  intro n hn
  rw [h] at hn
  rcases List.mem_cons.mp hn with rfl | hn
  · exact abiCount_lt expected
  · rw [List.mem_singleton.mp hn]
    exact abiCount_lt actual

end AbiError

/-! ## Where errors come from -/

section Counted

open AbiError

variable {D : Deps}

theorem counted_checkLength (ty : String) (len : Option Nat) (actual : Nat) :
    FailsWith Counted (checkLength ty len actual) := by
  unfold checkLength
  split
  · split
    · exact .error (counted_pair rfl)
    · exact .ok ()
  · exact .ok ()

theorem counted_findFunction (abi : JsonAbi) (name : String) :
    FailsWith Counted (findFunction abi name) := by
  unfold findFunction
  split
  · exact .error (counted_of_nil rfl)
  · exact .error (counted_of_nil rfl)
  · exact .ok _
  · exact .error (counted_ambiguousOverload name _)

theorem counted_rejectRepeatedHexPrefix (body : List Char) :
    FailsWith Counted (rejectRepeatedHexPrefix body) := by
  unfold rejectRepeatedHexPrefix
  split
  · exact .error (counted_of_nil rfl)
  · exact .ok body

theorem counted_decodeBody (body : List Char) : FailsWith Counted (D.decodeBody body) := by
  unfold Deps.decodeBody
  split
  · exact .error (counted_of_nil rfl)
  · exact .ok _

theorem counted_hexToBytes (input : String) : FailsWith Counted (D.hexToBytes input) := by
  refine .bind ?_ fun body => counted_decodeBody body
  unfold ethersHexBody
  split
  · exact .error (counted_of_nil rfl)
  · exact counted_rejectRepeatedHexPrefix _

theorem counted_decodeViemHex (value : String) : FailsWith Counted (D.decodeViemHex value) := by
  refine .bind ?_ fun body => counted_decodeBody body
  unfold viemHexBody
  split
  · exact .error (counted_of_nil rfl)
  · exact counted_rejectRepeatedHexPrefix _

theorem counted_parseViemAddress (value : String) :
    FailsWith Counted (D.parseViemAddress value) := by
  unfold Deps.parseViemAddress
  split
  · split
    · exact .error (counted_of_nil rfl)
    · exact .ok _
  · exact .error (counted_of_nil rfl)

theorem counted_checksumAddress (address : String) :
    FailsWith Counted (D.checksumAddress address) :=
  .bind (counted_parseViemAddress address) fun _ => .ok _

theorem counted_strictAddress (value : String) :
    FailsWith Counted (D.parseViemStrictAddress value) := by
  refine .bind (counted_parseViemAddress value) fun parsed => ?_
  split
  · exact .error (counted_of_nil rfl)
  · exact .ok parsed

theorem counted_argToDecimal (value : Value) : FailsWith Counted (argToDecimal value) := by
  unfold argToDecimal
  split
  · exact .ok _
  · split
    · exact .ok _
    · split
      · split
        · exact .ok _
        · exact .error (counted_of_nil rfl)
      · exact .error (counted_of_nil rfl)

theorem counted_argToStr (value : Value) (what : String) :
    FailsWith Counted (argToStr value what) := by
  unfold argToStr
  split
  · exact .ok _
  · exact .error (counted_of_nil rfl)

theorem counted_coerceScalar (t : DynSolType) (value : Value) :
    FailsWith Counted (D.coerceScalar t value) := by
  cases t with
  | bool =>
      unfold Deps.coerceScalar
      dsimp only
      split
      · exact .ok _
      · exact .error (counted_of_nil rfl)
  | uint size =>
      refine .bind (counted_argToDecimal value) fun decimal => ?_
      unfold Deps.coerceUint
      split
      · exact .error (counted_of_nil rfl)
      · split
        · exact .error (counted_of_nil rfl)
        · exact .ok _
  | int size =>
      refine .bind (counted_argToDecimal value) fun decimal => ?_
      unfold Deps.coerceInt
      split
      · exact .error (counted_of_nil rfl)
      · split
        · exact .error (counted_of_nil rfl)
        · exact .ok _
  | address => exact .map _ (.bind (counted_argToStr value _) fun s => counted_strictAddress s)
  | bytes => exact .map _ (.bind (counted_argToStr value _) fun s => counted_decodeViemHex s)
  | fixedBytes n =>
      refine .bind (.bind (counted_argToStr value _) fun s => counted_decodeViemHex s) fun bytes => ?_
      unfold Deps.coerceFixedBytes
      split
      · exact .error (counted_pair rfl)
      · exact .ok _
  | string => exact .map _ (counted_argToStr value _)
  | _ => exact .error (counted_of_nil rfl)

theorem counted_ownRefusal (p : Param) (v : Value) {e : AbiError} (h : D.ownRefusal p v = some e) :
    e.Counted := by
  unfold Deps.ownRefusal at h
  split at h
  · split at h
    · exact counted_checkLength _ _ _ e (refused_eq_some.mp h)
    · exact Option.some.inj h ▸ counted_of_nil rfl
  · split at h
    · split at h
      · cases h
      · split at h
        · exact Option.some.inj h ▸ counted_pair rfl
        · cases h
      · exact Option.some.inj h ▸ counted_of_nil rfl
    · split at h
      · exact Option.some.inj h ▸ counted_of_nil rfl
      · exact counted_coerceScalar _ _ e (refused_eq_some.mp h)

theorem counted_coerceArgs (inputs : List Param) (args : List Value) :
    FailsWith Counted (D.coerceArgs inputs args) := by
  intro e he
  rw [← refused_eq_some, Deps.refused_coerceArgs] at he
  obtain ⟨place, -, hplace⟩ := List.exists_of_findSome?_eq_some he
  cases place with
  | value p v => exact counted_ownRefusal p v hplace
  | missing component => exact Option.some.inj hplace ▸ counted_of_nil rfl

theorem counted_encodeFunctionData (abiJson functionName argsJson : String) :
    FailsWith Counted (D.encodeFunctionData abiJson functionName argsJson) := by
  unfold Deps.encodeFunctionData
  split
  · exact .error (counted_of_nil rfl)
  · refine .bind (counted_findFunction _ _) fun func => ?_
    split
    · exact .error (counted_of_nil rfl)
    · unfold Deps.encodeArgs
      split
      · exact .error (counted_of_nil rfl)
      · split
        · exact .error (counted_pair rfl)
        · refine .bind (counted_coerceArgs _ _) fun values => ?_
          split
          · exact .error (counted_of_nil rfl)
          · exact .ok _

theorem counted_intToJson (decimal : String) (size : Nat) :
    FailsWith Counted (intToJson decimal size) := by
  unfold intToJson
  split
  · exact .ok _
  · split
    · exact .error (counted_of_nil rfl)
    · split
      · exact .ok _
      · exact .error (counted_of_nil rfl)

theorem counted_valueToJson (v : DynSolValue) : ∀ p : Param,
    FailsWith Counted (D.valueToJson p v) := by
  induction v using DynSolValue.nodeInduction with
  | scalar v hv =>
      intro p e he
      rw [← refused_eq_some, Deps.refused_scalar hv] at he
      cases v with
      | uint u size => exact counted_intToJson _ _ e (refused_eq_some.mp he)
      | int i size => exact counted_intToJson _ _ e (refused_eq_some.mp he)
      | function f => exact Option.some.inj he ▸ counted_of_nil rfl
      | _ => cases he
  | items items len ih =>
      intro p
      rw [Deps.valueToJson_ofItems]
      exact .map _ (.mapM fun v hv => ih v hv p)
  | tuple fields ih =>
      intro p
      rw [Deps.valueToJson_tuple, Deps.tupleToJson]
      split
      · exact .error (counted_pair rfl)
      · exact .map _ (.mapM fun e he => ih e.2 (List.of_mem_zip he).2 e.1)

theorem counted_decodeFunctionResult (abiJson functionName dataHex : String) :
    FailsWith Counted (D.decodeFunctionResult abiJson functionName dataHex) := by
  unfold Deps.decodeFunctionResult
  split
  · exact .error (counted_of_nil rfl)
  · refine .bind (counted_findFunction _ _) fun func => ?_
    refine .bind (counted_decodeViemHex _) fun data => ?_
    split
    · exact .error (counted_of_nil rfl)
    · refine .bind ?_ fun json => .ok _
      unfold Deps.valuesToJson
      split
      · exact .error (counted_pair rfl)
      · split
        · exact .ok _
        · exact counted_valueToJson _ _
        · exact .map _ (.mapM fun e _ => counted_valueToJson e.2 e.1)

end Counted

end AmbireCrypto
