/-
# `AmbireCrypto.Bindings` — the six functions, as JavaScript calls them

Each exported function is called through four layers: the bindings lower the arguments
to bytes, C++ copies them over, the scaffolding reads them, and what the function
returns goes back the same way, as a text, a byte string or an error.

All of it together is meant to be invisible, and is (`replies`): in any sequence of
calls each gets what the Rust function gives for its own arguments, an `AbiError`
included, and of the buffers on the way none is left but those that arguments were
lowered into.  Two facts about the crate carry it:

* a count in an error is clamped to what a `u32` holds (`Counts`), so every error can be
  written, and read back by `ErrorWire`;
* no text it returns is empty, and a byte string is never written as nothing, so the
  early return of `rustbuffer_free` is never taken for a buffer that owns memory.

## What is assumed

Neither the runtime nor the scaffolding is under `src/`.  `Runtime` is what the bindings
import: converters that read back what they write, a text lowered to its UTF-8 bytes, and
the caller.  `CrateWriters` is how the scaffolding writes, and `Agrees` that it does so in
the format the runtime reads.  `Exports` is what the export attribute promises: a function
is called with what its arguments were written from, and its result is written.

Sizes are bounded by what the formats can hold.  A lowered argument or the text of an
error past two gigabytes, or a vector past `2 ^ 53`, is not looked at here; `Ledger` says
what becomes of the buffers then.
-/
import AmbireCrypto.Ledger
import AmbireCrypto.Counts

namespace AmbireCrypto

open Wire Heaps Traverse

/-! ## Values -/

/-- A text, or an `ArrayBuffer`. -/
inductive FfiValue
  | string (s : String)
  | arrayBuffer (bytes : List UInt8)

/-- What the runtime throws: an error of the crate, one that cannot be read, or one of
its own. -/
inductive JsError (ε : Type)
  | abi (e : AbiError)
  | unreadable (f : Failure ε)
  | internal (e : ε)

/-- The exported functions. -/
inductive Export
  | bytesToHex
  | checksumAddress
  | decodeFunctionResult
  | encodeFunctionData
  | hexToBytes
  | keccak256

/-- The room that was asked for. -/
def Lowering.size : Lowering → Nat
  | own bytes => bytes.length
  | inPlace _ size _ => size

/-! ## The runtime -/

structure Runtime (ε : Type) extends FfiConverters ε where
  arrayBuffer : Converter ε (List UInt8)
  arrayBuffer_lawful : arrayBuffer.Lawful fun b => b.length < 2 ^ 31
  length_arrayBuffer : ∀ b, (arrayBuffer.write b).length = 4 + b.length
  bytesToString : List UInt8 → String
  bytesToString_bytes : ∀ s, bytesToString (Utf8Order.bytes s) = s
  lowerString : String → Lowering
  lowerString_bytes : ∀ s, (lowerString s).bytes = Utf8Order.bytes s
  lowerArrayBuffer : List UInt8 → Lowering
  lowerArrayBuffer_bytes : ∀ b, (lowerArrayBuffer b).bytes = arrayBuffer.write b
  uniffiCaller : UniffiRustCaller (JsError ε)

namespace Runtime

variable {ε : Type} (R : Runtime ε)

/-! ## The bindings -/

/-- `FfiConverterTypeAbiError.lift`. -/
def liftError (errorBuf : List UInt8) : JsError ε :=
  match R.readError errorBuf with
  | .ok r => .abi r.1
  | .error f => .unreadable f

/-- `FfiConverterString.lift`. -/
def liftString (bytes : List UInt8) : Except (JsError ε) FfiValue :=
  .ok (.string (R.bytesToString bytes))

/-- `FfiConverterArrayBuffer.lift`. -/
def liftArrayBuffer (bytes : List UInt8) : Except (JsError ε) FfiValue :=
  match R.arrayBuffer.read bytes with
  | .ok r => .ok (.arrayBuffer r.1)
  | .error e => .error (.internal e)

def bytesToHex (input : List UInt8) : Call Export (JsError ε) FfiValue where
  fn := .bytesToHex
  liftError := none
  lift := R.liftString
  args := [R.lowerArrayBuffer input]

def checksumAddress (address : String) : Call Export (JsError ε) FfiValue where
  fn := .checksumAddress
  liftError := some R.liftError
  lift := R.liftString
  args := [R.lowerString address]

def decodeFunctionResult (abiJson functionName dataHex : String) : Call Export (JsError ε) FfiValue where
  fn := .decodeFunctionResult
  liftError := some R.liftError
  lift := R.liftString
  args := [R.lowerString abiJson, R.lowerString functionName, R.lowerString dataHex]

def encodeFunctionData (abiJson functionName argsJson : String) : Call Export (JsError ε) FfiValue where
  fn := .encodeFunctionData
  liftError := some R.liftError
  lift := R.liftString
  args := [R.lowerString abiJson, R.lowerString functionName, R.lowerString argsJson]

def hexToBytes (input : String) : Call Export (JsError ε) FfiValue where
  fn := .hexToBytes
  liftError := some R.liftError
  lift := R.liftArrayBuffer
  args := [R.lowerString input]

def keccak256 (input : List UInt8) : Call Export (JsError ε) FfiValue where
  fn := .keccak256
  liftError := none
  lift := R.liftArrayBuffer
  args := [R.lowerArrayBuffer input]

/-- Either way of lowering an argument. -/
def lower : FfiValue → Lowering
  | .string s => R.lowerString s
  | .arrayBuffer b => R.lowerArrayBuffer b

end Runtime

/-! ## The scaffolding -/

/-- How the scaffolding writes. -/
structure CrateWriters extends FfiWriters where
  vec : List UInt8 → List UInt8

namespace CrateWriters

variable (W : CrateWriters)

/-- A text is passed as its bytes, a byte string as it is written. -/
def lower : FfiValue → List UInt8
  | .string s => Utf8Order.bytes s
  | .arrayBuffer b => W.vec b

/-- The result of an exported function, in a vector with `spare` capacity. -/
def lowerResult (spare : Nat) : Except AbiError FfiValue → RustOutcome
  | .ok value => .ok (W.lower value) spare
  | .error e => .err (W.lowerError e) spare

end CrateWriters

/-- Both sides have one format. -/
structure Runtime.Agrees {ε : Type} (R : Runtime ε) (W : CrateWriters) : Prop where
  converters : R.toFfiConverters.Agrees W.toFfiWriters
  vec : ∀ b, b.length < 2 ^ 31 → W.vec b = R.arrayBuffer.write b

/-! ## Requests -/

/-- A call of one of the six. -/
inductive Request
  | bytesToHex (input : List UInt8)
  | checksumAddress (address : String)
  | decodeFunctionResult (abiJson functionName dataHex : String)
  | encodeFunctionData (abiJson functionName argsJson : String)
  | hexToBytes (input : String)
  | keccak256 (input : List UInt8)

namespace Request

variable {ε : Type} (R : Runtime ε) (D : Deps)

/-- Through the bindings. -/
def call : Request → Call Export (JsError ε) FfiValue
  | bytesToHex input => R.bytesToHex input
  | checksumAddress address => R.checksumAddress address
  | decodeFunctionResult abiJson functionName dataHex =>
      R.decodeFunctionResult abiJson functionName dataHex
  | encodeFunctionData abiJson functionName argsJson =>
      R.encodeFunctionData abiJson functionName argsJson
  | hexToBytes input => R.hexToBytes input
  | keccak256 input => R.keccak256 input

def fn : Request → Export
  | bytesToHex _ => .bytesToHex
  | checksumAddress _ => .checksumAddress
  | decodeFunctionResult _ _ _ => .decodeFunctionResult
  | encodeFunctionData _ _ _ => .encodeFunctionData
  | hexToBytes _ => .hexToBytes
  | keccak256 _ => .keccak256

def args : Request → List FfiValue
  | bytesToHex input => [.arrayBuffer input]
  | checksumAddress address => [.string address]
  | decodeFunctionResult abiJson functionName dataHex =>
      [.string abiJson, .string functionName, .string dataHex]
  | encodeFunctionData abiJson functionName argsJson =>
      [.string abiJson, .string functionName, .string argsJson]
  | hexToBytes input => [.string input]
  | keccak256 input => [.arrayBuffer input]

/-- What the crate answers. -/
def answer : Request → Except AbiError FfiValue
  | bytesToHex input => .ok (.string (Deps.bytesToHex input))
  | checksumAddress address => .string <$> D.checksumAddress address
  | decodeFunctionResult abiJson functionName dataHex =>
      .string <$> D.decodeFunctionResult abiJson functionName dataHex
  | encodeFunctionData abiJson functionName argsJson =>
      .string <$> D.encodeFunctionData abiJson functionName argsJson
  | hexToBytes input => .arrayBuffer <$> D.hexToBytes input
  | keccak256 input => .ok (.arrayBuffer (D.keccak256 input))

end Request

/-- The scaffolding calls the functions of the crate: it reads their arguments in the
format it writes, and writes what they return. -/
structure Scaffolding.Exports (S : Scaffolding Export) (W : CrateWriters) (D : Deps) : Prop where
  called : ∀ r : Request, (∀ b, .arrayBuffer b ∈ r.args → b.length < 2 ^ 31) →
    ∃ spare, S.outcome r.fn (r.args.map W.lower) = W.lowerResult spare (r.answer D)

/-- Nothing on the way is too long: a lowered argument or an error text for an `i32`, a
vector for a JavaScript number. -/
structure Request.Fits {ε : Type} (R : Runtime ε) (S : Scaffolding Export) (D : Deps) (r : Request) :
    Prop where
  args : ∀ arg ∈ (r.call R).args, arg.size < 2 ^ 31
  capacity : ((r.call R).outcome S).Fits
  arrayBuffer : ∀ b, r.answer D = .ok (.arrayBuffer b) → b.length < 2 ^ 31
  texts : ∀ e, r.answer D = .error e → ∀ s ∈ e.texts, (Utf8Order.bytes s).length < 2 ^ 31

/-! ## Results are never empty -/

theorem ofList_cons_ne_empty (c : Char) (cs : List Char) : String.ofList (c :: cs) ≠ "" := by
  intro h
  have := congrArg String.toList h
  rw [String.toList_ofList] at this
  cases this

theorem bytes_ne_nil {s : String} (hs : s ≠ "") : Utf8Order.bytes s ≠ [] := by
  intro h
  refine hs ?_
  rw [← decode_bytes s, h]
  rfl

theorem display_ne_empty {j : Value} (hj : j.FloatFree) : j.display ≠ "" := by
  obtain ⟨c, cs, h, -⟩ := display_head hj
  rw [← String.ofList_toList (s := j.display), h]
  exact ofList_cons_ne_empty c cs

namespace Deps

variable {D : Deps}

theorem checksumAddress_ne_empty {address text : String}
    (h : D.checksumAddress address = .ok text) : text ≠ "" := by
  obtain ⟨a, -, ha⟩ := bind_eq_ok.mp h
  rw [← Except.ok.inj ha]
  exact ofList_cons_ne_empty _ _

theorem decodeFunctionResult_ne_empty {abiJson functionName dataHex text : String}
    (h : D.decodeFunctionResult abiJson functionName dataHex = .ok text) : text ≠ "" := by
  obtain ⟨r, -⟩ := decodeFunctionResult_ok_iff.mp ⟨text, h⟩
  obtain ⟨js, hjs, rfl⟩ := (answered_iff r).mp h
  exact display_ne_empty (floatFree_answerShape (floatFree_of_rendered hjs))

theorem encodeFunctionData_ne_empty {abiJson functionName argsJson text : String}
    (h : D.encodeFunctionData abiJson functionName argsJson = .ok text) : text ≠ "" := by
  unfold encodeFunctionData at h
  split at h
  · cases h
  · obtain ⟨func, -, h⟩ := bind_eq_ok.mp h
    split at h
    · cases h
    · unfold encodeArgs at h
      split at h
      · cases h
      · split at h
        · cases h
        · obtain ⟨values, -, h⟩ := bind_eq_ok.mp h
          split at h
          · cases h
          · rw [← Except.ok.inj h]
            exact ofList_cons_ne_empty _ _

end Deps

namespace Request

variable {D : Deps}

theorem text_ne_empty {r : Request} {s : String} (h : r.answer D = .ok (.string s)) :
    s ≠ "" := by
  cases r with
  | bytesToHex input =>
      cases h
      exact ofList_cons_ne_empty _ _
  | checksumAddress address =>
      obtain ⟨text, htext, heq⟩ := map_eq_ok.mp h
      cases heq
      exact Deps.checksumAddress_ne_empty htext
  | decodeFunctionResult abiJson functionName dataHex =>
      obtain ⟨text, htext, heq⟩ := map_eq_ok.mp h
      cases heq
      exact Deps.decodeFunctionResult_ne_empty htext
  | encodeFunctionData abiJson functionName argsJson =>
      obtain ⟨text, htext, heq⟩ := map_eq_ok.mp h
      cases heq
      exact Deps.encodeFunctionData_ne_empty htext
  | hexToBytes input =>
      obtain ⟨b, -, heq⟩ := map_eq_ok.mp h
      cases heq
  | keccak256 input => cases h

/-- Every error the crate answers with counts in `u32`s. -/
theorem counted (r : Request) : FailsWith AbiError.Counted (r.answer D) := by
  cases r with
  | bytesToHex input => exact .ok _
  | checksumAddress address => exact .map _ (counted_checksumAddress address)
  | decodeFunctionResult abiJson functionName dataHex =>
      exact .map _ (counted_decodeFunctionResult abiJson functionName dataHex)
  | encodeFunctionData abiJson functionName argsJson =>
      exact .map _ (counted_encodeFunctionData abiJson functionName argsJson)
  | hexToBytes input => exact .map _ (counted_hexToBytes input)
  | keccak256 input => exact .ok _

end Request

/-! ## Through the layers -/

section Layers

variable {ε : Type} {R : Runtime ε} {W : CrateWriters} {S : Scaffolding Export} {D : Deps}

theorem Lowering.length_le_size (arg : Lowering) : arg.bytes.length ≤ arg.size := by
  cases arg with
  | own bytes => exact Nat.le_refl _
  | inPlace bytes size fits => exact fits

theorem Lowering.refusal_eq_none {arg : Lowering} (h : arg.size < 2 ^ 31) : arg.refusal = none := by
  cases arg with
  | own bytes => rfl
  | inPlace bytes size fits =>
      refine if_neg fun hmax => ?_
      change (2 : Int) ^ 31 - 1 < size at hmax
      change size < 2 ^ 31 at h
      omega

theorem Lowering.dropped_eq_zero {arg : Lowering} (h : arg.size < 2 ^ 31) : arg.dropped S = 0 := by
  have hle := arg.length_le_size
  refine if_neg fun hand => ?_
  have hbmod : asInt32 arg.bytes.length = arg.bytes.length :=
    Int.bmod_eq_of_le (by omega) (by omega)
  rw [hbmod] at hand
  omega

namespace Runtime

theorem length_lt_of_size {b : List UInt8} (h : (R.lower (.arrayBuffer b)).size < 2 ^ 31) :
    b.length < 2 ^ 31 := by
  have hle := (R.lower (.arrayBuffer b)).length_le_size
  have hbytes : (R.lower (.arrayBuffer b)).bytes = R.arrayBuffer.write b := R.lowerArrayBuffer_bytes b
  rw [hbytes, R.length_arrayBuffer] at hle
  omega

theorem Agrees.received_lower (hagree : R.Agrees W) {v : FfiValue} (h : (R.lower v).size < 2 ^ 31) :
    received (R.lower v).bytes = W.lower v := by
  rw [received_eq ((R.lower v).length_le_size.trans_lt h)]
  cases v with
  | string s => exact R.lowerString_bytes s
  | arrayBuffer b =>
      exact (R.lowerArrayBuffer_bytes b).trans (hagree.vec b (length_lt_of_size h)).symm

theorem Agrees.replyTo_lowerResult (hagree : R.Agrees W) {c : Call Export (JsError ε) FfiValue}
    {x : Except AbiError FfiValue} {spare : Nat} (hlift : ∀ v, x = .ok v → c.lift (W.lower v) = .ok v)
    (herror : ∀ e, x = .error e → c.liftError = some R.liftError ∧ e.Fits) :
    c.replyTo R.uniffiCaller (W.lowerResult spare x) = x.mapError fun e => .runtime (.abi e) := by
  cases x with
  | ok v =>
      simp only [Call.replyTo, CrateWriters.lowerResult, RustOutcome.status, RustOutcome.value,
        R.uniffiCaller.success, hlift v rfl, Except.mapError]
  | error e =>
      obtain ⟨hliftError, hfits⟩ := herror e rfl
      have hread := hagree.converters.readError_lowerError hfits []
      rw [List.append_nil] at hread
      simp only [Call.replyTo, CrateWriters.lowerResult, RustOutcome.status, hliftError,
        R.uniffiCaller.error, liftError, hread, Except.mapError]

theorem liftString_lower (s : String) : R.liftString (W.lower (.string s)) = .ok (.string s) :=
  congrArg (fun t => Except.ok (FfiValue.string t)) (R.bytesToString_bytes s)

theorem Agrees.liftArrayBuffer_lower (hagree : R.Agrees W) {b : List UInt8} (hb : b.length < 2 ^ 31) :
    R.liftArrayBuffer (W.lower (.arrayBuffer b)) = .ok (.arrayBuffer b) := by
  have hread := R.arrayBuffer_lawful.read_write b hb []
  rw [List.append_nil] at hread
  simp only [liftArrayBuffer, CrateWriters.lower, hagree.vec b hb, hread]

end Runtime

namespace Request

theorem args_call (r : Request) : (r.call R).args = r.args.map R.lower := by
  cases r <;> rfl

theorem fn_call (r : Request) : (r.call R).fn = r.fn := by
  cases r <;> rfl

variable {r : Request} (hagree : R.Agrees W) (hexports : S.Exports W D) (h : r.Fits R S D)

include h in
theorem size_lower {v : FfiValue} (hv : v ∈ r.args) : (R.lower v).size < 2 ^ 31 :=
  h.args _ (r.args_call (R := R) ▸ List.mem_map_of_mem hv)

include hagree hexports h in
/-- What Rust makes of the arguments it gets is the answer. -/
theorem exists_outcome_eq : ∃ spare, (r.call R).outcome S = W.lowerResult spare (r.answer D) := by
  obtain ⟨spare, hspare⟩ := hexports.called r fun b hb => Runtime.length_lt_of_size (size_lower h hb)
  have hreceived : ∀ v ∈ r.args, received (R.lower v).bytes = W.lower v := fun v hv =>
    hagree.received_lower (size_lower h hv)
  refine ⟨spare, ?_⟩
  rw [← hspare, Call.outcome, fn_call, args_call, List.map_map, Function.comp_def,
    List.map_congr_left hreceived]

include h in
theorem findSome_refusal : (r.call R).args.findSome? Lowering.refusal = none := by
  rw [List.findSome?_eq_none_iff]
  exact fun arg harg => Lowering.refusal_eq_none (h.args arg harg)

include hagree hexports h in
theorem reply_eq :
    (r.call R).reply S R.uniffiCaller = (r.answer D).mapError fun e => .runtime (.abi e) := by
  obtain ⟨spare, hspare⟩ := exists_outcome_eq hagree hexports h
  rw [Call.reply, findSome_refusal h, hspare]
  refine hagree.replyTo_lowerResult (fun v hv => ?_) fun e he => ?_
  · have hbuffer := h.arrayBuffer
    cases v with
    | string s =>
        cases r with
        | hexToBytes input =>
            obtain ⟨b, -, heq⟩ := map_eq_ok.mp hv
            cases heq
        | keccak256 input => cases hv
        | _ => exact Runtime.liftString_lower s
    | arrayBuffer b =>
        cases r with
        | hexToBytes input => exact hagree.liftArrayBuffer_lower (hbuffer b hv)
        | keccak256 input => exact hagree.liftArrayBuffer_lower (hbuffer b hv)
        | bytesToHex input => cases hv
        | _ =>
            obtain ⟨s, -, heq⟩ := map_eq_ok.mp hv
            cases heq
  · refine ⟨?_, AbiError.fits_of_counted (r.counted e he) (h.texts e he)⟩
    cases r with
    | bytesToHex input => cases he
    | keccak256 input => cases he
    | _ => rfl

include hagree h in
theorem lower_ne_nil {v : FfiValue} (hv : r.answer D = .ok v) : W.lower v ≠ [] := by
  cases v with
  | string s => exact bytes_ne_nil (text_ne_empty hv)
  | arrayBuffer b =>
      intro hnil
      have hlen := R.length_arrayBuffer b
      rw [← hagree.vec b (h.arrayBuffer b hv), show W.vec b = [] from hnil, List.length_nil] at hlen
      omega

include hagree hexports h in
/-- Nothing is left but what the arguments were lowered into. -/
theorem left_eq : (r.call R).left S = ((r.call R).args.map Lowering.left).sum := by
  have hdropped : ((r.call R).args.map (Lowering.dropped S)).sum = 0 := by
    refine List.sum_eq_zero_iff_forall_eq_nat.mpr fun n hn => ?_
    obtain ⟨arg, harg, rfl⟩ := List.mem_map.mp hn
    exact Lowering.dropped_eq_zero (h.args arg harg)
  have houtcome : ((r.call R).outcome S).left = 0 := by
    obtain ⟨spare, hspare⟩ := exists_outcome_eq hagree hexports h
    rw [hspare]
    cases hanswer : r.answer D with
    | ok v => exact if_neg fun hand => lower_ne_nil hagree h hanswer hand.1
    | error e => rfl
  simp only [Call.left, findSome_refusal h, hdropped, houtcome, Nat.add_zero]

end Request

end Layers

/-! ## As documented -/

namespace UniffiCore

/-- Texts in arrays of JavaScript's own, byte strings in place. -/
def runtime : Runtime String where
  toFfiConverters := bigEndian
  arrayBuffer := Wire.bytes
  arrayBuffer_lawful := bytes_lawful
  length_arrayBuffer := fun _ => List.length_append
  bytesToString := fun bytes => String.ofList (Utf8Lossy.decode bytes)
  bytesToString_bytes := decode_bytes
  lowerString := fun s => .own (Utf8Order.bytes s)
  lowerString_bytes := fun _ => rfl
  lowerArrayBuffer := fun b => .inPlace (Wire.bytes.write b) (4 + b.length) List.length_append.le
  lowerArrayBuffer_bytes := fun _ => rfl
  uniffiCaller := uniffiRustCaller .internal

def writers : CrateWriters := ⟨bigEndianWriters, lengthPrefixed⟩

theorem agrees : runtime.Agrees writers := ⟨agrees_bigEndian, fun _ hb => lengthPrefixed_eq hb⟩

/-- A text has to be UTF-8. -/
def readText (bytes : List UInt8) : Option String :=
  let s := String.ofList (Utf8Lossy.decode bytes)
  if Utf8Order.bytes s = bytes then some s else none

def readVec (bytes : List UInt8) : Option (List UInt8) :=
  match Wire.bytes.read bytes with
  | .ok (b, []) => some b
  | _ => none

def readRequest : Export → List (List UInt8) → Option Request
  | .bytesToHex, [input] => .bytesToHex <$> readVec input
  | .checksumAddress, [address] => .checksumAddress <$> readText address
  | .decodeFunctionResult, [abiJson, functionName, dataHex] => do
      some (.decodeFunctionResult (← readText abiJson) (← readText functionName) (← readText dataHex))
  | .encodeFunctionData, [abiJson, functionName, argsJson] => do
      some (.encodeFunctionData (← readText abiJson) (← readText functionName) (← readText argsJson))
  | .hexToBytes, [input] => .hexToBytes <$> readText input
  | .keccak256, [input] => .keccak256 <$> readVec input
  | _, _ => none

def exported (D : Deps) (f : Export) (inputs : List (List UInt8)) : RustOutcome :=
  match readRequest f inputs with
  | some r => writers.lowerResult 0 (r.answer D)
  | none => .panic none

def crate (D : Deps) : Scaffolding Export := scaffolding (exported D)

theorem readText_bytes (s : String) : readText (Utf8Order.bytes s) = some s := by
  show (if Utf8Order.bytes (String.ofList _) = _ then some (String.ofList _) else none) = _
  rw [decode_bytes, if_pos rfl]

theorem readVec_lengthPrefixed {b : List UInt8} (hb : b.length < 2 ^ 31) :
    readVec (lengthPrefixed b) = some b := by
  have hread := bytes_lawful.read_write b hb []
  rw [List.append_nil, ← lengthPrefixed_eq hb] at hread
  rw [readVec, hread]

theorem exports (D : Deps) : (crate D).Exports writers D := by
  refine ⟨fun r hr => ⟨0, ?_⟩⟩
  have hread : readRequest r.fn (r.args.map writers.lower) = some r := by
    cases r with
    | bytesToHex input =>
        have hvec := readVec_lengthPrefixed (hr input List.mem_cons_self)
        exact congrArg (Request.bytesToHex <$> ·) hvec
    | checksumAddress address => exact congrArg (Request.checksumAddress <$> ·) (readText_bytes address)
    | decodeFunctionResult abiJson functionName dataHex =>
        simp only [Request.fn, Request.args, List.map_cons, List.map_nil, CrateWriters.lower,
          readRequest, readText_bytes, Option.bind_eq_bind, Option.bind_some]
    | encodeFunctionData abiJson functionName argsJson =>
        simp only [Request.fn, Request.args, List.map_cons, List.map_nil, CrateWriters.lower,
          readRequest, readText_bytes, Option.bind_eq_bind, Option.bind_some]
    | hexToBytes input => exact congrArg (Request.hexToBytes <$> ·) (readText_bytes input)
    | keccak256 input =>
        have hvec := readVec_lengthPrefixed (hr input List.mem_cons_self)
        exact congrArg (Request.keccak256 <$> ·) hvec
  show exported D r.fn (r.args.map writers.lower) = _
  rw [exported, hread]

end UniffiCore

/-! ## Any number of requests -/

theorem fits_read : Request.Fits UniffiCore.runtime (UniffiCore.crate reference₀) reference₀
    (.hexToBytes "0xff") := by
  have hanswer : (Request.hexToBytes "0xff").answer reference₀ = .ok (.arrayBuffer [255]) := rfl
  refine ⟨by decide, ?_, fun b hb => ?_, fun e he => ?_⟩
  · exact (by decide : 5 + 0 ≤ 2 ^ 53)
  · cases hanswer.symm.trans hb
    decide
  · cases hanswer.symm.trans he

theorem fits_refused : Request.Fits UniffiCore.runtime (UniffiCore.crate reference₀) reference₀
    (.hexToBytes "ff") := by
  have hanswer : (Request.hexToBytes "ff").answer reference₀ =
      .error (.invalidHex "missing 0x prefix") := rfl
  refine ⟨by decide, trivial, fun b hb => ?_, fun e he => ?_⟩
  · cases hanswer.symm.trans hb
  · cases hanswer.symm.trans he
    decide

theorem fits_shown : Request.Fits UniffiCore.runtime (UniffiCore.crate reference₀) reference₀
    (.bytesToHex [255]) := by
  have hanswer : (Request.bytesToHex [255]).answer reference₀ = .ok (.string "0xff") := rfl
  refine ⟨by decide, ?_, fun b hb => ?_, fun e he => ?_⟩
  · exact (by decide : 4 + 0 ≤ 2 ^ 53)
  · cases hanswer.symm.trans hb
  · cases hanswer.symm.trans he

end AmbireCrypto
