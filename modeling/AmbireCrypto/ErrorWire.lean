/-
# `AmbireCrypto.ErrorWire` — how an error reaches JavaScript

An `AbiError` crosses the boundary as bytes: the number of its variant, then its
fields.  The scaffolding writes it from the declaration in `lib.rs`; the bindings
read it by a `switch` that was generated at another time.  The comment on `AbiError`
says what this asks of whoever edits the declaration, and here it is proved:

* `read_written`: as the two stand now, every error whose counts fit a `u32` and
  whose texts fit an `i32` is read back as itself, wherever it ends, and the
  bindings' own writer and size agree with the scaffolding's;
* `stale_bindings_iff`: bindings of one declaration and a library of another
  understand each other exactly when the variants agree as far as both lists go.

Fields are read by name: a variant is a list of names with their types, and a message
gives a value to each name.  So an exchange of two fields of one type is a change, as it
is in the bindings, which would take the one for the other.

## What is assumed

The two sides are written apart.  The runtime's converters (`FfiConverters`) read back
what they write, and their sizes are right; the scaffolding writes with functions of its
own (`FfiWriters`), and `Agrees` is the assumption that these write the same bytes, on the
values that fit.  `bigEndian` and `bigEndianWriters` are a pair of which it is true.

An ordinal has to fit the `i32` it is written as, so a declaration is not longer than
that.
-/
import AmbireCrypto.Types
import AmbireCrypto.Lib.BigEndian

namespace AmbireCrypto

open Wire

/-! ## The declaration -/

inductive FieldKind
  | string
  | uint32
deriving DecidableEq

abbrev FieldKind.Field : FieldKind → Type
  | .string => String
  | .uint32 => Nat

/-- The variants of `AbiError`, as declared. -/
def abiErrorVariants : List (Variant String FieldKind) :=
  [⟨"InvalidAbi", [("msg", .string)]⟩,
   ⟨"FunctionNotFound", [("name", .string)]⟩,
   ⟨"AmbiguousOverload", [("name", .string), ("count", .uint32)]⟩,
   ⟨"InvalidHex", [("msg", .string)]⟩,
   ⟨"UnsupportedType", [("ty", .string)]⟩,
   ⟨"ArityMismatch", [("what", .string), ("expected", .uint32), ("actual", .uint32)]⟩,
   ⟨"DecodeFailed", [("msg", .string)]⟩,
   ⟨"EncodeFailed", [("msg", .string)]⟩,
   ⟨"InvalidArgument", [("msg", .string)]⟩,
   ⟨"InvalidAddress", [("msg", .string)]⟩,
   ⟨"BytesSizeMismatch", [("expected", .uint32), ("actual", .uint32)]⟩,
   ⟨"IntegerOutOfRange", [("value", .string), ("ty", .string)]⟩]

namespace AbiError

/-- The position of a variant in the declaration. -/
def index : AbiError → Nat
  | .invalidAbi _ => 0
  | .functionNotFound _ => 1
  | .ambiguousOverload _ _ => 2
  | .invalidHex _ => 3
  | .unsupportedType _ => 4
  | .arityMismatch _ _ _ => 5
  | .decodeFailed _ => 6
  | .encodeFailed _ => 7
  | .invalidArgument _ => 8
  | .invalidAddress _ => 9
  | .bytesSizeMismatch _ _ => 10
  | .integerOutOfRange _ _ => 11

/-- The error as JavaScript sees it: the tag, and what is in `inner`. -/
def message : AbiError → Message String FieldKind.Field
  | .invalidAbi msg => ⟨"InvalidAbi", [("msg", ⟨.string, msg⟩)]⟩
  | .functionNotFound name => ⟨"FunctionNotFound", [("name", ⟨.string, name⟩)]⟩
  | .ambiguousOverload name count =>
      ⟨"AmbiguousOverload", [("name", ⟨.string, name⟩), ("count", ⟨.uint32, count⟩)]⟩
  | .invalidHex msg => ⟨"InvalidHex", [("msg", ⟨.string, msg⟩)]⟩
  | .unsupportedType ty => ⟨"UnsupportedType", [("ty", ⟨.string, ty⟩)]⟩
  | .arityMismatch what expected actual =>
      ⟨"ArityMismatch", [("what", ⟨.string, what⟩), ("expected", ⟨.uint32, expected⟩),
        ("actual", ⟨.uint32, actual⟩)]⟩
  | .decodeFailed msg => ⟨"DecodeFailed", [("msg", ⟨.string, msg⟩)]⟩
  | .encodeFailed msg => ⟨"EncodeFailed", [("msg", ⟨.string, msg⟩)]⟩
  | .invalidArgument msg => ⟨"InvalidArgument", [("msg", ⟨.string, msg⟩)]⟩
  | .invalidAddress msg => ⟨"InvalidAddress", [("msg", ⟨.string, msg⟩)]⟩
  | .bytesSizeMismatch expected actual =>
      ⟨"BytesSizeMismatch", [("expected", ⟨.uint32, expected⟩), ("actual", ⟨.uint32, actual⟩)]⟩
  | .integerOutOfRange value ty =>
      ⟨"IntegerOutOfRange", [("value", ⟨.string, value⟩), ("ty", ⟨.string, ty⟩)]⟩

theorem variants_index (e : AbiError) : abiErrorVariants[e.index]? = some e.message.variant := by
  cases e <;> rfl

/-- The error a message stands for. -/
def ofMessage : Message String FieldKind.Field → Option AbiError
  | ⟨"InvalidAbi", [("msg", ⟨.string, msg⟩)]⟩ => some (.invalidAbi msg)
  | ⟨"FunctionNotFound", [("name", ⟨.string, name⟩)]⟩ => some (.functionNotFound name)
  | ⟨"AmbiguousOverload", [("name", ⟨.string, name⟩), ("count", ⟨.uint32, count⟩)]⟩ =>
      some (.ambiguousOverload name count)
  | ⟨"InvalidHex", [("msg", ⟨.string, msg⟩)]⟩ => some (.invalidHex msg)
  | ⟨"UnsupportedType", [("ty", ⟨.string, ty⟩)]⟩ => some (.unsupportedType ty)
  | ⟨"ArityMismatch", [("what", ⟨.string, what⟩), ("expected", ⟨.uint32, expected⟩),
      ("actual", ⟨.uint32, actual⟩)]⟩ => some (.arityMismatch what expected actual)
  | ⟨"DecodeFailed", [("msg", ⟨.string, msg⟩)]⟩ => some (.decodeFailed msg)
  | ⟨"EncodeFailed", [("msg", ⟨.string, msg⟩)]⟩ => some (.encodeFailed msg)
  | ⟨"InvalidArgument", [("msg", ⟨.string, msg⟩)]⟩ => some (.invalidArgument msg)
  | ⟨"InvalidAddress", [("msg", ⟨.string, msg⟩)]⟩ => some (.invalidAddress msg)
  | ⟨"BytesSizeMismatch", [("expected", ⟨.uint32, expected⟩), ("actual", ⟨.uint32, actual⟩)]⟩ =>
      some (.bytesSizeMismatch expected actual)
  | ⟨"IntegerOutOfRange", [("value", ⟨.string, value⟩), ("ty", ⟨.string, ty⟩)]⟩ =>
      some (.integerOutOfRange value ty)
  | _ => none

theorem ofMessage_message (e : AbiError) : ofMessage e.message = some e := by
  cases e <;> rfl

theorem message_injective {e e' : AbiError} (h : e.message = e'.message) : e = e' := by
  have hread := ofMessage_message e
  rw [h, ofMessage_message] at hread
  exact (Option.some.inj hread).symm

theorem index_lt (e : AbiError) : e.index < 12 :=
  (List.getElem?_eq_some_iff.mp (variants_index e)).1

end AbiError

/-! ## The runtime -/

/-- What a field of each type can hold: a text is measured in an `i32`. -/
def FieldKind.Fits : (k : FieldKind) → k.Field → Prop
  | .string, s => (Utf8Order.bytes s).length < 2 ^ 31
  | .uint32, n => n < 2 ^ 32

/-- The converters of the runtime. -/
structure FfiConverters (ε : Type) where
  int32 : Converter ε Int
  uint32 : Converter ε Nat
  string : Converter ε String
  int32_lawful : int32.Lawful fun i => -2 ^ 31 ≤ i ∧ i < 2 ^ 31
  uint32_lawful : uint32.Lawful fun n => n < 2 ^ 32
  string_lawful : string.Lawful fun s => (Utf8Order.bytes s).length < 2 ^ 31

/-- Every field of the error can be written. -/
def AbiError.Fits (e : AbiError) : Prop := ∀ v ∈ e.message.fields, v.2.1.Fits v.2.2

/-! ## The scaffolding -/

/-- How the scaffolding writes numbers and texts. -/
structure FfiWriters where
  i32 : Int → List UInt8
  u32 : Nat → List UInt8
  string : String → List UInt8

namespace FfiWriters

variable (W : FfiWriters)

def field : (k : FieldKind) → k.Field → List UInt8
  | .string => W.string
  | .uint32 => W.u32

/-- What the scaffolding writes for an error. -/
def lowerError (e : AbiError) : List UInt8 := writeUnion W.field W.i32 e.index e.message

end FfiWriters

/-- Both sides have one format for numbers and texts. -/
structure FfiConverters.Agrees {ε : Type} (C : FfiConverters ε) (W : FfiWriters) : Prop where
  i32 : ∀ i, -2 ^ 31 ≤ i ∧ i < 2 ^ 31 → W.i32 i = C.int32.write i
  u32 : ∀ n, n < 2 ^ 32 → W.u32 n = C.uint32.write n
  string : ∀ s, (Utf8Order.bytes s).length < 2 ^ 31 → W.string s = C.string.write s

/-- The documented format, on both sides. -/
def bigEndian : FfiConverters String :=
  ⟨Wire.int32, Wire.uint32, Wire.string, Wire.int32_lawful, Wire.uint32_lawful, Wire.string_lawful⟩

def lengthPrefixed (b : List UInt8) : List UInt8 := word b.length ++ b

theorem lengthPrefixed_eq {b : List UInt8} (hb : b.length < 2 ^ 31) :
    lengthPrefixed b = Wire.bytes.write b := by
  have hmod : (b.length : Int) % 2 ^ 32 = b.length := by omega
  show _ = word ((b.length : Int) % 2 ^ 32).toNat ++ b
  rw [hmod, Int.toNat_natCast]
  rfl

def bigEndianWriters : FfiWriters where
  i32 := fun i => word (i % 2 ^ 32).toNat
  u32 := word
  string := fun s => lengthPrefixed (Utf8Order.bytes s)

theorem agrees_bigEndian : bigEndian.Agrees bigEndianWriters where
  i32 := fun _ _ => rfl
  u32 := fun _ _ => rfl
  string := fun _ hs => lengthPrefixed_eq hs

namespace FfiConverters

variable {ε : Type} (C : FfiConverters ε)

def field : (k : FieldKind) → Converter ε k.Field
  | .string => C.string
  | .uint32 => C.uint32

theorem field_lawful (k : FieldKind) : (C.field k).Lawful k.Fits := by
  cases k with
  | string => exact C.string_lawful
  | uint32 => exact C.uint32_lawful

variable {C} in
theorem Agrees.field {W : FfiWriters} (hagree : C.Agrees W) (k : FieldKind) (v : k.Field)
    (hv : k.Fits v) : W.field k v = (C.field k).write v := by
  cases k with
  | string => exact hagree.string v hv
  | uint32 => exact hagree.u32 v hv

/-! ## The bindings -/

/-- A read in the middle of `FfiConverterTypeAbiError.read`. -/
def readField {α : Type} (c : Converter ε α) (src : List UInt8) :
    Except (Failure ε) (α × List UInt8) :=
  match c.read src with
  | .error e => .error (.field e)
  | .ok r => .ok r

/-- The `switch` of `FfiConverterTypeAbiError.read`. -/
def readCase (ordinal : Int) (src : List UInt8) : Except (Failure ε) (AbiError × List UInt8) :=
  match ordinal with
  | 1 => do
      let (msg, src) ← readField C.string src
      .ok (.invalidAbi msg, src)
  | 2 => do
      let (name, src) ← readField C.string src
      .ok (.functionNotFound name, src)
  | 3 => do
      let (name, src) ← readField C.string src
      let (count, src) ← readField C.uint32 src
      .ok (.ambiguousOverload name count, src)
  | 4 => do
      let (msg, src) ← readField C.string src
      .ok (.invalidHex msg, src)
  | 5 => do
      let (ty, src) ← readField C.string src
      .ok (.unsupportedType ty, src)
  | 6 => do
      let (what, src) ← readField C.string src
      let (expected, src) ← readField C.uint32 src
      let (actual, src) ← readField C.uint32 src
      .ok (.arityMismatch what expected actual, src)
  | 7 => do
      let (msg, src) ← readField C.string src
      .ok (.decodeFailed msg, src)
  | 8 => do
      let (msg, src) ← readField C.string src
      .ok (.encodeFailed msg, src)
  | 9 => do
      let (msg, src) ← readField C.string src
      .ok (.invalidArgument msg, src)
  | 10 => do
      let (msg, src) ← readField C.string src
      .ok (.invalidAddress msg, src)
  | 11 => do
      let (expected, src) ← readField C.uint32 src
      let (actual, src) ← readField C.uint32 src
      .ok (.bytesSizeMismatch expected actual, src)
  | 12 => do
      let (value, src) ← readField C.string src
      let (ty, src) ← readField C.string src
      .ok (.integerOutOfRange value ty, src)
  | _ => .error .unexpectedEnumCase

/-- `FfiConverterTypeAbiError.read`. -/
def readError (src : List UInt8) : Except (Failure ε) (AbiError × List UInt8) := do
  let (ordinal, src) ← readField C.int32 src
  C.readCase ordinal src

/-- `FfiConverterTypeAbiError.write`. -/
def writeError : AbiError → List UInt8
  | .invalidAbi msg => C.int32.write 1 ++ C.string.write msg
  | .functionNotFound name => C.int32.write 2 ++ C.string.write name
  | .ambiguousOverload name count =>
      C.int32.write 3 ++ C.string.write name ++ C.uint32.write count
  | .invalidHex msg => C.int32.write 4 ++ C.string.write msg
  | .unsupportedType ty => C.int32.write 5 ++ C.string.write ty
  | .arityMismatch what expected actual =>
      C.int32.write 6 ++ C.string.write what ++ C.uint32.write expected ++ C.uint32.write actual
  | .decodeFailed msg => C.int32.write 7 ++ C.string.write msg
  | .encodeFailed msg => C.int32.write 8 ++ C.string.write msg
  | .invalidArgument msg => C.int32.write 9 ++ C.string.write msg
  | .invalidAddress msg => C.int32.write 10 ++ C.string.write msg
  | .bytesSizeMismatch expected actual =>
      C.int32.write 11 ++ C.uint32.write expected ++ C.uint32.write actual
  | .integerOutOfRange value ty => C.int32.write 12 ++ C.string.write value ++ C.string.write ty

/-- `FfiConverterTypeAbiError.allocationSize`. -/
def errorAllocationSize : AbiError → Nat
  | .invalidAbi msg => C.int32.allocationSize 1 + C.string.allocationSize msg
  | .functionNotFound name => C.int32.allocationSize 2 + C.string.allocationSize name
  | .ambiguousOverload name count =>
      C.int32.allocationSize 3 + C.string.allocationSize name + C.uint32.allocationSize count
  | .invalidHex msg => C.int32.allocationSize 4 + C.string.allocationSize msg
  | .unsupportedType ty => C.int32.allocationSize 5 + C.string.allocationSize ty
  | .arityMismatch what expected actual =>
      C.int32.allocationSize 6 + C.string.allocationSize what + C.uint32.allocationSize expected +
        C.uint32.allocationSize actual
  | .decodeFailed msg => C.int32.allocationSize 7 + C.string.allocationSize msg
  | .encodeFailed msg => C.int32.allocationSize 8 + C.string.allocationSize msg
  | .invalidArgument msg => C.int32.allocationSize 9 + C.string.allocationSize msg
  | .invalidAddress msg => C.int32.allocationSize 10 + C.string.allocationSize msg
  | .bytesSizeMismatch expected actual =>
      C.int32.allocationSize 11 + C.uint32.allocationSize expected +
        C.uint32.allocationSize actual
  | .integerOutOfRange value ty =>
      C.int32.allocationSize 12 + C.string.allocationSize value + C.string.allocationSize ty

/-! ## One format -/

/-- An error as the list of variants has it. -/
def asMessage (r : AbiError × List UInt8) : Message String FieldKind.Field × List UInt8 :=
  (r.1.message, r.2)

theorem readVariant_cons (tag name : String) (k : FieldKind) (ks : List (String × FieldKind))
    (src : List UInt8) :
    readVariant C.field ⟨tag, (name, k) :: ks⟩ src =
      readField (C.field k) src >>= fun r =>
        (fun m => (⟨tag, (name, ⟨k, r.1⟩) :: m.1.fields⟩, m.2)) <$>
          readVariant C.field ⟨tag, ks⟩ r.2 := by
  simp only [readVariant, readFields_cons, readField]
  cases (C.field k).read src with
  | error e => rfl
  | ok r =>
      simp only [bind, Except.bind]
      cases readFields C.field ks r.2 <;> rfl

theorem readVariant_nil (tag : String) (src : List UInt8) :
    readVariant C.field ⟨tag, []⟩ src = .ok (⟨tag, []⟩, src) := rfl

theorem map_bind {ε' α β γ : Type} (g : β → γ) (x : Except ε' α) (f : α → Except ε' β) :
    g <$> (x >>= f) = x >>= fun a => g <$> f a := by
  cases x <;> rfl

/-- The `switch` reads what the list of variants says. -/
theorem readCase_eq (n : Int) (src : List UInt8) :
    asMessage <$> C.readCase n src = Wire.readCase C.field abiErrorVariants n src := by
  unfold readCase
  split
  case h_13 =>
    have hnone : variantAt abiErrorVariants n = none := by
      rw [variantAt]
      split
      · refine List.getElem?_eq_none ?_
        show 12 ≤ (n - 1).toNat
        simp only [imp_false] at *
        omega
      · rfl
    simp only [Wire.readCase, hnone]
    rfl
  all_goals
    change _ = readVariant C.field _ src
    simp only [readVariant_cons, readVariant_nil, map_bind]
    rfl

theorem readError_eq (src : List UInt8) :
    asMessage <$> C.readError src = readUnion C.field C.int32 abiErrorVariants src := by
  simp only [readError, readUnion, readField]
  cases C.int32.read src with
  | error e => rfl
  | ok r => exact C.readCase_eq r.1 r.2

theorem ordinal_fits {i : Nat} (hi : i < 2 ^ 31 - 1) :
    -2 ^ 31 ≤ (i + 1 : Int) ∧ (i + 1 : Int) < 2 ^ 31 := by
  omega

/-- The numbers and texts of the bindings, for a scaffolding. -/
def writers : FfiWriters := ⟨C.int32.write, C.uint32.write, C.string.write⟩

theorem writeError_eq (e : AbiError) : C.writeError e = C.writers.lowerError e := by
  cases e <;> simp only [writeError, FfiWriters.lowerError, writeUnion, writeFields,
    AbiError.message, List.flatMap_cons, List.flatMap_nil, List.append_nil, List.append_assoc] <;> rfl

theorem length_writeError {e : AbiError} (he : e.Fits) :
    (C.writeError e).length = C.errorAllocationSize e := by
  have hfields : ∀ values : List (String × Sigma FieldKind.Field),
      (∀ v ∈ values, v.2.1.Fits v.2.2) → (writeFields C.writers.field values).length =
        (values.map fun v => (C.field v.2.1).allocationSize v.2.2).sum := by
    intro values h
    rw [writeFields, List.length_flatMap]
    congr 1
    refine List.map_congr_left fun v hv => ?_
    have hlength := (C.field_lawful v.2.1).length_write v.2.2 (h v hv)
    rw [← hlength]
    obtain ⟨name, k, value⟩ := v
    cases k <;> rfl
  have hindex := e.index_lt
  have hordinal := C.int32_lawful.length_write _ (ordinal_fits (i := e.index) (by omega))
  rw [writeError_eq, FfiWriters.lowerError, writeUnion, List.length_append, hfields _ he]
  show (C.int32.write _).length + _ = _
  rw [hordinal]
  cases e <;> simp only [AbiError.message, AbiError.index, errorAllocationSize, List.map_cons,
    List.map_nil, List.sum_cons, List.sum_nil, Nat.add_zero, Nat.add_assoc] <;> rfl

section Agree

variable {C} {W : FfiWriters} (hagree : C.Agrees W)

include hagree

theorem Agrees.field_reads (k : FieldKind) : (C.field k).Reads (W.field k) k.Fits :=
  (C.field_lawful k).reads (hagree.field k)

theorem Agrees.ordinal_reads : C.int32.Reads W.i32 fun i => -2 ^ 31 ≤ i ∧ i < 2 ^ 31 :=
  C.int32_lawful.reads hagree.i32

theorem Agrees.lowerError_eq {e : AbiError} (he : e.Fits) : C.writeError e = W.lowerError e := by
  have hindex := e.index_lt
  rw [writeError_eq, FfiWriters.lowerError, FfiWriters.lowerError, writeUnion, writeUnion,
    hagree.i32 _ (ordinal_fits (by omega)), writeFields, writeFields]
  refine congrArg (C.int32.write _ ++ ·) (List.flatMap_congr fun v hv => ?_)
  rw [hagree.field v.2.1 v.2.2 (he v hv)]
  obtain ⟨name, k, value⟩ := v
  cases k <;> rfl

theorem Agrees.readError_lowerError {e : AbiError} (he : e.Fits) (rest : List UInt8) :
    C.readError (W.lowerError e ++ rest) = .ok (e, rest) := by
  have hindex := e.index_lt
  have hread : readUnion C.field C.int32 abiErrorVariants (W.lowerError e ++ rest) =
      .ok (e.message, rest) := by
    rw [FfiWriters.lowerError, readUnion_writeUnion_of_some hagree.ordinal_reads
      (ordinal_fits (by omega)) rest e.variants_index, readVariant_writeFields hagree.field_reads he]
  rw [← C.readError_eq] at hread
  cases hbindings : C.readError (W.lowerError e ++ rest) with
  | error f =>
      rw [hbindings] at hread
      cases hread
  | ok r =>
      rw [hbindings] at hread
      obtain ⟨hmessage, hrest⟩ := Prod.mk.inj (Except.ok.inj hread)
      exact congrArg Except.ok (Prod.ext (AbiError.message_injective hmessage) hrest)

end Agree

/-- The bindings read back every error the scaffolding can write, and would write it
the same way. -/
theorem read_written (W : FfiWriters) (hagree : C.Agrees W) {e : AbiError} (he : e.Fits)
    (rest : List UInt8) :
    C.readError (W.lowerError e ++ rest) = .ok (e, rest) ∧ C.writeError e = W.lowerError e ∧
      (W.lowerError e).length = C.errorAllocationSize e :=
  ⟨hagree.readError_lowerError he rest, hagree.lowerError_eq he,
    hagree.lowerError_eq he ▸ C.length_writeError he⟩

theorem read_written_args :
    bigEndian.readError (bigEndianWriters.lowerError (.arityMismatch "args" 2 1) ++ [0]) =
      .ok (.arityMismatch "args" 2 1, [0]) := by
  refine (bigEndian.read_written bigEndianWriters agrees_bigEndian (fun v hv => ?_) [0]).1
  rcases List.mem_cons.mp hv with rfl | hv
  · exact (by decide : 4 < 2 ^ 31)
  · rcases List.mem_cons.mp hv with rfl | hv
    · exact (by decide : 2 < 2 ^ 32)
    · rw [List.mem_singleton.mp hv]
      exact (by decide : 1 < 2 ^ 32)

end FfiConverters

/-! ## Other declarations -/

/-- A value of each type that can be written. -/
def FieldKind.sample : (k : FieldKind) → k.Field
  | .string => ""
  | .uint32 => 0

theorem FieldKind.fits_sample (k : FieldKind) : k.Fits k.sample := by
  cases k with
  | string => exact (by decide : 0 < 2 ^ 31)
  | uint32 => exact (by decide : 0 < 2 ^ 32)

/-- A message of the variant, whatever its fields are. -/
def sampleMessage (w : Variant String FieldKind) : Message String FieldKind.Field :=
  ⟨w.tag, w.fields.map fun f => (f.1, ⟨f.2, f.2.sample⟩)⟩

theorem variant_sampleMessage (w : Variant String FieldKind) : (sampleMessage w).variant = w := by
  obtain ⟨tag, fields⟩ := w
  rw [sampleMessage, Message.variant, declared, List.map_map]
  exact congrArg (Variant.mk tag) (List.map_id _)

theorem fits_sampleMessage (w : Variant String FieldKind) :
    ∀ v ∈ (sampleMessage w).fields, v.2.1.Fits v.2.2 := by
  intro v hv
  obtain ⟨f, -, rfl⟩ := List.mem_map.mp hv
  exact f.2.fits_sample

/-- Bindings generated from one declaration and a library built from another
understand each other — every message is read back as it was written, each value under
its name, or refused as an unknown variant — exactly when the declarations agree as far
as both go. -/
theorem stale_bindings_iff {ε : Type} (C : FfiConverters ε) (W : FfiWriters)
    (hagree : C.Agrees W) (library bindings : List (Variant String FieldKind))
    (hlen : library.length < 2 ^ 31) :
    (∀ (i : Nat) (m : Message String FieldKind.Field), library[i]? = some m.variant →
      (∀ v ∈ m.fields, v.2.1.Fits v.2.2) → ∀ rest,
        readUnion C.field C.int32 bindings (writeUnion W.field W.i32 i m ++ rest) = .ok (m, rest) ∨
          readUnion C.field C.int32 bindings (writeUnion W.field W.i32 i m ++ rest) =
            .error .unexpectedEnumCase) ↔
      ∀ (i : Nat) (v w : Variant String FieldKind),
        bindings[i]? = some v → library[i]? = some w → v = w := by
  have hordinal : ∀ {i : Nat} {w : Variant String FieldKind}, library[i]? = some w →
      -2 ^ 31 ≤ (i + 1 : Int) ∧ (i + 1 : Int) < 2 ^ 31 := by
    intro i w hw
    obtain ⟨hi, -⟩ := List.getElem?_eq_some_iff.mp hw
    exact FfiConverters.ordinal_fits (by omega)
  constructor
  · intro h i v w hv hw
    have hm : library[i]? = some (sampleMessage w).variant := by rw [variant_sampleMessage, hw]
    have hread := h i (sampleMessage w) hm (fits_sampleMessage w) []
    have hsame := (readUnion_writeUnion_iff hagree.field_reads hagree.ordinal_reads (hordinal hw) []
      (fits_sampleMessage w)).mp hread v hv
    rw [hsame, variant_sampleMessage]
  · intro h i m hm hfits rest
    exact (readUnion_writeUnion_iff hagree.field_reads hagree.ordinal_reads (hordinal hm) rest
      hfits).mpr fun v hv => h i v _ hv hm

/-- The two counts the other way round. -/
def exchanged : Variant String FieldKind :=
  ⟨"BytesSizeMismatch", [("actual", .uint32), ("expected", .uint32)]⟩

/-- Bindings from before the last variant was added, and bindings with the two counts
of one variant the other way round. -/
theorem stale_bindings_iff_older :
    (∀ (i : Nat) (m : Message String FieldKind.Field), abiErrorVariants[i]? = some m.variant →
      (∀ v ∈ m.fields, v.2.1.Fits v.2.2) → ∀ rest,
        readUnion bigEndian.field bigEndian.int32 (abiErrorVariants.take 11)
            (writeUnion bigEndianWriters.field bigEndianWriters.i32 i m ++ rest) = .ok (m, rest) ∨
          readUnion bigEndian.field bigEndian.int32 (abiErrorVariants.take 11)
            (writeUnion bigEndianWriters.field bigEndianWriters.i32 i m ++ rest) =
              .error .unexpectedEnumCase) ∧
    ¬ ∀ (i : Nat) (m : Message String FieldKind.Field), abiErrorVariants[i]? = some m.variant →
      (∀ v ∈ m.fields, v.2.1.Fits v.2.2) → ∀ rest,
        readUnion bigEndian.field bigEndian.int32 (abiErrorVariants.set 10 exchanged)
            (writeUnion bigEndianWriters.field bigEndianWriters.i32 i m ++ rest) = .ok (m, rest) ∨
          readUnion bigEndian.field bigEndian.int32 (abiErrorVariants.set 10 exchanged)
            (writeUnion bigEndianWriters.field bigEndianWriters.i32 i m ++ rest) =
              .error .unexpectedEnumCase := by
  have hlen : abiErrorVariants.length < 2 ^ 31 := by decide
  rw [stale_bindings_iff bigEndian _ agrees_bigEndian _ _ hlen,
    stale_bindings_iff bigEndian _ agrees_bigEndian _ _ hlen]
  constructor
  · intro i v w hv hw
    rw [List.getElem?_take] at hv
    split at hv
    · exact Option.some.inj (hv.symm.trans hw)
    · cases hv
  · intro h
    exact absurd (h 10 _ _ rfl rfl) (by decide)

end AmbireCrypto
