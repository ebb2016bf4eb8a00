/-
# `AmbireCrypto.Boundary` — whose memory the bytes are

Between JavaScript and the crate every text and every byte string is a buffer that
somebody has to free.  The generated code divides the work:

* an argument is lowered by the runtime, into an array of JavaScript's own or, in place,
  into memory that `rustbuffer_alloc` gives;
* C++ copies it into a buffer of Rust's, which Rust frees once it has read it;
* an error is copied out of Rust's buffer, which the C++ frees at once;
* a result is handed over as a view into Rust's own memory; the bindings read it and
  free it, in a `finally`, and the view carries the capacity where it is not the length.

What is here is the model, in the order in which a call passes through it: the C ABI, the
C++ over it, the bindings over that.  What it leaves behind is counted in `Ledger`.

## What is not under `src/`

The scaffolding is made when the crate is built, so it is a parameter, `Scaffolding`: four
functions on a heap, and what `rust_call` promises of each (`Returns`).  Nothing is said
of the addresses it hands out but that they were free.

The runtime is a package.  Of its `UniffiRustCaller` two things are relied on: a status of
success passes, and an error is lifted by what was given for it.  Its converters may lower
an argument in either of the two ways (`Lowering`), and all that is asked of the second is
that the room they request holds what they write.  Its headers give C++ the bytes of an
array it is passed (`Uint8Array.read`).

## What is left out

How JavaScript comes by the bytes of an argument is not looked at, and the sizes it asks
for are integers.  C++ does not say in which order the arguments of a call are copied;
here it is from left to right, and nothing depends on it.
-/
import AmbireCrypto.Lib.Heap
import Mathlib.Algebra.Order.Ring.Int
import Mathlib.Data.List.Forall2

namespace AmbireCrypto

open Heaps

/-! ## The C ABI -/

structure RustBuffer where
  capacity : Nat
  len : Nat
  data : Nat

structure RustCallStatus where
  code : Nat
  errorBuf : RustBuffer

namespace RustBuffer

/-- What stands for no buffer: the pointer is null. -/
def default : RustBuffer := ⟨0, 0, 0⟩

/-- The address of the buffer's block, if it has one. -/
def owned (b : RustBuffer) : List Nat := if b.capacity = 0 then [] else [b.data]

/-- The buffer holds `bytes`, at the front of a block of its capacity. -/
structure Owned (h : Heap) (b : RustBuffer) (bytes : List UInt8) : Prop where
  len_eq : b.len = bytes.length
  le_capacity : bytes.length ≤ b.capacity
  block : b.capacity ≠ 0 →
    ∃ rest, h.blocks b.data = some (bytes ++ rest) ∧ bytes.length + rest.length = b.capacity

/-- The buffer is a new vector of `bytes` and `spare` bytes more.  Its pointer is not null,
even if it owns no memory. -/
structure IsVec (h : Heap) (bytes : List UInt8) (spare : Nat) (b : RustBuffer) (h' : Heap) : Prop where
  owned : Owned h' b bytes
  capacity_eq : b.capacity = bytes.length + spare
  data_ne : b.data ≠ 0
  adds : Adds h h' b.owned

def read (b : RustBuffer) (h : Heap) : Option (List UInt8) :=
  if b.len = 0 then some [] else h.read b.data b.len

end RustBuffer

/-- How a function of the crate ends.  Each vector comes with its spare capacity, and
the message of a panic may be missing. -/
inductive RustOutcome
  | ok (value : List UInt8) (spare : Nat)
  | err (error : List UInt8) (spare : Nat)
  | panic (message : Option (List UInt8 × Nat))

/-- What a function across the C ABI leaves: its value, the status it was given a
pointer to, and the heap. -/
structure Returned where
  value : RustBuffer
  status : RustCallStatus
  heap : Heap

/-- What `rust_call` makes of an outcome. -/
inductive Returns (h : Heap) : RustOutcome → Returned → Prop
  | ok {value : List UInt8} {spare : Nat} {b : RustBuffer} {h' : Heap} :
      RustBuffer.IsVec h value spare b h' → Returns h (.ok value spare) ⟨b, ⟨0, .default⟩, h'⟩
  | err {error : List UInt8} {spare : Nat} {b : RustBuffer} {h' : Heap} :
      RustBuffer.IsVec h error spare b h' → Returns h (.err error spare) ⟨.default, ⟨1, b⟩, h'⟩
  | panic {message : List UInt8} {spare : Nat} {b : RustBuffer} {h' : Heap} :
      RustBuffer.IsVec h message spare b h' →
      Returns h (.panic (some (message, spare))) ⟨.default, ⟨2, b⟩, h'⟩
  | silent {h' : Heap} : h'.blocks = h.blocks → Returns h (.panic none) ⟨.default, ⟨2, .default⟩, h'⟩

/-- The scaffolding of a crate that exports the functions `φ`. -/
structure Scaffolding (φ : Type) where
  ffiRustbufferAlloc : Heap → Int → Returned
  ffiRustbufferFree : Heap → RustBuffer → Option (RustCallStatus × Heap)
  ffiRustbufferFromBytes : Heap → List UInt8 → Int → Returned
  fnFunc : φ → Heap → List RustBuffer → Option Returned
  /-- What becomes of a function, for the bytes it is given. -/
  outcome : φ → List (List UInt8) → RustOutcome
  /-- What is said of a negative length. -/
  negativeLength : Option (List UInt8 × Nat)
  alloc_returns : ∀ h (n : Nat), n < 2 ^ 31 →
    Returns h (.ok (List.replicate n 0) 0) (ffiRustbufferAlloc h n)
  fromBytes_returns : ∀ h bytes (n : Nat), n < 2 ^ 31 → ∃ spare,
    Returns h (.ok (bytes.take n) spare) (ffiRustbufferFromBytes h bytes n)
  fromBytes_negative : ∀ h bytes (i : Int), -2 ^ 31 ≤ i → i < 0 →
    Returns h (.panic negativeLength) (ffiRustbufferFromBytes h bytes i)
  free_owned : ∀ h b bytes, RustBuffer.Owned h b bytes →
    ∃ status h', ffiRustbufferFree h b = some (status, h') ∧ Adds h' h b.owned
  /-- A function frees its arguments once it has read them. -/
  fnFunc_returns : ∀ f h bufs inputs, List.Forall₂ (RustBuffer.Owned h) bufs inputs →
    (bufs.flatMap RustBuffer.owned).Nodup →
    ∃ r g, fnFunc f h bufs = some r ∧ Adds g h (bufs.flatMap RustBuffer.owned) ∧
      Returns g (outcome f inputs) r

/-! ## In C++ -/

/-- `static_cast<int32_t>` of a length. -/
def asInt32 (n : Nat) : Int := Int.bmod n (2 ^ 32)

/-- `static_cast<double>` of an integer, to nearest, ties to even. -/
def asDouble (n : Nat) : Nat :=
  if n ≤ 2 ^ 53 then n
  else
    let ulp := 2 ^ (n.log2 - 52)
    let q := n / ulp
    let r := n % ulp
    (if 2 * r < ulp ∨ 2 * r = ulp ∧ q % 2 = 0 then q else q + 1) * ulp

def INT32_MAX : Int := 2 ^ 31 - 1

/-- A `Uint8Array` over memory of Rust's. -/
structure View where
  byteLength : Nat
  data : Nat
  rustCapacity : Option Nat

namespace View

def read (view : View) (h : Heap) : Option (List UInt8) :=
  if view.byteLength = 0 then some [] else h.read view.data view.byteLength

/-- The bytes are set at the front of the array. -/
def write (view : View) (h : Heap) (bytes : List UInt8) : Option Heap :=
  if bytes.length ≤ view.byteLength then
    if bytes = [] then some h else h.write view.data bytes
  else none

end View

/-- An array as JavaScript passes it: of its own, or over memory of Rust's. -/
inductive Uint8Array
  | own (bytes : List UInt8)
  | view (v : View)

def Uint8Array.read (h : Heap) : Uint8Array → Option (List UInt8)
  | own bytes => some bytes
  | view v => v.read h

/-- A `UniffiRustCallStatus`. -/
structure JsCallStatus where
  code : Nat
  errorBuf : Option (List UInt8)

namespace Scaffolding

variable {φ : Type} (S : Scaffolding φ)

/-- `Bridging<RustBuffer>::rustbuffer_from_bytes`.  The status is dropped. -/
def rustbufferFromBytes (h : Heap) (bytes : List UInt8) (len : Int) : RustBuffer × Heap :=
  let r := S.ffiRustbufferFromBytes h bytes len
  (r.value, r.heap)

/-- `Bridging<RustBuffer>::fromJs`, argument by argument. -/
def fromJs (h : Heap) : List Uint8Array → Option (List RustBuffer × Heap)
  | [] => some ([], h)
  | value :: values => do
      let bytes ← value.read h
      let (buf, h) := S.rustbufferFromBytes h bytes (asInt32 bytes.length)
      let (bufs, h) ← fromJs h values
      some (buf :: bufs, h)

/-- `Bridging<RustBuffer>::toJs`. -/
def toJs (buf : RustBuffer) : View :=
  ⟨buf.len, buf.data, if buf.capacity ≠ buf.len then some (asDouble buf.capacity) else none⟩

/-- `Bridging<RustBuffer>::rustbuffer_free`. -/
def free (h : Heap) (buf : RustBuffer) : Option Heap :=
  Prod.snd <$> S.ffiRustbufferFree h buf

/-- `Bridging<RustCallStatus>::copyIntoJs`, into a fresh status. -/
def copyIntoJs (h : Heap) (status : RustCallStatus) : Option (JsCallStatus × Heap) :=
  if status.errorBuf.data ≠ 0 then do
    let bytes ← status.errorBuf.read h
    let h ← S.free h status.errorBuf
    some (⟨status.code, some bytes⟩, h)
  else some (⟨status.code, none⟩, h)

/-- The host function of an exported function. -/
def cppFnFunc (f : φ) (h : Heap) (args : List Uint8Array) : Option (View × JsCallStatus × Heap) := do
  let (bufs, h) ← S.fromJs h args
  let r ← S.fnFunc f h bufs
  let (status, h) ← S.copyIntoJs r.heap r.status
  some (toJs r.value, status, h)

/-- The host function `rustbuffer_alloc`, or the message of what it throws. -/
def rustbufferAlloc (h : Heap) (size : Int) : Except String View × Heap :=
  if size < 0 then (.error "rustbuffer_alloc: size must be non-negative", h)
  else if size > INT32_MAX then (.error "rustbuffer_alloc: size exceeds INT32_MAX", h)
  else
    let r := S.ffiRustbufferAlloc h size
    if r.value.data = 0 then (.error "rustbuffer_alloc failed: alloc returned null", r.heap)
    else (.ok ⟨r.value.capacity, r.value.data, none⟩, r.heap)

/-- The host function `rustbuffer_free`. -/
def rustbufferFree (h : Heap) (view : View) : Option Heap :=
  if view.byteLength = 0 then some h
  else S.free h ⟨view.rustCapacity.getD view.byteLength, 0, view.data⟩

end Scaffolding

/-! ## In JavaScript -/

/-- How the runtime lowers a value: into an array of its own, or in place into what it
gets from `rustbuffer_alloc`. -/
inductive Lowering
  | own (bytes : List UInt8)
  | inPlace (bytes : List UInt8) (size : Nat) (fits : bytes.length ≤ size)

/-- What a value is lowered to. -/
def Lowering.bytes : Lowering → List UInt8
  | own bytes => bytes
  | inPlace bytes _ _ => bytes

/-- `UniffiRustCaller` of the runtime: what it throws for a status, if anything.  An
error is lifted by what it is given for that. -/
structure UniffiRustCaller (ε : Type) where
  checkCallStatus : Option (List UInt8 → ε) → JsCallStatus → Option ε
  success : ∀ liftError errorBuf, checkCallStatus liftError ⟨0, errorBuf⟩ = none
  error : ∀ lift errorBuf, checkCallStatus (some lift) ⟨1, some errorBuf⟩ = some (lift errorBuf)

/-- What a call throws: a `JSError` of a host function, or what the runtime does. -/
inductive Thrown (ε : Type)
  | jsError (message : String)
  | runtime (e : ε)

/-- A function of the bindings, called: what it lifts with, the function behind it, and
how its arguments are lowered. -/
structure Call (φ ε α : Type) where
  fn : φ
  liftError : Option (List UInt8 → ε)
  lift : List UInt8 → Except ε α
  args : List Lowering

section Calls

variable {φ ε α : Type} (S : Scaffolding φ) (u : UniffiRustCaller ε)

/-- `lower`, given `rustbuffer_alloc`. -/
def Lowering.lower (h : Heap) : Lowering → Option (Except String Uint8Array × Heap)
  | own bytes => some (.ok (.own bytes), h)
  | inPlace bytes size _ =>
      match S.rustbufferAlloc h size with
      | (.error message, h) => some (.error message, h)
      | (.ok view, h) => do
          let h ← view.write h bytes
          some (.ok (.view ⟨bytes.length, view.data, none⟩), h)

/-- The arguments, lowered one after the other.  If one cannot be, the ones before have
been. -/
def lowerArgs (h : Heap) : List Lowering → Option (Except String (List Uint8Array) × Heap)
  | [] => some (.ok [], h)
  | arg :: args => do
      let (lowered, h) ← arg.lower S h
      match lowered with
      | .error message => some (.error message, h)
      | .ok value => do
          let (values, h) ← lowerArgs h args
          some ((fun values => value :: values) <$> values, h)

namespace Call

/-- The status is checked, and a result is lifted and freed, whether the lifting throws
or not. -/
def finish (c : Call φ ε α) (h : Heap) (view : View) (status : JsCallStatus) :
    Option (Except (Thrown ε) α × Heap) :=
  match u.checkCallStatus c.liftError status with
  | some e => some (.error (.runtime e), h)
  | none => do
      let bytes ← view.read h
      let h ← S.rustbufferFree h view
      some ((c.lift bytes).mapError .runtime, h)

/-- The call, from the lowering to the `finally`. -/
def run (c : Call φ ε α) (h : Heap) : Option (Except (Thrown ε) α × Heap) := do
  let (args, h) ← lowerArgs S h c.args
  match args with
  | .error message => some (.error (.jsError message), h)
  | .ok args => do
      let (view, status, h) ← S.cppFnFunc c.fn h args
      c.finish S u h view status

end Call

/-- Calls one after the other. -/
def runCalls (h : Heap) : List (Call φ ε α) → Option (List (Except (Thrown ε) α) × Heap)
  | [] => some ([], h)
  | c :: cs => do
      let (result, h) ← c.run S u h
      let (results, h) ← runCalls h cs
      some (result :: results, h)

/-! ## What to expect of a call -/

/-- What Rust gets of an argument: one too long for an `i32` is cut or lost. -/
def received (bytes : List UInt8) : List UInt8 := bytes.take (asInt32 bytes.length).toNat

/-- What `rustbuffer_alloc` throws for it. -/
def Lowering.refusal : Lowering → Option String
  | own _ => none
  | inPlace _ size _ =>
      if (size : Int) > INT32_MAX then some "rustbuffer_alloc: size exceeds INT32_MAX" else none

/-- The status as JavaScript sees it. -/
def RustOutcome.status : RustOutcome → JsCallStatus
  | .ok _ _ => ⟨0, none⟩
  | .err error _ => ⟨1, some error⟩
  | .panic message => ⟨2, message.map Prod.fst⟩

/-- The value returned next to the status, which is empty unless the call succeeds. -/
def RustOutcome.value : RustOutcome → List UInt8
  | .ok value _ => value
  | _ => []

namespace Call

def outcome (c : Call φ ε α) : RustOutcome :=
  S.outcome c.fn (c.args.map fun arg => received arg.bytes)

/-- What the caller gets, for what Rust made of the arguments. -/
def replyTo (c : Call φ ε α) (o : RustOutcome) : Except (Thrown ε) α :=
  match u.checkCallStatus c.liftError o.status with
  | some e => .error (.runtime e)
  | none => (c.lift o.value).mapError .runtime

def reply (c : Call φ ε α) : Except (Thrown ε) α :=
  match c.args.findSome? Lowering.refusal with
  | some message => .error (.jsError message)
  | none => c.replyTo u (c.outcome S)

end Call

/-! ## What to expect to be left -/

/-- A vector that owns memory. -/
def ownsMemory (vec : List UInt8 × Nat) : Bool := decide (0 < vec.1.length + vec.2)

/-- Memory an argument was lowered into is not freed. -/
def Lowering.left : Lowering → Nat
  | own _ => 0
  | inPlace _ size _ => if size = 0 then 0 else 1

/-- Nor is what is said of a negative length. -/
def Lowering.dropped (arg : Lowering) : Nat :=
  if asInt32 arg.bytes.length < 0 ∧ S.negativeLength.any ownsMemory then 1 else 0

/-- Nor is an empty result that owns memory all the same. -/
def RustOutcome.left : RustOutcome → Nat
  | .ok value spare => if value = [] ∧ 0 < spare then 1 else 0
  | _ => 0

/-- What is left of a call.  If an argument is refused, this is what the arguments before
it were lowered into. -/
def Call.left (c : Call φ ε α) : Nat :=
  match c.args.findSome? Lowering.refusal with
  | some _ => ((c.args.takeWhile fun arg => arg.refusal.isNone).map Lowering.left).sum
  | none =>
      (c.args.map Lowering.left).sum + (c.args.map (Lowering.dropped S)).sum + (c.outcome S).left

/-- A result whose capacity a JavaScript number holds. -/
def RustOutcome.Fits : RustOutcome → Prop
  | .ok value spare => value.length + spare ≤ 2 ^ 53
  | _ => True

end Calls

end AmbireCrypto
