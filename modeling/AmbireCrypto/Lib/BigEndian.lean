/-
# `Lib.BigEndian` — words, bytes and texts on a byte stream

Converters for 32-bit words, most significant byte first, signed in two's complement,
and for byte strings and texts: the number of bytes as a signed word, then the bytes.

Each is lawful on the values its length word or its range has room for, which is where
the bounds of `2 ^ 31` and `2 ^ 32` come from.  Past them the words wrap around, and
nothing is said.
-/
import AmbireCrypto.Lib.Wire
import AmbireCrypto.Lib.Utf8Lossy
import Mathlib.Algebra.Order.Ring.Int

namespace Wire

/-! ## Words -/

def word (n : Nat) : List UInt8 :=
  [UInt8.ofNat (n / 2 ^ 24), UInt8.ofNat (n / 2 ^ 16), UInt8.ofNat (n / 2 ^ 8), UInt8.ofNat n]

def outOfBounds : String := "Offset is outside the bounds of the DataView"

def readWord : List UInt8 → Except String (Nat × List UInt8)
  | a :: b :: c :: d :: rest =>
      .ok (a.toNat * 2 ^ 24 + b.toNat * 2 ^ 16 + c.toNat * 2 ^ 8 + d.toNat, rest)
  | _ => .error outOfBounds

theorem readWord_word {n : Nat} (hn : n < 2 ^ 32) (rest : List UInt8) :
    readWord (word n ++ rest) = .ok (n, rest) := by
  show Except.ok ((UInt8.ofNat (n / 2 ^ 24)).toNat * 2 ^ 24 + (UInt8.ofNat (n / 2 ^ 16)).toNat * 2 ^ 16 +
    (UInt8.ofNat (n / 2 ^ 8)).toNat * 2 ^ 8 + (UInt8.ofNat n).toNat, rest) = _
  simp only [UInt8.toNat_ofNat']
  congr 2
  omega

def uint32 : Converter String Nat where
  read := readWord
  write := word
  allocationSize := fun _ => 4

theorem uint32_lawful : uint32.Lawful fun n => n < 2 ^ 32 :=
  ⟨fun _ hn rest => readWord_word hn rest, fun _ _ => rfl⟩

/-- The integer a word stands for in two's complement. -/
def ofWord (n : Nat) : Int := if n < 2 ^ 31 then n else n - 2 ^ 32

theorem ofWord_emod {i : Int} (hlow : -2 ^ 31 ≤ i) (hhigh : i < 2 ^ 31) :
    ofWord (i % 2 ^ 32).toNat = i := by
  rw [ofWord]
  split <;> omega

def int32 : Converter String Int where
  read := fun bytes => (fun r => (ofWord r.1, r.2)) <$> readWord bytes
  write := fun i => word (i % 2 ^ 32).toNat
  allocationSize := fun _ => 4

theorem int32_lawful : int32.Lawful fun i => -2 ^ 31 ≤ i ∧ i < 2 ^ 31 := by
  refine ⟨fun i ⟨hlow, hhigh⟩ rest => ?_, fun _ _ => rfl⟩
  have hlt : (i % 2 ^ 32).toNat < 2 ^ 32 := by omega
  simp only [int32, readWord_word hlt, Functor.map, Except.map, ofWord_emod hlow hhigh]

/-! ## Bytes and texts -/

/-- The number of bytes, then the bytes. -/
def bytes : Converter String (List UInt8) where
  read := fun src => do
    let (len, src) ← int32.read src
    if 0 ≤ len ∧ len.toNat ≤ src.length then .ok (src.take len.toNat, src.drop len.toNat)
    else .error outOfBounds
  write := fun b => int32.write b.length ++ b
  allocationSize := fun b => 4 + b.length

theorem bytes_lawful : bytes.Lawful fun b => b.length < 2 ^ 31 := by
  refine ⟨fun b hb rest => ?_, fun b _ => ?_⟩
  · have hlen := int32_lawful.read_write b.length ⟨by omega, by exact_mod_cast hb⟩ (b ++ rest)
    show (int32.read (int32.write _ ++ b ++ rest) >>= _) = _
    rw [List.append_assoc, hlen]
    show (if (0 : Int) ≤ _ ∧ _ then _ else _) = _
    rw [if_pos ⟨by omega, by rw [Int.toNat_natCast, List.length_append]; omega⟩, Int.toNat_natCast,
      List.take_left, List.drop_left]
  · show (int32.write _ ++ b).length = _
    rw [List.length_append]
    rfl

/-- A text, as its UTF-8 bytes. -/
def string : Converter String String where
  read := fun src => (fun r => (String.ofList (Utf8Lossy.decode r.1), r.2)) <$> bytes.read src
  write := fun s => bytes.write (Utf8Order.bytes s)
  allocationSize := fun s => bytes.allocationSize (Utf8Order.bytes s)

theorem decode_bytes (s : String) : String.ofList (Utf8Lossy.decode (Utf8Order.bytes s)) = s := by
  have hencode : Utf8Order.bytes s = Utf8Lossy.encode s.toList := Utf8Order.bytes_eq_flatMap s
  rw [hencode, Utf8Lossy.decode_encode, String.ofList_toList]

theorem string_lawful : string.Lawful fun s => (Utf8Order.bytes s).length < 2 ^ 31 := by
  refine ⟨fun s hs rest => ?_, fun s hs => ?_⟩
  · have hread := bytes_lawful.read_write (Utf8Order.bytes s) hs rest
    show (fun r => _) <$> bytes.read (bytes.write (Utf8Order.bytes s) ++ rest) = _
    rw [hread]
    exact congrArg (fun t => Except.ok (t, rest)) (decode_bytes s)
  · show (bytes.write (Utf8Order.bytes s)).length = bytes.allocationSize (Utf8Order.bytes s)
    exact bytes_lawful.length_write (Utf8Order.bytes s) hs

end Wire
