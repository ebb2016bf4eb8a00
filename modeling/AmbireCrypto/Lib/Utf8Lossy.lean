/-
# `Lib.Utf8Lossy` — decoding bytes that may not be UTF-8

The decoder every web platform shares: it reads a byte at a time, keeps what is left
of a character it is inside of, and writes `U+FFFD` where a sequence breaks off.
The byte that breaks a sequence off is read again from between characters, so an
ASCII byte always stands for itself: decoding splits at one (`decodeFrom_ascii`).
So what is encoded decodes back whatever follows it (`decode_encode_append`), and if
it begins with an ASCII character, whatever stands before it (`decode_sandwich`).

The bounds on the second byte (`Pending.first`) are those of the standard, which keep out
overlong encodings, surrogates and numbers past the last character.  What `encode` writes
stays inside them, and that is all a proof here has to know of them.
-/
import AmbireCrypto.Lib.Utf8Order

namespace Utf8Lossy

/-- Inside a character: the bytes owed after the next one, the bounds of the next
one, and the bits so far. -/
structure Pending where
  owed : Nat
  low : Nat
  high : Nat
  bits : Nat
  low_ge : 0x80 ≤ low

def replacement : Char := '\uFFFD'

/-- The bounds of the byte after a first byte: overlong forms, surrogates and what is
past the last code point are excluded here. -/
def lowAfter (b : Nat) : Nat := if b = 0xE0 then 0xA0 else if b = 0xF0 then 0x90 else 0x80

def highAfter (b : Nat) : Nat := if b = 0xED then 0x9F else if b = 0xF4 then 0x8F else 0xBF

theorem lowAfter_ge (b : Nat) : 0x80 ≤ lowAfter b := by
  rw [lowAfter]
  split
  · omega
  · split <;> omega

/-- After the first byte of a character of `owed + 2` bytes. -/
def Pending.first (b owed bits : Nat) : Pending :=
  ⟨owed, lowAfter b, highAfter b, bits, lowAfter_ge b⟩

/-- After a later byte. -/
def Pending.later (owed bits : Nat) : Pending := ⟨owed, 0x80, 0xBF, bits, Nat.le_refl 0x80⟩

/-- Six more bits: what is written, and where the decoder is left. -/
def Pending.next (p : Pending) (digit : Nat) : List Char × Option Pending :=
  match p.owed with
  | 0 => ([Char.ofNat (p.bits * 64 + digit)], none)
  | owed + 1 => ([], some (.later owed (p.bits * 64 + digit)))

/-- A byte between characters. -/
def start (b : Nat) : List Char × Option Pending :=
  if b < 0x80 then ([Char.ofNat b], none)
  else if 0xC2 ≤ b ∧ b ≤ 0xDF then ([], some (.first b 0 (b - 0xC0)))
  else if 0xE0 ≤ b ∧ b ≤ 0xEF then ([], some (.first b 1 (b - 0xE0)))
  else if 0xF0 ≤ b ∧ b ≤ 0xF4 then ([], some (.first b 2 (b - 0xF0)))
  else ([replacement], none)

/-- A byte anywhere. -/
def step : Option Pending → Nat → List Char × Option Pending
  | none, b => start b
  | some p, b =>
      if p.low ≤ b ∧ b ≤ p.high then p.next (b - 0x80)
      else (replacement :: (start b).1, (start b).2)

def decodeFrom (st : Option Pending) (bytes : List UInt8) : List Char :=
  match bytes with
  | [] =>
      match st with
      | none => []
      | some _ => [replacement]
  | b :: bytes => (step st b.toNat).1 ++ decodeFrom (step st b.toNat).2 bytes

def decode (bytes : List UInt8) : List Char := decodeFrom none bytes

def encode (text : List Char) : List UInt8 := text.flatMap String.utf8EncodeChar

/-! ## ASCII bytes -/

theorem start_ascii {b : Nat} (h : b < 0x80) : start b = ([Char.ofNat b], none) := if_pos h

/-- An ASCII byte ends what is before it. -/
theorem decodeFrom_ascii {b : UInt8} (h : b.toNat < 0x80) (back : List UInt8) :
    ∀ (front : List UInt8) (st : Option Pending),
      decodeFrom st (front ++ b :: back) = decodeFrom st front ++ decode (b :: back)
  | [], none => rfl
  | [], some p => by
      have hlow : ¬ (p.low ≤ b.toNat ∧ b.toNat ≤ p.high) := by
        have := p.low_ge
        omega
      have hstep : step (some p) b.toNat = (replacement :: (start b.toNat).1, (start b.toNat).2) :=
        if_neg hlow
      show (step (some p) b.toNat).1 ++ decodeFrom (step (some p) b.toNat).2 back = _
      rw [hstep]
      rfl
  | x :: front, st => by
      rw [List.cons_append, decodeFrom, decodeFrom_ascii h back front, decodeFrom,
        List.append_assoc]

/-! ## What is encoded -/

theorem toNat_ofNat {b : Nat} (h : b < 256) : (UInt8.ofNat b).toNat = b := by
  rw [UInt8.toNat_ofNat', Nat.mod_eq_of_lt h]

theorem decodeFrom_pending {p : Pending} {digit : Nat} (hdigit : digit < 64)
    (hlow : p.low ≤ digit + 0x80) (hhigh : digit + 0x80 ≤ p.high) (bytes : List UInt8) :
    decodeFrom (some p) (UInt8.ofNat (digit + 0x80) :: bytes) =
      (p.next digit).1 ++ decodeFrom (p.next digit).2 bytes := by
  have hstep : step (some p) (digit + 0x80) = p.next digit := by
    rw [step, if_pos ⟨hlow, hhigh⟩, Nat.add_sub_cancel]
  rw [decodeFrom, toNat_ofNat (by omega), hstep]

theorem decodeFrom_first_zero {b bits digit : Nat} (hdigit : digit < 64)
    (hlow : lowAfter b ≤ digit + 0x80) (hhigh : digit + 0x80 ≤ highAfter b) (bytes : List UInt8) :
    decodeFrom (some (.first b 0 bits)) (UInt8.ofNat (digit + 0x80) :: bytes) =
      Char.ofNat (bits * 64 + digit) :: decode bytes :=
  decodeFrom_pending hdigit hlow hhigh bytes

theorem decodeFrom_first_succ {b owed bits digit : Nat} (hdigit : digit < 64)
    (hlow : lowAfter b ≤ digit + 0x80) (hhigh : digit + 0x80 ≤ highAfter b) (bytes : List UInt8) :
    decodeFrom (some (.first b (owed + 1) bits)) (UInt8.ofNat (digit + 0x80) :: bytes) =
      decodeFrom (some (.later owed (bits * 64 + digit))) bytes :=
  decodeFrom_pending hdigit hlow hhigh bytes

theorem decodeFrom_later_zero {bits digit : Nat} (hdigit : digit < 64) (bytes : List UInt8) :
    decodeFrom (some (.later 0 bits)) (UInt8.ofNat (digit + 0x80) :: bytes) =
      Char.ofNat (bits * 64 + digit) :: decode bytes :=
  decodeFrom_pending hdigit (Nat.le_add_left _ _) (by show _ ≤ 0xBF; omega) bytes

theorem decodeFrom_later_succ {owed bits digit : Nat} (hdigit : digit < 64) (bytes : List UInt8) :
    decodeFrom (some (.later (owed + 1) bits)) (UInt8.ofNat (digit + 0x80) :: bytes) =
      decodeFrom (some (.later owed (bits * 64 + digit))) bytes :=
  decodeFrom_pending hdigit (Nat.le_add_left _ _) (by show _ ≤ 0xBF; omega) bytes

theorem decode_start {b owed bits : Nat} (h : start b = ([], some (.first b owed bits)))
    (hb : b < 256) (bytes : List UInt8) :
    decode (UInt8.ofNat b :: bytes) = decodeFrom (some (.first b owed bits)) bytes := by
  have hstep : step none b = ([], some (.first b owed bits)) := h
  rw [decode, decodeFrom, toNat_ofNat hb, hstep, List.nil_append]

theorem start_two {b : Nat} (hlow : 0xC2 ≤ b) (hhigh : b ≤ 0xDF) :
    start b = ([], some (.first b 0 (b - 0xC0))) := by
  rw [start, if_neg (by omega), if_pos ⟨hlow, hhigh⟩]

theorem start_three {b : Nat} (hlow : 0xE0 ≤ b) (hhigh : b ≤ 0xEF) :
    start b = ([], some (.first b 1 (b - 0xE0))) := by
  rw [start, if_neg (by omega), if_neg (by omega), if_pos ⟨hlow, hhigh⟩]

theorem start_four {b : Nat} (hlow : 0xF0 ≤ b) (hhigh : b ≤ 0xF4) :
    start b = ([], some (.first b 2 (b - 0xF0))) := by
  rw [start, if_neg (by omega), if_neg (by omega), if_neg (by omega), if_pos ⟨hlow, hhigh⟩]

/-! One lemma for each number of bytes. -/

theorem decode_one {v : Nat} (h : v < 0x80) (bytes : List UInt8) :
    decode (UInt8.ofNat v :: bytes) = Char.ofNat v :: decode bytes := by
  have hstep : step none v = ([Char.ofNat v], none) := start_ascii h
  rw [decode, decodeFrom, toNat_ofNat (by omega), hstep]
  rfl

theorem decode_two {v : Nat} (hlow : 0x7F < v) (hhigh : v ≤ 0x7FF) (bytes : List UInt8) :
    decode (UInt8.ofNat (v / 64 % 32 + 0xC0) :: UInt8.ofNat (v % 64 + 0x80) :: bytes) =
      Char.ofNat v :: decode bytes := by
  have hlo : lowAfter (v / 64 % 32 + 0xC0) ≤ v % 64 + 0x80 := by
    rw [lowAfter, if_neg (by omega), if_neg (by omega)]
    omega
  have hhi : v % 64 + 0x80 ≤ highAfter (v / 64 % 32 + 0xC0) := by
    rw [highAfter, if_neg (by omega), if_neg (by omega)]
    omega
  have hbits : (v / 64 % 32 + 0xC0 - 0xC0) * 64 + v % 64 = v := by omega
  rw [decode_start (start_two (by omega) (by omega)) (by omega),
    decodeFrom_first_zero (Nat.mod_lt _ (by decide)) hlo hhi, hbits]

theorem decode_three {v : Nat} (hlow : 0x7FF < v) (hhigh : v ≤ 0xFFFF)
    (hvalid : v < 0xD800 ∨ 0xDFFF < v) (bytes : List UInt8) :
    decode (UInt8.ofNat (v / 4096 % 16 + 0xE0) :: UInt8.ofNat (v / 64 % 64 + 0x80) ::
      UInt8.ofNat (v % 64 + 0x80) :: bytes) = Char.ofNat v :: decode bytes := by
  -- the second byte keeps out what two bytes can write, and the surrogates
  have hlo : lowAfter (v / 4096 % 16 + 0xE0) ≤ v / 64 % 64 + 0x80 := by
    rw [lowAfter]
    split
    · omega
    · rw [if_neg (by omega)]
      omega
  have hhi : v / 64 % 64 + 0x80 ≤ highAfter (v / 4096 % 16 + 0xE0) := by
    rw [highAfter]
    split
    · omega
    · rw [if_neg (by omega)]
      omega
  have hbits : ((v / 4096 % 16 + 0xE0 - 0xE0) * 64 + v / 64 % 64) * 64 + v % 64 = v := by omega
  rw [decode_start (start_three (by omega) (by omega)) (by omega),
    decodeFrom_first_succ (Nat.mod_lt _ (by decide)) hlo hhi,
    decodeFrom_later_zero (Nat.mod_lt _ (by decide)), hbits]

theorem decode_four {v : Nat} (hlow : 0xFFFF < v) (hhigh : v < 0x110000) (bytes : List UInt8) :
    decode (UInt8.ofNat (v / 262144 % 8 + 0xF0) :: UInt8.ofNat (v / 4096 % 64 + 0x80) ::
      UInt8.ofNat (v / 64 % 64 + 0x80) :: UInt8.ofNat (v % 64 + 0x80) :: bytes) =
      Char.ofNat v :: decode bytes := by
  have hlo : lowAfter (v / 262144 % 8 + 0xF0) ≤ v / 4096 % 64 + 0x80 := by
    rw [lowAfter, if_neg (by omega)]
    split <;> omega
  have hhi : v / 4096 % 64 + 0x80 ≤ highAfter (v / 262144 % 8 + 0xF0) := by
    rw [highAfter, if_neg (by omega)]
    split <;> omega
  have hbits : (((v / 262144 % 8 + 0xF0 - 0xF0) * 64 + v / 4096 % 64) * 64 + v / 64 % 64) * 64 +
      v % 64 = v := by omega
  rw [decode_start (start_four (by omega) (by omega)) (by omega),
    decodeFrom_first_succ (Nat.mod_lt _ (by decide)) hlo hhi,
    decodeFrom_later_succ (Nat.mod_lt _ (by decide)),
    decodeFrom_later_zero (Nat.mod_lt _ (by decide)), hbits]

theorem decode_utf8EncodeChar (c : Char) (bytes : List UInt8) :
    decode (String.utf8EncodeChar c ++ bytes) = c :: decode bytes := by
  have hvalid : c.val.toNat < 0xD800 ∨ 0xDFFF < c.val.toNat ∧ c.val.toNat < 0x110000 := c.valid
  have hchar : Char.ofNat c.val.toNat = c := Char.ofNat_toNat c
  simp only [String.utf8EncodeChar]
  generalize c.val.toNat = v at hvalid hchar
  rw [← hchar]
  split
  · exact decode_one (by omega) bytes
  · split
    · exact decode_two (by omega) (by omega) bytes
    · split
      · exact decode_three (by omega) (by omega) (by omega) bytes
      · exact decode_four (by omega) (by omega) bytes

theorem decode_encode_append (text : List Char) (bytes : List UInt8) :
    decode (encode text ++ bytes) = text ++ decode bytes := by
  induction text with
  | nil => rfl
  | cons c text ih =>
      rw [encode, List.flatMap_cons, List.append_assoc, decode_utf8EncodeChar]
      exact congrArg (c :: ·) ih

theorem decode_encode (text : List Char) : decode (encode text) = text := by
  have h := decode_encode_append text []
  rw [List.append_nil] at h
  exact h.trans (List.append_nil text)

theorem encode_append (text text' : List Char) :
    encode (text ++ text') = encode text ++ encode text' := List.flatMap_append

/-- ASCII text in a file is the same text in what the file decodes to. -/
theorem decode_sandwich {c : Char} (hc : c.toNat < 0x80) (text : List Char)
    (front back : List UInt8) :
    decode (front ++ encode (c :: text) ++ back) = decode front ++ (c :: text) ++ decode back := by
  have hfirst : String.utf8EncodeChar c = [UInt8.ofNat c.toNat] := by
    simp only [String.utf8EncodeChar]
    exact if_pos (Nat.le_of_lt_succ hc)
  have hascii : (UInt8.ofNat c.toNat).toNat < 0x80 := by
    rw [toNat_ofNat (by omega)]
    exact hc
  have hbytes : encode (c :: text) ++ back = UInt8.ofNat c.toNat :: (encode text ++ back) := by
    rw [encode, List.flatMap_cons, hfirst]
    rfl
  rw [List.append_assoc, hbytes, decode, decodeFrom_ascii hascii, ← hbytes, decode_encode_append,
    List.append_assoc]
  rfl

end Utf8Lossy
