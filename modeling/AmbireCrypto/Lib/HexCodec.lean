/-
# `Lib.HexCodec` — bytes as hexadecimal digits

Two digits a byte, high half first, written in lower case and read in either.
Reading is insensitive to the case of each digit (`decode_congr`), which is
what lets a checksummed spelling denote the same bytes as the plain one.

`Denotes` says what a text of digits stands for, without the reader: the reader
finds exactly that (`decode_eq_some_iff`), there is something to find for every
even number of digits (`exists_denotes_iff`), and writing it again is the text in
lower case (`Denotes.encode_eq`).
-/
import Mathlib.Data.List.Basic

namespace HexCodec

/-- The value of a hexadecimal digit of either case. -/
def digitValue (c : Char) : Option Nat :=
  if '0' ≤ c ∧ c ≤ '9' then some (c.toNat - 48)
  else if 'a' ≤ c ∧ c ≤ 'f' then some (c.toNat - 87)
  else if 'A' ≤ c ∧ c ≤ 'F' then some (c.toNat - 55)
  else none

/-- The two digits of a byte. -/
def encodeByte (b : UInt8) : List Char :=
  [Nat.digitChar (b.toNat / 16), Nat.digitChar (b.toNat % 16)]

def encode (bytes : List UInt8) : List Char := bytes.flatMap encodeByte

/-- Two digits at a time; an odd digit at the end or a foreign character fails. -/
def decode : List Char → Option (List UInt8)
  | [] => some []
  | [_] => none
  | hi :: lo :: rest =>
      match digitValue hi, digitValue lo with
      | some x, some y => (decode rest).map (UInt8.ofNat (16 * x + y) :: ·)
      | _, _ => none

/-! ## Single digits -/

theorem digitValue_digitChar : ∀ {n : Nat}, n < 16 → digitValue (Nat.digitChar n) = some n := by
  have h : ∀ n : Fin 16, digitValue (Nat.digitChar n.val) = some n.val := by decide
  intro n hn
  exact h ⟨n, hn⟩

theorem digitValue_toUpper_digitChar :
    ∀ {n : Nat}, n < 16 → digitValue (Nat.digitChar n).toUpper = some n := by
  have h : ∀ n : Fin 16, digitValue (Nat.digitChar n.val).toUpper = some n.val := by decide
  intro n hn
  exact h ⟨n, hn⟩

theorem mem_encode {c : Char} {bytes : List UInt8} (h : c ∈ encode bytes) :
    ∃ n, n < 16 ∧ c = Nat.digitChar n := by
  obtain ⟨b, -, hc⟩ := List.mem_flatMap.mp h
  have hb := b.toNat_lt
  rcases List.mem_cons.mp hc with rfl | hc
  · exact ⟨_, by omega, rfl⟩
  · rw [List.mem_singleton.mp hc]
    exact ⟨_, by omega, rfl⟩

/-! ## Whole texts -/

@[simp] theorem encode_cons (b : UInt8) (bytes : List UInt8) :
    encode (b :: bytes) = encodeByte b ++ encode bytes := rfl

theorem decode_encode (bytes : List UInt8) : decode (encode bytes) = some bytes := by
  induction bytes with
  | nil => rfl
  | cons b bytes ih =>
      have hb := b.toNat_lt
      have hvalue : 16 * (b.toNat / 16) + b.toNat % 16 = b.toNat := by omega
      rw [encode_cons, encodeByte, List.cons_append, List.cons_append, List.nil_append, decode,
        digitValue_digitChar (by omega), digitValue_digitChar (by omega)]
      simp only [ih, Option.map_some, hvalue]
      rw [UInt8.ofNat_toNat]

/-- Texts whose digits agree in value denote the same bytes. -/
theorem decode_congr : ∀ {cs ds : List Char},
    cs.map digitValue = ds.map digitValue → decode cs = decode ds
  | [], [], _ => rfl
  | [_], [_], _ => rfl
  | a :: b :: cs, a' :: b' :: ds, h => by
      simp only [List.map_cons, List.cons.injEq] at h
      obtain ⟨ha, hb, hrest⟩ := h
      rw [decode, decode, ha, hb, decode_congr hrest]
  | [], _ :: _, h => by simp at h
  | _ :: _, [], h => by simp at h
  | [_], _ :: _ :: _, h => by simp at h
  | _ :: _ :: _, [_], h => by simp at h

/-! ## Which texts are read, and as what -/

def IsHexDigit (c : Char) : Prop :=
  ('0' ≤ c ∧ c ≤ '9') ∨ ('a' ≤ c ∧ c ≤ 'f') ∨ ('A' ≤ c ∧ c ≤ 'F')

/-- A text of digits and its bytes: two digits each, the high half first. -/
inductive Denotes : List Char → List UInt8 → Prop
  | nil : Denotes [] []
  | cons {hi lo : Char} {x y : Nat} {digits : List Char} {bytes : List UInt8} :
      digitValue hi = some x → digitValue lo = some y → Denotes digits bytes →
      Denotes (hi :: lo :: digits) (UInt8.ofNat (16 * x + y) :: bytes)

theorem digitValue_isSome_iff {c : Char} : (digitValue c).isSome = true ↔ IsHexDigit c := by
  simp only [digitValue, IsHexDigit]
  split
  · simp [*]
  · split
    · simp [*]
    · split
      · simp [*]
      · simp [*]

theorem exists_digitValue {c : Char} (h : IsHexDigit c) : ∃ n, digitValue c = some n :=
  Option.isSome_iff_exists.mp (digitValue_isSome_iff.mpr h)

theorem isHexDigit_of_digitValue {c : Char} {n : Nat} (h : digitValue c = some n) :
    IsHexDigit c :=
  digitValue_isSome_iff.mp (by rw [h]; rfl)

theorem toNat_lt_of_isHexDigit {c : Char} (h : IsHexDigit c) : c.toNat < 103 := by
  have hle : c ≤ 'f' := by
    rcases h with h | h | h
    · exact Char.le_trans h.2 (by decide)
    · exact h.2
    · exact Char.le_trans h.2 (by decide)
  exact Nat.lt_succ_of_le hle

theorem digitChar_of_digitValue {c : Char} {n : Nat} (h : digitValue c = some n) :
    n < 16 ∧ Nat.digitChar n = c.toLower := by
  have htable : ∀ i : Fin 103, ∀ n ∈ digitValue (Char.ofNat i.val),
      n < 16 ∧ Nat.digitChar n = (Char.ofNat i.val).toLower := by decide
  have hc := htable ⟨c.toNat, toNat_lt_of_isHexDigit (isHexDigit_of_digitValue h)⟩ n
  rw [Char.ofNat_toNat] at hc
  exact hc h

theorem decode_eq_some_iff : ∀ {digits : List Char} {bytes : List UInt8},
    decode digits = some bytes ↔ Denotes digits bytes
  | [], bytes => by
      constructor
      · intro h
        cases h
        exact .nil
      · intro h
        cases h
        rfl
  | [_], bytes => ⟨nofun, nofun⟩
  | hi :: lo :: digits, bytes => by
      rw [decode]
      constructor
      · intro h
        split at h
        · rename_i hx hy
          obtain ⟨rest, hrest, rfl⟩ := Option.map_eq_some_iff.mp h
          exact .cons hx hy (decode_eq_some_iff.mp hrest)
        · cases h
      · intro h
        cases h with
        | cons hx hy hrest => rw [hx, hy, decode_eq_some_iff.mpr hrest]; rfl

theorem Denotes.isHexDigit {digits : List Char} {bytes : List UInt8} (h : Denotes digits bytes) :
    ∀ c ∈ digits, IsHexDigit c := by
  induction h with
  | nil => exact fun c hc => absurd hc List.not_mem_nil
  | cons hx hy _ ih =>
      intro c hc
      rcases List.mem_cons.mp hc with rfl | hc
      · exact isHexDigit_of_digitValue hx
      · rcases List.mem_cons.mp hc with rfl | hc
        · exact isHexDigit_of_digitValue hy
        · exact ih c hc

theorem Denotes.length_eq {digits : List Char} {bytes : List UInt8} (h : Denotes digits bytes) :
    digits.length = 2 * bytes.length := by
  induction h with
  | nil => rfl
  | cons _ _ _ ih =>
      simp only [List.length_cons]
      omega

theorem exists_denotes_iff : ∀ {digits : List Char},
    (∃ bytes, Denotes digits bytes) ↔ digits.length % 2 = 0 ∧ ∀ c ∈ digits, IsHexDigit c
  | [] => ⟨fun _ => ⟨rfl, fun _ h => absurd h List.not_mem_nil⟩, fun _ => ⟨[], .nil⟩⟩
  | [_] => ⟨nofun, nofun⟩
  | hi :: lo :: digits => by
      constructor
      · rintro ⟨bytes, h⟩
        have hlen := h.length_eq
        exact ⟨by omega, h.isHexDigit⟩
      · rintro ⟨heven, hdigits⟩
        simp only [List.mem_cons, forall_eq_or_imp] at hdigits
        obtain ⟨hhi, hlo, hrest⟩ := hdigits
        obtain ⟨x, hx⟩ := exists_digitValue hhi
        obtain ⟨y, hy⟩ := exists_digitValue hlo
        have heven' : digits.length % 2 = 0 := by
          simp only [List.length_cons] at heven
          omega
        obtain ⟨bytes, hbytes⟩ := exists_denotes_iff.mpr ⟨heven', hrest⟩
        exact ⟨_, .cons hx hy hbytes⟩

theorem encodeByte_ofNat {x y : Nat} (hx : x < 16) (hy : y < 16) :
    encodeByte (UInt8.ofNat (16 * x + y)) = [Nat.digitChar x, Nat.digitChar y] := by
  have hbyte : (UInt8.ofNat (16 * x + y)).toNat = 16 * x + y := by
    rw [UInt8.toNat_ofNat', Nat.mod_eq_of_lt (by omega)]
  rw [encodeByte, hbyte, show (16 * x + y) / 16 = x by omega, show (16 * x + y) % 16 = y by omega]

theorem Denotes.encode_eq {digits : List Char} {bytes : List UInt8} (h : Denotes digits bytes) :
    encode bytes = digits.map Char.toLower := by
  induction h with
  | nil => rfl
  | cons hx hy _ ih =>
      obtain ⟨hx16, hxc⟩ := digitChar_of_digitValue hx
      obtain ⟨hy16, hyc⟩ := digitChar_of_digitValue hy
      rw [encode_cons, encodeByte_ofNat hx16 hy16, hxc, hyc, ih]
      rfl

theorem denotes_encode (bytes : List UInt8) : Denotes (encode bytes) bytes :=
  decode_eq_some_iff.mp (decode_encode bytes)

end HexCodec
