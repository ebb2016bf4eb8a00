/-
# `Lib.Utf8Order` — code points and bytes order texts alike

A text can be compared by its characters or by the bytes of its UTF-8 encoding.
The two orders are the same: where two encodings first differ, the smaller byte
is in the smaller character, whether they differ in length (the lead bytes of
longer encodings are larger) or within a digit of the same length.

`Before` is the first difference, as a relation, so that what follows it need not be
looked at; the case distinction over the numbers of bytes is then one lemma for each
position a digit can have.
-/
import Mathlib.Data.String.Basic

namespace Utf8Order

/-! ## The first difference -/

/-- Neither is a prefix of the other, and the first difference is an ascent. -/
def Before (l l' : List UInt8) : Prop :=
  ∃ p x y r r', l = p ++ x :: r ∧ l' = p ++ y :: r' ∧ x < y

theorem Before.append_lt {l l' : List UInt8} (h : Before l l') (s s' : List UInt8) :
    l ++ s < l' ++ s' := by
  obtain ⟨p, x, y, r, r', rfl, rfl, hxy⟩ := h
  rw [List.append_assoc, List.append_assoc]
  exact List.append_left_lt (List.cons_lt_cons_iff.mpr (Or.inl hxy))

theorem ofNat_lt {a b : Nat} (h : a < b) (hb : b < 256) : UInt8.ofNat a < UInt8.ofNat b := by
  rw [UInt8.lt_iff_toNat_lt, UInt8.toNat_ofNat', UInt8.toNat_ofNat',
    Nat.mod_eq_of_lt (h.trans hb), Nat.mod_eq_of_lt hb]
  exact h

theorem before_of_lt {a b : Nat} (h : a < b) (hb : b < 256) (r r' : List UInt8) :
    Before (UInt8.ofNat a :: r) (UInt8.ofNat b :: r') :=
  ⟨[], _, _, r, r', rfl, rfl, ofNat_lt h hb⟩

theorem Before.cons {l l' : List UInt8} (h : Before l l') {x y : UInt8} (hxy : x = y) :
    Before (x :: l) (y :: l') := by
  obtain ⟨p, a, b, r, r', rfl, rfl, hab⟩ := h
  exact ⟨x :: p, a, b, r, r', rfl, by rw [hxy, List.cons_append], hab⟩

/-- Digit by digit: the first digits decide, or they agree and the rest does. -/
theorem before_digit {a b base : Nat} (hb : b + base < 256) {r r' : List UInt8} (h : a ≤ b)
    (hr : a = b → Before r r') :
    Before (UInt8.ofNat (a + base) :: r) (UInt8.ofNat (b + base) :: r') := by
  rcases Nat.lt_or_eq_of_le h with hlt | heq
  · exact before_of_lt (Nat.add_lt_add_right hlt base) hb r r'
  · exact (hr heq).cons (by rw [heq])

theorem before_last {v w : Nat} (h : v < w) (hdiv : v / 64 = w / 64) :
    Before [UInt8.ofNat (v % 64 + 128)] [UInt8.ofNat (w % 64 + 128)] :=
  before_of_lt (by omega) (by omega) [] []

theorem before_last_two {v w : Nat} (h : v < w) (hdiv : v / 4096 = w / 4096) :
    Before [UInt8.ofNat (v / 64 % 64 + 128), UInt8.ofNat (v % 64 + 128)]
      [UInt8.ofNat (w / 64 % 64 + 128), UInt8.ofNat (w % 64 + 128)] :=
  before_digit (by omega) (by omega) fun _ => before_last h (by omega)

theorem before_last_three {v w : Nat} (h : v < w) (hdiv : v / 262144 = w / 262144) :
    Before
      [UInt8.ofNat (v / 4096 % 64 + 128), UInt8.ofNat (v / 64 % 64 + 128), UInt8.ofNat (v % 64 + 128)]
      [UInt8.ofNat (w / 4096 % 64 + 128), UInt8.ofNat (w / 64 % 64 + 128), UInt8.ofNat (w % 64 + 128)] :=
  before_digit (by omega) (by omega) fun _ => before_last_two h (by omega)

/-! ## Characters and texts -/

theorem before_utf8EncodeChar {c d : Char} (h : c < d) :
    Before (String.utf8EncodeChar c) (String.utf8EncodeChar d) := by
  have hlt : c.val.toNat < d.val.toNat := h
  have hmax : d.val.toNat < 0x110000 := by
    rcases d.valid with hd | hd
    · exact hd.trans (by decide)
    · exact hd.2
  simp only [String.utf8EncodeChar]
  generalize c.val.toNat = v at hlt
  generalize d.val.toNat = w at hlt hmax
  -- `c` by its length, and `d` no shorter
  rcases Nat.lt_or_ge 0x7f v with h₁ | h₁
  · rcases Nat.lt_or_ge 0x7ff v with h₂ | h₂
    · rcases Nat.lt_or_ge 0xffff v with h₃ | h₃
      · simp only [if_neg (Nat.not_le.mpr h₁), if_neg (Nat.not_le.mpr h₂), if_neg (Nat.not_le.mpr h₃),
          if_neg (Nat.not_le.mpr (h₁.trans hlt)), if_neg (Nat.not_le.mpr (h₂.trans hlt)),
          if_neg (Nat.not_le.mpr (h₃.trans hlt))]
        exact before_digit (by omega) (by omega) fun _ => before_last_three hlt (by omega)
      · simp only [if_neg (Nat.not_le.mpr h₁), if_neg (Nat.not_le.mpr h₂), if_pos h₃,
          if_neg (Nat.not_le.mpr (h₁.trans hlt)), if_neg (Nat.not_le.mpr (h₂.trans hlt))]
        split
        · exact before_digit (by omega) (by omega) fun _ => before_last_two hlt (by omega)
        · exact before_of_lt (by omega) (by omega) _ _
    · simp only [if_neg (Nat.not_le.mpr h₁), if_pos h₂, if_neg (Nat.not_le.mpr (h₁.trans hlt))]
      split
      · exact before_digit (by omega) (by omega) fun _ => before_last hlt (by omega)
      · split
        · exact before_of_lt (by omega) (by omega) _ _
        · exact before_of_lt (by omega) (by omega) _ _
  · simp only [if_pos h₁]
    split
    · exact before_of_lt hlt (by omega) [] []
    · split
      · exact before_of_lt (by omega) (by omega) _ _
      · split
        · exact before_of_lt (by omega) (by omega) _ _
        · exact before_of_lt (by omega) (by omega) _ _

theorem flatMap_lt_flatMap {s t : List Char} (h : s < t) :
    s.flatMap String.utf8EncodeChar < t.flatMap String.utf8EncodeChar := by
  induction h with
  | @nil d t =>
      rw [List.flatMap_nil, List.flatMap_cons]
      cases hd : String.utf8EncodeChar d with
      | nil => exact absurd hd String.utf8EncodeChar_ne_nil
      | cons x r => exact List.nil_lt_cons x _
  | rel hcd =>
      rw [List.flatMap_cons, List.flatMap_cons]
      exact (before_utf8EncodeChar hcd).append_lt _ _
  | cons _ ih =>
      rw [List.flatMap_cons, List.flatMap_cons]
      exact List.append_left_lt ih

/-- The bytes of a text. -/
def bytes (s : String) : List UInt8 := s.toByteArray.data.toList

theorem bytes_eq_flatMap (s : String) : bytes s = s.toList.flatMap String.utf8EncodeChar := by
  rw [bytes, ← String.utf8Encode_toList, List.utf8Encode, List.toList_data_toByteArray]

/-- Texts are ordered as their bytes are. -/
theorem bytes_lt_iff {s t : String} : bytes s < bytes t ↔ s < t := by
  have hmono : ∀ {s t : String}, s < t → bytes s < bytes t := by
    intro s t h
    rw [bytes_eq_flatMap, bytes_eq_flatMap]
    exact flatMap_lt_flatMap (String.lt_iff_toList_lt.mp h)
  constructor
  · intro h
    rcases lt_trichotomy s t with hlt | rfl | hgt
    · exact hlt
    · exact absurd h (List.lt_irrefl _)
    · exact absurd h (List.lt_asymm (hmono hgt))
  · exact hmono

end Utf8Order
