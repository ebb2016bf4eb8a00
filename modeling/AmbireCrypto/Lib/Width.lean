/-
# `Lib.Width` — how many bits an integer takes

`bitLen n` is the least `k` with `n < 2 ^ k`; `signedBits i` is the least width
whose two's-complement range holds `i`, counted from the absolute value with
the special case a negative power of two needs.  `signedBits_le_iff` says the
count is exactly the range of the width, at both ends, from one bit up.

The rest reads a wide two's-complement word back at a narrower width.
-/
import Mathlib.Data.Nat.Log
import Mathlib.Algebra.Order.Ring.Int
import Mathlib.Tactic.Ring

namespace Width

/-- The least `k` with `n < 2 ^ k`. -/
def bitLen (n : Nat) : Nat := if n = 0 then 0 else n.log2 + 1

/-- The bits of a signed integer, sign included: a negative power of two is
written without the extra bit, and zero takes none. -/
def signedBits (i : Int) : Nat :=
  if i = 0 ∨ (i < 0 ∧ 2 ^ i.natAbs.log2 = i.natAbs) then bitLen i.natAbs
  else bitLen i.natAbs + 1

/-! ## Unsigned -/

theorem bitLen_le_iff {n k : Nat} : bitLen n ≤ k ↔ n < 2 ^ k := by
  simp only [bitLen]
  split
  · rename_i h
    subst h
    exact ⟨fun _ => Nat.two_pow_pos k, fun _ => Nat.zero_le k⟩
  · rename_i h
    exact Nat.succ_le_iff.trans (Nat.log2_lt h)

/-! ## Signed -/

theorem two_pow_log2_le {n k : Nat} (hn : n ≠ 0) (hpow : 2 ^ n.log2 = n) :
    bitLen n ≤ k + 1 ↔ n ≤ 2 ^ k := by
  rw [bitLen, if_neg hn, Nat.add_le_add_iff_right]
  constructor
  · intro h
    calc n = 2 ^ n.log2 := hpow.symm
      _ ≤ 2 ^ k := Nat.pow_le_pow_right (by decide) h
  · intro h
    rw [← hpow] at h
    exact (Nat.pow_le_pow_iff_right (by decide)).mp h

theorem lt_two_pow_of_le {n k : Nat} (hpow : 2 ^ n.log2 ≠ n) (h : n ≤ 2 ^ k) : n < 2 ^ k := by
  refine lt_of_le_of_ne h fun heq => hpow ?_
  rw [heq, Nat.log2_two_pow]

theorem signedBits_le_iff {i : Int} {k : Nat} :
    signedBits i ≤ k + 1 ↔ -(2 ^ k) ≤ i ∧ i < 2 ^ k := by
  have hcast : ((2 ^ k : Nat) : Int) = 2 ^ k := by push_cast; rfl
  have hpos := Nat.two_pow_pos k
  simp only [signedBits]
  split
  · rename_i h
    rcases h with rfl | ⟨hneg, hpow⟩
    · simp [bitLen]
    · rw [two_pow_log2_le (by omega) hpow]
      omega
  · rename_i h
    rw [Nat.add_le_add_iff_right, bitLen_le_iff]
    have hne : i ≠ 0 := fun hi => h (Or.inl hi)
    by_cases hneg : i < 0
    · have hpow : 2 ^ i.natAbs.log2 ≠ i.natAbs := fun hp => h (Or.inr ⟨hneg, hp⟩)
      -- the lower end itself is a power of two, so it is not this case
      constructor
      · intro _
        omega
      · intro _
        exact lt_two_pow_of_le hpow (by omega)
    · omega

/-! ## Words -/

theorem toInt_ofInt {w : Nat} {i : Int} (hlo : -(2 ^ w) ≤ i) (hhi : i < 2 ^ w) :
    (BitVec.ofInt (w + 1) i).toInt = i := by
  refine BitVec.toInt_ofInt_eq_self (Nat.succ_pos w) ?_ ?_
  · simpa using hlo
  · simpa using hhi

/-- Dropping high bits of a word keeps every integer of the narrower range. -/
theorem toInt_setWidth_of_range {w k : Nat} (x : BitVec w) (hk : k + 1 ≤ w)
    (hlo : -(2 ^ k) ≤ x.toInt) (hhi : x.toInt < 2 ^ k) :
    (x.setWidth (k + 1)).toInt = x.toInt := by
  have hx : x.setWidth (k + 1) = BitVec.ofInt (k + 1) x.toInt := by
    apply BitVec.eq_of_toInt_eq
    rw [BitVec.toInt_setWidth, BitVec.toInt_ofInt, BitVec.toInt_eq_toNat_bmod,
      Int.bmod_bmod_of_dvd]
    exact Nat.pow_dvd_pow 2 hk
  rw [hx]
  exact toInt_ofInt hlo hhi

end Width
