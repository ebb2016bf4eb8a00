/-
# `Lib.Significand` — integers a binary float holds exactly

An integer is exact at `b` significant bits when it is a `b`-bit integer times a
power of two.  Only integers are looked at, and no upper bound on the exponent:
every integer that could fail it here is far below a double's largest.

`exact_iff_dvd` turns the two existential witnesses into divisibilities, which is
how a given integer is shown not to be exact.
-/
import Mathlib.Data.Nat.Log
import Mathlib.Algebra.Order.Ring.Int
import Mathlib.Tactic.Ring

namespace Significand

/-- `n = m * 2 ^ e` with `|m| < 2 ^ b`. -/
def Exact (b : Nat) (n : Int) : Prop := ∃ (m : Int) (e : Nat), m.natAbs < 2 ^ b ∧ n = m * 2 ^ e

theorem exact_of_natAbs_lt {b : Nat} {n : Int} (h : n.natAbs < 2 ^ b) : Exact b n :=
  ⟨n, 0, h, by rw [pow_zero, mul_one]⟩

/-- Every bit past the `b`th has to be paid for with a trailing zero. -/
theorem exact_iff_dvd {b : Nat} {n : Int} :
    Exact b n ↔ ∀ k : Nat, 2 ^ (b + k) ≤ n.natAbs → 2 ^ (k + 1) ∣ n.natAbs := by
  constructor
  · rintro ⟨m, e, hm, rfl⟩ k hk
    rw [Int.natAbs_mul, Int.natAbs_pow] at hk ⊢
    have hpow : Int.natAbs 2 ^ e = 2 ^ e := rfl
    rw [hpow] at hk ⊢
    have hlt : 2 ^ (b + k) < 2 ^ (b + e) := by
      calc 2 ^ (b + k) ≤ m.natAbs * 2 ^ e := hk
        _ < 2 ^ b * 2 ^ e := Nat.mul_lt_mul_of_pos_right hm (Nat.two_pow_pos e)
        _ = 2 ^ (b + e) := (pow_add 2 b e).symm
    have hke : k + 1 ≤ e := by
      have := (Nat.pow_lt_pow_iff_right (by decide)).mp hlt
      omega
    exact (pow_dvd_pow 2 hke).mul_left _
  · intro h
    rcases Nat.lt_or_ge n.natAbs (2 ^ b) with hlt | hge
    · exact exact_of_natAbs_lt hlt
    · -- the leading bit says how many trailing zeros there are
      have hne : n.natAbs ≠ 0 := (lt_of_lt_of_le (Nat.two_pow_pos b) hge).ne'
      have hb : b ≤ Nat.log 2 n.natAbs := Nat.le_log_of_pow_le (by decide) hge
      obtain ⟨k, hk⟩ := Nat.exists_eq_add_of_le hb
      have hdvd : 2 ^ (k + 1) ∣ n.natAbs := h k (hk ▸ Nat.pow_log_le_self 2 hne)
      have hdvd' : (2 : Int) ^ (k + 1) ∣ n := by
        rw [← Int.natAbs_dvd_natAbs, Int.natAbs_pow]
        exact hdvd
      obtain ⟨m, hm⟩ := hdvd'
      refine ⟨m, k + 1, ?_, by rw [hm, mul_comm]⟩
      have hlt : m.natAbs * 2 ^ (k + 1) < 2 ^ b * 2 ^ (k + 1) := by
        calc m.natAbs * 2 ^ (k + 1) = n.natAbs := by
              rw [hm, Int.natAbs_mul, Int.natAbs_pow, mul_comm]
              rfl
          _ < 2 ^ (Nat.log 2 n.natAbs + 1) := Nat.lt_pow_succ_log_self (by decide) _
          _ = 2 ^ b * 2 ^ (k + 1) := by rw [hk, ← pow_add, Nat.add_assoc]
      exact Nat.lt_of_mul_lt_mul_right hlt

end Significand
