import Mathlib.Data.Nat.Count
import Mathlib.Algebra.Order.Ring.Nat

/-!
# Stepping by the residue

A search that corrects a misaligned index `b` by its residue modulo `2 ^ e`, instead of by what the
residue lacks, doubles the residue with each step. So it does reach a multiple of `2 ^ e`, but it
moves one block further for each set bit of the residue that it began with.
-/

namespace Bao.Foundation

/-- The multiple of `2 ^ e` that is reached from `b`. -/
def landing (e b : Nat) : Nat := (b / 2 ^ e + Nat.count (fun k => b.testBit k = true) e) * 2 ^ e

variable {e b c : Nat}

theorem testBit_eq_of_mod_eq (h : b % 2 ^ e = c % 2 ^ e) {k : Nat} (hk : k < e) :
    b.testBit k = c.testBit k := by
  have hbit : (b % 2 ^ e).testBit k = (c % 2 ^ e).testBit k := by rw [h]
  simpa only [Nat.testBit_mod_two_pow, hk, decide_true, Bool.true_and] using hbit

theorem landing_of_mod_eq_zero (h : b % 2 ^ e = 0) : landing e b = b := by
  have hbits : Nat.count (fun k => b.testBit k = true) e = 0 :=
    Nat.count_of_forall_not fun k hk => by
      rw [testBit_eq_of_mod_eq (h.trans (Nat.zero_mod _).symm) hk]
      simp
  rw [landing, hbits, Nat.add_zero, Nat.div_mul_cancel (Nat.dvd_of_mod_eq_zero h)]

/-- The top bit of the residue becomes a block, the other bits move up by one. -/
theorem landing_add_mod (e b : Nat) : landing e (b + b % 2 ^ e) = landing e b := by
  cases e with
  | zero => simp [landing, Nat.mod_one]
  | succ e =>
    have hpow : 2 ^ (e + 1) = 2 * 2 ^ e := by rw [Nat.pow_succ, Nat.mul_comm]
    have hpos : 0 < 2 ^ e := Nat.two_pow_pos e
    have hsplit := Nat.div_add_mod b (2 ^ (e + 1))
    have hlt : b % 2 ^ (e + 1) < 2 ^ (e + 1) := Nat.mod_lt _ (Nat.two_pow_pos _)
    set q := b / 2 ^ (e + 1) with hq
    set r := b % 2 ^ (e + 1) with hr
    have hhalf : (b + r) / 2 = 2 ^ e * q + r := by rw [hpow, Nat.mul_assoc] at hsplit; omega
    have hlow : (b + r) % 2 = 0 := by rw [hpow, Nat.mul_assoc] at hsplit; omega
    have hmod : (2 ^ e * q + r) % 2 ^ e = b % 2 ^ e := by
      rw [Nat.mul_add_mod, hr, Nat.mod_mod_of_dvd b ⟨2, by rw [hpow, Nat.mul_comm]⟩]
    have hbits : Nat.count (fun k => (b + r).testBit k = true) (e + 1) =
        Nat.count (fun k => b.testBit k = true) e := by
      rw [Nat.count_succ', if_neg (by simp [Nat.testBit_zero, hlow]), Nat.add_zero]
      simp only [Nat.count_eq_card_filter_range]
      congr 1
      refine Finset.filter_congr fun k hk => ?_
      rw [Nat.testBit_add_one, hhalf, testBit_eq_of_mod_eq hmod (Finset.mem_range.mp hk)]
    have htop : r / 2 ^ e = if b.testBit e = true then 1 else 0 := by
      have hsmall : r / 2 ^ e < 2 := Nat.div_lt_of_lt_mul (by rw [Nat.mul_comm, ← hpow]; exact hlt)
      have hbit : r / 2 ^ e % 2 = b / 2 ^ e % 2 := by
        rw [hr, hpow, Nat.mul_comm 2, Nat.mod_mul_right_div_self, Nat.mod_mod]
      rw [Nat.mod_eq_of_lt hsmall] at hbit
      simp only [Nat.testBit_eq_decide_div_mod_eq, decide_eq_true_eq, ← hbit]
      generalize r / 2 ^ e = t at hsmall
      split <;> omega
    have hdiv : (b + r) / 2 ^ (e + 1) = q + r / 2 ^ e := by
      rw [hpow, ← Nat.div_div_eq_div_mul, hhalf, Nat.mul_add_div hpos]
    rw [landing, landing, hbits, Nat.count_succ, hdiv, htop, ← hq]
    congr 1
    omega

theorem le_landing (e b : Nat) : b ≤ landing e b := by
  by_cases h : b % 2 ^ e = 0
  · rw [landing_of_mod_eq_zero h]
  · have hbits : 0 < Nat.count (fun k => b.testBit k = true) e := by
      refine Nat.pos_of_ne_zero fun hzero => h (Nat.eq_of_testBit_eq fun k => ?_)
      have hnone := Nat.count_iff_forall_not.mp hzero
      rw [Nat.testBit_mod_two_pow, Nat.zero_testBit]
      by_cases hk : k < e
      · simp [hnone k hk]
      · simp [hk]
    have hnext := Nat.lt_div_mul_add (a := b) (Nat.two_pow_pos e)
    have hblock := Nat.mul_le_mul_right (2 ^ e) hbits
    rw [landing, Nat.add_mul]
    omega

end Bao.Foundation
