import Mathlib.Data.Nat.Count
import Mathlib.Data.Nat.Periodic

/-!
# Counting the misses of a test

How often a test of the numbers below a bound fails, for tests that are periodic or constant on
blocks of one length, and what a loop over the numbers makes of it.
-/

namespace Bao.Foundation

/-- The number of `i < n` that fail the test. -/
def misses (f : Nat → Bool) (n : Nat) : Nat := Nat.count (fun i => f i = false) n

variable {f : Nat → Bool} {p n : Nat}

theorem misses_succ (f : Nat → Bool) (n : Nat) :
    misses f (n + 1) = misses f n + if f n then 0 else 1 := by
  rw [misses, Nat.count_succ]
  cases h : f n <;> simp [misses]

theorem misses_add (f : Nat → Bool) (m n : Nat) :
    misses f (m + n) = misses f m + misses (fun i => f (m + i)) n := Nat.count_add _ m n

theorem misses_congr {g : Nat → Bool} (h : ∀ i < n, f i = g i) : misses f n = misses g n := by
  induction n with
  | zero => rfl
  | succ n ih =>
    rw [misses_succ, misses_succ, ih fun i hi => h i (by omega), h n (Nat.lt_succ_self n)]

theorem misses_of_forall (h : ∀ i < n, f i = false) : misses f n = n := Nat.count_of_forall h

theorem misses_of_forall_not (h : ∀ i < n, f i = true) : misses f n = 0 :=
  Nat.count_of_forall_not fun i hi => by simp [h i hi]

theorem forall_of_misses (h : misses f n = 0) : ∀ i < n, f i = true := fun i hi => by
  simpa using Nat.count_iff_forall_not.mp h i hi

theorem misses_lt {i : Nat} (hf : f i = false) (hi : i < n) : misses f i < misses f n :=
  Nat.count_strict_mono hf hi

theorem misses_inj {i j : Nat} (hi : f i = false) (hj : f j = false)
    (h : misses f i = misses f j) : i = j := Nat.count_injective hi hj h

theorem foldl_range_misses (f : Nat → Bool) (start m : Nat) :
    (List.range m).foldl (fun num i => if !f i then num + 1 else num) start =
      start + misses f m := by
  induction m with
  | zero => rfl
  | succ m ih =>
    rw [List.range_succ, List.foldl_append, ih, misses_succ]
    simp only [List.foldl_cons, List.foldl_nil]
    cases f m <;> simp [Nat.add_assoc]

theorem misses_periodic (hf : Function.Periodic f p) (n : Nat) :
    misses f n = n / p * misses f p + misses f (n % p) := by
  have hperiods (q r : Nat) : misses f (q * p + r) = q * misses f p + misses f r := by
    induction q with
    | zero => simp
    | succ q ih =>
      have hrest : (fun i => f (p + i)) = f := funext fun i => by rw [Nat.add_comm, hf]
      rw [Nat.succ_mul, Nat.add_comm (q * p) p, Nat.add_assoc, misses_add, hrest, ih, Nat.succ_mul]
      omega
  rw [← hperiods, Nat.div_add_mod']

theorem misses_shift (hf : Function.Periodic f p) (x : Nat) :
    misses (fun i => f (x + i)) p = misses f p := by
  have hrest : (fun i => f (p + i)) = f := funext fun i => by rw [Nat.add_comm, hf]
  have hsplit := misses_add f x p
  rw [Nat.add_comm x p, misses_add, hrest] at hsplit
  omega

theorem misses_div (f : Nat → Bool) {size : Nat} (hsize : 0 < size) (m : Nat) :
    misses (fun i => f (i / size)) (m * size) = size * misses f m := by
  induction m with
  | zero => simp [misses]
  | succ m ih =>
    have hblock : ∀ k < size, f ((m * size + k) / size) = f m := fun k hk => by
      rw [Nat.mul_comm, Nat.mul_add_div hsize, Nat.div_eq_of_lt hk, Nat.add_zero]
    rw [Nat.succ_mul, misses_add, ih, misses_succ]
    cases hm : f m with
    | true =>
      rw [misses_of_forall_not fun k hk => (hblock k hk).trans hm]
      rfl
    | false =>
      rw [misses_of_forall fun k hk => (hblock k hk).trans hm]
      simp [Nat.mul_add]

end Bao.Foundation
