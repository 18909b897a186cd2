import Mathlib.Data.Nat.Digits.Defs

/-!
# Digits in a fixed number of places

A number is often printed place by place from the highest one, with a flag that is set at the first
digit that is not 0. `places` are the digits in the lowest `k` places and `suppress` is such a flag.
For a number that fits in the places this gives its representation, `Nat.toDigits`.
-/

namespace Bao.Foundation

/-- The digits of `n` in the lowest `k` places, the highest first. -/
def places (b n : Nat) : (k : Nat) → List Nat
  | 0 => []
  | k + 1 => n / b ^ k % b :: places b n k

/-- Without the zeros in front, unless `keep` is set. The last digit stays. -/
def suppress (keep : Bool) : List Nat → List Nat
  | [] => []
  | [d] => [d]
  | d :: d' :: ds =>
    if keep || d != 0 then d :: suppress true (d' :: ds) else suppress false (d' :: ds)

variable {b n k : Nat}

@[simp] theorem length_places (b n k : Nat) : (places b n k).length = k := by
  induction k with
  | zero => rfl
  | succ k ih => simp [places, ih]

@[simp] theorem suppress_true (ds : List Nat) : suppress true ds = ds := by
  induction ds with
  | nil => rfl
  | cons d ds ih =>
    cases ds with
    | nil => rfl
    | cons d' ds => simp [suppress, ih]

theorem suppress_cons (keep : Bool) (d : Nat) {ds : List Nat} (h : ds ≠ []) :
    suppress keep (d :: ds) =
      if keep || d != 0 then d :: suppress true ds else suppress false ds := by
  cases ds with
  | nil => exact absurd rfl h
  | cons d' ds => rfl

theorem suppress_of_ne_zero {d : Nat} (h : d ≠ 0) (ds : List Nat) :
    suppress false (d :: ds) = d :: ds := by
  cases ds with
  | nil => rfl
  | cons d' ds => simp [suppress, h]

theorem mem_of_mem_suppress {keep : Bool} {d : Nat} {ds : List Nat} (h : d ∈ suppress keep ds) :
    d ∈ ds := by
  induction ds generalizing keep with
  | nil => exact h
  | cons e ds ih =>
    by_cases hds : ds = []
    · subst hds
      exact h
    · rw [suppress_cons keep e hds] at h
      split at h
      · rwa [suppress_true] at h
      · exact List.mem_cons_of_mem _ (ih h)

theorem places_mod (b n : Nat) {k m : Nat} (h : k ≤ m) :
    places b (n % b ^ m) k = places b n k := by
  induction k with
  | zero => rfl
  | succ k ih =>
    have hsplit : b ^ m = b ^ k * b ^ (m - k) := by
      rw [← Nat.pow_add, Nat.add_sub_cancel' (by omega)]
    have hdvd : b ∣ b ^ (m - k) := dvd_pow_self b (by omega)
    rw [places, places, ih (by omega), hsplit, Nat.mod_mul_right_div_self,
      Nat.mod_mod_of_dvd _ hdvd]

theorem places_lt (hb : 0 < b) : ∀ d ∈ places b n k, d < b := by
  induction k with
  | zero => simp [places]
  | succ k ih =>
    intro d hd
    rcases List.mem_cons.mp hd with rfl | hd
    · exact Nat.mod_lt _ hb
    · exact ih d hd

/-- Below its highest place a number is what is left by the division. -/
theorem places_succ_eq_cons (hb : 0 < b) (n k : Nat) :
    places b n (k + 1) = n % b ^ (k + 1) / b ^ k :: places b (n % b ^ (k + 1)) k := by
  have hlt : n % b ^ (k + 1) / b ^ k < b := by
    refine Nat.div_lt_of_lt_mul ?_
    rw [← Nat.pow_succ]
    exact Nat.mod_lt _ (Nat.pow_pos hb)
  rw [← places_mod b n (le_refl (k + 1)), places, Nat.mod_eq_of_lt hlt]

theorem places_succ_eq_append (b n k : Nat) :
    places b n (k + 1) = places b (n / b) k ++ [n % b] := by
  induction k with
  | zero => simp [places]
  | succ k ih =>
    rw [places, ih, places, Nat.div_div_eq_div_mul, ← Nat.pow_succ']
    rfl

/-- With a digit in the highest place the places are the representation. -/
theorem places_eq_toDigits (hb : 1 < b) (hlow : b ^ k ≤ n) (hhigh : n < b ^ (k + 1)) :
    (places b n (k + 1)).map Nat.digitChar = Nat.toDigits b n := by
  induction k generalizing n with
  | zero =>
    have hn : n < b := by simpa using hhigh
    simp [places, Nat.toDigits_of_lt_base hn, Nat.mod_eq_of_lt hn]
  | succ k ih =>
    have hbase : b ≤ n := (Nat.le_self_pow (by omega) b).trans hlow
    rw [places_succ_eq_append, List.map_append, Nat.toDigits_of_base_le hb hbase, ih]
    · rfl
    · exact (Nat.le_div_iff_mul_le (by omega)).2 (by rwa [← Nat.pow_succ])
    · exact (Nat.div_lt_iff_lt_mul (by omega)).2 (by rwa [← Nat.pow_succ])

theorem suppress_places_eq_toDigits (hb : 1 < b) (hn : n < b ^ (k + 1)) :
    (suppress false (places b n (k + 1))).map Nat.digitChar = Nat.toDigits b n := by
  induction k with
  | zero =>
    have hn : n < b := by simpa using hn
    simp [places, suppress, Nat.toDigits_of_lt_base hn, Nat.mod_eq_of_lt hn]
  | succ k ih =>
    by_cases hlow : b ^ (k + 1) ≤ n
    · have hdigit : n / b ^ (k + 1) % b ≠ 0 := by
        rw [Nat.mod_eq_of_lt (Nat.div_lt_of_lt_mul (by rwa [← Nat.pow_succ]))]
        exact (Nat.div_pos hlow (Nat.pow_pos (by omega))).ne'
      rw [← places_eq_toDigits hb hlow hn, places, suppress_of_ne_zero hdigit]
    · have hdigit : n / b ^ (k + 1) % b = 0 := by
        rw [Nat.div_eq_of_lt (by omega), Nat.zero_mod]
      rw [places, suppress_cons _ _ (by simp [places])]
      simpa [hdigit] using ih (by omega)

end Bao.Foundation
