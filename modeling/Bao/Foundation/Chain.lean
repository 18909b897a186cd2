import Mathlib.Data.List.Nodup
import Mathlib.Data.List.GetD

/-!
# Linked chains in a memory

A memory maps an address to the word stored there. A chain from `p` is the list of addresses met by
following the words, up to the null address 0. It is determined by `p`, so it never meets an address
twice, and it depends on no word outside itself.
-/

namespace Bao.Foundation

abbrev Memory := Nat → Nat

def Chain (m : Memory) : Nat → List Nat → Prop
  | p, [] => p = 0
  | p, x :: xs => p = x ∧ x ≠ 0 ∧ Chain m (m x) xs

variable {m m' : Memory} {p x : Nat} {xs ys : List Nat}

theorem Chain.frame (h : Chain m p xs) (same : ∀ x ∈ xs, m' x = m x) : Chain m' p xs := by
  induction xs generalizing p with
  | nil => exact h
  | cons x xs ih =>
    refine ⟨h.1, h.2.1, ?_⟩
    rw [same x (by simp)]
    exact ih h.2.2 fun y hy => same y (List.mem_cons_of_mem _ hy)

theorem Chain.unique (h : Chain m p xs) (h' : Chain m p ys) : xs = ys := by
  induction xs generalizing p ys with
  | nil =>
    cases ys with
    | nil => rfl
    | cons y ys => exact absurd (h'.1.symm.trans h) h'.2.1
  | cons x xs ih =>
    cases ys with
    | nil => exact absurd (h.1.symm.trans h') h.2.1
    | cons y ys =>
      obtain rfl : x = y := h.1.symm.trans h'.1
      rw [ih h.2.2 h'.2.2]

theorem Chain.drop (h : Chain m p (xs ++ x :: ys)) : Chain m x (x :: ys) := by
  induction xs generalizing p with
  | nil => exact ⟨rfl, h.2⟩
  | cons z zs ih => exact ih h.2.2

theorem Chain.nodup (h : Chain m p xs) : xs.Nodup := by
  induction xs generalizing p with
  | nil => exact List.nodup_nil
  | cons x xs ih =>
    refine List.nodup_cons.mpr ⟨fun hx => ?_, ih h.2.2⟩
    -- The chain from the second `x` would be the chain from the first one, but it is shorter.
    obtain ⟨as, bs, rfl⟩ := List.append_of_mem hx
    have hwhole : Chain m x (x :: (as ++ x :: bs)) := ⟨rfl, h.2⟩
    have := congrArg List.length (h.2.2.drop.unique hwhole)
    simp only [List.length_cons, List.length_append] at this
    omega

theorem Chain.ne_zero (h : Chain m p xs) (hx : x ∈ xs) : x ≠ 0 := by
  obtain ⟨as, bs, rfl⟩ := List.append_of_mem hx
  exact h.drop.2.1

theorem Chain.link_eq_zero_iff (h : Chain m p xs) (hx : x ∈ xs) :
    m x = 0 ↔ xs.getLast? = some x := by
  induction xs generalizing p with
  | nil => cases hx
  | cons y ys ih =>
    have hnodup := List.nodup_cons.mp h.nodup
    cases ys with
    | nil =>
      rw [List.mem_singleton.mp hx]
      exact iff_of_true h.2.2 rfl
    | cons z zs =>
      rw [List.getLast?_cons_cons]
      rcases List.mem_cons.mp hx with rfl | hx
      · refine iff_of_false (h.2.2.1 ▸ h.2.2.2.1) fun hlast => ?_
        exact hnodup.1 (List.mem_of_getLast? hlast)
      · exact ih h.2.2 hx

/-- Linking a new end to a chain: its last word is redirected, all others are kept. -/
theorem Chain.snoc (h : Chain m p xs) (hx : x ≠ 0) (hend : m' x = 0)
    (hlast : ∀ z ∈ xs.getLast?, m' z = x) (same : ∀ z ∈ xs.dropLast, m' z = m z) :
    Chain m' (if xs = [] then x else p) (xs ++ [x]) := by
  induction xs generalizing p with
  | nil => exact ⟨rfl, hx, hend⟩
  | cons y ys ih =>
    refine ⟨h.1, h.2.1, ?_⟩
    cases ys with
    | nil => exact ⟨hlast y rfl, hx, hend⟩
    | cons z zs =>
      rw [same y (by simp)]
      exact ih h.2.2 (fun w hw => hlast w (by simpa using hw))
        (fun w hw => same w (by simp [List.dropLast] at hw ⊢; tauto))

/-- Redirecting the word before `x` to the one behind it takes `x` out of a chain. -/
theorem Chain.bypass {z : Nat} (h : Chain m p (xs ++ z :: x :: ys)) (hz : m' z = m x)
    (same : ∀ a ∈ xs ++ ys, m' a = m a) : Chain m' p (xs ++ z :: ys) := by
  induction xs generalizing p with
  | nil =>
    obtain ⟨hp, hz0, -, -, hrest⟩ := h
    refine ⟨hp, hz0, ?_⟩
    rw [hz]
    exact hrest.frame same
  | cons y xs ih =>
    refine ⟨h.1, h.2.1, ?_⟩
    rw [same y (by simp)]
    exact ih h.2.2 fun a ha => same a (List.mem_cons_of_mem _ ha)

end Bao.Foundation
