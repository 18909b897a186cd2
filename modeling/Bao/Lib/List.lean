import Mathlib.Logic.Function.Basic
import Bao.Foundation.Chain

/-!
# Intrusive lists

The functions of `list.h` on memory words. A `list_t` at address `l` has its head at `l` and its
tail at `l + 8`; a node is linked through its first word. `IsList m l xs` says that the list holds
the nodes `xs`; push and pop are then the operations of a queue, and each changes only the list, the
node it moves and, for a push, the node that was last.
-/

namespace Bao

open Foundation

def listInit (m : Memory) (l : Nat) : Memory :=
  if l ≠ 0 then Function.update (Function.update m l 0) (l + 8) 0 else m

def listPush (m : Memory) (l node : Nat) : Memory :=
  if l ≠ 0 ∧ node ≠ 0 then
    let m := Function.update m node 0
    let m := if m (l + 8) ≠ 0 then Function.update m (m (l + 8)) node else m
    let m := Function.update m (l + 8) node
    if m l = 0 then Function.update m l node else m
  else m

/-- `list_pop`: the node it returns, 0 for `NULL`, and the memory. -/
def listPop (m : Memory) (l : Nat) : Nat × Memory :=
  if l ≠ 0 ∧ m l ≠ 0 then
    let temp := m l
    let m := Function.update m l (m temp)
    let m := if m l = 0 then Function.update m (l + 8) 0 else m
    (temp, Function.update m temp 0)
  else (0, m)

/-- The list at `l` holds the nodes `xs`, and none of them lies in the list head itself. -/
structure IsList (m : Memory) (l : Nat) (xs : List Nat) : Prop where
  ne_zero : l ≠ 0
  chain : Chain m (m l) xs
  tail : m (l + 8) = xs.getLast?.getD 0
  head_notMem : l ∉ xs
  tail_notMem : l + 8 ∉ xs

namespace IsList

variable {m m' : Memory} {l node x a : Nat} {xs : List Nat}

theorem frame (h : IsList m l xs) (hl : m' l = m l) (ht : m' (l + 8) = m (l + 8))
    (same : ∀ x ∈ xs, m' x = m x) : IsList m' l xs :=
  ⟨h.ne_zero, by rw [hl]; exact h.chain.frame same, ht.trans h.tail, h.head_notMem, h.tail_notMem⟩

theorem init (m : Memory) (hl : l ≠ 0) : IsList (listInit m l) l [] := by
  refine ⟨hl, ?_, ?_, by simp, by simp⟩
  · rw [listInit, if_pos hl, Function.update_of_ne (by omega), Function.update_self]
    rfl
  · rw [listInit, if_pos hl, Function.update_self]
    rfl

theorem head_eq_zero_iff (h : IsList m l xs) : m l = 0 ↔ xs = [] := by
  have hc := h.chain
  cases xs with
  | nil => exact iff_of_true hc rfl
  | cons x xs => exact iff_of_false (hc.1 ▸ hc.2.1) (by simp)

theorem push_apply (h : IsList m l xs) (hnode : node ≠ 0) (hne : node ≠ l) (hne' : node ≠ l + 8)
    (a : Nat) : listPush m l node a =
      if a = l then (if xs = [] then node else m l)
      else if a = l + 8 then node
      else if xs.getLast? = some a then node
      else if a = node then 0 else m a := by
  have htail : Function.update m node 0 (l + 8) = xs.getLast?.getD 0 := by
    rw [Function.update_of_ne hne'.symm, h.tail]
  simp only [listPush, h.ne_zero, hnode, ne_eq, not_false_eq_true, and_self, if_true, htail]
  cases hlast : xs.getLast? with
  | none =>
    obtain rfl := List.getLast?_eq_none_iff.mp hlast
    have hzero : m l = 0 := h.head_eq_zero_iff.mpr rfl
    simp only [Option.getD_none, not_true_eq_false, if_false, Function.update_apply]
    by_cases h1 : a = l
    · simp [h1, hzero, hne.symm]
    · by_cases h2 : a = l + 8
      · simp [h2, hzero, hne.symm]
      · simp [Function.update_apply, h1, h2, hzero, hne.symm]
  | some z =>
    have hz : z ∈ xs := List.mem_of_getLast? hlast
    have hz0 : z ≠ 0 := h.chain.ne_zero hz
    have hzl : z ≠ l := fun heq => h.head_notMem (heq ▸ hz)
    have hne_nil : xs ≠ [] := by rintro rfl; simp at hlast
    have hnz : m l ≠ 0 := fun heq => hne_nil (h.head_eq_zero_iff.mp heq)
    have hll : l ≠ l + 8 := by omega
    simp only [Option.getD_some, hz0, not_false_eq_true, if_true, Function.update_apply,
      hzl.symm, hll, if_false, hnz, hne_nil, Option.some.injEq, hne.symm]
    by_cases h1 : a = l
    · simp [h1, hzl.symm, hne.symm]
    · by_cases h2 : a = l + 8
      · simp [h2]
      · simp only [h1, h2, if_false]
        by_cases h3 : a = z
        · simp [h3]
        · simp [h3, Ne.symm h3]

theorem push (h : IsList m l xs) (hnode : node ≠ 0) (hne : node ≠ l) (hne' : node ≠ l + 8)
    (hnew : node ∉ xs) : IsList (listPush m l node) l (xs ++ [node]) := by
  have happly := h.push_apply hnode hne hne'
  have hmem : ∀ z ∈ xs, z ≠ l ∧ z ≠ l + 8 ∧ z ≠ node := fun z hz =>
    ⟨fun heq => h.head_notMem (heq ▸ hz), fun heq => h.tail_notMem (heq ▸ hz),
      fun heq => hnew (heq ▸ hz)⟩
  refine ⟨h.ne_zero, ?_, ?_, ?_, ?_⟩
  · rw [happly l, if_pos rfl]
    refine h.chain.snoc hnode ?_ ?_ ?_
    · have hlast : xs.getLast? ≠ some node := fun hl => hnew (List.mem_of_getLast? hl)
      simp [happly node, hne, hne', hlast]
    · intro z hz
      have hz' : xs.getLast? = some z := hz
      obtain ⟨h1, h2, -⟩ := hmem z (List.mem_of_getLast? hz')
      simp [happly z, h1, h2, hz']
    · intro z hz
      obtain ⟨h1, h2, h3⟩ := hmem z (List.dropLast_subset xs hz)
      have hlast : xs.getLast? ≠ some z := by
        intro hlast
        have hsplit := List.dropLast_append_getLast? z hlast
        have hnodup := h.chain.nodup
        rw [← hsplit] at hnodup
        exact (List.nodup_append.mp hnodup).2.2 z hz z (by simp) rfl
      simp [happly z, h1, h2, h3, hlast]
  · rw [happly, if_neg (by omega), if_pos rfl]
    simp
  · simp [h.head_notMem, hne.symm]
  · simp [h.tail_notMem, hne'.symm]

theorem push_frame (h : IsList m l xs) (hnode : node ≠ 0) (hne : node ≠ l) (hne' : node ≠ l + 8)
    (h1 : a ≠ l) (h2 : a ≠ l + 8) (h3 : a ≠ node) (h4 : a ∉ xs) : listPush m l node a = m a := by
  have hlast : xs.getLast? ≠ some a := fun hl => h4 (List.mem_of_getLast? hl)
  simp [h.push_apply hnode hne hne', h1, h2, h3, hlast]

theorem pop_nil (h : IsList m l []) : listPop m l = (0, m) := by
  have hzero : m l = 0 := h.chain
  simp [listPop, hzero]

theorem pop_apply (h : IsList m l (x :: xs)) : (listPop m l).1 = x ∧
    ∀ a, (listPop m l).2 a =
      if a = x then 0 else if a = l then m x
      else if a = l + 8 then (if xs = [] then 0 else m (l + 8)) else m a := by
  obtain ⟨hx, hx0, hchain⟩ := h.chain
  have hnext : m x = 0 ↔ xs = [] := by
    cases xs with
    | nil => exact iff_of_true hchain rfl
    | cons y ys => exact iff_of_false (hchain.1 ▸ hchain.2.1) (by simp)
  simp only [listPop, h.ne_zero, hx, hx0, ne_eq, not_false_eq_true, and_self, if_true,
    Function.update_self, true_and]
  intro a
  by_cases h1 : a = x
  · simp [h1]
  · rw [Function.update_of_ne h1, if_neg h1]
    by_cases hxs : xs = []
    · simp only [hnext.mpr hxs, hxs, if_true, Function.update_apply]
      by_cases h2 : a = l
      · simp [h2]
      · simp [h2]
    · simp only [hxs, if_neg (mt hnext.mp hxs), if_false, Function.update_apply]
      by_cases h2 : a = l
      · simp [h2]
      · by_cases h3 : a = l + 8 <;> simp [h2, h3]

theorem pop (h : IsList m l (x :: xs)) : IsList (listPop m l).2 l xs := by
  obtain ⟨-, happly⟩ := h.pop_apply
  have hxl : x ≠ l := fun heq => h.head_notMem (by simp [heq])
  have hxt : x ≠ l + 8 := fun heq => h.tail_notMem (by simp [← heq])
  have hnodup := List.nodup_cons.mp h.chain.nodup
  refine ⟨h.ne_zero, ?_, ?_, fun hl => h.head_notMem (List.mem_cons_of_mem _ hl),
    fun hl => h.tail_notMem (List.mem_cons_of_mem _ hl)⟩
  · rw [happly, if_neg hxl.symm, if_pos rfl]
    refine h.chain.2.2.frame fun z hz => ?_
    have h1 : z ≠ x := fun heq => hnodup.1 (heq ▸ hz)
    have h2 : z ≠ l := fun heq => h.head_notMem (List.mem_cons_of_mem _ (heq ▸ hz))
    have h3 : z ≠ l + 8 := fun heq => h.tail_notMem (List.mem_cons_of_mem _ (heq ▸ hz))
    simp [happly z, h1, h2, h3]
  · rw [happly, if_neg hxt.symm, if_neg (by omega), if_pos rfl, h.tail]
    cases xs with
    | nil => rfl
    | cons y ys => simp [List.getLast?_cons_cons]

theorem pop_frame (h : IsList m l (x :: xs)) (h1 : a ≠ x) (h2 : a ≠ l) (h3 : a ≠ l + 8) :
    (listPop m l).2 a = m a := by
  simp [h.pop_apply.2 a, h1, h2, h3]

end IsList

end Bao
