import Mathlib.Algebra.Order.BigOperators.Group.Finset
import Mathlib.Data.Fintype.BigOperators
import Bao.Foundation.Run
import Bao.Lib.Util

/-!
# The reusable barrier `cpu_sync_barrier`

A token counts the calls of all cpus; a caller adds one under the token's lock, rounds the new count
up to a multiple of `n`, and spins until the count reaches that target. The token is never reset, so
a fast cpu can enter its next round while slow ones still compare the count with the old target.

The critical section is one action and each exit from the spin loop is another. `calls` and
`returns` are history: how often each cpu has passed its critical section and left the loop.
-/

namespace Bao

open Foundation

/-- `cpu_synctoken_t`; the lock is the atomicity of `enter`. -/
structure CpuSyncToken where
  n : Nat
  ready : Bool
  count : Nat

def cpuSyncInit (n : Nat) : CpuSyncToken := ⟨n, true, 0⟩

/-- The critical section of `cpu_sync_barrier`: the new token and the caller's `next_count`. -/
def CpuSyncToken.enter (token : CpuSyncToken) : CpuSyncToken × Nat :=
  let token := { token with count := u64 (token.count + 1) }
  (token, align token.count token.n)

inductive BarrierPc where
  | outside
  | spin (nextCount : Nat)
  deriving DecidableEq, Repr

structure BarrierState (n : Nat) where
  token : CpuSyncToken
  pc : Fin n → BarrierPc
  calls : Fin n → Nat
  returns : Fin n → Nat

inductive BarrierAction (n : Nat) where
  | enter (i : Fin n)
  | leave (i : Fin n)

namespace BarrierState

variable {n : Nat}

def initial (n : Nat) : BarrierState n where
  token := cpuSyncInit n
  pc _ := .outside
  calls _ := 0
  returns _ := 0

def step (s : BarrierState n) : BarrierAction n → Option (BarrierState n)
  | .enter i =>
    if s.token.ready ∧ s.pc i = .outside then
      some { s with
        token := s.token.enter.1
        pc := Function.update s.pc i (.spin s.token.enter.2)
        calls := Function.update s.calls i (s.calls i + 1) }
    else none
  | .leave i =>
    match s.pc i with
    | .outside => none
    | .spin next =>
      if s.token.count < next then none
      else some { s with
        pc := Function.update s.pc i .outside
        returns := Function.update s.returns i (s.returns i + 1) }

/-- The next critical section wraps neither the counter nor its rounded value. -/
def NoWrap (s : BarrierState n) : Prop := s.token.count + 1 + n ≤ 2 ^ 64

/-- A cpu spins exactly when it has made one call more than it has left, and then its target is the
end of that round. No cpu has left a round that another has not entered. -/
structure Inv (s : BarrierState n) : Prop where
  size : s.token.n = n
  count : s.token.count = ∑ i, s.calls i
  outside : ∀ i, s.pc i = .outside → s.calls i = s.returns i
  spin : ∀ i next, s.pc i = .spin next → s.calls i = s.returns i + 1 ∧ next = s.calls i * n
  rounds : ∀ i j, s.returns i ≤ s.calls j

theorem Inv.initial : (initial n).Inv where
  size := rfl
  count := by simp [BarrierState.initial, cpuSyncInit]
  outside _ _ := rfl
  spin i next h := by simp [BarrierState.initial] at h
  rounds _ _ := Nat.le_refl _

variable {s t : BarrierState n} {i : Fin n}

theorem Inv.calls_le (h : s.Inv) (i : Fin n) : s.calls i ≤ s.returns i + 1 := by
  cases hp : s.pc i with
  | outside => have := h.outside i hp; omega
  | spin next => have := (h.spin i next hp).1; omega

theorem Inv.calls_le_succ (h : s.Inv) (i j : Fin n) : s.calls i ≤ s.calls j + 1 :=
  (h.calls_le i).trans (Nat.succ_le_succ (h.rounds i j))

theorem sum_ge {f : Fin n → Nat} {k : Nat} (h : ∀ i, k ≤ f i) : k * n ≤ ∑ i, f i := by
  simpa [Nat.mul_comm] using Finset.card_nsmul_le_sum Finset.univ f k fun i _ => h i

theorem sum_lt {f : Fin n → Nat} {k : Nat} (h : ∀ i, f i ≤ k) (i : Fin n) (hi : f i < k) :
    ∑ i, f i < k * n := by
  have hlt : ∑ i, f i < ∑ _i : Fin n, k :=
    Finset.sum_lt_sum (fun i _ => h i) ⟨i, Finset.mem_univ i, hi⟩
  simpa [Nat.mul_comm] using hlt

theorem Inv.enter_target (h : s.Inv) (hw : s.NoWrap) (hi : s.pc i = .outside) :
    s.token.enter.1.count = s.token.count + 1 ∧ s.token.enter.2 = (s.calls i + 1) * n := by
  have heq := h.outside i hi
  have lo : s.calls i * n ≤ s.token.count := by
    rw [h.count, heq]
    exact sum_ge fun j => h.rounds i j
  have hi' : s.token.count < (s.calls i + 1) * n := by
    rw [h.count]
    exact sum_lt (fun j => h.calls_le_succ j i) i (by omega)
  have hcount : u64 (s.token.count + 1) = s.token.count + 1 :=
    u64_of_lt (by unfold NoWrap at hw; have := i.pos; omega)
  refine ⟨hcount, ?_⟩
  simp only [CpuSyncToken.enter, hcount, h.size]
  exact align_eq_mul hw (by omega) (by omega)

theorem sum_update_succ (f : Fin n → Nat) (i : Fin n) :
    ∑ j, Function.update f i (f i + 1) j = (∑ j, f j) + 1 := by
  have hf : Function.update f i (f i + 1) = fun j => f j + if j = i then 1 else 0 := by
    funext j
    by_cases hj : j = i
    · subst hj; simp
    · simp [hj]
  rw [hf, Finset.sum_add_distrib]
  simp

theorem Inv.enter (h : s.Inv) (hw : s.NoWrap) (ht : s.step (.enter i) = some t) : t.Inv := by
  simp only [step] at ht
  split at ht
  · rename_i hpc
    obtain ⟨hcount, htarget⟩ := h.enter_target hw hpc.2
    cases ht
    refine ⟨h.size, ?_, ?_, ?_, ?_⟩
    · rw [hcount, h.count, sum_update_succ]
    · intro j hj
      by_cases hij : j = i
      · subst hij; simp at hj
      · simp only [Function.update_of_ne hij] at hj ⊢
        exact h.outside j hj
    · intro j next hj
      by_cases hij : j = i
      · subst hij
        have heq := h.outside j hpc.2
        simp only [Function.update_self, BarrierPc.spin.injEq] at hj ⊢
        exact ⟨by omega, by rw [← hj, htarget]⟩
      · simp only [Function.update_of_ne hij] at hj ⊢
        exact h.spin j next hj
    · intro j m
      have hm := h.rounds j m
      by_cases him : m = i
      · subst him; simp only [Function.update_self]; omega
      · simpa only [Function.update_of_ne him] using hm
  · cases ht

theorem Inv.leave (h : s.Inv) (ht : s.step (.leave i) = some t) : t.Inv := by
  simp only [step] at ht
  split at ht
  · cases ht
  · rename_i next hpc
    split at ht
    · cases ht
    · rename_i hdone
      cases ht
      obtain ⟨hcalls, hnext⟩ := h.spin i next hpc
      -- A cpu one round behind would keep the sum of all calls below the target.
      have hall : ∀ j, s.calls i ≤ s.calls j := by
        intro j
        by_contra hj
        have hsum := sum_lt (k := s.calls i)
          (fun m => (h.calls_le_succ m j).trans (by omega)) j (by omega)
        rw [← h.count, ← hnext] at hsum
        omega
      refine ⟨h.size, h.count, ?_, ?_, ?_⟩
      · intro j hj
        by_cases hij : j = i
        · subst hij; simpa using hcalls
        · simp only [Function.update_of_ne hij] at hj ⊢
          exact h.outside j hj
      · intro j next' hj
        by_cases hij : j = i
        · subst hij; simp at hj
        · simp only [Function.update_of_ne hij] at hj ⊢
          exact h.spin j next' hj
      · intro j m
        by_cases hij : j = i
        · subst hij
          have := hall m
          simp only [Function.update_self]; omega
        · simpa only [Function.update_of_ne hij] using h.rounds j m

theorem Inv.step {a : BarrierAction n} (h : s.Inv) (hw : s.NoWrap) (ht : s.step a = some t) :
    t.Inv := by
  cases a with
  | enter i => exact h.enter hw ht
  | leave i => exact h.leave ht

/-- `cpu_sync_barrier` is a barrier however often it is reused: no cpu has left its `k`-th call
before every cpu has made its own, and once they all have, nobody has to wait in it. -/
theorem cpuSyncBarrier_correct {as : List (BarrierAction n)} {s : BarrierState n}
    (hw : Along BarrierState.step (fun s _ => s.NoWrap) (initial n) as)
    (h : run BarrierState.step (initial n) as = some s) :
    (∀ k i, k ≤ s.returns i → ∀ j, k ≤ s.calls j) ∧
    ∀ k, (∀ j, k ≤ s.calls j) → ∀ i next, s.pc i = .spin next → s.calls i = k →
      ¬ s.token.count < next := by
  have inv : s.Inv := hw.run_invariant (fun s a t hs hp ht => hs.step hp ht) Inv.initial h
  refine ⟨fun k i hk j => hk.trans (inv.rounds i j), ?_⟩
  intro k hall i next hpc hcalls
  rw [(inv.spin i next hpc).2, hcalls, inv.count]
  exact Nat.not_lt.mpr (sum_ge hall)

/-- Two cpus: the first is already in its second call while the other still spins in its first. -/
theorem cpuSyncBarrier_correct_two : ∃ s : BarrierState 2,
    run BarrierState.step (initial 2) [.enter 0, .enter 1, .leave 0, .enter 0] = some s ∧
    s.pc 1 = .spin 2 ∧ s.calls 0 = 2 ∧
    ∀ k, (∀ j, k ≤ s.calls j) → ∀ i next, s.pc i = .spin next → s.calls i = k →
      ¬ s.token.count < next := by
  have hw : Along BarrierState.step (fun s _ => s.NoWrap) (initial 2)
      [.enter 0, .enter 1, .leave 0, .enter 0] := by
    refine .cons ?_ rfl (.cons ?_ rfl (.cons ?_ rfl (.cons ?_ rfl trivial))) <;>
      (unfold NoWrap; decide)
  exact ⟨_, rfl, by decide, by decide, (cpuSyncBarrier_correct hw rfl).2⟩

end BarrierState

end Bao
