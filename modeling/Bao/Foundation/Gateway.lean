import Mathlib.Data.List.Count
import Bao.Foundation.Run

/-!
# Requests that are served one at a time

A gateway holds at most one request that waits and at most one that is being served. A request is
accepted when none waits, taken when none is being served, and completed at any time. Every request
is taken at most once, and two requests are never taken without a completion between them.
-/

namespace Bao.Foundation

structure Gateway where
  pend : Bool
  act : Bool
  deriving DecidableEq

inductive GatewayEvent where
  | inject
  | claim
  | complete
  deriving DecidableEq

namespace Gateway

variable {g g' : Gateway} {es es₁ es₂ es₃ : List GatewayEvent}

def step (g : Gateway) : GatewayEvent → Option Gateway
  | .inject => if g.pend then none else some { g with pend := true }
  | .claim => if g.pend ∧ g.act = false then some ⟨false, true⟩ else none
  | .complete => some { g with act := false }

theorem step_claim : step g .claim = some g' ↔
    (g.pend = true ∧ g.act = false) ∧ g' = ⟨false, true⟩ := by
  rw [step, Option.ite_none_right_eq_some, Option.some.injEq, eq_comm (a := g')]

/-- Requests are accepted, and then taken or still waiting. -/
theorem count_claim_add (h : run step g es = some g') :
    es.count .claim + g'.pend.toNat = es.count .inject + g.pend.toNat := by
  induction es generalizing g with
  | nil => cases h; rfl
  | cons e es ih =>
    obtain ⟨u, hu, ht⟩ := run_cons.mp h
    have hrest := ih ht
    cases e with
    | inject =>
      simp only [step, Option.ite_none_left_eq_some, Option.some.injEq] at hu
      obtain ⟨hpend, rfl⟩ := hu
      simp only [Bool.not_eq_true] at hpend
      simp [hpend] at hrest ⊢
      omega
    | claim =>
      obtain ⟨⟨hpend, -⟩, rfl⟩ := step_claim.mp hu
      simp [hpend] at hrest ⊢
      omega
    | complete =>
      cases hu
      simpa using hrest

theorem inject_mem (h : run step g es = some g') (hpend : g.pend = false)
    (hpend' : g'.pend = true) : .inject ∈ es := by
  have hcount := count_claim_add h
  rw [hpend, hpend'] at hcount
  exact List.count_pos_iff.mp (by simp at hcount; omega)

theorem complete_mem (h : run step g es = some g') (hact : g.act = true)
    (hact' : g'.act = false) : .complete ∈ es := by
  by_contra hmem
  have hkeep : g'.act = true := by
    induction es generalizing g with
    | nil => cases h; exact hact
    | cons e es ih =>
      obtain ⟨u, hu, ht⟩ := run_cons.mp h
      simp only [List.mem_cons, not_or] at hmem
      refine ih ht ?_ hmem.2
      cases e with
      | inject =>
        simp only [step, Option.ite_none_left_eq_some, Option.some.injEq] at hu
        exact hu.2 ▸ hact
      | claim => exact (step_claim.mp hu).2 ▸ rfl
      | complete => exact absurd rfl hmem.1
  rw [hact'] at hkeep
  cases hkeep

/-- Between two claims a request is accepted, and the one taken first is completed. -/
theorem mem_between_claims (h : run step g (es₁ ++ .claim :: (es₂ ++ .claim :: es₃)) = some g') :
    .inject ∈ es₂ ∧ .complete ∈ es₂ := by
  obtain ⟨u, -, h⟩ := run_append.mp h
  obtain ⟨v, hv, h⟩ := run_cons.mp h
  obtain ⟨w, hw, h⟩ := run_append.mp h
  obtain ⟨x, hx, -⟩ := run_cons.mp h
  obtain ⟨-, rfl⟩ := step_claim.mp hv
  obtain ⟨⟨hpend, hact⟩, -⟩ := step_claim.mp hx
  exact ⟨inject_mem hw rfl hpend, complete_mem hw rfl hact⟩

end Gateway

end Bao.Foundation
