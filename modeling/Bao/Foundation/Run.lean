import Mathlib.Logic.Function.Basic
import Mathlib.Data.List.Basic
import Mathlib.Data.List.Forall2

/-!
# Runs of a partial step function

A component is a state type with a step function; `step s a = none` says that the action `a` is
not enabled in `s`. A run is a list of actions. Interleavings of several parties are runs whose
actions name the party that moves, so "for every interleaving" is "for every list of actions".

`Along` restricts a run by a condition on each state it leaves and the action it takes there. The
induction rules are `run_invariant`, for a condition kept by every step, `Along.run_invariant`, for
one kept by the steps that meet the restriction, and `always_iff_along`, for a restriction that is
also necessary.

`history` lists what the steps of a run show. A machine refines another one when what each of its
steps shows is a run of the other between the abstractions of its states; `run_history` then carries
over to whole runs.
-/

namespace Bao.Foundation

variable {σ ι : Type*} {step : σ → ι → Option σ} {s t : σ} {a : ι} {as bs : List ι}

/-- The state after the listed actions, or `none` when one of them is not enabled. -/
def run (step : σ → ι → Option σ) : σ → List ι → Option σ
  | s, [] => some s
  | s, a :: as => (step s a).bind fun t => run step t as

@[simp] theorem run_nil : run step s [] = some s := rfl

theorem run_cons : run step s (a :: as) = some t ↔
    ∃ u, step s a = some u ∧ run step u as = some t := by
  simp [run, Option.bind_eq_some_iff]

theorem run_append : run step s (as ++ bs) = some t ↔
    ∃ u, run step s as = some u ∧ run step u bs = some t := by
  induction as generalizing s with
  | nil => simp
  | cons a as ih =>
    simp only [List.cons_append, run_cons, ih]
    constructor
    · rintro ⟨u, hu, v, hv, hw⟩
      exact ⟨v, ⟨u, hu, hv⟩, hw⟩
    · rintro ⟨v, ⟨u, hu, hv⟩, hw⟩
      exact ⟨u, hu, v, hv, hw⟩

/-- A run that ends in a state with a decidable property can be evaluated to find that state. -/
theorem exists_some_of {x : Option σ} {P Q : σ → Prop} (h : ∃ s ∈ x, P s)
    (imp : ∀ s, x = some s → P s → Q s) : ∃ s, x = some s ∧ Q s := by
  obtain ⟨s, hs, hP⟩ := h
  exact ⟨s, hs, imp s hs hP⟩

theorem exists_some_of_and {x : Option σ} {P P' Q : σ → Prop} (h : ∃ s ∈ x, P s ∧ P' s)
    (imp : ∀ s, x = some s → P s → P' s → Q s) : ∃ s, x = some s ∧ P s ∧ P' s ∧ Q s :=
  exists_some_of h fun s hs hP => ⟨hP.1, hP.2, imp s hs hP.1 hP.2⟩

theorem exists_some₂_of {τ : Type*} {x : Option σ} {y : σ → Option τ} {P Q : σ → τ → Prop}
    (h : ∃ s ∈ x, ∃ t ∈ y s, P s t) (imp : ∀ s t, x = some s → y s = some t → P s t → Q s t) :
    ∃ s t, x = some s ∧ y s = some t ∧ Q s t := by
  obtain ⟨s, hs, t, ht, hP⟩ := h
  exact ⟨s, t, hs, ht, imp s t hs ht hP⟩

variable {I : σ → Prop} {P : σ → ι → Prop}

/-- A property kept by every step holds at the end of every run that starts with it. -/
theorem run_invariant (keep : ∀ s a t, I s → step s a = some t → I t) (hs : I s)
    (h : run step s as = some t) : I t := by
  induction as generalizing s with
  | nil => cases h; exact hs
  | cons a as ih =>
    obtain ⟨u, hu, ht⟩ := run_cons.mp h
    exact ih (keep s a u hs hu) ht

theorem run_map {κ : Type*} (f : κ → ι) (ks : List κ) :
    run step s (ks.map f) = run (fun s k => step s (f k)) s ks := by
  induction ks generalizing s with
  | nil => rfl
  | cons k ks ih => simp only [List.map_cons, run, ih]

theorem run_congr {step' : σ → ι → Option σ} (keep : ∀ s a t, I s → step s a = some t → I t)
    (heq : ∀ s, ∀ a ∈ as, I s → step s a = step' s a) (hs : I s) :
    run step s as = run step' s as := by
  induction as generalizing s with
  | nil => rfl
  | cons a as ih =>
    simp only [run, ← heq s a List.mem_cons_self hs]
    refine Option.bind_congr fun t ht => ?_
    exact ih (fun s b hb => heq s b (List.mem_cons_of_mem a hb)) (keep s a t hs ht)

/-- `P` holds of every state the run leaves and the action it takes there. -/
def Along (step : σ → ι → Option σ) (P : σ → ι → Prop) : σ → List ι → Prop
  | _, [] => True
  | s, a :: as => P s a ∧ ∀ t, step s a = some t → Along step P t as

theorem Along.cons (hP : P s a) (hstep : step s a = some t) (h : Along step P t as) :
    Along step P s (a :: as) :=
  ⟨hP, fun _ hu => Option.some.inj (hstep.symm.trans hu) ▸ h⟩

theorem Along.run_invariant (keep : ∀ s a t, I s → P s a → step s a = some t → I t) (hs : I s)
    (along : Along step P s as) (h : run step s as = some t) : I t := by
  induction as generalizing s with
  | nil => cases h; exact hs
  | cons a as ih =>
    obtain ⟨u, hu, ht⟩ := run_cons.mp h
    exact ih (keep s a u hs along.1 hu) (along.2 u hu) ht

instance Along.instDecidable {P : σ → ι → Prop} [∀ s a, Decidable (P s a)] (s : σ) :
    (as : List ι) → Decidable (Along step P s as)
  | [] => .isTrue trivial
  | a :: as =>
    match hstep : step s a with
    | none => decidable_of_iff (P s a) ⟨fun h => ⟨h, by simp [hstep]⟩, And.left⟩
    | some t =>
      have := Along.instDecidable (P := P) t as
      decidable_of_iff (P s a ∧ Along step P t as) (by simp [Along, hstep])

/-- Exchanging actions that do the same wherever the run takes them leaves the run as it is. -/
theorem Along.run_congr {R : ι → ι → Prop} (hstep : ∀ s a b, R a b → P s a → step s a = step s b)
    (hR : List.Forall₂ R as bs) (along : Along step P s as) : run step s as = run step s bs := by
  induction hR generalizing s with
  | nil => rfl
  | @cons a b as bs hab _ ih =>
    simp only [run, ← hstep s a b hab along.1]
    cases hs : step s a with
    | none => rfl
    | some t => exact ih (along.2 t hs)

/-- Two restrictions that agree on every enabled action restrict runs alike. -/
theorem along_congr {Q : σ → ι → Prop} (heq : ∀ s a t, step s a = some t → (P s a ↔ Q s a))
    (h : run step s as = some t) : Along step P s as ↔ Along step Q s as := by
  induction as generalizing s with
  | nil => exact Iff.rfl
  | cons a as ih =>
    obtain ⟨u, hu, ht⟩ := run_cons.mp h
    refine and_congr (heq s a u hu) (forall_congr' fun v => ?_)
    refine imp_congr_right fun hv => ?_
    obtain rfl : u = v := Option.some.inj (hu.symm.trans hv)
    exact ih ht

/-- `P` holds of every state of the run, from the first to the last. -/
def Always (step : σ → ι → Option σ) (P : σ → Prop) : σ → List ι → Prop
  | s, [] => P s
  | s, a :: as => P s ∧ ∀ t, step s a = some t → Always step P t as

theorem Always.head {P : σ → Prop} (h : Always step P s as) : P s := by
  cases as with
  | nil => exact h
  | cons a as => exact h.1

/-- When the steps that break a restriction are exactly those that lead out of `P`, a run stays in
`P` exactly when all its steps meet the restriction. -/
theorem always_iff_along {P : σ → Prop} {Q : σ → ι → Prop} (hP : ∀ s, I s → P s)
    (keep : ∀ s a t, I s → Q s a → step s a = some t → I t)
    (fail : ∀ s a t, I s → ¬ Q s a → step s a = some t → ¬ P t) (hs : I s)
    (h : run step s as = some t) : Always step P s as ↔ Along step Q s as := by
  induction as generalizing s with
  | nil => exact ⟨fun _ => trivial, fun _ => hP s hs⟩
  | cons a as ih =>
    obtain ⟨u, hu, ht⟩ := run_cons.mp h
    constructor
    · rintro ⟨-, hrest⟩
      have hQ : Q s a := by
        by_contra hQ
        exact fail s a u hs hQ hu (hrest u hu).head
      refine ⟨hQ, fun v hv => ?_⟩
      obtain rfl : u = v := Option.some.inj (hu.symm.trans hv)
      exact (ih (keep s a u hs hQ hu) ht).mp (hrest u hu)
    · rintro ⟨hQ, hrest⟩
      refine ⟨hP s hs, fun v hv => ?_⟩
      obtain rfl : u = v := Option.some.inj (hu.symm.trans hv)
      exact (ih (keep s a u hs hQ hu) ht).mpr (hrest u hu)

variable {τ ε ζ : Type*} {step' : τ → ε → Option τ} {obs : σ → ι → List ε}

/-- What the enabled steps of a run show, in order. -/
def history (step : σ → ι → Option σ) (obs : σ → ι → List ε) : σ → List ι → List ε
  | _, [] => []
  | s, a :: as => match step s a with
    | some t => obs s a ++ history step obs t as
    | none => []

theorem history_cons (h : step s a = some t) :
    history step obs s (a :: as) = obs s a ++ history step obs t as := by
  simp [history, h]

theorem filterMap_history (f : ε → Option ζ) (s : σ) (as : List ι) :
    (history step obs s as).filterMap f =
      history step (fun s a => (obs s a).filterMap f) s as := by
  induction as generalizing s with
  | nil => rfl
  | cons a as ih =>
    cases hstep : step s a with
    | none => simp [history, hstep]
    | some t => rw [history_cons hstep, history_cons hstep, List.filterMap_append, ih]

theorem run_history {abs : σ → τ}
    (sim : ∀ s a t, step s a = some t → run step' (abs s) (obs s a) = some (abs t))
    (h : run step s as = some t) : run step' (abs s) (history step obs s as) = some (abs t) := by
  induction as generalizing s with
  | nil => cases h; rfl
  | cons a as ih =>
    obtain ⟨u, hu, ht⟩ := run_cons.mp h
    rw [history_cons hu]
    exact run_append.mpr ⟨abs u, sim s a u hu, ih ht⟩

end Bao.Foundation
