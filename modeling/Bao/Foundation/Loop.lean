import Mathlib.Logic.Relation

/-!
# Loops that need not end

A loop is given by its round, which ends in the state of the next round or leaves the loop with a
result. `loopFor` runs it for a number of rounds, and `Ends` says that some number is enough.

`exists_ends` is the rule for total correctness, with an invariant and a bound that decreases.
`Ends.invariant` is the one for partial correctness and `not_ends` the one for loops that go on for
ever. What a loop does on its way, if it ends or not, is said of the states that it `Visits`.
-/

namespace Bao.Foundation

inductive Round (σ ρ : Type*) where
  | again (s : σ)
  | exit (r : ρ)

variable {σ ρ : Type*} {round : σ → Round σ ρ} {s t : σ} {r r' : ρ}

/-- The result of a loop that is left within `fuel` rounds. -/
def loopFor (round : σ → Round σ ρ) : (fuel : Nat) → σ → Option ρ
  | 0, _ => none
  | fuel + 1, s =>
    match round s with
    | .again t => loopFor round fuel t
    | .exit r => some r

/-- The loop ends with the result `r`. -/
def Ends (round : σ → Round σ ρ) (s : σ) (r : ρ) : Prop := ∃ fuel, loopFor round fuel s = some r

/-- The loop gets to the start of a round in `t`. -/
def Visits (round : σ → Round σ ρ) : σ → σ → Prop :=
  Relation.ReflTransGen fun s t => round s = .again t

theorem Visits.cases (h : Visits round s t) : t = s ∨ ∃ u, round s = .again u ∧ Visits round u t :=
  h.cases_head.imp_left Eq.symm

/-- What every round keeps holds in all states that the loop visits. -/
theorem Visits.invariant {I : σ → Prop} (keep : ∀ s t, I s → round s = .again t → I t)
    (h : Visits round s t) (hs : I s) : I t := by
  induction h with
  | refl => exact hs
  | tail _ hround ih => exact keep _ _ ih hround

theorem ends_of_exit (h : round s = .exit r) : Ends round s r := ⟨1, by simp [loopFor, h]⟩

theorem ends_of_again (h : round s = .again t) (ht : Ends round t r) : Ends round s r := by
  obtain ⟨fuel, hfuel⟩ := ht
  exact ⟨fuel + 1, by simp only [loopFor, h, hfuel]⟩

/-- Induction over the rounds of a loop that ends. -/
theorem Ends.induction {motive : σ → ρ → Prop} (exit : ∀ s r, round s = .exit r → motive s r)
    (again : ∀ s t r, round s = .again t → motive t r → motive s r) (h : Ends round s r) :
    motive s r := by
  obtain ⟨fuel, hfuel⟩ := h
  induction fuel generalizing s with
  | zero => cases hfuel
  | succ fuel ih =>
    cases hround : round s with
    | again t =>
      simp only [loopFor, hround] at hfuel
      exact again s t r hround (ih hfuel)
    | exit x =>
      simp only [loopFor, hround, Option.some.injEq] at hfuel
      exact exit s r (hfuel ▸ hround)

/-- What every round keeps, and the exit turns into `Q`, holds for the result. -/
theorem Ends.invariant {I : σ → Prop} {Q : ρ → Prop}
    (keep : ∀ s t, I s → round s = .again t → I t) (exit : ∀ s r, I s → round s = .exit r → Q r)
    (h : Ends round s r) : I s → Q r :=
  h.induction (fun s r hr hs => exit s r hs hr) fun s t _ ht ih hs => ih (keep s t hs ht)

/-- A loop with an invariant and a bound that every round makes smaller ends. -/
theorem exists_ends {I : σ → Prop} {Q : ρ → Prop} (bound : σ → Nat)
    (next : ∀ s, I s → (∃ r, round s = .exit r ∧ Q r) ∨
      ∃ t, round s = .again t ∧ I t ∧ bound t < bound s) (hs : I s) :
    ∃ r, Ends round s r ∧ Q r := by
  induction hn : bound s using Nat.strongRecOn generalizing s with
  | ind n ih =>
    rcases next s hs with ⟨r, hr, hQ⟩ | ⟨t, ht, hI, hlt⟩
    · exact ⟨r, ends_of_exit hr, hQ⟩
    · obtain ⟨r, hr, hQ⟩ := ih (bound t) (hn ▸ hlt) hI rfl
      exact ⟨r, ends_of_again ht hr, hQ⟩

/-- A loop that keeps a condition under which it is not left does not end. -/
theorem not_ends {I : σ → Prop} (next : ∀ s, I s → ∃ t, round s = .again t ∧ I t) (hs : I s) :
    ¬Ends round s r := by
  intro h
  refine h.invariant (I := I) (Q := fun _ => False) ?_ ?_ hs
  · intro s t hI ht
    obtain ⟨u, hu, hI'⟩ := next s hI
    cases hu.symm.trans ht
    exact hI'
  · intro s r hI hr
    obtain ⟨u, hu, -⟩ := next s hI
    cases hu.symm.trans hr

theorem Ends.unique (h : Ends round s r) : Ends round s r' → r' = r := by
  refine h.induction (motive := fun s r => Ends round s r' → r' = r) ?_ ?_
  · intro s r hr h'
    exact h'.invariant (I := (· = s)) (Q := (· = r))
      (fun _ t hs ht => by rw [hs, hr] at ht; cases ht)
      (fun _ x hs hx => by rw [hs, hr] at hx; cases hx; rfl) rfl
  · rintro s t r ht ih ⟨fuel, hfuel⟩
    cases fuel with
    | zero => cases hfuel
    | succ fuel =>
      simp only [loopFor, ht] at hfuel
      exact ih ⟨fuel, hfuel⟩

end Bao.Foundation
