import Mathlib.Data.List.Basic
import Mathlib.Tactic.Common

/-!
# Computations that record what they touch

`Logged ε α` pairs a value with the events that were recorded while it was computed. A program
written in this monad is read twice: through `val` it is the plain function, and through `All` its
whole log is constrained, so that one text of the program serves both for what it computes and for
which locations it reaches.
-/

namespace Bao

universe u

structure Logged (ε : Type u) (α : Type u) where
  val : α
  log : List ε

namespace Logged

variable {ε α β : Type u} {P : ε → Prop}

instance : Monad (Logged ε) where
  pure a := ⟨a, []⟩
  bind x f := ⟨(f x.val).val, x.log ++ (f x.val).log⟩

instance : LawfulMonad (Logged ε) := LawfulMonad.mk' (Logged ε)
  (fun x => by cases x; simp [Functor.map])
  (fun x f => by simp [Bind.bind, Pure.pure])
  (fun x f g => by simp [Bind.bind])

/-- The value `a`, obtained with the event `e`. -/
def touch (e : ε) (a : α) : Logged ε α := ⟨a, [e]⟩

-- These hold by computation, but as rewriting rules they must also replace the instances that a
-- condition on the value carries, which a rule proved by `rfl` does not.
@[simp] theorem val_pure (a : α) : (pure a : Logged ε α).val = a := by
  simp only [pure]

@[simp] theorem val_bind (x : Logged ε α) (f : α → Logged ε β) :
    (x >>= f).val = (f x.val).val := by
  simp only [bind]

@[simp] theorem val_map (f : α → β) (x : Logged ε α) : (f <$> x).val = f x.val := by
  simp only [map_eq_pure_bind, val_bind, val_pure]

@[simp] theorem val_touch (e : ε) (a : α) : (touch e a).val = a := by
  simp only [touch]

@[simp] theorem val_ite (c : Prop) [Decidable c] (x y : Logged ε α) :
    (if c then x else y).val = if c then x.val else y.val := by
  split <;> rfl

/-- Every recorded event satisfies `P`. -/
def All (P : ε → Prop) (x : Logged ε α) : Prop := ∀ e ∈ x.log, P e

@[simp] theorem all_pure (a : α) : (pure a : Logged ε α).All P := by
  simp [All, Pure.pure]

@[simp] theorem all_bind (x : Logged ε α) (f : α → Logged ε β) :
    (x >>= f).All P ↔ x.All P ∧ (f x.val).All P := by
  simp [All, Bind.bind, or_imp, forall_and]

@[simp] theorem all_map (f : α → β) (x : Logged ε α) : (f <$> x).All P ↔ x.All P := by
  rw [map_eq_pure_bind, all_bind]
  simp

@[simp] theorem all_touch (e : ε) (a : α) : (touch e a).All P ↔ P e := by
  simp [All, touch]

theorem all_ite (c : Prop) [Decidable c] (x y : Logged ε α) :
    (if c then x else y).All P ↔ (c → x.All P) ∧ (¬ c → y.All P) := by
  split <;> simp [*]

/-- The value of a loop is the loop over the values. -/
theorem val_foldlM (f : α → β → Logged ε α) (l : List β) (a : α) :
    (l.foldlM f a).val = l.foldl (fun a b => (f a b).val) a := by
  induction l generalizing a with
  | nil => rfl
  | cons b l ih => simp [ih]

variable {I : List β → α → Prop} {f : α → β → Logged ε α} {l : List β} {a : α}

/-- The invariant rule of loops. The invariant may mention the elements still to come. -/
theorem foldlM_invariant (keep : ∀ a b l, I (b :: l) a → I l (f a b).val) (ha : I l a) :
    I [] (l.foldlM f a).val := by
  induction l generalizing a with
  | nil => exact ha
  | cons b l ih => simpa using ih (keep a b l ha)

/-- A loop over `l` is within `P` exactly when each of its bodies is. The invariant may mention the
elements still to come; under it, whether the body of `b` is within `P` depends on `b` only. -/
theorem all_foldlM {Q : β → Prop} (keep : ∀ a b l, I (b :: l) a → I l (f a b).val)
    (body : ∀ a b l, I (b :: l) a → ((f a b).All P ↔ Q b)) (ha : I l a) :
    (l.foldlM f a).All P ↔ ∀ b ∈ l, Q b := by
  induction l generalizing a with
  | nil => simp
  | cons b l ih => simp [ih (keep a b l ha), body a b l ha]

end Logged

end Bao
