import Mathlib.Data.Set.Basic
import Mathlib.Logic.Basic

/-!
# Ownership

An ownership map says for each resource who owns it, if anyone. Giving away resources that nobody
owns extends the map; an extension keeps every owner, so what was proved about the owner of a
resource holds in every later map.
-/

namespace Bao.Foundation

variable {F O : Type*}

/-- The owner of each resource. -/
abbrev Owners (F O : Type*) := F → Option O

namespace Owners

variable {own own' own'' : Owners F O} {S : Set F} {o : F → O} {f : F}

/-- Every owner of the first map is the owner in the second. -/
def Le (own own' : Owners F O) : Prop := ∀ ⦃f o⦄, own f = some o → own' f = some o

theorem Le.refl (own : Owners F O) : own.Le own := fun _ _ h => h

theorem Le.trans (h : own.Le own') (h' : own'.Le own'') : own.Le own'' := fun _ _ hf => h' (h hf)

open Classical in
/-- The resources in `S` go to the owners that `o` names. -/
noncomputable def give (own : Owners F O) (S : Set F) (o : F → O) : Owners F O :=
  fun f => if f ∈ S then some (o f) else own f

theorem give_of_mem (h : f ∈ S) : own.give S o f = some (o f) := if_pos h

theorem give_of_notMem (h : f ∉ S) : own.give S o f = own f := if_neg h

theorem le_give (hfree : ∀ f ∈ S, own f = none) : own.Le (own.give S o) := by
  intro f a hf
  by_cases hS : f ∈ S
  · rw [hfree f hS] at hf; cases hf
  · rw [give_of_notMem hS, hf]

end Owners

end Bao.Foundation
