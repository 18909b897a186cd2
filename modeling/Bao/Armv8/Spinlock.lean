import Mathlib.Logic.Function.Basic
import Bao.Foundation.Run

/-!
# The spinlock of `arch/armv8/inc/arch/spinlock.h`

A lock is one word that is 1 while the lock is held. `spin_lock` loads it exclusively until it is 0
and then stores 1 exclusively; when that store fails it starts again. `spin_unlock` stores 0. An
exclusive store fails when the word was stored to since the exclusive load, and may fail without
cause. The cpus move at each access to the word, in any order.
-/

namespace Bao.Armv8

open Foundation

/-- Where a cpu is: before `ldaxr` or `stxr` of `spin_lock`, or between the two functions. -/
inductive SpinPc where
  | outside
  | load
  | store
  | inside
  deriving DecidableEq

structure SpinState (n : Nat) where
  word : BitVec 32 := 0
  monitor : Fin n → Bool := fun _ => false
  pc : Fin n → SpinPc := fun _ => .outside

/-- The calls of the two functions, and the next access of a cpu in `spin_lock`; `ok` is false for
an exclusive store that fails without cause. -/
inductive SpinAction (n : Nat) where
  | spinLock (c : Fin n)
  | spinUnlock (c : Fin n)
  | go (c : Fin n) (ok : Bool)

namespace SpinState

variable {n : Nat}

/-- A store to the word clears the monitors of all cpus. -/
def put (s : SpinState n) (word : BitVec 32) : SpinState n :=
  { s with word := word, monitor := fun _ => false }

def setMonitor (s : SpinState n) (c : Fin n) (v : Bool) : SpinState n :=
  { s with monitor := Function.update s.monitor c v }

def goto (s : SpinState n) (c : Fin n) (pc : SpinPc) : SpinState n :=
  { s with pc := Function.update s.pc c pc }

def go (s : SpinState n) (c : Fin n) (ok : Bool) : Option (SpinState n) :=
  match s.pc c with
  | .outside => none
  | .inside => none
  | .load => some ((s.setMonitor c true).goto c (if s.word ≠ 0 then .load else .store))
  | .store =>
    if ok ∧ s.monitor c then some ((s.put 1).goto c .inside)
    else some ((s.setMonitor c false).goto c .load)

def step (s : SpinState n) : SpinAction n → Option (SpinState n)
  | .spinLock c => if s.pc c = .outside then some (s.goto c .load) else none
  | .spinUnlock c => if s.pc c = .inside then some ((s.put 0).goto c .outside) else none
  | .go c ok => s.go c ok

/-- The word says whether a cpu is inside, and a cpu whose monitor is still set has seen the word
as it is. -/
structure Held (s : SpinState n) (holder : Option (Fin n)) : Prop where
  word : s.word = if holder = none then 0 else 1
  inside : ∀ c, s.pc c = .inside ↔ holder = some c
  monitor : ∀ c, s.pc c = .store → s.monitor c = true → s.word = 0

variable {s t : SpinState n} {holder : Option (Fin n)} {c : Fin n}

theorem Held.free (h : Held s holder) (hword : s.word = 0) : holder = none := by
  have := h.word
  by_contra hne
  simp [hword, hne] at this

theorem Held.move (h : Held s holder) (hc : s.pc c ≠ .inside) {pc : SpinPc} (v : Bool)
    (hpc : pc ≠ .inside) (hload : pc = .store → s.word = 0) :
    Held ((s.setMonitor c v).goto c pc) holder := by
  have hholder : holder ≠ some c := fun heq => hc ((h.inside c).mpr heq)
  refine ⟨h.word, fun d => ?_, fun d hd hm => ?_⟩
  · by_cases hdc : d = c
    · subst hdc
      simp [goto, hpc, hholder]
    · simpa [goto, setMonitor, hdc] using h.inside d
  · by_cases hdc : d = c
    · subst hdc
      simp only [goto, Function.update_self] at hd
      exact hload hd
    · simp only [goto, setMonitor, Function.update_of_ne hdc] at hd hm
      exact h.monitor d hd hm

/-- After a store no monitor is set, so that only the word and the places have to fit. -/
theorem Held.put (h : Held s holder) {pc : SpinPc} {word : BitVec 32} {holder' : Option (Fin n)}
    (hword : word = if holder' = none then 0 else 1) (hself : pc = .inside ↔ holder' = some c)
    (hother : ∀ d ≠ c, holder = some d ↔ holder' = some d) :
    Held ((s.put word).goto c pc) holder' := by
  refine ⟨hword, fun d => ?_, fun d _ hm => by simp [goto, SpinState.put] at hm⟩
  by_cases hdc : d = c
  · subst hdc
    simpa [goto] using hself
  · simpa [goto, SpinState.put, hdc] using (h.inside d).trans (hother d hdc)

theorem Held.step {a : SpinAction n} (h : Held s holder) (ht : s.step a = some t) :
    ∃ holder', Held t holder' := by
  cases a with
  | spinLock c =>
    simp only [SpinState.step, Option.ite_none_right_eq_some, Option.some.injEq] at ht
    obtain ⟨hpc, rfl⟩ := ht
    have hmove : Held ((s.setMonitor c (s.monitor c)).goto c .load) holder :=
      h.move (by simp [hpc]) (s.monitor c) (by simp) (by simp)
    exact ⟨holder, by simpa [setMonitor] using hmove⟩
  | spinUnlock c =>
    simp only [SpinState.step, Option.ite_none_right_eq_some, Option.some.injEq] at ht
    obtain ⟨hpc, rfl⟩ := ht
    obtain rfl := (h.inside c).mp hpc
    exact ⟨none, h.put rfl (by simp) (by grind)⟩
  | go c ok =>
    simp only [SpinState.step, SpinState.go] at ht
    cases hpc : s.pc c with
    | outside => simp [hpc] at ht
    | inside => simp [hpc] at ht
    | load =>
      simp only [hpc, Option.some.injEq] at ht
      subst ht
      exact ⟨holder, h.move (by simp [hpc]) true (by grind) (by grind)⟩
    | store =>
      simp only [hpc] at ht
      split at ht
      · next hstore =>
        cases ht
        obtain rfl := h.free (h.monitor c hpc hstore.2)
        exact ⟨some c, h.put rfl (by simp) (by grind)⟩
      · cases ht
        exact ⟨holder, h.move (by simp [hpc]) false (by simp) (by simp)⟩

/-- However the accesses of the cpus interleave, at most one cpu is inside. A lock that nobody holds
is never lost: whichever cpu then waits has it after an exclusive load and store of its own. -/
theorem spinLock_exclusive {as : List (SpinAction n)} (h : run SpinState.step {} as = some s) :
    (∀ c d, s.pc c = .inside → s.pc d = .inside → c = d) ∧
    ((∀ c, s.pc c ≠ .inside) → ∀ c, s.pc c = .load →
      ∃ t, run SpinState.step s [.go c true, .go c true] = some t ∧ t.pc c = .inside) := by
  obtain ⟨holder, hheld⟩ := run_invariant (I := fun s => ∃ holder, Held s holder)
    (by rintro _ _ _ ⟨_, hs⟩ ht; exact hs.step ht) ⟨none, rfl, by simp, by simp⟩ h
  refine ⟨fun c d hc hd => ?_, fun hnone c hc => ?_⟩
  · exact Option.some.inj (((hheld.inside c).mp hc).symm.trans ((hheld.inside d).mp hd))
  · have hholder : holder = none :=
      Option.eq_none_iff_forall_ne_some.mpr fun d hd => hnone d ((hheld.inside d).mpr hd)
    have hword : s.word = 0 := by rw [hheld.word, if_pos hholder]
    refine ⟨(((s.setMonitor c true).goto c .store).put 1).goto c .inside, ?_, by simp [goto]⟩
    simp [run, SpinState.step, SpinState.go, hc, hword, goto, setMonitor]

/-- The second cpu loads before the first one stores; its own store then fails, and it waits. -/
theorem spinLock_exclusive_two : ∃ s : SpinState 2,
    run SpinState.step {} [.spinLock 0, .spinLock 1, .go 0 true, .go 1 true, .go 0 true,
      .go 1 true] = some s ∧ s.pc 0 = .inside ∧ s.pc 1 = .load ∧
    ∀ c d, s.pc c = .inside → s.pc d = .inside → c = d := by
  have h : run SpinState.step ({} : SpinState 2) [.spinLock 0, .spinLock 1, .go 0 true, .go 1 true,
    .go 0 true, .go 1 true] = some _ := rfl
  exact ⟨_, h, rfl, rfl, (spinLock_exclusive h).1⟩

end SpinState

end Bao.Armv8
