import Bao.Core.Config
import Bao.Riscv.VplicFrame

/-!
# The owners of the interrupts

The master of each VM goes over the interrupts of the VM's devices. It tests whether an interrupt is
taken already, and if not, assigns it to the VM and marks it as taken. There is no lock: the test
and the assignment are two steps, and the masters of several VMs take theirs in any order. A failed
test is an error, after which the master does not go on.

An interrupt is assigned to two VMs exactly when both can get as far as testing it.
-/

namespace Bao

open Foundation

/-- `MAX_INTERRUPTS`. -/
def maxInterrupts : Nat := plicMaxInterrupts + 3

variable {V : Type}

/-- The ids that the hypervisor reserves for itself, and the devices of the VMs. -/
structure IrqConfig (V : Type) where
  reserved : List Nat
  devs : V → List DevRegion

/-- The bitmaps, the hardware bits of the virtual controllers, and where the masters are: how many
interrupts each has assigned, and whether it has tested the next. -/
structure IrqState (V : Type) where
  hypInterruptBitmap : Bitmap
  globalInterruptBitmap : Bitmap
  interruptBitmap : V → Bitmap
  vplic : V → VplicMem
  next : V → Nat
  tested : V → Bool

inductive IrqAction (V : Type) where
  | test (v : V)
  | assign (v : V)

def interruptsReserve (s : IrqState V) (intId : Nat) : IrqState V :=
  if intId < maxInterrupts then
    { s with
      hypInterruptBitmap := bitmapSet s.hypInterruptBitmap intId
      globalInterruptBitmap := bitmapSet s.globalInterruptBitmap intId }
  else s

def interruptsArchConflict (interruptBitmap : Bitmap) (intId : Nat) : Bool := interruptBitmap intId

/-- No interrupt is assigned to two VMs, or to a VM and the hypervisor, and all that are assigned
are marked as taken. -/
structure SingleOwner (s : IrqState V) : Prop where
  vm : ∀ v w, v ≠ w → ∀ id, ¬ (s.interruptBitmap v id = true ∧ s.interruptBitmap w id = true)
  hyp : ∀ v id, s.interruptBitmap v id = true → s.hypInterruptBitmap id = false
  global : ∀ v id, s.interruptBitmap v id = true → s.globalInterruptBitmap id = true

namespace IrqConfig

variable (cfg : IrqConfig V)

/-- The ids over which the two loops of `vm_init_dev` go. -/
def irqs (v : V) : List Nat := (cfg.devs v).flatMap (·.interrupts)

/-- The state in which the VMs are started. -/
def initial : IrqState V :=
  cfg.reserved.foldl interruptsReserve
    { hypInterruptBitmap := fun _ => false
      globalInterruptBitmap := fun _ => false
      interruptBitmap := fun _ _ => false
      vplic := fun _ _ => 0
      next := fun _ => 0
      tested := fun _ => false }

theorem initial_spec :
    (∀ v, cfg.initial.interruptBitmap v = fun _ => false) ∧
      (∀ v, cfg.initial.vplic v = fun _ => 0) ∧ (∀ v, cfg.initial.next v = 0) ∧
      (∀ v, cfg.initial.tested v = false) ∧
      cfg.initial.globalInterruptBitmap = cfg.initial.hypInterruptBitmap := by
  unfold initial
  generalize cfg.reserved = ids
  induction ids using List.reverseRecOn with
  | nil => simp
  | append_singleton ids id ih =>
    simp only [List.foldl_append, List.foldl_cons, List.foldl_nil, interruptsReserve]
    split
    · exact ⟨ih.1, ih.2.1, ih.2.2.1, ih.2.2.2.1, congrArg (bitmapSet · id) ih.2.2.2.2⟩
    · exact ih

/-- The master of the VM can get as far as testing its interrupt `i`: neither it nor one before is
reserved, and they are all different. -/
structure Unblocked (v : V) (i : Nat) : Prop where
  nodup : ((cfg.irqs v).take (i + 1)).Nodup
  free : ∀ id ∈ (cfg.irqs v).take (i + 1), cfg.initial.hypInterruptBitmap id = false

/-- No interrupt is tested by the masters of two VMs. -/
def Exclusive : Prop :=
  ∀ v w, v ≠ w → ∀ i j id, (cfg.irqs v)[i]? = some id → (cfg.irqs w)[j]? = some id →
    ¬ (cfg.Unblocked v i ∧ cfg.Unblocked w j)

/-! ### What every run keeps -/

variable {cfg} {s : IrqState V} {v : V} {id : Nat}

/-- How far the master of a VM is, counting the interrupt that it has tested. -/
def reached (s : IrqState V) (v : V) : Nat := s.next v + (s.tested v).toNat

structure Inv (cfg : IrqConfig V) (s : IrqState V) : Prop where
  hyp : s.hypInterruptBitmap = cfg.initial.hypInterruptBitmap
  reserved : ∀ id, s.hypInterruptBitmap id = true → s.globalInterruptBitmap id = true
  vm : ∀ v id, s.interruptBitmap v id = true ↔ id ∈ (cfg.irqs v).take (s.next v)
  global : ∀ v id, s.interruptBitmap v id = true → s.globalInterruptBitmap id = true
  nodup : ∀ v, ((cfg.irqs v).take (reached s v)).Nodup
  free : ∀ v, ∀ id ∈ (cfg.irqs v).take (reached s v), s.hypInterruptBitmap id = false
  hw : ∀ v, HwExact (fun id => s.interruptBitmap v id = true) (s.vplic v)

theorem Inv.initial (cfg : IrqConfig V) : Inv cfg cfg.initial := by
  obtain ⟨hvm, hvplic, hnext, htested, hglobal⟩ := initial_spec cfg
  refine ⟨rfl, fun id h => hglobal ▸ h, ?_, ?_, ?_, ?_, ?_⟩
  all_goals simp [hvm, hvplic, hnext, htested, reached, HwExact, memBit]

theorem Unblocked.mono {i j : Nat} (h : cfg.Unblocked v i) (hij : j ≤ i) : cfg.Unblocked v j :=
  have hsub := List.take_sublist_take_left (l := cfg.irqs v) (Nat.succ_le_succ hij)
  ⟨h.nodup.sublist hsub, fun id hid => h.free id (hsub.subset hid)⟩

theorem mem_take_iff {l : List Nat} {n x : Nat} : x ∈ l.take n ↔ ∃ i < n, l[i]? = some x := by
  rw [List.mem_take_iff_getElem]
  constructor
  · rintro ⟨i, hi, rfl⟩
    exact ⟨i, by omega, List.getElem?_eq_getElem _⟩
  · rintro ⟨i, hi, hx⟩
    obtain ⟨hlt, rfl⟩ := List.getElem?_eq_some_iff.mp hx
    exact ⟨i, by omega, rfl⟩

theorem Inv.unblocked (h : Inv cfg s) (hid : s.interruptBitmap v id = true) :
    ∃ i, (cfg.irqs v)[i]? = some id ∧ cfg.Unblocked v i := by
  obtain ⟨i, hi, hget⟩ := mem_take_iff.mp ((h.vm v id).mp hid)
  have hlt : i + 1 ≤ reached s v := by unfold reached; omega
  refine ⟨i, hget, ?_, fun x hx => ?_⟩
  · exact (h.nodup v).sublist (List.take_sublist_take_left hlt)
  · rw [← h.hyp]
    exact h.free v x ((List.take_sublist_take_left hlt).subset hx)

end IrqConfig

variable [DecidableEq V]

/-- `interrupts_arch_vm_assign`. -/
def interruptsArchVmAssign (s : IrqState V) (v : V) (id : Nat) : IrqState V :=
  { s with vplic := Function.update s.vplic v (vplicSetHw (s.vplic v) id).val }

/-- `interrupts_vm_assign` after its test. -/
def interruptsVmAssign (s : IrqState V) (v : V) (id : Nat) : IrqState V :=
  let s := interruptsArchVmAssign s v id
  { s with
    interruptBitmap := Function.update s.interruptBitmap v (bitmapSet (s.interruptBitmap v) id)
    globalInterruptBitmap := bitmapSet s.globalInterruptBitmap id }

/-- The master of the VM has passed the test. -/
def IrqState.pass (s : IrqState V) (v : V) : IrqState V :=
  { s with tested := Function.update s.tested v true }

/-- The master of the VM has assigned the interrupt, and goes on to the next. -/
def IrqState.assign (s : IrqState V) (v : V) (id : Nat) : IrqState V :=
  { interruptsVmAssign s v id with
    next := Function.update s.next v (s.next v + 1)
    tested := Function.update s.tested v false }

/-- The steps of the masters of the VMs. A test that finds the interrupt taken is an error. -/
def IrqConfig.step (cfg : IrqConfig V) (s : IrqState V) : IrqAction V → Option (IrqState V)
  | .test v =>
    match (cfg.irqs v)[s.next v]? with
    | some id =>
      if s.tested v ∨ interruptsArchConflict s.globalInterruptBitmap id then none
      else some (s.pass v)
    | none => none
  | .assign v =>
    match (cfg.irqs v)[s.next v]? with
    | some id => if s.tested v then some (s.assign v id) else none
    | none => none

namespace IrqConfig

variable {cfg : IrqConfig V} {s t : IrqState V} {v w : V} {a : IrqAction V} {id i j : Nat}

theorem step_test : cfg.step s (.test v) = some t ↔ ∃ id, (cfg.irqs v)[s.next v]? = some id ∧
    s.tested v = false ∧ interruptsArchConflict s.globalInterruptBitmap id = false ∧
      t = s.pass v := by
  simp only [step]
  cases (cfg.irqs v)[s.next v]? with
  | none => simp
  | some id => simp [and_assoc, eq_comm (a := t)]

theorem step_assign : cfg.step s (.assign v) = some t ↔ ∃ id, (cfg.irqs v)[s.next v]? = some id ∧
    s.tested v = true ∧ t = s.assign v id := by
  simp only [step]
  cases (cfg.irqs v)[s.next v]? with
  | none => simp
  | some id => simp [eq_comm (a := t)]

theorem assign_next (s : IrqState V) (v : V) (id : Nat) :
    (s.assign v id).next = Function.update s.next v (s.next v + 1) := rfl

theorem assign_tested (s : IrqState V) (v : V) (id : Nat) :
    (s.assign v id).tested = Function.update s.tested v false := rfl

theorem bitmapSet_eq_true {map : Bitmap} {k x : Nat} :
    bitmapSet map k x = true ↔ x = k ∨ map x = true := by
  by_cases hx : x = k <;> simp [bitmapSet, bitmapWrite, hx]

theorem assign_global {x : Nat} : (s.assign v id).globalInterruptBitmap x = true ↔
    x = id ∨ s.globalInterruptBitmap x = true := bitmapSet_eq_true

theorem assign_vm {x : Nat} : (s.assign v id).interruptBitmap w x = true ↔
    w = v ∧ x = id ∨ s.interruptBitmap w x = true := by
  simp only [IrqState.assign, interruptsVmAssign, interruptsArchVmAssign]
  by_cases heq : w = v
  · subst heq
    rw [Function.update_self, bitmapSet_eq_true]
    simp
  · simp [heq]

theorem mem_take_succ {l : List Nat} (h : l[i]? = some id) (x : Nat) :
    x ∈ l.take (i + 1) ↔ x ∈ l.take i ∨ x = id := by
  rw [List.take_add_one, h]
  simp

theorem Inv.test (h : Inv cfg s) (ht : cfg.step s (.test v) = some t) : Inv cfg t := by
  obtain ⟨id, hid, htested, hfree, rfl⟩ := step_test.mp ht
  have hnext : reached s v = s.next v := by rw [reached, htested]; rfl
  have hself : reached (s.pass v) v = s.next v + 1 := by simp [reached, IrqState.pass]
  have hother (w : V) (hw : w ≠ v) : reached (s.pass v) w = reached s w := by
    simp [reached, IrqState.pass, hw]
  -- What is taken already is different from `id`, since the test has passed.
  have hne (x : Nat) (hx : s.globalInterruptBitmap x = true) : x ≠ id := fun heq => by
    rw [interruptsArchConflict, ← heq, hx] at hfree
    cases hfree
  refine ⟨h.hyp, h.reserved, h.vm, h.global, fun w => ?_, fun w => ?_, h.hw⟩ <;>
    by_cases heq : w = v
  · have hnodup := h.nodup v
    rw [hnext] at hnodup
    rw [heq, hself, List.take_add_one, hid]
    refine hnodup.append (List.nodup_singleton id) ?_
    rw [List.disjoint_right]
    intro x hx hmem
    exact hne x (h.global v x ((h.vm v x).mpr hmem)) (List.mem_singleton.mp hx)
  · rw [hother w heq]
    exact h.nodup w
  · rw [heq, hself]
    intro x hx
    rcases (mem_take_succ hid x).mp hx with hx | rfl
    · exact h.free v x (hnext ▸ hx)
    · by_contra hhyp
      exact hne x (h.reserved x (Bool.eq_true_of_not_eq_false hhyp)) rfl
  · rw [hother w heq]
    exact h.free w

theorem hwExact_vplicSetHw {assigned : Nat → Prop} {mem : VplicMem} (h : HwExact assigned mem) :
    HwExact (fun x => x = id ∨ assigned x) (vplicSetHw mem id).val := by
  intro k hk
  rw [vplicSetHw, Logged.val_ite, Logged.val_touch, Logged.val_pure]
  split
  · rw [memBit_memWriteBit]
    split
    · next heq => simp [heq]
    · next hne => simp [hne, h k hk]
  · next hle =>
    have hne : k ≠ id := fun heq => hle (IdLe.of_lt (heq ▸ hk))
    simp [hne, h k hk]

theorem Inv.assign (h : Inv cfg s) (ht : cfg.step s (.assign v) = some t) : Inv cfg t := by
  obtain ⟨id, hid, htested, rfl⟩ := step_assign.mp ht
  have hreached (w : V) : reached (s.assign v id) w = reached s w := by
    rw [reached, reached, assign_next, assign_tested]
    by_cases heq : w = v
    · subst heq
      simp [htested]
    · simp [heq]
  refine ⟨h.hyp, fun x hx => ?_, fun w x => ?_, fun w x hx => ?_, fun w => ?_, fun w => ?_,
    fun w k hk => ?_⟩
  · exact assign_global.mpr (.inr (h.reserved x hx))
  · rw [assign_vm, h.vm, assign_next]
    by_cases heq : w = v
    · subst heq
      simp only [Function.update_self, mem_take_succ hid, true_and, or_comm]
    · simp [heq]
  · exact assign_global.mpr ((assign_vm.mp hx).imp And.right (h.global w x))
  · rw [hreached]
    exact h.nodup w
  · rw [hreached]
    exact h.free w
  · beta_reduce
    rw [assign_vm]
    simp only [IrqState.assign, interruptsVmAssign, interruptsArchVmAssign]
    by_cases heq : w = v
    · subst heq
      rw [Function.update_self, hwExact_vplicSetHw (h.hw w) k hk]
      simp
    · simp only [Function.update_of_ne heq, heq, false_and, false_or]
      exact h.hw w k hk

theorem Inv.step (h : Inv cfg s) (ht : cfg.step s a = some t) : Inv cfg t := by
  cases a with
  | test v => exact h.test ht
  | assign v => exact h.assign ht

/-! ### Two masters -/

theorem notMem_take_of_nodup {l : List Nat} (h : l[i]? = some id)
    (hnodup : (l.take (i + 1)).Nodup) : id ∉ l.take i := by
  rw [List.take_add_one, h] at hnodup
  exact fun hmem => (List.disjoint_of_nodup_append hnodup hmem) (by simp)

/-- A master that runs alone assigns its first interrupts, when they are all free and different. -/
theorem exists_solo_run {m : Nat} (hnext : s.next v = 0) (htested : s.tested v = false)
    (hm : m ≤ (cfg.irqs v).length) (hnodup : ((cfg.irqs v).take m).Nodup)
    (hfree : ∀ id ∈ (cfg.irqs v).take m, s.globalInterruptBitmap id = false) :
    ∃ as t, run cfg.step s as = some t ∧ t.next = Function.update s.next v m ∧
      t.tested = s.tested ∧ ∀ id, t.globalInterruptBitmap id = true ↔
        s.globalInterruptBitmap id = true ∨ id ∈ (cfg.irqs v).take m := by
  induction m with
  | zero => exact ⟨[], s, rfl, by rw [← hnext, Function.update_eq_self], rfl, by simp⟩
  | succ m ih =>
    have hsub := List.take_sublist_take_left (l := cfg.irqs v) (Nat.le_succ m)
    obtain ⟨as, t, ht, htnext, httested, htglobal⟩ := ih (by omega) (hnodup.sublist hsub)
      fun id hid => hfree id (hsub.subset hid)
    obtain ⟨id, hid⟩ : ∃ id, (cfg.irqs v)[m]? = some id :=
      ⟨_, List.getElem?_eq_getElem (by omega)⟩
    have hat : t.next v = m := by rw [htnext, Function.update_self]
    have hconflict : interruptsArchConflict t.globalInterruptBitmap id = false := by
      rw [interruptsArchConflict, ← Bool.not_eq_true, htglobal]
      rintro (hglobal | hmem)
      · rw [hfree id ((mem_take_succ hid id).mpr (.inr rfl))] at hglobal
        cases hglobal
      · exact notMem_take_of_nodup hid hnodup hmem
    have h₁ : cfg.step t (.test v) = some (t.pass v) :=
      step_test.mpr ⟨id, hat ▸ hid, httested ▸ htested, hconflict, rfl⟩
    have h₂ : cfg.step (t.pass v) (.assign v) = some ((t.pass v).assign v id) :=
      step_assign.mpr ⟨id, hat ▸ hid, Function.update_self .., rfl⟩
    refine ⟨as ++ [.test v, .assign v], _, run_append.mpr ⟨t, ht, run_cons.mpr ⟨_, h₁,
      run_cons.mpr ⟨_, h₂, rfl⟩⟩⟩, ?_, ?_, fun x => ?_⟩
    · rw [assign_next]
      simp [IrqState.pass, htnext]
    · rw [assign_tested]
      simp [IrqState.pass, httested, ← htested]
    · rw [assign_global, mem_take_succ hid, IrqState.pass, htglobal]
      exact ⟨fun h => by rcases h with h | h | h <;> simp [h],
        fun h => by rcases h with h | h | h <;> simp [h]⟩

/-- When the masters of two VMs can both get to an interrupt, and have none in common before, some
run assigns it to both. -/
theorem exists_double_owner (hvw : v ≠ w) (hi : (cfg.irqs v)[i]? = some id)
    (hj : (cfg.irqs w)[j]? = some id) (hv : cfg.Unblocked v i) (hw : cfg.Unblocked w j)
    (hfirst : ∀ x ∈ (cfg.irqs v).take i, x ∉ (cfg.irqs w).take j) :
    ∃ as t, run cfg.step cfg.initial as = some t ∧ t.interruptBitmap v id = true ∧
      t.interruptBitmap w id = true := by
  obtain ⟨-, -, hnext, htested, hglobal⟩ := initial_spec cfg
  have hsubv := List.take_sublist_take_left (l := cfg.irqs v) (Nat.le_succ i)
  have hsubw := List.take_sublist_take_left (l := cfg.irqs w) (Nat.le_succ j)
  -- Both assign what they have before.
  obtain ⟨as₁, s₁, hs₁, hnext₁, htested₁, hglobal₁⟩ := exists_solo_run (hnext v) (htested v)
    (le_of_lt (List.getElem?_eq_some_iff.mp hi).1) (hv.nodup.sublist hsubv)
    fun x hx => by rw [hglobal]; exact hv.free x (hsubv.subset hx)
  have hglobal₁' (x : Nat) (hx : x ∉ (cfg.irqs v).take i)
      (hhyp : cfg.initial.hypInterruptBitmap x = false) : s₁.globalInterruptBitmap x = false := by
    rw [← Bool.not_eq_true, hglobal₁, hglobal, hhyp]
    simpa using hx
  obtain ⟨as₂, s₂, hs₂, hnext₂, htested₂, hglobal₂⟩ := exists_solo_run
    (show s₁.next w = 0 by rw [hnext₁, Function.update_of_ne hvw.symm, hnext])
    (by rw [htested₁, htested]) (le_of_lt (List.getElem?_eq_some_iff.mp hj).1)
    (hw.nodup.sublist hsubw)
    fun x hx => hglobal₁' x (fun hmem => hfirst x hmem hx) (hw.free x (hsubw.subset hx))
  -- Both test the interrupt, and then both assign it.
  have hatv : s₂.next v = i := by
    rw [hnext₂, Function.update_of_ne hvw, hnext₁, Function.update_self]
  have hatw : s₂.next w = j := by rw [hnext₂, Function.update_self]
  have htest : s₂.tested = cfg.initial.tested := htested₂.trans htested₁
  have hconflict : interruptsArchConflict s₂.globalInterruptBitmap id = false := by
    rw [interruptsArchConflict, ← Bool.not_eq_true, hglobal₂, hglobal₁' id
      (notMem_take_of_nodup hi hv.nodup) (hv.free id ((mem_take_succ hi id).mpr (.inr rfl)))]
    simpa using notMem_take_of_nodup hj hw.nodup
  let s₃ := s₂.pass v
  let s₄ := s₃.pass w
  let s₅ := s₄.assign v id
  have h₃ : cfg.step s₂ (.test v) = some s₃ :=
    step_test.mpr ⟨id, hatv ▸ hi, by rw [htest, htested], hconflict, rfl⟩
  have h₄ : cfg.step s₃ (.test w) = some s₄ := step_test.mpr ⟨id, hatw ▸ hj,
    by simp [s₃, IrqState.pass, hvw.symm, htest, htested], hconflict, rfl⟩
  have h₅ : cfg.step s₄ (.assign v) = some s₅ := step_assign.mpr ⟨id, hatv ▸ hi,
    by simp [s₄, s₃, IrqState.pass, hvw], rfl⟩
  have hatw₅ : s₅.next w = j := by
    rw [assign_next, Function.update_of_ne hvw.symm]
    exact hatw
  have htested₅ : s₅.tested w = true := by
    rw [assign_tested, Function.update_of_ne hvw.symm]
    exact Function.update_self ..
  have h₆ : cfg.step s₅ (.assign w) = some (s₅.assign w id) :=
    step_assign.mpr ⟨id, hatw₅ ▸ hj, htested₅, rfl⟩
  refine ⟨as₁ ++ (as₂ ++ [.test v, .test w, .assign v, .assign w]), _, run_append.mpr ⟨s₁, hs₁,
    run_append.mpr ⟨s₂, hs₂, run_cons.mpr ⟨s₃, h₃, run_cons.mpr ⟨s₄, h₄, run_cons.mpr ⟨s₅, h₅,
      run_cons.mpr ⟨_, h₆, rfl⟩⟩⟩⟩⟩⟩, ?_, ?_⟩
  · exact assign_vm.mpr (.inr (assign_vm.mpr (.inl ⟨rfl, rfl⟩)))
  · exact assign_vm.mpr (.inl ⟨rfl, rfl⟩)

end IrqConfig

/-- Interrupts have a single owner in every run exactly when no interrupt can be tested by the
masters of two VMs. -/
theorem interrupts_singleOwner_iff (cfg : IrqConfig V) :
    (∀ as t, run cfg.step cfg.initial as = some t → SingleOwner t) ↔ cfg.Exclusive := by
  constructor
  · intro hall v w hvw i
    -- Of the interrupts that two VMs have in common, an earliest one is assigned to both.
    induction i using Nat.strong_induction_on with
    | _ i ih =>
      rintro j id hi hj ⟨hv, hw⟩
      by_cases hfirst : ∀ x ∈ (cfg.irqs v).take i, x ∉ (cfg.irqs w).take j
      · obtain ⟨as, t, ht, htv, htw⟩ := IrqConfig.exists_double_owner hvw hi hj hv hw hfirst
        exact (hall as t ht).vm v w hvw id ⟨htv, htw⟩
      · simp only [not_forall, not_not] at hfirst
        obtain ⟨x, hxv, hxw⟩ := hfirst
        obtain ⟨i', hi', hxi⟩ := IrqConfig.mem_take_iff.mp hxv
        obtain ⟨j', hj', hxj⟩ := IrqConfig.mem_take_iff.mp hxw
        exact ih i' hi' j' x hxi hxj ⟨hv.mono (by omega), hw.mono (by omega)⟩
  · intro hexcl as t ht
    have hinv : IrqConfig.Inv cfg t :=
      run_invariant (fun s a t hs hstep => hs.step hstep) (IrqConfig.Inv.initial cfg) ht
    refine ⟨fun v w hvw id hid => ?_, fun v id hid => ?_, hinv.global⟩
    · obtain ⟨i, hi, hv⟩ := hinv.unblocked hid.1
      obtain ⟨j, hj, hw⟩ := hinv.unblocked hid.2
      exact hexcl v w hvw i j id hi hj ⟨hv, hw⟩
    · obtain ⟨i, hi, hv⟩ := hinv.unblocked hid
      rw [hinv.hyp]
      exact hv.free id ((IrqConfig.mem_take_succ hi id).mpr (.inr rfl))

/-- The masters of two VMs both pass the test for interrupt 5 before either assigns it. -/
theorem interrupts_double_owner :
    let cfg : IrqConfig Bool := { reserved := [1025], devs := fun _ => [⟨[5]⟩] }
    ∃ t, run cfg.step cfg.initial [.test true, .test false, .assign true, .assign false] = some t ∧
      ¬ SingleOwner t := by
  intro cfg
  refine exists_some_of (P := fun t => t.interruptBitmap true 5 = true ∧
    t.interruptBitmap false 5 = true) (by decide +kernel) fun t _ htwo h => ?_
  exact h.vm true false (by decide) 5 htwo

end Bao
