import Bao.Foundation.Run
import Bao.Lib.Util
import Bao.Riscv.Vplic

/-!
# Runs of the virtual interrupt controller

The harts of a VM work on its virtual controller concurrently: their guests load and store in its
two windows, interrupts are injected, messages of other harts are handled, and harts are started.
What a function does while it holds the lock is one step. The line update that
`vplic_set_threshold`, `vplic_claim` and `vplic_complete` make after the release of the lock is a
step of its own, before which other harts may move.

The second half says which steps stay within the arrays of `vplic_t`.
-/

namespace Bao

open Foundation

structure VplicSystem where
  state : VplicState := {}
  /-- The context whose line each physical cpu has still to update. -/
  line : Nat → Option Nat := fun _ => none

inductive VplicAction where
  | access (cpu : Nat) (acc : EmulAccess)
  | inject (cpu vcpuId id : Nat)
  | updateLine (cpu : Nat)
  | handleMsg (cpu : Nat)
  | reset (cpu : Nat)

/-- The test of `vm_emul_get` for one emulated region. -/
def inEmulMem (vaBase : Word) (size : Nat) (addr : Word) : Bool :=
  vaBase ≤ addr && addr < vaBase + BitVec.ofNat 64 size

/-- `sizeof(plic_global)`: the priority, pending and enable registers, in whole pages. -/
def plicGlobalSize (plat : PlicPlat) : Nat := align (0x2000 + 0x80 * plat.cntxtNum) pageSize

/-- `sizeof(plic_hart)`: a page for each context. -/
def plicHartSize (plat : PlicPlat) : Nat := 0x1000 * plat.cntxtNum

/-- The emulation of a guest access in one of the two regions of `vplic_init`. -/
def vplicEmul (vm : VplicVm) (cpu : Nat) (acc : EmulAccess) (s : VplicState) :
    Option (Logged Access VplicResult) :=
  if inEmulMem vm.plat.plicBase (plicGlobalSize vm.plat) acc.addr then
    vplicGlobalEmulHandler vm cpu acc s
  else if inEmulMem (vm.plat.plicBase + 0x200000) (plicHartSize vm.plat) acc.addr then
    vplicHartEmulHandler vm cpu acc s
  else none

/-- What an action does, if it is enabled. A cpu that has a line left to update does that first;
a guest access that the handlers reject stops the cpu. -/
def vplicExec (vm : VplicVm) (s : VplicSystem) : VplicAction → Option (Logged Access VplicSystem)
  | .access cpu acc =>
    if vm.cpus.testBit cpu ∧ s.line cpu = none then
      (vplicEmul vm cpu acc s.state).map fun x => do
        let r ← x
        pure { state := r.state, line := Function.update s.line cpu r.line }
    else none
  | .inject cpu vcpuId id =>
    if vm.cpus.testBit cpu ∧ s.line cpu = none ∧
        (vmTranslateToPcpuid vm.cpus vcpuId).isSome ∧ vcpuId < 2 ^ 64 then
      some do
        let state ← vplicInject vm cpu vcpuId id s.state
        pure { s with state := state }
    else none
  | .updateLine cpu =>
    match s.line cpu with
    | some vcntxt => some do
      let state ← vplicUpdateHartLine vm cpu vcntxt s.state
      pure { state := state, line := Function.update s.line cpu none }
    | none => none
  | .handleMsg cpu =>
    if vm.cpus.testBit cpu ∧ s.line cpu = none then
      match s.state.msgs cpu with
      | vcntxt :: msgs => some do
        let state ← vplicUpdateHartLine vm cpu vcntxt
          { s.state with msgs := Function.update s.state.msgs cpu msgs }
        pure { s with state := state }
      | [] => none
    else none
  | .reset cpu =>
    if vm.cpus.testBit cpu ∧ s.line cpu = none then
      some (pure { s with state :=
        { s.state with csrs := Function.update s.state.csrs cpu resetCsrs } })
    else none

def vplicStep (vm : VplicVm) (s : VplicSystem) (a : VplicAction) : Option VplicSystem :=
  (vplicExec vm s a).map Logged.val

/-- The state that `vplic_set_hw` has left for the interrupts of the VM. -/
def vplicInit (interrupts : List Nat) : VplicSystem :=
  { state := { mem := (interrupts.foldlM vplicSetHw (fun _ => 0)).val } }

/-! ### Staying within the arrays -/

/-- The element exists: ids are below `PLIC_MAX_INTERRUPTS`, contexts are contexts of the
platform. -/
def Access.InArray (plat : PlicPlat) : Access → Prop
  | .hw id => id < plicMaxInterrupts
  | .pend id => id < plicMaxInterrupts
  | .act id => id < plicMaxInterrupts
  | .prio id => id < plicMaxInterrupts
  | .enbl vcntxt id => vcntxt < plat.cntxtNum ∧ id < plicMaxInterrupts
  | .threshold vcntxt => vcntxt < plat.cntxtNum

section Bounds

variable {vm : VplicVm} {plat : PlicPlat} {mem : VplicMem} {s : VplicState} {cpu vcntxt id : Nat}

theorem IdLe.of_lt (h : id < plicMaxInterrupts) : IdLe id := .inl (le_of_lt h)

theorem vplicGetPend_all (h : id < plicMaxInterrupts) :
    (vplicGetPend mem id).All (Access.InArray plat) := by
  simpa [vplicGetPend, IdLe.of_lt h, Access.InArray] using h

theorem vplicGetEnbl_all (h : id < plicMaxInterrupts) :
    (vplicGetEnbl mem vcntxt id).All (Access.InArray plat) ↔ vcntxt < plat.cntxtNum := by
  simp [vplicGetEnbl, IdLe.of_lt h, Access.InArray, h]

theorem vplicGetPrio_all (h : id < plicMaxInterrupts) :
    (vplicGetPrio mem id).All (Access.InArray plat) := by
  simpa [vplicGetPrio, IdLe.of_lt h, Access.InArray] using h

theorem vplicGetHw_all (h : id < plicMaxInterrupts) :
    (vplicGetHw mem id).All (Access.InArray plat) := by
  simpa [vplicGetHw, IdLe.of_lt h, Access.InArray] using h

theorem vplicNextPendingBody_not_all {best : BitVec 32 × Nat} (h : id = plicMaxInterrupts) :
    ¬ (vplicNextPendingBody mem vcntxt best id).All (Access.InArray plat) := by
  intro hall
  rw [vplicNextPendingBody, Logged.all_bind, vplicGetPend, if_pos (idLe_of_le (le_of_eq h)),
    Logged.all_touch] at hall
  exact Nat.ne_of_lt hall.1 h

/-- The last round of the loop of `vplic_next_pending` reads the pending bit of the id
`PLIC_MAX_INTERRUPTS`, whatever the state. -/
theorem vplicNextPending_not_all :
    ¬ (vplicNextPending plat mem vcntxt).All (Access.InArray plat) := by
  unfold vplicNextPending
  generalize hn : plicMaxInterrupts = n
  intro h
  rw [Logged.all_bind, List.range_succ, List.foldlM_append, Logged.all_bind,
    List.foldlM_cons, Logged.all_bind] at h
  exact vplicNextPendingBody_not_all hn.symm h.1.2.1

/-- A line update stays within the arrays exactly when the line is that of another hart, and only
a message is sent. -/
theorem vplicUpdateHartLine_all :
    (vplicUpdateHartLine vm cpu vcntxt s).All (Access.InArray vm.plat) ↔
      lineHart vm vcntxt ≠ cpu := by
  unfold vplicUpdateHartLine
  split
  · next hlocal =>
    rw [Logged.all_bind]
    exact ⟨fun h => absurd h.1 vplicNextPending_not_all, fun h => absurd hlocal h⟩
  · next hremote => simpa using hremote

@[simp] theorem vplicUpdateHartLine_mem :
    (vplicUpdateHartLine vm cpu vcntxt s).val.mem = s.mem := by
  unfold vplicUpdateHartLine
  split <;> simp [VplicState.setVseip, VplicState.sendMsg]

/-- A priority store that updates no line of the hart that makes it. -/
def PrioStoreSafe (vm : VplicVm) (cpu id : Nat) (prio : BitVec 32) (mem : VplicMem) : Prop :=
  mem (prioAt id) = prio ∨ memBit mem id = true ∨
    ∀ i < vm.cntxtNum, (plicPlatIdToCntxt vm.plat (some i)).mode = .s →
      memBit mem (enblAt i id) = true → lineHart vm i ≠ cpu

theorem vplicSetPrioBody_mem : (vplicSetPrioBody vm cpu id s vcntxt).val.mem = s.mem := by
  simp only [vplicSetPrioBody, Logged.val_ite, Logged.val_bind, Logged.val_pure]
  split
  · rfl
  · split <;> simp

theorem vplicSetPrioBody_all (hid : id < plicMaxInterrupts) :
    (vplicSetPrioBody vm cpu id s vcntxt).All (Access.InArray vm.plat) ↔
      ((plicPlatIdToCntxt vm.plat (some vcntxt)).mode = .s →
        memBit s.mem (enblAt vcntxt id) = true → lineHart vm vcntxt ≠ cpu) := by
  unfold vplicSetPrioBody
  split
  · next hmode => simp [hmode]
  · next hmode =>
    have hs := not_not.mp hmode
    have hnum := (plicPlatIdToCntxt_mode_s hs).1
    simp only [Logged.all_bind, vplicGetEnbl_all hid, hnum, true_and, hs, forall_true_left]
    rw [Logged.all_ite, vplicUpdateHartLine_all]
    simp [vplicGetEnbl, IdLe.of_lt hid]

theorem vplicSetPrio_all (hid : id < plicMaxInterrupts) {prio : BitVec 32} :
    (vplicSetPrio vm cpu id prio s).All (Access.InArray vm.plat) ↔
      PrioStoreSafe vm cpu id prio s.mem := by
  have hhw : id / 32 ≠ prioAt id := by
    simp only [prioAt, plicMaxInterrupts] at hid ⊢
    omega
  have henbl (i : Nat) : enblAt i id / 32 ≠ prioAt id := by
    simp only [prioAt, enblAt, plicMaxInterrupts] at hid ⊢
    omega
  have hloop : ∀ s' : VplicState, s'.mem = Function.update s.mem (prioAt id) prio →
      (((List.range vm.cntxtNum).foldlM (vplicSetPrioBody vm cpu id) s').All
        (Access.InArray vm.plat) ↔
      ∀ i < vm.cntxtNum, (plicPlatIdToCntxt vm.plat (some i)).mode = .s →
        memBit s.mem (enblAt i id) = true → lineHart vm i ≠ cpu) := by
    intro s' hs'
    simp only [← List.mem_range]
    refine Logged.all_foldlM (I := fun _ t => t.mem = s'.mem) (fun t i _ ht => ?_)
      (fun t i _ ht => ?_) rfl
    · rw [vplicSetPrioBody_mem, ht]
    · rw [vplicSetPrioBody_all hid, ht, hs', memBit_update_word (henbl i)]
  simp only [vplicSetPrio, if_pos (IdLe.of_lt hid), Logged.all_bind, vplicGetPrio_all hid,
    true_and, PrioStoreSafe]
  rw [Logged.all_ite]
  simp only [Logged.all_bind, Logged.all_touch, Access.InArray, hid, vplicGetHw_all hid, true_and,
    Logged.all_ite, Logged.all_pure, implies_true, and_true, hloop, Logged.val_touch]
  simp only [vplicGetPrio, vplicGetHw, if_pos (IdLe.of_lt hid), Logged.val_touch,
    memBit_update_word hhw]
  grind

/-- A bit of an enable store to a context of the platform that updates no line of the hart that
makes it. -/
def EnblBitSafe (vm : VplicVm) (cpu vcntxt id : Nat) (set : Bool) (mem : VplicMem) : Prop :=
  vcntxt < vm.plat.cntxtNum ∧
    (memBit mem (enblAt vcntxt id) = set ∨ memBit mem id = true ∨ lineHart vm vcntxt ≠ cpu)

theorem vplicSetEnbl_all (hid : id < plicMaxInterrupts) {set : Bool} :
    (vplicSetEnbl vm cpu vcntxt id set s).All (Access.InArray vm.plat) ↔
      EnblBitSafe vm cpu vcntxt id set s.mem := by
  have hhw : id ≠ enblAt vcntxt id := by
    simp only [enblAt, plicMaxInterrupts]
    omega
  simp only [vplicSetEnbl, if_pos (IdLe.of_lt hid), Logged.all_bind, vplicGetEnbl_all hid,
    EnblBitSafe]
  refine and_congr_right fun hnum => ?_
  rw [Logged.all_ite]
  simp only [Logged.all_bind, Logged.all_touch, Access.InArray, hid, hnum, vplicGetHw_all hid,
    true_and, Logged.all_ite, Logged.all_pure, implies_true, and_true, vplicUpdateHartLine_all,
    Logged.val_touch]
  simp only [vplicGetEnbl, vplicGetHw, if_pos (IdLe.of_lt hid), Logged.val_touch,
    memBit_memWriteBit, if_neg hhw]
  grind

theorem vplicSetEnbl_memBit {set : Bool} {k : Nat} (hk : k ≠ enblAt vcntxt id) :
    memBit (vplicSetEnbl vm cpu vcntxt id set s).val.mem k = memBit s.mem k := by
  simp only [vplicSetEnbl, Logged.val_ite, Logged.val_bind, Logged.val_pure, Logged.val_touch]
  split
  · split
    · split <;> simp [memBit_memWriteBit, hk]
    · rfl
  · rfl

theorem vplicSetEnblWord_all {firstInt : Nat} (hfirst : firstInt + 32 ≤ plicMaxInterrupts)
    {val : Word} :
    (vplicSetEnblWord vm cpu vcntxt firstInt val s).All (Access.InArray vm.plat) ↔
      ∀ i < 32, EnblBitSafe vm cpu vcntxt (firstInt + i) (val.getLsbD i) s.mem := by
  unfold vplicSetEnblWord
  simp only [← List.mem_range]
  -- The bits still to be stored are as they were.
  let I (l : List Nat) (t : VplicState) : Prop := l.Nodup ∧ ∀ i ∈ l, i < 32 ∧
    memBit t.mem (enblAt vcntxt (firstInt + i)) = memBit s.mem (enblAt vcntxt (firstInt + i)) ∧
    memBit t.mem (firstInt + i) = memBit s.mem (firstInt + i)
  refine Logged.all_foldlM (I := I) (fun t b l ht => ⟨ht.1.of_cons, fun i hi => ?_⟩)
    (fun t b l ht => ?_) ⟨List.nodup_range, fun i hi => ⟨List.mem_range.mp hi, rfl, rfl⟩⟩
  · obtain ⟨hlt, henbl, hhw⟩ := ht.2 i (List.mem_cons_of_mem b hi)
    have hne : i ≠ b := fun h => (List.nodup_cons.mp ht.1).1 (h ▸ hi)
    simp only [plicMaxInterrupts] at hfirst
    rw [vplicSetEnbl_memBit (by simp only [enblAt]; omega),
      vplicSetEnbl_memBit (by simp only [enblAt, plicMaxInterrupts]; omega)]
    exact ⟨hlt, henbl, hhw⟩
  · obtain ⟨hlt, henbl, hhw⟩ := ht.2 b List.mem_cons_self
    rw [vplicSetEnbl_all (by omega), EnblBitSafe, EnblBitSafe, henbl, hhw]

theorem vplicEnblWord_all {firstInt : Nat} (hfirst : firstInt + 32 ≤ plicMaxInterrupts) :
    (vplicEnblWord mem vcntxt firstInt).All (Access.InArray plat) ↔
      vcntxt < plat.cntxtNum := by
  unfold vplicEnblWord
  rw [Logged.all_foldlM (I := fun l _ => ∀ i ∈ l, i < 32) (Q := fun _ => vcntxt < plat.cntxtNum)
    (fun _ b l h i hi => h i (List.mem_cons_of_mem b hi)) (fun _ b l h => ?_)
    (fun i hi => List.mem_range.mp hi)]
  · exact ⟨fun h => h 0 (by decide), fun h _ _ => h⟩
  · have hb := h b List.mem_cons_self
    simp [vplicGetEnbl_all (show firstInt + b < plicMaxInterrupts by omega)]

/-- Of the 1024 words of the pending registers, the loads of one reach beyond the array: those of
the first word after it. -/
theorem vplicPendWord_all {reg : Nat} (hreg : reg < 1024) :
    (vplicPendWord mem (reg * 32)).All (Access.InArray plat) ↔ reg ≠ 32 := by
  unfold vplicPendWord
  rw [Logged.all_foldlM (I := fun _ _ => True)
    (Q := fun i => IdLe (reg * 32 + i) → reg * 32 + i < plicMaxInterrupts)
    (fun _ _ _ _ => trivial) (fun _ b l _ => ?_) trivial]
  · simp only [List.mem_range, IdLe, plicMaxInterrupts]
    constructor
    · intro h heq
      have := h 0 (by decide)
      omega
    · omega
  · simp [vplicGetPend, Logged.all_ite, Access.InArray]

/-- An injection that updates no line of the hart that makes it. -/
def InjectSafe (vm : VplicVm) (cpu vcpuId id : Nat) (mem : VplicMem) : Prop :=
  0 < id → id ≤ plicMaxInterrupts → id < plicMaxInterrupts ∧
    (memBit mem (pendAt id) = true ∨
      if memBit mem id = true then lineHart vm (vcpuId * 2 + 1) ≠ cpu
      else ∀ i < vm.cntxtNum, (plicPlatIdToCntxt vm.plat (some i)).mode = .s →
        memBit mem (enblAt i id) = true → mem (thresholdAt vm.plat i) < mem (prioAt id) →
          lineHart vm i ≠ cpu)

theorem vplicInjectBody_mem : (vplicInjectBody vm cpu id s vcntxt).val.mem = s.mem := by
  simp only [vplicInjectBody, Logged.val_ite, Logged.val_bind, Logged.val_pure]
  split
  · rfl
  · split
    · split <;> simp
    · rfl

theorem vplicInjectBody_all (hid : id < plicMaxInterrupts) :
    (vplicInjectBody vm cpu id s vcntxt).All (Access.InArray vm.plat) ↔
      ((plicPlatIdToCntxt vm.plat (some vcntxt)).mode = .s →
        memBit s.mem (enblAt vcntxt id) = true →
          s.mem (thresholdAt vm.plat vcntxt) < s.mem (prioAt id) → lineHart vm vcntxt ≠ cpu) := by
  unfold vplicInjectBody
  split
  · next hmode => simp [hmode]
  · next hmode =>
    have hs := not_not.mp hmode
    have hnum := (plicPlatIdToCntxt_mode_s hs).1
    simp only [Logged.all_bind, vplicGetEnbl_all hid, hnum, true_and, hs, forall_true_left]
    rw [Logged.all_ite]
    simp only [Logged.all_bind, vplicGetPrio_all hid, vplicGetTheshold, Logged.all_touch,
      Access.InArray, hnum, true_and, Logged.all_ite, vplicUpdateHartLine_all, Logged.all_pure,
      implies_true, and_true]
    simp [vplicGetEnbl, vplicGetPrio, IdLe.of_lt hid]

theorem vplicInject_all {vcpuId : Nat} :
    (vplicInject vm cpu vcpuId id s).All (Access.InArray vm.plat) ↔
      InjectSafe vm cpu vcpuId id s.mem := by
  unfold vplicInject InjectSafe
  split
  · next hrange =>
    simp only [hrange.1, hrange.2, forall_true_left]
    by_cases hid : id < plicMaxInterrupts
    · have hhw : id ≠ pendAt id := by simp only [pendAt, plicMaxInterrupts]; omega
      have hmem (j : Nat) (hj : 64 ≤ j) : pendAt id / 32 ≠ j := by
        simp only [pendAt, plicMaxInterrupts] at hid ⊢
        omega
      have hloop : ∀ s' : VplicState, s'.mem = memWriteBit s.mem (pendAt id) true →
          (((List.range vm.cntxtNum).foldlM (vplicInjectBody vm cpu id) s').All
            (Access.InArray vm.plat) ↔
          ∀ i < vm.cntxtNum, (plicPlatIdToCntxt vm.plat (some i)).mode = .s →
            memBit s.mem (enblAt i id) = true →
              s.mem (thresholdAt vm.plat i) < s.mem (prioAt id) → lineHart vm i ≠ cpu) := by
        intro s' hs'
        simp only [← List.mem_range]
        refine Logged.all_foldlM (I := fun _ t => t.mem = s'.mem) (fun t i _ ht => ?_)
          (fun t i _ ht => ?_) rfl
        · rw [vplicInjectBody_mem, ht]
        · have henbl : enblAt i id ≠ pendAt id := by simp only [enblAt, pendAt]; omega
          rw [vplicInjectBody_all hid, ht, hs', memBit_memWriteBit, if_neg henbl,
            memWriteBit_word (hmem _ (by simp only [thresholdAt]; omega)),
            memWriteBit_word (hmem _ (by simp only [prioAt]; omega))]
      simp only [Logged.all_bind, vplicGetPend_all hid, hid, true_and]
      rw [Logged.all_ite]
      simp only [Logged.all_bind, Logged.all_touch, Access.InArray, hid, vplicGetHw_all hid,
        true_and, Logged.all_ite, Logged.all_pure, implies_true, vplicUpdateHartLine_all, hloop,
        Logged.val_touch]
      simp only [vplicGetPend, vplicGetHw, if_pos (IdLe.of_lt hid), Logged.val_touch,
        memBit_memWriteBit, if_neg hhw]
      grind
    · simp only [hid, false_and, iff_false, Logged.all_bind, not_and]
      intro hpend
      rw [vplicGetPend, if_pos (idLe_of_le hrange.2), Logged.all_touch] at hpend
      exact absurd hpend hid
  · next hrange => simp; omega

theorem vplicComplete_all :
    (vplicComplete cpu vcntxt id s).All (Access.InArray plat) ↔ id < plicMaxInterrupts := by
  simp only [vplicComplete, Logged.all_bind, Logged.all_touch, Logged.all_pure, and_true,
    Access.InArray, and_iff_right_iff_imp]
  exact fun hid => vplicGetHw_all hid

theorem vplicClaim_not_all : ¬ (vplicClaim vm vcntxt s).All (Access.InArray vm.plat) := by
  intro h
  rw [vplicClaim, Logged.all_bind] at h
  exact vplicNextPending_not_all h.1

/-! The decoded numbers are within their masks. -/

theorem globalAccessReg_lt (acc : EmulAccess) : globalAccessReg vm acc < 1024 := by
  have h : ((acc.addr - vm.plat.plicBase) &&& 0xfff).toNat ≤ 0xfff := by
    rw [BitVec.toNat_and]
    exact Nat.and_le_right
  unfold globalAccessReg
  omega

theorem enblAccessFirst_le (acc : EmulAccess) :
    enblAccessFirst vm acc + 32 ≤ plicMaxInterrupts := by
  have h : ((acc.addr - vm.plat.plicBase) &&& 0x7f).toNat ≤ 0x7f := by
    rw [BitVec.toNat_and]
    exact Nat.and_le_right
  unfold enblAccessFirst plicMaxInterrupts
  omega

theorem sub_lt_of_inEmulMem {vaBase addr : Word} {size : Nat} (h : inEmulMem vaBase size addr) :
    (addr - vaBase).toNat < size := by
  simp only [inEmulMem, Bool.and_eq_true, decide_eq_true_eq] at h
  obtain ⟨hle, hlt⟩ := h
  bv_omega

variable {acc : EmulAccess} {x : Logged Access VplicResult}

theorem hartAccessCntxt_lt
    (h : inEmulMem (vm.plat.plicBase + 0x200000) (plicHartSize vm.plat) acc.addr) :
    hartAccessCntxt vm acc < vm.plat.cntxtNum := by
  have hoff := sub_lt_of_inEmulMem h
  unfold plicHartSize at hoff
  unfold hartAccessCntxt
  rw [BitVec.toNat_and, BitVec.toNat_ushiftRight, Nat.shiftRight_eq_div_pow, BitVec.sub_sub]
  exact lt_of_le_of_lt Nat.and_le_left (by omega)

def PrioAccessSafe (vm : VplicVm) (cpu : Nat) (acc : EmulAccess) (mem : VplicMem) : Prop :=
  acc.write = true → PrioStoreSafe vm cpu (globalAccessReg vm acc) (acc.regVal.setWidth 32) mem

theorem vplicEmulPrioAccess_all :
    (vplicEmulPrioAccess vm cpu acc s).All (Access.InArray vm.plat) ↔
      PrioAccessSafe vm cpu acc s.mem := by
  have hreg : globalAccessReg vm acc < plicMaxInterrupts := globalAccessReg_lt acc
  simp only [vplicEmulPrioAccess, Logged.all_ite, Logged.all_bind, vplicSetPrio_all hreg,
    vplicGetPrio_all hreg, Logged.all_pure, and_true, implies_true, PrioAccessSafe]

def PendAccessSafe (vm : VplicVm) (acc : EmulAccess) : Prop :=
  acc.write = true ∨ globalAccessReg vm acc ≠ 32

theorem vplicEmulPendAccess_all :
    (vplicEmulPendAccess vm acc s).All (Access.InArray vm.plat) ↔ PendAccessSafe vm acc := by
  simp only [vplicEmulPendAccess, Logged.all_ite, Logged.all_bind,
    vplicPendWord_all (globalAccessReg_lt acc), Logged.all_pure, and_true, implies_true, true_and]
  exact or_iff_not_imp_left.symm

def EnblAccessSafe (vm : VplicVm) (cpu : Nat) (acc : EmulAccess) (mem : VplicMem) : Prop :=
  vplicVcntxtValid vm (enblAccessCntxt vm acc) = true →
    if acc.write = true then ∀ i < 32, EnblBitSafe vm cpu (enblAccessCntxt vm acc)
      (enblAccessFirst vm acc + i) (acc.regVal.getLsbD i) mem
    else enblAccessCntxt vm acc < vm.plat.cntxtNum

theorem vplicEmulEnblAccess_all :
    (vplicEmulEnblAccess vm cpu acc s).All (Access.InArray vm.plat) ↔
      EnblAccessSafe vm cpu acc s.mem := by
  simp only [vplicEmulEnblAccess, Logged.all_ite, Logged.all_bind, Logged.all_pure, and_true,
    implies_true, vplicEnblWord_all (enblAccessFirst_le acc),
    vplicSetEnblWord_all (enblAccessFirst_le acc), EnblAccessSafe]
  grind

/-- What an access to the enable registers leaves: the bits of a store to a valid context, and
nothing otherwise. -/
theorem vplicEmulEnblAccess_cases (vm : VplicVm) (cpu : Nat) (acc : EmulAccess)
    (s : VplicState) :
    (vplicEmulEnblAccess vm cpu acc s).val.line = none ∧
      ((vplicEmulEnblAccess vm cpu acc s).val.state = s ∨
        acc.write = true ∧ vplicVcntxtValid vm (enblAccessCntxt vm acc) = true ∧
          (vplicEmulEnblAccess vm cpu acc s).val.state =
            (vplicSetEnblWord vm cpu (enblAccessCntxt vm acc) (enblAccessFirst vm acc)
              acc.regVal s).val) := by
  simp only [vplicEmulEnblAccess, Logged.val_ite, Logged.val_bind, Logged.val_pure]
  -- the store's result stays a variable, so that no step below evaluates its loop
  generalize (vplicSetEnblWord vm cpu (enblAccessCntxt vm acc) (enblAccessFirst vm acc)
    acc.regVal s).val = t
  split
  · next hwrite =>
    split
    · next hvalid => exact ⟨rfl, .inr ⟨hwrite, hvalid, rfl⟩⟩
    · exact ⟨rfl, .inl rfl⟩
  · split <;> exact ⟨rfl, .inl rfl⟩

def GlobalAccessSafe (vm : VplicVm) (cpu : Nat) (acc : EmulAccess) (mem : VplicMem) : Prop :=
  match ((acc.addr >>> 12) &&& 3).toNat with
  | 0 => PrioAccessSafe vm cpu acc mem
  | 1 => PendAccessSafe vm acc
  | _ => EnblAccessSafe vm cpu acc mem

theorem vplicGlobalEmulHandler_all (h : vplicGlobalEmulHandler vm cpu acc s = some x) :
    x.All (Access.InArray vm.plat) ↔ GlobalAccessSafe vm cpu acc s.mem := by
  unfold vplicGlobalEmulHandler at h
  unfold GlobalAccessSafe
  generalize ((acc.addr >>> 12) &&& 3).toNat = page at h ⊢
  split at h
  · cases h
  · match page, h with
    | 0, rfl => exact vplicEmulPrioAccess_all
    | 1, rfl => exact vplicEmulPendAccess_all
    | _ + 2, rfl => exact vplicEmulEnblAccess_all

/-- The id that is completed is one of the array; a claim never stays within the arrays. -/
def HartAccessSafe (vm : VplicVm) (acc : EmulAccess) : Prop :=
  vplicVcntxtValid vm (hartAccessCntxt vm acc) = true → (acc.addr &&& 0xf).toNat = 4 →
    acc.write = true ∧ intArg acc.regVal < plicMaxInterrupts

theorem vplicHartEmulHandler_all (hnum : hartAccessCntxt vm acc < vm.plat.cntxtNum)
    (h : vplicHartEmulHandler vm cpu acc s = some x) :
    x.All (Access.InArray vm.plat) ↔ HartAccessSafe vm acc := by
  unfold vplicHartEmulHandler at h
  unfold HartAccessSafe
  generalize (acc.addr &&& 0xf).toNat = reg at h ⊢
  dsimp only at h
  split at h
  · cases h
  · split at h
    · next hvalid =>
      cases h
      simp [hvalid]
    · next hvalid =>
      rw [Bool.not_eq_false] at hvalid
      simp only [hvalid, forall_true_left]
      split at h
      · split at h <;> cases h <;> simp [vplicSetThreshold, vplicGetTheshold, Access.InArray, hnum]
      · split at h <;> cases h
        · next hwrite => simp [hwrite, vplicComplete_all]
        · next hwrite => simp [hwrite, vplicClaim_not_all]
      · next hreg =>
        cases h
        simpa using fun heq => absurd heq hreg

/-- The steps that stay within the arrays, as a condition on the action and the state it is taken
in. -/
def VplicActionSafe (vm : VplicVm) (s : VplicSystem) : VplicAction → Prop
  | .access cpu acc =>
    if inEmulMem vm.plat.plicBase (plicGlobalSize vm.plat) acc.addr = true then
      GlobalAccessSafe vm cpu acc s.state.mem
    else HartAccessSafe vm acc
  | .inject cpu vcpuId id => InjectSafe vm cpu vcpuId id s.state.mem
  | .updateLine cpu => ∀ vcntxt ∈ s.line cpu, lineHart vm vcntxt ≠ cpu
  | .handleMsg cpu => ∀ vcntxt ∈ (s.state.msgs cpu).head?, lineHart vm vcntxt ≠ cpu
  | .reset _ => True

/-- Every array element that the action uses exists. -/
def StaysInArrays (vm : VplicVm) (s : VplicSystem) (a : VplicAction) : Prop :=
  ∀ x ∈ vplicExec vm s a, x.All (Access.InArray vm.plat)

theorem vplicEmul_all (h : vplicEmul vm cpu acc s = some x) : x.All (Access.InArray vm.plat) ↔
      if inEmulMem vm.plat.plicBase (plicGlobalSize vm.plat) acc.addr = true then
        GlobalAccessSafe vm cpu acc s.mem
      else HartAccessSafe vm acc := by
  unfold vplicEmul at h
  split at h
  · next hglobal =>
    rw [if_pos hglobal]
    exact vplicGlobalEmulHandler_all h
  · next hglobal =>
    rw [if_neg hglobal]
    split at h
    · next hhart => exact vplicHartEmulHandler_all (hartAccessCntxt_lt hhart) h
    · cases h

theorem vplicExec_all {sys : VplicSystem} {a : VplicAction} {x : Logged Access VplicSystem}
    (h : vplicExec vm sys a = some x) :
    x.All (Access.InArray vm.plat) ↔ VplicActionSafe vm sys a := by
  cases a with
  | access cpu acc =>
    simp only [vplicExec, Option.ite_none_right_eq_some, Option.map_eq_some_iff] at h
    obtain ⟨-, y, hy, rfl⟩ := h
    simpa [VplicActionSafe] using vplicEmul_all hy
  | inject cpu vcpuId id =>
    simp only [vplicExec, Option.ite_none_right_eq_some, Option.some.injEq] at h
    obtain ⟨-, rfl⟩ := h
    simpa [VplicActionSafe] using vplicInject_all
  | updateLine cpu =>
    simp only [vplicExec] at h
    split at h
    · next hline =>
      cases h
      simp [VplicActionSafe, hline, vplicUpdateHartLine_all]
    · cases h
  | handleMsg cpu =>
    simp only [vplicExec, Option.ite_none_right_eq_some] at h
    obtain ⟨-, h⟩ := h
    split at h
    · next hmsgs =>
      cases h
      simp [VplicActionSafe, hmsgs, vplicUpdateHartLine_all]
    · cases h
  | reset cpu =>
    simp only [vplicExec, Option.ite_none_right_eq_some, Option.some.injEq] at h
    obtain ⟨-, rfl⟩ := h
    simp [VplicActionSafe]

end Bounds

/-- In every run, from any state, the emulation stays within the arrays of `vplic_t` exactly as
long as every step is one of those that the condition describes. -/
theorem vplic_staysInArrays_iff {vm : VplicVm} {s t : VplicSystem} {as : List VplicAction}
    (h : run (vplicStep vm) s as = some t) :
    Along (vplicStep vm) (StaysInArrays vm) s as ↔
      Along (vplicStep vm) (VplicActionSafe vm) s as := by
  refine along_congr (fun s a t hstep => ?_) h
  obtain ⟨x, hx, -⟩ := Option.map_eq_some_iff.mp hstep
  constructor
  · intro hstays
    exact (vplicExec_all hx).mp (hstays x hx)
  · intro hsafe y hy
    exact (vplicExec_all hy).mpr hsafe

/-- A platform of four harts, as `qemu-riscv64-virt`. -/
def virtPlat : PlicPlat where
  cntxtNum := 8
  implInterrupts := 127
  plicBase := 0xc000000

def guestStore (cpu : Nat) (addr val : Word) : VplicAction :=
  .access cpu { addr := addr, width := 4, write := true, regVal := val }

/-- The guest of a VM with one cpu stores the id 5000 to the complete register of its supervisor
context, and a bit beyond the active bitmap is cleared. -/
theorem vplicComplete_leaves_arrays :
    let vm : VplicVm := { plat := virtPlat, cpus := 1, cntxtNum := 2 }
    let as := [guestStore 0 0xc201004 5000]
    (run (vplicStep vm) (vplicInit []) as).isSome ∧
      ¬ Along (vplicStep vm) (StaysInArrays vm) (vplicInit []) as := by
  refine ⟨by decide +kernel, fun h => ?_⟩
  have hlog := h.1 _ rfl (.act 5000) (by decide +kernel)
  exact absurd hlog (show ¬ 5000 < plicMaxInterrupts by decide)

/-! The condition can be evaluated. -/

instance (vm : VplicVm) (cpu : Nat) (acc : EmulAccess) (mem : VplicMem) :
    Decidable (PrioAccessSafe vm cpu acc mem) := by
  unfold PrioAccessSafe PrioStoreSafe
  infer_instance

instance (vm : VplicVm) (acc : EmulAccess) : Decidable (PendAccessSafe vm acc) :=
  inferInstanceAs (Decidable (_ ∨ _))

instance (vm : VplicVm) (cpu vcntxt id : Nat) (set : Bool) (mem : VplicMem) :
    Decidable (EnblBitSafe vm cpu vcntxt id set mem) :=
  inferInstanceAs (Decidable (_ ∧ (_ ∨ _ ∨ _)))

instance (vm : VplicVm) (cpu : Nat) (acc : EmulAccess) (mem : VplicMem) :
    Decidable (EnblAccessSafe vm cpu acc mem) := by
  unfold EnblAccessSafe
  infer_instance

instance (vm : VplicVm) (cpu : Nat) (acc : EmulAccess) (mem : VplicMem) :
    Decidable (GlobalAccessSafe vm cpu acc mem) := by
  unfold GlobalAccessSafe
  split <;> infer_instance

instance (vm : VplicVm) (acc : EmulAccess) : Decidable (HartAccessSafe vm acc) :=
  inferInstanceAs (Decidable (_ → _ → _ ∧ _))

instance (vm : VplicVm) (cpu vcpuId id : Nat) (mem : VplicMem) :
    Decidable (InjectSafe vm cpu vcpuId id mem) := by
  unfold InjectSafe
  infer_instance

instance (vm : VplicVm) (s : VplicSystem) (a : VplicAction) :
    Decidable (VplicActionSafe vm s a) := by
  unfold VplicActionSafe
  split <;> infer_instance

/-- Hart 0 of a VM with two harts sets up and completes interrupt 5 for hart 1. -/
theorem vplic_staysInArrays_remote :
    let vm : VplicVm := { plat := virtPlat, cpus := 3, cntxtNum := 4 }
    let as := [guestStore 0 0xc000014 7, guestStore 0 0xc002180 0x20, guestStore 0 0xc203000 2,
      .updateLine 0, .inject 0 0 5, guestStore 0 0xc203004 5, .updateLine 0]
    (run (vplicStep vm) (vplicInit [9]) as).isSome ∧
      Along (vplicStep vm) (StaysInArrays vm) (vplicInit [9]) as := by
  intro vm as
  obtain ⟨t, ht⟩ : ∃ t, run (vplicStep vm) (vplicInit [9]) as = some t :=
    Option.isSome_iff_exists.mp (by decide +kernel)
  refine ⟨ht ▸ rfl, (vplic_staysInArrays_iff ht).mpr (by decide +kernel)⟩

end Bao
