import Mathlib.Algebra.Order.BigOperators.Group.Finset
import Mathlib.Data.Nat.Bitwise
import Bao.Foundation.Run
import Bao.Lib.Bitmap
import Bao.Core.Config

/-!
# Assignment of cpus to VMs in `vmm_init`

Every cpu walks the list of VMs twice. In the first loop it takes a place in the first VM that names
it in its affinity mask and has one free, in the second loop a place in any VM. The cpus race: the
only atomic pieces are the critical sections on one entry of `vm_assign`, and a barrier separates
the two loops.

The state has the shared table and the local variables of each cpu; an action is one cpu taking its
next step. The invariant relates the table to the cpus that joined each VM, and the last theorem
reads the result off the invariant when every cpu is done.
-/

namespace Bao

open Foundation

/-- `struct vm_assignment`; the lock is the atomicity of a step. -/
structure VmAssignment where
  master : Bool := false
  ncpus : Nat := 0
  cpus : Nat := 0
  deriving DecidableEq, Repr

/-- Where a cpu is in `vmm_init`; the index is the loop variable. -/
inductive AssignPc where
  | affinity (i : Nat)
  | barrier
  | remaining (i : Nat)
  | done
  deriving DecidableEq, Repr

/-- The first loop is behind the cpu. -/
def AssignPc.pastAffinity : AssignPc → Bool
  | .affinity _ => false
  | _ => true

structure CpuLocal where
  pc : AssignPc := .affinity 0
  master : Bool := false
  assigned : Bool := false
  vmId : Nat := 0
  deriving DecidableEq, Repr

/-- The critical section of the first loop. The first comer skips the capacity test. -/
def assignByAffinity (cfg : VmConfig) (i cpu : Nat) (a : VmAssignment) (l : CpuLocal) :
    VmAssignment × CpuLocal :=
  if !a.master then
    ({ a with master := true, ncpus := a.ncpus + 1, cpus := a.cpus ||| 1 <<< cpu },
      { l with master := true, assigned := true, vmId := i })
  else if a.ncpus < cfg.cpuNum then
    ({ a with ncpus := a.ncpus + 1, cpus := a.cpus ||| 1 <<< cpu },
      { l with assigned := true, vmId := i })
  else (a, l)

/-- The critical section of the second loop. -/
def assignRemaining (cfg : VmConfig) (i cpu : Nat) (a : VmAssignment) (l : CpuLocal) :
    VmAssignment × CpuLocal :=
  if a.ncpus < cfg.cpuNum then
    if !a.master then
      ({ a with master := true, ncpus := a.ncpus + 1, cpus := a.cpus ||| 1 <<< cpu },
        { l with master := true, assigned := true, vmId := i })
    else
      ({ a with ncpus := a.ncpus + 1, cpus := a.cpus ||| 1 <<< cpu },
        { l with assigned := true, vmId := i })
  else (a, l)

structure AssignState where
  vmAssign : Nat → VmAssignment
  cpu : Nat → CpuLocal

namespace AssignState

def initial : AssignState := ⟨fun _ => {}, fun _ => {}⟩

/-- Store the outcome of a critical section of `cpu` on entry `i` and move the cpu on. -/
def put (s : AssignState) (cpu i : Nat) (r : VmAssignment × CpuLocal) (pc : AssignPc) :
    AssignState where
  vmAssign := Function.update s.vmAssign i r.1
  cpu := Function.update s.cpu cpu { r.2 with pc := pc }

def goto (s : AssignState) (cpu : Nat) (pc : AssignPc) : AssignState :=
  { s with cpu := Function.update s.cpu cpu { s.cpu cpu with pc := pc } }

/-- One step of `cpu`: a loop test with the critical section it leads to, or the barrier. -/
def step (vmlist : List VmConfig) (cpus : Finset Nat) (s : AssignState) (cpu : Nat) :
    Option AssignState :=
  if cpu ∉ cpus then none else
  let l := s.cpu cpu
  match l.pc with
  | .affinity i =>
    match vmlist[i]?, l.assigned with
    | some cfg, false =>
      if cfg.cpuAffinity.testBit cpu then
        some (s.put cpu i (assignByAffinity cfg i cpu (s.vmAssign i) l) (.affinity (i + 1)))
      else some (s.goto cpu (.affinity (i + 1)))
    | _, _ => some (s.goto cpu .barrier)
  | .barrier =>
    if ∀ c ∈ cpus, (s.cpu c).pc.pastAffinity then
      some (s.goto cpu (.remaining 0))
    else none
  | .remaining i =>
    match vmlist[i]?, l.assigned with
    | some cfg, false =>
      some (s.put cpu i (assignRemaining cfg i cpu (s.vmAssign i) l) (.remaining (i + 1)))
    | _, _ => some (s.goto cpu .done)
  | .done => none

/-! ## What joining a VM does -/

/-- The common outcome of the four branches that give `cpu` a place in VM `i`. -/
def join (i cpu : Nat) (a : VmAssignment) (l : CpuLocal) : VmAssignment × CpuLocal :=
  ({ master := true, ncpus := a.ncpus + 1, cpus := a.cpus ||| 1 <<< cpu },
    { l with master := l.master || !a.master, assigned := true, vmId := i })

theorem assignByAffinity_eq (cfg : VmConfig) (i cpu : Nat) (a : VmAssignment) (l : CpuLocal) :
    assignByAffinity cfg i cpu a l =
      if a.master = false ∨ a.ncpus < cfg.cpuNum then join i cpu a l else (a, l) := by
  cases hm : a.master <;> by_cases hc : a.ncpus < cfg.cpuNum <;>
    simp [assignByAffinity, join, hm, hc]

theorem assignRemaining_eq (cfg : VmConfig) (i cpu : Nat) (a : VmAssignment) (l : CpuLocal) :
    assignRemaining cfg i cpu a l =
      if a.ncpus < cfg.cpuNum then join i cpu a l else (a, l) := by
  cases hm : a.master <;> by_cases hc : a.ncpus < cfg.cpuNum <;>
    simp [assignRemaining, join, hm, hc]

/-- The cpus that hold a place in VM `i`. -/
def members (cpus : Finset Nat) (s : AssignState) (i : Nat) : Finset Nat :=
  cpus.filter fun c => (s.cpu c).assigned = true ∧ (s.cpu c).vmId = i

/-- The members of VM `i` whose local `master` is set. -/
def masters (cpus : Finset Nat) (s : AssignState) (i : Nat) : Finset Nat :=
  (s.members cpus i).filter fun c => (s.cpu c).master = true

def Full (vmlist : List VmConfig) (s : AssignState) (i : Nat) : Prop :=
  ∀ cfg, vmlist[i]? = some cfg → cfg.cpuNum ≤ (s.vmAssign i).ncpus

/-- The table agrees with the members of each VM, and a cpu without a place has seen every VM of the
second loop it has passed full. -/
structure Inv (vmlist : List VmConfig) (cpus : Finset Nat) (s : AssignState) : Prop where
  mask : ∀ i c, (s.vmAssign i).cpus.testBit c = true ↔ c ∈ s.members cpus i
  ncpus : ∀ i, (s.vmAssign i).ncpus = (s.members cpus i).card
  cap : ∀ i cfg, vmlist[i]? = some cfg → (s.vmAssign i).ncpus ≤ cfg.cpuNum
  master : ∀ i, (s.masters cpus i).card = if (s.vmAssign i).master then 1 else 0
  empty : ∀ i, (s.vmAssign i).master = false → s.members cpus i = ∅
  vmId : ∀ c ∈ cpus, (s.cpu c).assigned = true → (s.cpu c).vmId < vmlist.length
  unassigned : ∀ c ∈ cpus, (s.cpu c).assigned = false → (s.cpu c).master = false
  visited : ∀ c ∈ cpus, (s.cpu c).assigned = false → ∀ i, (s.cpu c).pc = .remaining i →
    ∀ j < i, s.Full vmlist j
  done : ∀ c ∈ cpus, (s.cpu c).assigned = false → (s.cpu c).pc = .done →
    ∀ j < vmlist.length, s.Full vmlist j

variable {vmlist : List VmConfig} {cpus : Finset Nat} {s : AssignState}

theorem Inv.initial : Inv vmlist cpus initial where
  mask i c := by simp [AssignState.initial, members]
  ncpus i := by simp [AssignState.initial, members]
  cap i cfg _ := Nat.zero_le _
  master i := by simp [AssignState.initial, masters, members]
  empty i _ := by simp [AssignState.initial, members]
  vmId c _ h := by simp [AssignState.initial] at h
  unassigned c _ _ := rfl
  visited c _ _ i h := by simp [AssignState.initial] at h
  done c _ _ h := by simp [AssignState.initial] at h

variable {cpu i : Nat} {cfg : VmConfig}

/-- A move of the program counter keeps the invariant when the new place of a cpu without a VM has
only full VMs behind it. -/
theorem Inv.goto (h : s.Inv vmlist cpus) {pc : AssignPc}
    (hv : (s.cpu cpu).assigned = false → ∀ i, pc = .remaining i → ∀ j < i, s.Full vmlist j)
    (hd : (s.cpu cpu).assigned = false → pc = .done → ∀ j < vmlist.length, s.Full vmlist j) :
    (s.goto cpu pc).Inv vmlist cpus := by
  have hloc : ∀ c, ((s.goto cpu pc).cpu c).assigned = (s.cpu c).assigned ∧
      ((s.goto cpu pc).cpu c).vmId = (s.cpu c).vmId ∧
      ((s.goto cpu pc).cpu c).master = (s.cpu c).master := by
    intro c
    by_cases hc : c = cpu
    · subst hc; simp [AssignState.goto]
    · simp [AssignState.goto, hc]
  have hmem : ∀ i, (s.goto cpu pc).members cpus i = s.members cpus i := by
    intro i
    simp only [members, (hloc _).1, (hloc _).2.1]
  have hmas : ∀ i, (s.goto cpu pc).masters cpus i = s.masters cpus i := by
    intro i
    simp only [masters, hmem, (hloc _).2.2]
  refine ⟨?_, ?_, h.cap, ?_, ?_, ?_, ?_, ?_, ?_⟩
  · intro i c; rw [hmem]; exact h.mask i c
  · intro i; rw [hmem]; exact h.ncpus i
  · intro i; rw [hmas]; exact h.master i
  · intro i hm; rw [hmem]; exact h.empty i hm
  · intro c hc ha; rw [(hloc c).2.1]; exact h.vmId c hc ((hloc c).1 ▸ ha)
  · intro c hc ha; rw [(hloc c).2.2]; exact h.unassigned c hc ((hloc c).1 ▸ ha)
  · intro c hc ha i hp
    rw [(hloc c).1] at ha
    by_cases hcc : c = cpu
    · subst hcc; exact hv ha i (by simpa [AssignState.goto] using hp)
    · exact h.visited c hc ha i (by simpa [AssignState.goto, hcc] using hp)
  · intro c hc ha hp
    rw [(hloc c).1] at ha
    by_cases hcc : c = cpu
    · subst hcc; exact hd ha (by simpa [AssignState.goto] using hp)
    · exact h.done c hc ha (by simpa [AssignState.goto, hcc] using hp)

section Join

variable {cpu i j : Nat} {pc : AssignPc} {r : VmAssignment × CpuLocal}

theorem put_cpu_self : (s.put cpu i r pc).cpu cpu = { r.2 with pc := pc } :=
  Function.update_self ..

theorem put_vmAssign_self : (s.put cpu i r pc).vmAssign i = r.1 :=
  Function.update_self ..

theorem put_cpu_ne {c : Nat} (hc : c ≠ cpu) : (s.put cpu i r pc).cpu c = s.cpu c :=
  Function.update_of_ne hc ..

theorem put_vmAssign_ne (hj : j ≠ i) : (s.put cpu i r pc).vmAssign j = s.vmAssign j :=
  Function.update_of_ne hj ..

theorem join_cpu_of_unassigned {c : Nat}
    (h : ((s.put cpu i (join i cpu (s.vmAssign i) (s.cpu cpu)) pc).cpu c).assigned = false) :
    (s.put cpu i (join i cpu (s.vmAssign i) (s.cpu cpu)) pc).cpu c = s.cpu c := by
  by_cases hc : c = cpu
  · rw [hc, put_cpu_self] at h
    simp [join] at h
  · exact put_cpu_ne hc

theorem notMem_members (hfree : (s.cpu cpu).assigned = false) (j : Nat) :
    cpu ∉ s.members cpus j := by
  simp [members, hfree]

theorem members_join_self (hcpu : cpu ∈ cpus) :
    (s.put cpu i (join i cpu (s.vmAssign i) (s.cpu cpu)) pc).members cpus i =
      insert cpu (s.members cpus i) := by
  ext c
  by_cases hc : c = cpu
  · subst hc
    rw [members, Finset.mem_filter, put_cpu_self]
    simp [join, hcpu]
  · simp [members, put_cpu_ne hc, hc]

theorem members_join_ne (hfree : (s.cpu cpu).assigned = false) (hj : j ≠ i) :
    (s.put cpu i (join i cpu (s.vmAssign i) (s.cpu cpu)) pc).members cpus j =
      s.members cpus j := by
  ext c
  by_cases hc : c = cpu
  · subst hc
    rw [members, Finset.mem_filter, put_cpu_self]
    simp [join, notMem_members hfree, Ne.symm hj]
  · simp [members, put_cpu_ne hc]

/-- The newcomer is a master exactly when the VM had none. -/
theorem Inv.masters_join_self (h : s.Inv vmlist cpus) (hcpu : cpu ∈ cpus)
    (hfree : (s.cpu cpu).assigned = false) :
    (s.put cpu i (AssignState.join i cpu (s.vmAssign i) (s.cpu cpu)) pc).masters cpus i =
      if (s.vmAssign i).master then s.masters cpus i else {cpu} := by
  have hlocal := h.unassigned cpu hcpu hfree
  ext c
  simp only [masters, members_join_self hcpu, Finset.mem_filter, Finset.mem_insert]
  cases hm : (s.vmAssign i).master with
  | false =>
    by_cases hc : c = cpu
    · subst hc
      simp [put_cpu_self, AssignState.join, hm]
    · simp [hc, h.empty i hm]
  | true =>
    by_cases hc : c = cpu
    · subst hc
      simp [put_cpu_self, AssignState.join, hm, hlocal, notMem_members hfree]
    · simp [hc, put_cpu_ne hc]

theorem masters_join_ne (hfree : (s.cpu cpu).assigned = false) (hj : j ≠ i) :
    (s.put cpu i (join i cpu (s.vmAssign i) (s.cpu cpu)) pc).masters cpus j =
      s.masters cpus j := by
  simp only [masters, members_join_ne hfree hj]
  apply Finset.filter_congr
  intro c hc
  rw [put_cpu_ne fun hcc => notMem_members hfree j (hcc ▸ hc)]

theorem Full.join (h : s.Full vmlist j) :
    (s.put cpu i (AssignState.join i cpu (s.vmAssign i) (s.cpu cpu)) pc).Full vmlist j := by
  intro cfg hcfg
  have hfull := h cfg hcfg
  by_cases hj : j = i
  · subst hj
    rw [put_vmAssign_self]
    simp only [AssignState.join]
    omega
  · rw [put_vmAssign_ne hj]
    exact hfull

theorem Inv.join (h : s.Inv vmlist cpus) (hcpu : cpu ∈ cpus) (hi : vmlist[i]? = some cfg)
    (hfree : (s.cpu cpu).assigned = false) (hcap : (s.vmAssign i).ncpus < cfg.cpuNum) :
    (s.put cpu i (AssignState.join i cpu (s.vmAssign i) (s.cpu cpu)) pc).Inv vmlist cpus := by
  constructor
  case mask =>
    intro j c
    by_cases hj : j = i
    · subst hj
      have hbit : (1 <<< cpu).testBit c = decide (c = cpu) := by
        rw [Nat.one_shiftLeft, Nat.testBit_two_pow]
        exact decide_eq_decide.mpr eq_comm
      rw [members_join_self hcpu, put_vmAssign_self]
      simp only [AssignState.join, Nat.testBit_or, hbit, Bool.or_eq_true, decide_eq_true_eq,
        Finset.mem_insert, h.mask]
      exact or_comm
    · rw [members_join_ne hfree hj, put_vmAssign_ne hj]
      exact h.mask j c
  case ncpus =>
    intro j
    by_cases hj : j = i
    · subst hj
      rw [members_join_self hcpu, put_vmAssign_self,
        Finset.card_insert_of_notMem (notMem_members hfree j), ← h.ncpus j]
      rfl
    · rw [members_join_ne hfree hj, put_vmAssign_ne hj]
      exact h.ncpus j
  case cap =>
    intro j cfg' hcfg
    by_cases hj : j = i
    · subst hj
      obtain rfl : cfg' = cfg := Option.some.inj (hcfg.symm.trans hi)
      rw [put_vmAssign_self]
      exact hcap
    · rw [put_vmAssign_ne hj]
      exact h.cap j cfg' hcfg
  case master =>
    intro j
    by_cases hj : j = i
    · subst hj
      have hold := h.master j
      rw [h.masters_join_self hcpu hfree, put_vmAssign_self]
      cases hm : (s.vmAssign j).master
      · simp [AssignState.join]
      · simpa [AssignState.join, hm] using hold
    · rw [masters_join_ne hfree hj, put_vmAssign_ne hj]
      exact h.master j
  case empty =>
    intro j hm
    by_cases hj : j = i
    · subst hj
      rw [put_vmAssign_self] at hm
      simp [AssignState.join] at hm
    · rw [put_vmAssign_ne hj] at hm
      rw [members_join_ne hfree hj]
      exact h.empty j hm
  case vmId =>
    intro c hc ha
    by_cases hcc : c = cpu
    · subst hcc
      rw [put_cpu_self]
      exact (List.getElem?_eq_some_iff.mp hi).1
    · rw [put_cpu_ne hcc] at ha ⊢
      exact h.vmId c hc ha
  case unassigned =>
    intro c hc ha
    have hold := join_cpu_of_unassigned ha
    rw [hold] at ha ⊢
    exact h.unassigned c hc ha
  case visited =>
    intro c hc ha k hp j hj
    have hold := join_cpu_of_unassigned ha
    rw [hold] at ha hp
    exact (h.visited c hc ha k hp j hj).join
  case done =>
    intro c hc ha hp j hj
    have hold := join_cpu_of_unassigned ha
    rw [hold] at ha hp
    exact (h.done c hc ha hp j hj).join

end Join

theorem put_unchanged (s : AssignState) (cpu i : Nat) (pc : AssignPc) :
    s.put cpu i (s.vmAssign i, s.cpu cpu) pc = s.goto cpu pc := by
  simp [put, goto]

theorem Inv.assignByAffinity (h : s.Inv vmlist cpus) (hnum : 1 ≤ cfg.cpuNum) (hcpu : cpu ∈ cpus)
    (hi : vmlist[i]? = some cfg) (hfree : (s.cpu cpu).assigned = false) :
    (s.put cpu i (assignByAffinity cfg i cpu (s.vmAssign i) (s.cpu cpu))
      (.affinity (i + 1))).Inv vmlist cpus := by
  rw [assignByAffinity_eq]
  split
  · rename_i hcase
    refine h.join hcpu hi hfree ?_
    rcases hcase with hm | hc
    · -- Without a master the VM has no member, so the missing capacity test does no harm.
      have hzero := h.ncpus i
      rw [h.empty i hm] at hzero
      simp only [Finset.card_empty] at hzero
      omega
    · exact hc
  · rw [put_unchanged]
    exact h.goto (by simp) (by simp)

theorem Inv.assignRemaining (h : s.Inv vmlist cpus) (hcpu : cpu ∈ cpus) (hi : vmlist[i]? = some cfg)
    (hfree : (s.cpu cpu).assigned = false) (hpc : (s.cpu cpu).pc = .remaining i) :
    (s.put cpu i (assignRemaining cfg i cpu (s.vmAssign i) (s.cpu cpu))
      (.remaining (i + 1))).Inv vmlist cpus := by
  rw [assignRemaining_eq]
  split
  · rename_i hc
    exact h.join hcpu hi hfree hc
  · rename_i hc
    rw [put_unchanged]
    refine h.goto ?_ (by simp)
    intro _ k hk j hj
    cases hk
    rcases Nat.lt_succ_iff_lt_or_eq.mp hj with hlt | rfl
    · exact h.visited cpu hcpu hfree i hpc j hlt
    · intro cfg' hcfg
      have : cfg' = cfg := Option.some.inj (hcfg.symm.trans hi)
      subst this
      omega

theorem Inv.step (hnum : ∀ cfg ∈ vmlist, 1 ≤ cfg.cpuNum) (h : s.Inv vmlist cpus) {t : AssignState}
    (ht : s.step vmlist cpus cpu = some t) : t.Inv vmlist cpus := by
  unfold AssignState.step at ht
  split at ht
  · cases ht
  · rename_i hcpu
    rw [not_not] at hcpu
    cases hpc : (s.cpu cpu).pc with
    | affinity i =>
      simp only [hpc] at ht
      split at ht
      · rename_i cfg hi hfree
        split at ht
        · cases ht
          exact h.assignByAffinity (hnum cfg (List.mem_of_getElem? hi)) hcpu hi hfree
        · cases ht
          exact h.goto (by simp) (by simp)
      · cases ht
        exact h.goto (by simp) (by simp)
    | barrier =>
      simp only [hpc] at ht
      split at ht
      · cases ht
        refine h.goto ?_ (by simp)
        intro _ k hk j hj
        cases hk
        omega
      · cases ht
    | remaining i =>
      simp only [hpc] at ht
      split at ht
      · rename_i cfg hi hfree
        cases ht
        exact h.assignRemaining hcpu hi hfree hpc
      · rename_i hend
        cases ht
        refine h.goto (by simp) ?_
        intro hfree _ j hj
        -- The loop ended without a place, so the index is past the last VM.
        have hlen : vmlist.length ≤ i := by
          by_contra hlt
          exact hend _ (List.getElem?_eq_getElem (by omega)) hfree
        exact h.visited cpu hcpu hfree i hpc j (by omega)
    | done => simp only [hpc] at ht; cases ht

/-! ## The result -/

theorem Inv.popcount (h : s.Inv vmlist cpus) (hids : ∀ c ∈ cpus, c < 64) (i : Nat) :
    popcount (s.vmAssign i).cpus = (s.vmAssign i).ncpus := by
  rw [h.ncpus, Bao.popcount, Nat.count_eq_card_filter_range]
  congr 1
  ext c
  simp only [Finset.mem_filter, Finset.mem_range, h.mask, and_iff_right_iff_imp]
  exact fun hc => hids c (Finset.mem_filter.mp hc).1

theorem Inv.sum_ncpus (h : s.Inv vmlist cpus) :
    ∑ i ∈ Finset.range vmlist.length, (s.vmAssign i).ncpus =
      (cpus.filter fun c => (s.cpu c).assigned = true).card := by
  rw [Finset.card_eq_sum_card_fiberwise (f := fun c => (s.cpu c).vmId)
    (t := Finset.range vmlist.length)]
  · refine Finset.sum_congr rfl fun i _ => ?_
    rw [h.ncpus, members, Finset.filter_filter]
  · intro c hc
    have hc := Finset.mem_filter.mp hc
    exact Finset.mem_coe.mpr (Finset.mem_range.mpr (h.vmId c hc.1 hc.2))

theorem sum_cpuNum (vmlist : List VmConfig) :
    (vmlist.map (·.cpuNum)).sum = ∑ i ∈ Finset.range vmlist.length,
      ((vmlist[i]?).map (·.cpuNum)).getD 0 := by
  induction vmlist with
  | nil => rfl
  | cons cfg vms ih => simp [Finset.sum_range_succ', ih, Nat.add_comm]

theorem Inv.all_full (h : s.Inv vmlist cpus) (hdone : ∀ c ∈ cpus, (s.cpu c).pc = .done)
    (hmany : (vmlist.map (·.cpuNum)).sum ≤ cpus.card) (hi : vmlist[i]? = some cfg) :
    (s.vmAssign i).ncpus = cfg.cpuNum := by
  refine Nat.le_antisymm (h.cap i cfg hi) ?_
  by_contra hlt
  have hlen := (List.getElem?_eq_some_iff.mp hi).1
  -- A cpu without a place would have seen VM `i` full.
  have hall : cpus.filter (fun c => (s.cpu c).assigned = true) = cpus := by
    rw [Finset.filter_eq_self]
    intro c hc
    by_contra ha
    exact hlt (h.done c hc (by simpa using ha) (hdone c hc) i hlen cfg hi)
  have hsum : ∑ j ∈ Finset.range vmlist.length, (s.vmAssign j).ncpus <
      ∑ j ∈ Finset.range vmlist.length, ((vmlist[j]?).map (·.cpuNum)).getD 0 := by
    refine Finset.sum_lt_sum ?_ ⟨i, Finset.mem_range.mpr hlen, by simpa [hi] using hlt⟩
    intro j hj
    have hj := Finset.mem_range.mp hj
    have := h.cap j _ (List.getElem?_eq_getElem hj)
    simpa [List.getElem?_eq_getElem hj] using this
  rw [h.sum_ncpus, hall, ← sum_cpuNum] at hsum
  omega

/-- Whatever the order of the critical sections, when every cpu has left both loops the masks are
disjoint, each counter is the size of its mask and within the VM's `cpu_num`, exactly the VMs with a
cpu have a master, and enough cpus fill every VM. -/
theorem vmmInit_assignment {vmlist : List VmConfig} {cpus : Finset Nat} {as : List Nat}
    {s : AssignState} (hnum : ∀ cfg ∈ vmlist, 1 ≤ cfg.cpuNum) (hids : ∀ c ∈ cpus, c < 64)
    (h : run (AssignState.step vmlist cpus) AssignState.initial as = some s)
    (hdone : ∀ c ∈ cpus, (s.cpu c).pc = .done) :
    (∀ c i j, (s.vmAssign i).cpus.testBit c = true → (s.vmAssign j).cpus.testBit c = true →
      i = j) ∧
    (∀ i cfg, vmlist[i]? = some cfg →
      (s.vmAssign i).ncpus = popcount (s.vmAssign i).cpus ∧
      (s.vmAssign i).ncpus ≤ cfg.cpuNum ∧
      (0 < (s.vmAssign i).ncpus →
        ∃! c, (s.vmAssign i).cpus.testBit c = true ∧ (s.cpu c).master = true) ∧
      ((s.vmAssign i).ncpus = 0 →
        ∀ c ∈ cpus, (s.cpu c).assigned = true → (s.cpu c).vmId = i → (s.cpu c).master = false) ∧
      ((vmlist.map (·.cpuNum)).sum ≤ cpus.card → (s.vmAssign i).ncpus = cfg.cpuNum)) := by
  have inv : s.Inv vmlist cpus :=
    run_invariant (fun s a t hs ht => hs.step hnum ht) Inv.initial h
  refine ⟨?_, fun i cfg hi => ⟨(inv.popcount hids i).symm, inv.cap i cfg hi, ?_, ?_,
    fun hmany => inv.all_full hdone hmany hi⟩⟩
  · intro c i j hci hcj
    rw [inv.mask] at hci hcj
    exact (Finset.mem_filter.mp hci).2.2.symm.trans (Finset.mem_filter.mp hcj).2.2
  · intro hpos
    have hm : (s.vmAssign i).master = true := by
      by_contra hm
      have := inv.ncpus i
      rw [inv.empty i (by simpa using hm)] at this
      simp only [Finset.card_empty] at this
      omega
    have hone := inv.master i
    rw [if_pos hm] at hone
    obtain ⟨c, hc⟩ := Finset.card_eq_one.mp hone
    refine ⟨c, ?_, ?_⟩
    · have := hc ▸ Finset.mem_singleton_self c
      exact ⟨(inv.mask i c).mpr (Finset.mem_filter.mp this).1, (Finset.mem_filter.mp this).2⟩
    · rintro d ⟨hd, hdm⟩
      have : d ∈ s.masters cpus i := Finset.mem_filter.mpr ⟨(inv.mask i d).mp hd, hdm⟩
      rw [hc] at this
      exact Finset.mem_singleton.mp this
  · intro hzero c hc ha hv
    rw [inv.ncpus] at hzero
    have : c ∈ s.members cpus i := Finset.mem_filter.mpr ⟨hc, ha, hv⟩
    rw [Finset.card_eq_zero.mp hzero] at this
    simp at this

/-- Two VMs on two cpus: the first names cpu 0, the second takes the cpu that is left. -/
theorem vmmInit_assignment_two : ∃ s : AssignState,
    run (AssignState.step [{ cpuNum := 1, cpuAffinity := 1 }, { cpuNum := 1 }] {0, 1})
      AssignState.initial [0, 0, 1, 1, 1, 0, 1, 0, 1, 1, 1] = some s ∧
    (∀ c ∈ ({0, 1} : Finset Nat), (s.cpu c).pc = .done) ∧ (s.cpu 1).vmId = 1 ∧
    (s.vmAssign 1).ncpus = popcount (s.vmAssign 1).cpus :=
  exists_some_of_and (by decide +kernel) fun _ h hdone _ =>
    ((vmmInit_assignment (by decide) (by decide) h hdone).2 1 { cpuNum := 1 } rfl).1

end AssignState

end Bao
