import Mathlib.Data.List.FinRange
import Bao.Foundation.Run
import Bao.Riscv.Sbi

/-!
# Starting harts through SBI HSM

A vcpu that calls `sbi_hsm_start_handler` leaves the start address and the argument in the target's
context, marks it `START_PENDING` and sends it a message; the target picks them up when the message
is delivered. Several vcpus may call for the same target, and IPIs travel through the same queues.

Each handler runs under the target's lock, so calls and deliveries are single steps. `calls` is the
history of the start calls that named an existing vcpu.
-/

namespace Bao

open Foundation

/-- The vcpus of a VM, the CSRs of their harts and the queues of the physical cpus. -/
structure VmState (n : Nat) where
  cpus : Nat
  vcpu : Fin n → Vcpu
  csrs : Fin n → Csrs
  queue : Nat → List SbiMsg

namespace VmState

variable {n : Nat}

/-- `vm_get_vcpu`: the first vcpu of the list with that id. -/
def vmGetVcpu (s : VmState n) (vcpuid : Nat) : Option (Fin n) :=
  (List.finRange n).find? fun i => (s.vcpu i).id = vcpuid

def setVcpu (s : VmState n) (i : Fin n) (vcpu : Vcpu) : VmState n :=
  { s with vcpu := Function.update s.vcpu i vcpu }

def cpuSendMsg (s : VmState n) (target : Nat × SbiMsg) : VmState n :=
  { s with queue := Function.update s.queue target.1 (s.queue target.1 ++ [target.2]) }

/-- `sbi_hsm_start_handler` called by `self`. `ret` is what the uninitialised local holds. -/
def sbiHsmStartHandler (s : VmState n) (self : Fin n) (ret : SbiRet) : SbiRet × VmState n :=
  let vhartId := (vcpuReadreg (s.vcpu self) regA0).toNat
  if vhartId = (s.vcpu self).id then ({ ret with error := sbiErrAlreadyAvailable }, s)
  else
    match s.vmGetVcpu vhartId with
    | none => ({ ret with error := sbiErrInvalidParam }, s)
    | some i =>
      let vcpu := s.vcpu i
      if vcpu.sbiCtx.state = .started then ({ ret with error := sbiErrAlreadyAvailable }, s)
      else if vcpu.sbiCtx.state ≠ .stopped then ({ ret with error := sbiErrFailure }, s)
      else
        let startAddr := vcpuReadreg (s.vcpu self) regA1
        let priv := vcpuReadreg (s.vcpu self) regA2
        let s := s.setVcpu i { vcpu with sbiCtx := ⟨.startPending, startAddr, priv⟩ }
        ({ ret with error := sbiSuccess },
          s.cpuSendMsg (vcpu.physId, { event := .hartStart, data := 0xdeadbeef }))

/-- `sbi_msg_handler` on the hart that runs `vcpu`. -/
def sbiMsgHandler (vcpu : Vcpu) (csrs : Csrs) (msg : SbiMsg) : Vcpu × Csrs :=
  match msg.event with
  | .sendIpi => (vcpu, { csrs with hvip := csrs.hvip ||| hipVssip })
  | .hartStart =>
    if vcpu.sbiCtx.state = .startPending then
      let (fresh, csrs) := vcpuArchReset vcpu vcpu.sbiCtx.startAddr
      let fresh := vcpuWritereg fresh regA1 vcpu.sbiCtx.priv
      ({ fresh with sbiCtx := { fresh.sbiCtx with state := .started } }, csrs)
    else (vcpu, csrs)

/-- The hart of vcpu `i` takes its next message. -/
def deliver (s : VmState n) (i : Fin n) : Option (VmState n) :=
  match s.queue (s.vcpu i).physId with
  | [] => none
  | msg :: rest =>
    let r := sbiMsgHandler (s.vcpu i) (s.csrs i) msg
    some { s with
      vcpu := Function.update s.vcpu i r.1
      csrs := Function.update s.csrs i r.2
      queue := Function.update s.queue (s.vcpu i).physId rest }

end VmState

/-- A start call that named an existing vcpu. -/
structure HsmCall (n : Nat) where
  target : Fin n
  startAddr : Word
  priv : Word
  error : Int

structure HsmRun (n : Nat) where
  vm : VmState n
  calls : List (HsmCall n)

/-- `guest` is any change a guest makes to its own registers. -/
inductive HsmAction (n : Nat) where
  | hsmStart (self : Fin n) (ret : SbiRet)
  | sendIpi (self : Fin n)
  | deliver (i : Fin n)
  | guest (i : Fin n) (regs : ArchRegs)

namespace HsmRun

variable {n : Nat}

/-- All vcpus after `vcpu_arch_init`, with no message under way. -/
def initial (cpus : Nat) (vcpus : Fin n → Vcpu) (csrs : Fin n → Csrs) : HsmRun n where
  vm := { cpus, vcpu := fun i => vcpuArchInit (vcpus i), csrs, queue := fun _ => [] }
  calls := []

/-- The record of a start call by `self` that was answered with `error`. -/
def record (s : VmState n) (self : Fin n) (error : Int) : List (HsmCall n) :=
  match s.vmGetVcpu (vcpuReadreg (s.vcpu self) regA0).toNat with
  | none => []
  | some i => [⟨i, vcpuReadreg (s.vcpu self) regA1, vcpuReadreg (s.vcpu self) regA2, error⟩]

def step (s : HsmRun n) : HsmAction n → Option (HsmRun n)
  | .hsmStart self ret =>
    let r := s.vm.sbiHsmStartHandler self ret
    some ⟨r.2, s.calls ++ record s.vm self r.1.error⟩
  | .sendIpi self =>
    some { s with
      vm := (sbiIpiHandler s.vm.cpus (s.vm.vcpu self) 0).2.foldl VmState.cpuSendMsg s.vm }
  | .deliver i => (s.vm.deliver i).map fun vm => { s with vm }
  | .guest i regs => some { s with vm := s.vm.setVcpu i { s.vm.vcpu i with regs } }

/-- The state of vcpu `i`. -/
def hsmState (s : HsmRun n) (i : Fin n) : HsmState := (s.vm.vcpu i).sbiCtx.state

/-- The calls for vcpu `i` that were answered with `SBI_SUCCESS`. -/
def successes (s : HsmRun n) (i : Fin n) : List (HsmCall n) :=
  s.calls.filter fun c => c.target = i ∧ c.error = sbiSuccess

/-! ## What a step does -/

theorem foldl_cpuSendMsg_vcpu (msgs : List (Nat × SbiMsg)) (s : VmState n) :
    (msgs.foldl VmState.cpuSendMsg s).vcpu = s.vcpu := by
  induction msgs generalizing s with
  | nil => rfl
  | cons m msgs ih => exact ih _

/-- A start call either succeeds on a stopped vcpu, and then leaves its arguments there, or changes
nothing. -/
theorem hsmStart_cases (s : VmState n) (self : Fin n) (ret : SbiRet) :
    (∃ i, (s.vcpu i).sbiCtx.state = .stopped ∧
      (s.sbiHsmStartHandler self ret).1.error = sbiSuccess ∧
      record s self sbiSuccess = [⟨i, vcpuReadreg (s.vcpu self) regA1,
        vcpuReadreg (s.vcpu self) regA2, sbiSuccess⟩] ∧
      (s.sbiHsmStartHandler self ret).2.vcpu = Function.update s.vcpu i
        { s.vcpu i with sbiCtx := ⟨.startPending, vcpuReadreg (s.vcpu self) regA1,
          vcpuReadreg (s.vcpu self) regA2⟩ }) ∨
    ((s.sbiHsmStartHandler self ret).2 = s ∧
      ((s.sbiHsmStartHandler self ret).1.error = sbiErrAlreadyAvailable ∨
        (s.sbiHsmStartHandler self ret).1.error = sbiErrFailure ∨
        (s.sbiHsmStartHandler self ret).1.error = sbiErrInvalidParam ∧
          record s self sbiErrInvalidParam = [])) := by
  unfold VmState.sbiHsmStartHandler
  simp only
  split
  · exact .inr ⟨rfl, .inl rfl⟩
  · cases htarget : s.vmGetVcpu (vcpuReadreg (s.vcpu self) regA0).toNat with
    | none => exact .inr ⟨rfl, .inr (.inr ⟨rfl, by simp [record, htarget]⟩)⟩
    | some i =>
      simp only
      split
      · exact .inr ⟨rfl, .inl rfl⟩
      · split
        · exact .inr ⟨rfl, .inr (.inl rfl)⟩
        · rename_i hstopped
          exact .inl ⟨i, not_not.mp hstopped, rfl, by simp [record, htarget], rfl⟩

/-- A delivery starts a vcpu that is waiting for it, with the arguments left in its context, or
leaves the context alone. -/
theorem deliver_cases {s t : VmState n} {i : Fin n} (h : s.deliver i = some t) :
    ∃ v, t.vcpu = Function.update s.vcpu i v ∧
      (v.sbiCtx = (s.vcpu i).sbiCtx ∨
        (s.vcpu i).sbiCtx.state = .startPending ∧ v.sbiCtx.state = .started ∧
        vcpuReadpc v = (s.vcpu i).sbiCtx.startAddr ∧
        vcpuReadreg v regA1 = (s.vcpu i).sbiCtx.priv ∧
        vcpuReadreg v regA0 = BitVec.ofNat 64 v.id) := by
  unfold VmState.deliver at h
  split at h
  · cases h
  · rename_i msg rest hq
    cases h
    refine ⟨_, rfl, ?_⟩
    unfold VmState.sbiMsgHandler
    cases msg.event with
    | sendIpi => exact .inl rfl
    | hartStart =>
      simp only
      split
      · rename_i hpending
        refine .inr ⟨hpending, rfl, ?_, ?_, ?_⟩
        · simp [vcpuReadpc, vcpuArchReset, vcpuWritereg, regA0, regA1]
        · simp [vcpuReadreg, vcpuArchReset, vcpuWritereg, regA0, regA1]
        · simp [vcpuReadreg, vcpuArchReset, vcpuWritereg, regA0, regA1]
      · exact .inl rfl

/-! ## The invariant -/

/-- A stopped vcpu has had no successful call, a pending one exactly the call whose arguments its
context holds, and no vcpu more than one. -/
structure Inv (s : HsmRun n) : Prop where
  stopped : ∀ i, s.hsmState i = .stopped → s.successes i = []
  pending : ∀ i, s.hsmState i = .startPending → s.successes i =
    [⟨i, (s.vm.vcpu i).sbiCtx.startAddr, (s.vm.vcpu i).sbiCtx.priv, sbiSuccess⟩]
  once : ∀ i, (s.successes i).length ≤ 1
  errors : ∀ c ∈ s.calls, c.error = sbiSuccess ∨ c.error = sbiErrAlreadyAvailable ∨
    c.error = sbiErrFailure

theorem Inv.initial (cpus : Nat) (vcpus : Fin n → Vcpu) (csrs : Fin n → Csrs) :
    (initial cpus vcpus csrs).Inv where
  stopped _ _ := rfl
  pending i h := by
    simp only [hsmState, HsmRun.initial, vcpuArchInit] at h
    split at h <;> cases h
  once _ := Nat.zero_le _
  errors c h := by simp [HsmRun.initial] at h

variable {s t : HsmRun n} {a : HsmAction n}

theorem Inv.congr (h : s.Inv) (hcalls : t.calls = s.calls)
    (hctx : ∀ i, (t.vm.vcpu i).sbiCtx = (s.vm.vcpu i).sbiCtx) : t.Inv := by
  have hsucc : ∀ i, t.successes i = s.successes i := fun i => by simp [successes, hcalls]
  refine ⟨?_, ?_, ?_, by rw [hcalls]; exact h.errors⟩
  · intro i hi
    rw [hsucc]
    exact h.stopped i (by rw [hsmState, ← hctx]; exact hi)
  · intro i hi
    rw [hsucc, hctx]
    exact h.pending i (by rw [hsmState, ← hctx]; exact hi)
  · intro i; rw [hsucc]; exact h.once i

theorem Inv.append_failed (h : s.Inv) {calls : List (HsmCall n)}
    (hfail : ∀ c ∈ calls, c.error = sbiErrAlreadyAvailable ∨ c.error = sbiErrFailure) :
    Inv ⟨s.vm, s.calls ++ calls⟩ := by
  have hnone : ∀ i, calls.filter (fun c => c.target = i ∧ c.error = sbiSuccess) = [] := by
    intro i
    rw [List.filter_eq_nil_iff]
    intro c hc
    rcases hfail c hc with he | he <;>
      simp [he, sbiErrAlreadyAvailable, sbiErrFailure, sbiSuccess]
  have hsucc : ∀ i, successes ⟨s.vm, s.calls ++ calls⟩ i = s.successes i := by
    intro i
    simp only [successes, List.filter_append, hnone, List.append_nil]
  refine ⟨?_, ?_, ?_, ?_⟩
  · intro i hi; rw [hsucc]; exact h.stopped i hi
  · intro i hi; rw [hsucc]; exact h.pending i hi
  · intro i; rw [hsucc]; exact h.once i
  · intro c hc
    rcases List.mem_append.mp hc with hc | hc
    · exact h.errors c hc
    · exact .inr (hfail c hc)

theorem mem_record_error {s : VmState n} {self : Fin n} {e : Int} {c : HsmCall n}
    (h : c ∈ record s self e) : c.error = e := by
  unfold record at h
  split at h
  · cases h
  · rw [List.mem_singleton.mp h]

theorem Inv.hsmStart (h : s.Inv) (self : Fin n) (ret : SbiRet) :
    Inv ⟨(s.vm.sbiHsmStartHandler self ret).2,
      s.calls ++ record s.vm self (s.vm.sbiHsmStartHandler self ret).1.error⟩ := by
  rcases hsmStart_cases s.vm self ret with ⟨i, hst, herr, hrec, hvcpu⟩ | ⟨hsame, herr⟩
  · rw [herr, hrec]
    set call : HsmCall n := ⟨i, vcpuReadreg (s.vm.vcpu self) regA1,
      vcpuReadreg (s.vm.vcpu self) regA2, sbiSuccess⟩ with hcall
    have hsucc : ∀ j, successes ⟨(s.vm.sbiHsmStartHandler self ret).2, s.calls ++ [call]⟩ j =
        if j = i then [call] else s.successes j := by
      intro j
      simp only [successes, List.filter_append]
      by_cases hj : j = i
      · subst hj
        have := h.stopped j hst
        simp only [successes] at this
        rw [this]
        simp [hcall]
      · simp [hj, hcall, Ne.symm hj]
    refine ⟨?_, ?_, ?_, ?_⟩
    · intro j hj
      by_cases hji : j = i
      · subst hji; simp [hsmState, hvcpu] at hj
      · rw [hsucc, if_neg hji]
        exact h.stopped j (by simpa [hsmState, hvcpu, hji] using hj)
    · intro j hj
      by_cases hji : j = i
      · subst hji
        rw [hsucc, if_pos rfl, hvcpu, Function.update_self]
      · rw [hsucc, if_neg hji, hvcpu, Function.update_of_ne hji]
        exact h.pending j (by simpa [hsmState, hvcpu, hji] using hj)
    · intro j
      rw [hsucc]
      split
      · exact Nat.le_refl 1
      · exact h.once j
    · intro c hc
      rcases List.mem_append.mp hc with hc | hc
      · exact h.errors c hc
      · rw [List.mem_singleton.mp hc]; exact .inl rfl
  · rw [hsame]
    refine h.append_failed fun c hc => ?_
    rw [mem_record_error hc]
    rcases herr with he | he | ⟨he, hrec⟩
    · exact .inl he
    · exact .inr he
    · rw [he, hrec] at hc; cases hc

theorem Inv.deliver (h : s.Inv) {i : Fin n} {vm : VmState n} (ht : s.vm.deliver i = some vm) :
    Inv { s with vm } := by
  obtain ⟨v, hvcpu, hcase⟩ := deliver_cases ht
  rcases hcase with hctx | ⟨hpend, hstart, -⟩
  · refine h.congr rfl fun j => ?_
    by_cases hj : j = i
    · subst hj; simp [hvcpu, hctx]
    · simp [hvcpu, hj]
  · refine ⟨?_, ?_, h.once, h.errors⟩
    · intro j hj
      by_cases hji : j = i
      · subst hji; simp [hsmState, hvcpu, hstart] at hj
      · exact h.stopped j (by simpa [hsmState, hvcpu, hji] using hj)
    · intro j hj
      by_cases hji : j = i
      · subst hji; simp [hsmState, hvcpu, hstart] at hj
      · have hsame : vm.vcpu j = s.vm.vcpu j := by simp [hvcpu, hji]
        dsimp only
        rw [hsame]
        exact h.pending j (by simpa [hsmState, hsame] using hj)

theorem Inv.step (h : s.Inv) (ht : s.step a = some t) : t.Inv := by
  cases a with
  | hsmStart self ret => cases ht; exact h.hsmStart self ret
  | sendIpi self =>
    cases ht
    exact h.congr rfl fun i => by rw [foldl_cpuSendMsg_vcpu]
  | deliver i =>
    obtain ⟨vm, hvm, rfl⟩ := Option.map_eq_some_iff.mp ht
    exact h.deliver hvm
  | guest i regs =>
    cases ht
    refine h.congr rfl fun j => ?_
    by_cases hj : j = i
    · subst hj; simp [VmState.setVcpu]
    · simp [VmState.setVcpu, hj]

/-! ## The result -/

theorem step_hsmState (h : s.Inv) (ht : s.step a = some t) (i : Fin n) :
    t.hsmState i = s.hsmState i ∨
    (s.hsmState i = .stopped ∧ t.hsmState i = .startPending) ∨
    (s.hsmState i = .startPending ∧ t.hsmState i = .started ∧ ∃ c, t.successes i = [c] ∧
      vcpuReadpc (t.vm.vcpu i) = c.startAddr ∧ vcpuReadreg (t.vm.vcpu i) regA1 = c.priv ∧
      vcpuReadreg (t.vm.vcpu i) regA0 = BitVec.ofNat 64 (t.vm.vcpu i).id) := by
  cases a with
  | hsmStart self ret =>
    cases ht
    rcases hsmStart_cases s.vm self ret with ⟨j, hst, -, -, hvcpu⟩ | ⟨hsame, -⟩
    · by_cases hij : i = j
      · subst hij
        exact .inr (.inl ⟨hst, by simp [hsmState, hvcpu]⟩)
      · exact .inl (by simp [hsmState, hvcpu, hij])
    · exact .inl (by simp [hsmState, hsame])
  | sendIpi self =>
    cases ht
    exact .inl (by simp [hsmState, foldl_cpuSendMsg_vcpu])
  | deliver j =>
    obtain ⟨vm, hvm, rfl⟩ := Option.map_eq_some_iff.mp ht
    obtain ⟨v, hvcpu, hcase⟩ := deliver_cases hvm
    by_cases hij : i = j
    · subst hij
      rcases hcase with hctx | ⟨hpend, hstart, hpc, ha1, ha0⟩
      · exact .inl (by simp [hsmState, hvcpu, hctx])
      · refine .inr (.inr ⟨hpend, by simp [hsmState, hvcpu, hstart], _, h.pending i hpend, ?_⟩)
        simp [hvcpu, hpc, ha1, ha0]
    · exact .inl (by simp [hsmState, hvcpu, hij])
  | guest j regs =>
    cases ht
    by_cases hij : i = j
    · subst hij; exact .inl (by simp [hsmState, VmState.setVcpu])
    · exact .inl (by simp [hsmState, VmState.setVcpu, hij])

theorem step_failed (ht : s.step a = some t) {c : HsmCall n} (hc : t.calls = s.calls ++ [c])
    (hfail : c.error ≠ sbiSuccess) : t.vm = s.vm := by
  cases a with
  | hsmStart self ret =>
    cases ht
    rcases hsmStart_cases s.vm self ret with ⟨i, -, herr, hrec, -⟩ | ⟨hsame, -⟩
    · rw [herr, hrec] at hc
      have := List.append_cancel_left hc
      cases this
      exact absurd rfl hfail
    · exact hsame
  | sendIpi self => cases ht; simp at hc
  | deliver i =>
    obtain ⟨vm, -, rfl⟩ := Option.map_eq_some_iff.mp ht
    simp at hc
  | guest i regs => cases ht; simp at hc

/-- Starting a hart is exactly-once. In every run no vcpu has two successful start calls, and all
other calls for it are answered with one of two errors. From every state reached, each step moves a
vcpu's state at most one place along `STOPPED`, `START_PENDING`, `STARTED`; a failed call changes
nothing; and a vcpu that becomes `STARTED` has the arguments of its one successful call. -/
theorem sbiHsmStart_exactlyOnce {cpus : Nat} {vcpus : Fin n → Vcpu} {csrs : Fin n → Csrs}
    {as : List (HsmAction n)} {s : HsmRun n}
    (h : run HsmRun.step (HsmRun.initial cpus vcpus csrs) as = some s) :
    (∀ i, (s.successes i).length ≤ 1) ∧
    (∀ c ∈ s.calls, c.error = sbiSuccess ∨ c.error = sbiErrAlreadyAvailable ∨
      c.error = sbiErrFailure) ∧
    ∀ a t, s.step a = some t →
      (∀ c, t.calls = s.calls ++ [c] → c.error ≠ sbiSuccess → t.vm = s.vm) ∧
      ∀ i, t.hsmState i = s.hsmState i ∨
        (s.hsmState i = .stopped ∧ t.hsmState i = .startPending) ∨
        (s.hsmState i = .startPending ∧ t.hsmState i = .started ∧ ∃ c, t.successes i = [c] ∧
          vcpuReadpc (t.vm.vcpu i) = c.startAddr ∧ vcpuReadreg (t.vm.vcpu i) regA1 = c.priv ∧
          vcpuReadreg (t.vm.vcpu i) regA0 = BitVec.ofNat 64 (t.vm.vcpu i).id) := by
  have inv : s.Inv := run_invariant (fun s a t hs ht => hs.step ht) (Inv.initial _ _ _) h
  exact ⟨inv.once, inv.errors, fun a t ht =>
    ⟨fun c hc hfail => step_failed ht hc hfail, step_hsmState inv ht⟩⟩

/-- The registers of a guest about to start hart 1 at `entry` with argument `priv`. -/
def startArgs (entry priv : Word) : ArchRegs :=
  { x := fun i => if i = 9 then 1 else if i = 10 then entry else if i = 11 then priv else 0 }

/-- Vcpu 0 starts vcpu 1, tries again with other arguments while the message is under way, and the
delivery uses the arguments of the first call. -/
theorem sbiHsmStart_exactlyOnce_race : ∃ s t : HsmRun 2,
    run HsmRun.step (HsmRun.initial 3 (fun i => { id := i, physId := i }) fun _ => {})
      [.guest 0 (startArgs 0x80 7), .hsmStart 0 ⟨0, 0⟩, .guest 0 (startArgs 0x90 8),
        .hsmStart 0 ⟨0, 0⟩] = some s ∧
    s.step (.deliver 1) = some t ∧ t.hsmState 1 = .started ∧
    (s.calls.map (·.error)) = [sbiSuccess, sbiErrFailure] ∧
    vcpuReadpc (t.vm.vcpu 1) = 0x80 ∧ (s.successes 1).length ≤ 1 := by
  refine exists_some₂_of (P := fun s t => t.hsmState 1 = .started ∧
      s.calls.map (·.error) = [sbiSuccess, sbiErrFailure] ∧ vcpuReadpc (t.vm.vcpu 1) = 0x80)
    (by decide +kernel) fun s t h _ hend => ?_
  exact ⟨hend.1, hend.2.1, hend.2.2, (sbiHsmStart_exactlyOnce h).1 1⟩

end HsmRun

end Bao
