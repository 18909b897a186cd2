import Bao.Core.Ipc
import Bao.Riscv.SbiHsm

/-!
# The SBI calls of a guest

`sbi_vs_handler` takes the extension and the function from the guest's registers, calls the handler
of the extension and copies both members of its `struct sbiret` back. Several handlers declare that
structure without an initialiser and set only one member on some of their paths, so that the other
register gets what the stack held. `Answered` says which calls are answered in full; it is exact,
and runs made of such calls do not depend on the stack.
-/

namespace Bao

open Foundation

def sbiExtidBase : Nat := 0x10
def sbiExtidTime : Nat := 0x54494D45
def sbiExtidIpi : Nat := 0x735049
def sbiExtidHsm : Nat := 0x48534D
def sbiExtidRfnc : Nat := 0x52464E43
def sbiExtidBao : Nat := 0x08000ba0

/-- The extensions that `sbi_vs_handler` has a handler for. -/
def sbiExtensions : List Nat :=
  [sbiExtidBase, sbiExtidTime, sbiExtidIpi, sbiExtidRfnc, sbiExtidHsm, sbiExtidBao]

/-- `ext_table`. -/
def extTable : List Nat :=
  [0x0, 0x4, 0x5, 0x6, 0x7, sbiExtidBase, sbiExtidTime, sbiExtidIpi, sbiExtidRfnc, sbiExtidHsm]

def sieStie : Word := 1 <<< 5

/-- The arguments of `sbi_ecall`. -/
structure SbiEcall where
  eid : Nat
  fid : Nat
  a0 : Word := 0
  a1 : Word := 0
  a2 : Word := 0
  a3 : Word := 0
  a4 : Word := 0
  a5 : Word := 0
  deriving DecidableEq

/-- The answers of the firmware. -/
abbrev Firmware := SbiEcall → SbiRet

/-- `sbi_remote_fence_i`, `sbi_remote_hfence_vvma` and `sbi_remote_hfence_vvma_asid`. -/
def RfenceCall.ecall : RfenceCall → SbiEcall
  | .remoteFenceI m base => ⟨sbiExtidRfnc, 0, .ofNat 64 m, .ofNat 64 base, 0, 0, 0, 0⟩
  | .remoteHfenceVvma m base start size =>
    ⟨sbiExtidRfnc, 5, .ofNat 64 m, .ofNat 64 base, start, size, 0, 0⟩
  | .remoteHfenceVvmaAsid m base start size asid =>
    ⟨sbiExtidRfnc, 6, .ofNat 64 m, .ofNat 64 base, start, size, asid, 0⟩

/-- A VM with its ipc objects, the CSR `sie` of the harts of its vcpus, the calls made into the
firmware, and the messages sent to other VMs. -/
structure SbiSystem (n : Nat) where
  vm : VmState n
  ipcs : List Ipc
  sie : Fin n → Word
  ecalls : List SbiEcall
  ipcMsgs : List (Nat × CpuMsg)

/-- What the uninitialised `struct sbiret` of each function holds when it is entered. -/
structure SbiStack where
  rfence : SbiRet
  hsmStart : SbiRet
  hsmStatus : SbiRet
  hsm : SbiRet
  bao : SbiRet
  vs : SbiRet

/-- A stack that holds `ret` everywhere. -/
def SbiStack.fill (ret : SbiRet) : SbiStack := ⟨ret, ret, ret, ret, ret, ret⟩

/-- What is the same in two runs: the firmware, the shared memories, and the padding of the union
`ipc_msg_data_t`. -/
structure SbiEnv where
  firmware : Firmware
  ipc : IpcEnv
  pad : BitVec 48

namespace SbiSystem

variable {n : Nat}

def sbiEcall (env : SbiEnv) (s : SbiSystem n) (call : SbiEcall) : SbiRet × SbiSystem n :=
  (env.firmware call, { s with ecalls := s.ecalls ++ [call] })

def sbiTimeHandler (env : SbiEnv) (s : SbiSystem n) (self : Fin n) (fid : Nat) :
    SbiRet × SbiSystem n :=
  if fid ≠ 0 then (⟨sbiErrNotSupported, 0⟩, s)
  else
    let stimeValue := vcpuReadreg (s.vm.vcpu self) regA0
    let s := (sbiEcall env s { eid := sbiExtidTime, fid := 0, a0 := stimeValue }).2
    let csrs := s.vm.csrs self
    (⟨sbiSuccess, 0⟩,
      { s with
        vm := { s.vm with
          csrs := Function.update s.vm.csrs self { csrs with hvip := csrs.hvip &&& ~~~hipVstip } }
        sie := Function.update s.sie self (s.sie self ||| sieStie) })

/-- `sbi_timer_irq_handler` on the hart of `self`. -/
def sbiTimerIrqHandler (s : SbiSystem n) (self : Fin n) : SbiSystem n :=
  let csrs := s.vm.csrs self
  { s with
    vm := { s.vm with
      csrs := Function.update s.vm.csrs self { csrs with hvip := csrs.hvip ||| hipVstip } }
    sie := Function.update s.sie self (s.sie self &&& ~~~sieStie) }

/-- `sbi_base_handler`. Its `ret` has an initialiser, which makes `value` 0. -/
def sbiBaseHandler (vcpu : Vcpu) (fid : Nat) : SbiRet :=
  let ret : SbiRet := ⟨sbiSuccess, 0⟩
  let extid := vcpuReadreg vcpu regA0
  match fid with
  | 0 => { ret with value := 2 }
  | 3 =>
    { ret with
      value := extTable.foldl
        (fun value ext => if ext = extid.toNat then extid.toInt else value) 0 }
  | _ => ret

/-- `sbi_rfence_handler` with the call into the firmware. -/
def sbiRfence (env : SbiEnv) (stack : SbiStack) (s : SbiSystem n) (self : Fin n) (fid : Nat) :
    SbiRet × SbiSystem n :=
  match sbiRfenceHandler s.vm.cpus (s.vm.vcpu self) stack.rfence fid with
  | .ok call => sbiEcall env s call.ecall
  | .error ret => (ret, s)

def sbiHsmStatusHandler (s : VmState n) (self : Fin n) (ret : SbiRet) : SbiRet :=
  let vhartId := (vcpuReadreg (s.vcpu self) regA0).toNat
  match s.vmGetVcpu vhartId with
  | some vhart => { ret with error := sbiSuccess, value := (s.vcpu vhart).sbiCtx.state.toNat }
  | none => { ret with error := sbiErrInvalidParam }

def sbiHsmHandler (stack : SbiStack) (s : SbiSystem n) (self : Fin n) (fid : Nat) :
    SbiRet × SbiSystem n :=
  match fid with
  | 0 =>
    let r := s.vm.sbiHsmStartHandler self stack.hsmStart
    (r.1, { s with vm := r.2 })
  | 2 => (sbiHsmStatusHandler s.vm self stack.hsmStatus, s)
  | _ => ({ stack.hsm with error := sbiErrNotSupported }, s)

def sbiBaoHandler (env : SbiEnv) (stack : SbiStack) (s : SbiSystem n) (self : Fin n) (fid : Nat) :
    SbiRet × SbiSystem n :=
  let arg0 := vcpuReadreg (s.vm.vcpu self) regA0
  let arg1 := vcpuReadreg (s.vm.vcpu self) regA1
  match fid with
  | 1 =>
    let r := ipcHypercall env.ipc ⟨s.vm.cpus, s.ipcs⟩ env.pad arg0 arg1
    ({ stack.bao with error := r.1 }, { s with ipcMsgs := s.ipcMsgs ++ r.2 })
  | _ => ({ stack.bao with error := -2 }, s)

def sbiWriteRet (s : SbiSystem n) (self : Fin n) (ret : SbiRet) : SbiSystem n :=
  let vcpu := vcpuWritereg (s.vm.vcpu self) regA0 (.ofInt 64 ret.error)
  let vcpu := vcpuWritereg vcpu regA1 (.ofInt 64 ret.value)
  { s with vm := s.vm.setVcpu self vcpu }

/-- `sbi_lgcy_handler`. The handlers of the legacy IPI and fence calls are empty, and `char` has no
sign on RISC-V. -/
def sbiLgcyHandler (env : SbiEnv) (s : SbiSystem n) (self : Fin n) (extid : Nat) : SbiSystem n :=
  match extid with
  | 0 => (sbiTimeHandler env s self 0).2
  | 1 =>
    let c := ((vcpuReadreg (s.vm.vcpu self) regA0).setWidth 8).setWidth 64
    (sbiEcall env s { eid := 1, fid := 0, a0 := c }).2
  | 2 =>
    let r := sbiEcall env s { eid := 2, fid := 0 }
    sbiWriteRet r.2 self r.1
  | _ => s

/-- The `switch` of `sbi_vs_handler`. -/
def sbiVsSwitch (env : SbiEnv) (stack : SbiStack) (s : SbiSystem n) (self : Fin n)
    (extid fid : Nat) : SbiRet × SbiSystem n :=
  if extid = sbiExtidBase then (sbiBaseHandler (s.vm.vcpu self) fid, s)
  else if extid = sbiExtidTime then sbiTimeHandler env s self fid
  else if extid = sbiExtidIpi then
    let r := sbiIpiHandler s.vm.cpus (s.vm.vcpu self) fid
    (r.1, { s with vm := r.2.foldl VmState.cpuSendMsg s.vm })
  else if extid = sbiExtidRfnc then sbiRfence env stack s self fid
  else if extid = sbiExtidHsm then sbiHsmHandler stack s self fid
  else if extid = sbiExtidBao then sbiBaoHandler env stack s self fid
  -- The error code goes into `value`.
  else ({ stack.vs with value := sbiErrNotSupported }, s)

/-- The extension id and the function id of a call by `self`. -/
def extid (s : SbiSystem n) (self : Fin n) : Nat := (vcpuReadreg (s.vm.vcpu self) regA7).toNat

@[inherit_doc extid]
def fid (s : SbiSystem n) (self : Fin n) : Nat := (vcpuReadreg (s.vm.vcpu self) regA6).toNat

/-- `sbi_vs_handler`: the length of the trapped instruction, and the state after the call. -/
def sbiVsHandler (env : SbiEnv) (stack : SbiStack) (s : SbiSystem n) (self : Fin n) :
    Nat × SbiSystem n :=
  if s.extid self < 16 then (4, sbiLgcyHandler env s self (s.extid self))
  else
    let r := sbiVsSwitch env stack s self (s.extid self) (s.fid self)
    (4, sbiWriteRet r.2 self r.1)

/-- The registers `a0` and `a1` of `self`. -/
def results (s : SbiSystem n) (self : Fin n) : Word × Word :=
  (vcpuReadreg (s.vm.vcpu self) regA0, vcpuReadreg (s.vm.vcpu self) regA1)

@[simp] theorem results_sbiWriteRet (s : SbiSystem n) (self : Fin n) (ret : SbiRet) :
    (s.sbiWriteRet self ret).results self = (.ofInt 64 ret.error, .ofInt 64 ret.value) := by
  simp [results, sbiWriteRet, VmState.setVcpu, regA0, regA1]

/-! ## The calls that are answered in full -/

/-- `sbi_rfence_handler` refuses the hart mask of the call: with the base it would name harts past
the width of the mask. -/
def HartMaskRefused (vcpu : Vcpu) : Prop :=
  let base := (vcpuReadreg vcpu regA1).toNat
  base ≠ 0 ∧ (64 ≤ base ∨ ∃ i < 64, 64 - base ≤ i ∧ (vcpuReadreg vcpu regA0).getLsbD i = true)

/-- The calls for which the handlers set both members of the result. -/
def Answered (s : SbiSystem n) (self : Fin n) : Prop :=
  s.extid self = sbiExtidBase ∨ s.extid self = sbiExtidTime ∨ s.extid self = sbiExtidIpi ∨
    (s.extid self = sbiExtidRfnc ∧ (s.fid self < 3 ∨ HartMaskRefused (s.vm.vcpu self))) ∨
    (s.extid self = sbiExtidHsm ∧ s.fid self = 2 ∧
      ∃ i, (s.vm.vcpu i).id = (vcpuReadreg (s.vm.vcpu self) regA0).toNat)

theorem hartMaskRefused_iff (vcpu : Vcpu) : HartMaskRefused vcpu ↔
    (vcpuReadreg vcpu regA1).toNat ≠ 0 ∧ (64 ≤ (vcpuReadreg vcpu regA1).toNat ∨
      (bitmapFindNth (vcpuReadreg vcpu regA0).toNat.testBit 64 1
        (64 - (vcpuReadreg vcpu regA1).toNat) true).any (0 < ·)) := by
  unfold HartMaskRefused
  simp only
  generalize (vcpuReadreg vcpu regA1).toNat = base
  refine and_congr_right fun _ => ?_
  by_cases hbase : 64 ≤ base
  · simp only [hbase, true_or]
  · simp only [hbase, false_or]
    refine exists_bitmapFindNth_one.symm.trans ?_
    rw [Option.any_eq_true]
    refine exists_congr fun j => ⟨fun hj => ⟨hj, ?_⟩, And.left⟩
    have := (bitmapFindNth_spec (by decide)).mp hj
    exact decide_eq_true (by omega)

section Handlers

variable {env : SbiEnv} {s : SbiSystem n} {self : Fin n}

/-- A remote fence is refused, passed on to the firmware, or left with the old `value`. -/
theorem sbiRfenceHandler_cases (cpus : Nat) (vcpu : Vcpu) (fid : Nat) :
    (HartMaskRefused vcpu ∧
      ∀ ret, sbiRfenceHandler cpus vcpu ret fid = .error ⟨sbiErrInvalidParam, 0⟩) ∨
    (fid < 3 ∧ ∃ call, ∀ ret, sbiRfenceHandler cpus vcpu ret fid = .ok call) ∨
    (¬ HartMaskRefused vcpu ∧ ¬ fid < 3 ∧
      ∀ ret, sbiRfenceHandler cpus vcpu ret fid =
        .error { ret with error := sbiErrNotSupported }) := by
  by_cases hrefused : HartMaskRefused vcpu
  · exact .inl ⟨hrefused, fun _ => if_pos ((hartMaskRefused_iff vcpu).mp hrefused)⟩
  · have haccepted := mt (hartMaskRefused_iff vcpu).mpr hrefused
    match fid with
    | 0 | 1 | 2 => exact .inr (.inl ⟨by decide, _, fun _ => if_neg haccepted⟩)
    | k + 3 => exact .inr (.inr ⟨hrefused, by omega, fun _ => if_neg haccepted⟩)

/-- A start call sets the error code and keeps the old `value`. -/
theorem sbiHsmStartHandler_eq (s : VmState n) (self : Fin n) :
    ∃ error, ∀ ret, (s.sbiHsmStartHandler self ret).1 = { ret with error } := by
  unfold VmState.sbiHsmStartHandler
  simp only
  split
  · exact ⟨_, fun _ => rfl⟩
  · split
    · exact ⟨_, fun _ => rfl⟩
    · split
      · exact ⟨_, fun _ => rfl⟩
      · split <;> exact ⟨_, fun _ => rfl⟩

theorem exists_vmGetVcpu {s : VmState n} {id : Nat} :
    (∃ i, s.vmGetVcpu id = some i) ↔ ∃ i, (s.vcpu i).id = id := by
  rw [← Option.isSome_iff_exists, VmState.vmGetVcpu, List.find?_isSome]
  simp

theorem sbiVsSwitch_answered (h : s.Answered self) (stack stack' : SbiStack) :
    sbiVsSwitch env stack s self (s.extid self) (s.fid self) =
      sbiVsSwitch env stack' s self (s.extid self) (s.fid self) := by
  obtain hext | hext | hext | ⟨hext, hfence⟩ | ⟨hext, hfid, hvcpu⟩ := h
  · rw [hext]; rfl
  · rw [hext]; rfl
  · rw [hext]; rfl
  · rw [hext]
    change sbiRfence env stack s self _ = sbiRfence env stack' s self _
    unfold sbiRfence
    obtain ⟨-, heq⟩ | ⟨-, call, heq⟩ | ⟨hmask, hfid, -⟩ :=
      sbiRfenceHandler_cases s.vm.cpus (s.vm.vcpu self) (s.fid self)
    · rw [heq, heq]
    · rw [heq, heq]
    · exact absurd hfence (not_or.mpr ⟨hfid, hmask⟩)
  · obtain ⟨i, hi⟩ := exists_vmGetVcpu.mpr hvcpu
    rw [hext, hfid]
    change (sbiHsmStatusHandler s.vm self stack.hsmStatus, s) =
      (sbiHsmStatusHandler s.vm self stack'.hsmStatus, s)
    unfold sbiHsmStatusHandler
    simp only [hi]

theorem sbiVsSwitch_not_answered (env : SbiEnv) (h : ¬ s.Answered self) :
    (∃ error, ∀ ret, (sbiVsSwitch env (.fill ret) s self (s.extid self) (s.fid self)).1 =
      { ret with error }) ∨
    ∀ ret, (sbiVsSwitch env (.fill ret) s self (s.extid self) (s.fid self)).1 =
      { ret with value := sbiErrNotSupported } := by
  simp only [Answered, not_or, not_and] at h
  obtain ⟨hbase, htime, hipi, hfence, hhsm⟩ := h
  simp only [sbiVsSwitch, if_neg hbase, if_neg htime, if_neg hipi]
  split
  case isTrue hext =>
    obtain ⟨hmask, -⟩ | ⟨hfid, -⟩ | ⟨-, -, heq⟩ :=
      sbiRfenceHandler_cases s.vm.cpus (s.vm.vcpu self) (s.fid self)
    · exact absurd hmask (hfence hext).2
    · exact absurd hfid (hfence hext).1
    · refine .inl ⟨sbiErrNotSupported, fun ret => ?_⟩
      simp only [sbiRfence, heq]
      rfl
  case isFalse =>
    split
    case isTrue hext =>
      refine .inl ?_
      unfold sbiHsmHandler
      split
      · exact sbiHsmStartHandler_eq s.vm self
      · rename_i hfid
        refine ⟨sbiErrInvalidParam, fun ret => ?_⟩
        have hnone : s.vm.vmGetVcpu (vcpuReadreg (s.vm.vcpu self) regA0).toNat = none := by
          by_contra hsome
          exact hhsm hext hfid (exists_vmGetVcpu.mp (Option.ne_none_iff_exists'.mp hsome))
        simp only [sbiHsmStatusHandler, hnone]
        rfl
      · exact ⟨sbiErrNotSupported, fun _ => rfl⟩
    case isFalse =>
      split
      · refine .inl ?_
        unfold sbiBaoHandler
        split <;> exact ⟨_, fun _ => rfl⟩
      · exact .inr fun _ => rfl

theorem results_sbiVsHandler {stack : SbiStack} (hext : 16 ≤ s.extid self) :
    (sbiVsHandler env stack s self).2.results self =
      let ret := (sbiVsSwitch env stack s self (s.extid self) (s.fid self)).1
      (.ofInt 64 ret.error, .ofInt 64 ret.value) := by
  rw [sbiVsHandler, if_neg (Nat.not_lt.mpr hext), results_sbiWriteRet]

end Handlers

/-- For a call that is not a legacy one, the results in `a0` and `a1` are the same whatever the
stack holds, and `SBI_ERR_NOT_SUPPORTED` for the extensions without a handler, exactly when the call
is answered in full. -/
theorem sbiVs_defined_iff (env : SbiEnv) (s : SbiSystem n) (self : Fin n)
    (hext : 16 ≤ s.extid self) :
    ((∀ stack stack', (sbiVsHandler env stack s self).2.results self =
        (sbiVsHandler env stack' s self).2.results self) ∧
      (s.extid self ∉ sbiExtensions → ∀ stack,
        ((sbiVsHandler env stack s self).2.results self).1 = .ofInt 64 sbiErrNotSupported)) ↔
      s.Answered self := by
  simp only [results_sbiVsHandler hext]
  constructor
  · rintro ⟨hsame, -⟩
    by_contra hleft
    have hsame := hsame (.fill ⟨0, 0⟩) (.fill ⟨1, 1⟩)
    obtain ⟨error, heq⟩ | heq := sbiVsSwitch_not_answered env hleft
    · rw [heq, heq] at hsame
      have hvalue : BitVec.ofInt 64 0 = BitVec.ofInt 64 1 := congrArg Prod.snd hsame
      exact absurd hvalue (by decide)
    · rw [heq, heq] at hsame
      have herror : BitVec.ofInt 64 0 = BitVec.ofInt 64 1 := congrArg Prod.fst hsame
      exact absurd herror (by decide)
  · intro h
    refine ⟨fun stack stack' => by rw [sbiVsSwitch_answered h stack stack'], fun hnot => ?_⟩
    refine absurd ?_ hnot
    obtain hext | hext | hext | ⟨hext, -⟩ | ⟨hext, -⟩ := h <;> rw [hext] <;> decide

/-- A VM with one vcpu, on hart 0, whose registers `a6` and `a7` name the function and the extension
and whose `a0` is `arg`. -/
def oneCaller (extid fid arg : Word) : SbiSystem 1 where
  vm :=
    { cpus := 1
      vcpu := fun _ => vcpuWritereg (vcpuWritereg (vcpuWithArgs arg 0) regA6 fid) regA7 extid
      csrs := fun _ => resetCsrs
      queue := fun _ => [] }
  ipcs := []
  sie := fun _ => 0
  ecalls := []
  ipcMsgs := []

/-- A firmware that answers every call with success, and no shared memories. -/
def plainEnv : SbiEnv := ⟨fun _ => ⟨sbiSuccess, 0⟩, ⟨1, [], 0⟩, 0⟩

/-- The caller asks for its own state. -/
theorem sbiVs_defined_status :
    16 ≤ (oneCaller 0x48534D 2 0).extid 0 ∧ (oneCaller 0x48534D 2 0).Answered 0 ∧
    ∀ stack stack', (sbiVsHandler plainEnv stack (oneCaller 0x48534D 2 0) 0).2.results 0 =
      (sbiVsHandler plainEnv stack' (oneCaller 0x48534D 2 0) 0).2.results 0 := by
  have hext : 16 ≤ (oneCaller 0x48534D 2 0).extid 0 := by decide
  have h : (oneCaller 0x48534D 2 0).Answered 0 :=
    .inr (.inr (.inr (.inr ⟨by decide, by decide, 0, by decide⟩)))
  exact ⟨hext, h, ((sbiVs_defined_iff plainEnv _ 0 hext).mpr h).1⟩

/-- For extension `0x11`, which has no handler, `a0` is what the stack held, and the error code is
in `a1`. -/
theorem sbiVs_leaks_stack :
    16 ≤ (oneCaller 0x11 0 0).extid 0 ∧ (oneCaller 0x11 0 0).extid 0 ∉ sbiExtensions ∧
    (sbiVsHandler plainEnv (.fill ⟨7, 0⟩) (oneCaller 0x11 0 0) 0).2.results 0 =
      (7, .ofInt 64 sbiErrNotSupported) ∧
    (sbiVsHandler plainEnv (.fill ⟨8, 0⟩) (oneCaller 0x11 0 0) 0).2.results 0 =
      (8, .ofInt 64 sbiErrNotSupported) := by
  decide

/-! ## Runs -/

/-- `guest` is any change a guest makes to its own registers. -/
inductive Action (n : Nat) where
  | ecall (self : Fin n) (stack : SbiStack)
  | deliver (i : Fin n)
  | timerIrq (i : Fin n)
  | guest (i : Fin n) (regs : ArchRegs)

def step (env : SbiEnv) (s : SbiSystem n) : Action n → Option (SbiSystem n)
  | .ecall self stack => some (sbiVsHandler env stack s self).2
  | .deliver i => (s.vm.deliver i).map fun vm => { s with vm }
  | .timerIrq i => some (s.sbiTimerIrqHandler i)
  | .guest i regs => some { s with vm := s.vm.setVcpu i { s.vm.vcpu i with regs } }

/-- The action is not a call, or a legacy one, or answered in full. -/
def AnsweredAction (s : SbiSystem n) : Action n → Prop
  | .ecall self _ => 16 ≤ s.extid self → s.Answered self
  | _ => True

/-- The same action, on a stack that may differ. -/
inductive SameCall : Action n → Action n → Prop
  | ecall (self : Fin n) (stack stack' : SbiStack) :
    SameCall (.ecall self stack) (.ecall self stack')
  | refl (a : Action n) : SameCall a a

theorem step_sameCall {env : SbiEnv} (s : SbiSystem n) (a b : Action n) (hab : SameCall a b)
    (h : s.AnsweredAction a) : step env s a = step env s b := by
  cases hab with
  | refl => rfl
  | ecall self stack stack' =>
    simp only [step, sbiVsHandler]
    split
    · rfl
    · rename_i hext
      rw [sbiVsSwitch_answered (h (Nat.not_lt.mp hext)) stack stack']

/-- As long as the guests make no other calls, nothing in the system ever depends on the stack: runs
that differ in it alone end in the same state. -/
theorem sbi_run_sameCalls {env : SbiEnv} {s : SbiSystem n} {as bs : List (Action n)}
    (hsame : List.Forall₂ SameCall as bs) (hcalls : Along (step env) AnsweredAction s as) :
    run (step env) s as = run (step env) s bs :=
  hcalls.run_congr step_sameCall hsame

/-- A timer interrupt, and then a call for the state of the caller. -/
theorem sbi_run_sameCalls_status :
    let s := oneCaller 0x48534D 2 0
    s.Answered 0 ∧ run (step plainEnv) s [.timerIrq 0, .ecall 0 (.fill ⟨0, 0⟩)] =
      run (step plainEnv) s [.timerIrq 0, .ecall 0 (.fill ⟨7, 7⟩)] := by
  intro s
  have h : s.Answered 0 := .inr (.inr (.inr (.inr ⟨by decide, by decide, 0, by decide⟩)))
  refine ⟨h, sbi_run_sameCalls (.cons (.refl _) (.cons (.ecall ..) .nil)) ⟨trivial, ?_⟩⟩
  rintro t ⟨⟩
  exact ⟨fun _ => h, fun _ _ => trivial⟩

end SbiSystem

end Bao
