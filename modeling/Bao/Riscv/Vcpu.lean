import Mathlib.Logic.Function.Basic

/-!
# RISC-V vcpus

The register file of a vcpu, the CSRs of the hart that runs it, and the functions of
`arch/riscv/vm.c` that set them up. Registers and CSRs are 64 bits wide.
-/

namespace Bao

abbrev Word := BitVec 64

/-- `struct arch_regs`; `x i` is the register `x(i+1)`. -/
structure ArchRegs where
  x : Nat → Word := fun _ => 0
  hstatus : Word := 0
  sstatus : Word := 0
  sepc : Word := 0

def regA0 : Nat := 10
def regA1 : Nat := 11
def regA2 : Nat := 12
def regA3 : Nat := 13
def regA4 : Nat := 14
def regA6 : Nat := 16
def regA7 : Nat := 17

/-- The CSRs that the modelled functions read or write. -/
structure Csrs where
  hcounteren : Word := 0
  htimedelta : Word := 0
  vsstatus : Word := 0
  hie : Word := 0
  vstvec : Word := 0
  vsscratch : Word := 0
  vsepc : Word := 0
  vscause : Word := 0
  vstval : Word := 0
  hvip : Word := 0
  vsatp : Word := 0
  deriving DecidableEq

def hipVssip : Word := 1 <<< 2
def hipVstip : Word := 1 <<< 6
def hipVseip : Word := 1 <<< 10

def hstatusSpv : Word := 1 <<< 7
def hstatusVsxl64 : Word := 2 <<< 32
def sstatusSpp : Word := 1 <<< 8
def sstatusFsDirty : Word := 3 <<< 13
def sstatusXsDirty : Word := 3 <<< 15
def sstatusSd : Word := 1 <<< 63
def hcounterenCy : Word := 1 <<< 0
def hcounterenTm : Word := 1 <<< 1
def hcounterenIr : Word := 1 <<< 2

/-- The states of `struct sbi_hsm`, in the order of the C enumeration. -/
inductive HsmState where
  | started
  | stopped
  | startPending
  | stopPending
  deriving DecidableEq, Repr

/-- The value `sbi_hsm_status_handler` reports for a state. -/
def HsmState.toNat : HsmState → Nat
  | .started => 0
  | .stopped => 1
  | .startPending => 2
  | .stopPending => 3

/-- `struct sbi_hsm`; the lock is the atomicity of the handlers. -/
structure SbiHsm where
  state : HsmState := .started
  startAddr : Word := 0
  priv : Word := 0

structure Vcpu where
  id : Nat
  physId : Nat
  hartId : Nat := 0
  regs : ArchRegs := {}
  sbiCtx : SbiHsm := {}

def vcpuReadreg (vcpu : Vcpu) (reg : Nat) : Word :=
  if reg = 0 ∨ 31 < reg then 0 else vcpu.regs.x (reg - 1)

def vcpuWritereg (vcpu : Vcpu) (reg : Nat) (val : Word) : Vcpu :=
  if reg = 0 ∨ 31 < reg then vcpu
  else { vcpu with regs := { vcpu.regs with x := Function.update vcpu.regs.x (reg - 1) val } }

def vcpuReadpc (vcpu : Vcpu) : Word := vcpu.regs.sepc

/-- Only vcpu 0 runs from the start. -/
def vcpuArchInit (vcpu : Vcpu) : Vcpu :=
  { vcpu with sbiCtx := { vcpu.sbiCtx with state := if vcpu.id = 0 then .started else .stopped } }

/-- The `CSRW`s at the end of `vcpu_arch_reset`. They overwrite every modelled CSR. -/
def resetCsrs : Csrs where
  hcounteren := hcounterenTm ||| hcounterenCy ||| hcounterenIr
  htimedelta := 0
  vsstatus := sstatusSd ||| sstatusFsDirty ||| sstatusXsDirty
  hie := 0
  vstvec := 0
  vsscratch := 0
  vsepc := 0
  vscause := 0
  vstval := 0
  hvip := 0
  vsatp := 0

/-- `vcpu_arch_reset`: the vcpu and the CSRs of the hart that executes it. -/
def vcpuArchReset (vcpu : Vcpu) (entry : Word) : Vcpu × Csrs :=
  let regs : ArchRegs :=
    { hstatus := hstatusSpv ||| hstatusVsxl64
      sstatus := sstatusSpp ||| sstatusFsDirty ||| sstatusXsDirty
      sepc := entry }
  let vcpu := { vcpu with regs := regs, hartId := vcpu.id }
  (vcpuWritereg (vcpuWritereg vcpu regA0 (BitVec.ofNat 64 vcpu.id)) regA1 0, resetCsrs)

@[simp] theorem vcpuReadreg_writereg {vcpu : Vcpu} {reg reg' : Nat} {val : Word} :
    vcpuReadreg (vcpuWritereg vcpu reg val) reg' =
      if reg' = reg ∧ reg ≠ 0 ∧ reg ≤ 31 then val else vcpuReadreg vcpu reg' := by
  unfold vcpuReadreg vcpuWritereg
  by_cases hr : reg = 0 ∨ 31 < reg
  · rw [if_pos hr, if_neg (c := reg' = reg ∧ reg ≠ 0 ∧ reg ≤ 31) (by omega)]
  · rw [if_neg hr]
    by_cases hr' : reg' = 0 ∨ 31 < reg'
    · rw [if_pos hr', if_neg (by omega), if_pos hr']
    · rw [if_neg hr', if_neg hr']
      by_cases heq : reg' = reg
      · subst heq
        rw [if_pos (by omega)]
        exact Function.update_self ..
      · rw [if_neg (by omega)]
        exact Function.update_of_ne (by omega) ..

end Bao
