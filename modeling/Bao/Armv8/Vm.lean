import Mathlib.Data.List.FinRange

/-!
# Vcpus of an Armv8 VM

The registers of a vcpu with what `vcpu_arch_init` and `vcpu_arch_reset` write to them, and the
search for a vcpu by its affinity.
-/

namespace Bao.Armv8

/-- `MPIDR_AFF_MSK`: two affinity levels are supported. -/
def mpidrAffMsk : BitVec 64 := 0xffff

/-- `vm_get_vcpu_by_mpidr`, over the `vmpidr` of the vcpus of a VM. -/
def vmGetVcpuByMpidr {n : Nat} (vmpidr : Fin n → BitVec 64) (mpidr : BitVec 64) : Option (Fin n) :=
  (List.finRange n).find? fun i => vmpidr i &&& mpidrAffMsk = mpidr &&& mpidrAffMsk

/-- `struct arch_regs`. -/
structure ArchRegs where
  x : Nat → BitVec 64 := fun _ => 0
  elrEl2 : BitVec 64 := 0
  spsrEl2 : BitVec 64 := 0

/-- The system registers that a reset of the vcpu writes. -/
structure SysRegs where
  cntvoffEl2 : BitVec 64 := 0
  sctlrEl1 : BitVec 64 := 0
  cntkctlEl1 : BitVec 64 := 0
  pmcrEl0 : BitVec 64 := 0

def spsrEl1h : BitVec 64 := 0x5
def spsrF : BitVec 64 := 1 <<< 6
def spsrI : BitVec 64 := 1 <<< 7
def spsrA : BitVec 64 := 1 <<< 8
def spsrD : BitVec 64 := 1 <<< 9
def sctlrRes1 : BitVec 64 := 0x30C50830

inductive PsciState where
  | on
  | off
  | onPending
  deriving DecidableEq, Repr

/-- `psci_ctx_t`; the memory of a vcpu is cleared when it is allocated. -/
structure PsciCtx where
  lock : Bool := false
  entrypoint : BitVec 64 := 0
  contextId : BitVec 64 := 0
  state : PsciState := .on

/-- `physId` is the physical cpu that runs the vcpu. -/
structure Vcpu where
  id : Nat
  physId : Nat
  vmpidr : BitVec 64 := 0
  regs : ArchRegs := {}
  psciCtx : PsciCtx := {}

/-- `vcpu_arch_init`, as far as it writes to the vcpu. -/
def vcpuArchInit (vmCpuidToMpidr : Nat → BitVec 64) (vcpu : Vcpu) : Vcpu :=
  { vcpu with
    vmpidr := vmCpuidToMpidr vcpu.id
    psciCtx := { vcpu.psciCtx with state := if vcpu.id = 0 then .on else .off } }

def vcpuArchReset (vcpu : Vcpu) (entry : BitVec 64) : Vcpu × SysRegs :=
  ({ vcpu with regs :=
      { elrEl2 := entry, spsrEl2 := spsrEl1h ||| spsrF ||| spsrI ||| spsrA ||| spsrD } },
    { cntvoffEl2 := 0, sctlrEl1 := sctlrRes1, cntkctlEl1 := 0, pmcrEl0 := 0 })

end Bao.Armv8
