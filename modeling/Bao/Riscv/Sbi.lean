import Bao.Core.Vm
import Bao.Riscv.Vcpu

/-!
# SBI calls on sets of harts

A guest names harts by a mask and a base: bit `i` of the mask is virtual hart `base + i`.
`sbi_ipi_handler` walks over the bits; `sbi_rfence_handler` shifts the mask by the base, translates
it at once and hands it to the firmware. It shifts to the right, where the base asks for a shift to
the left, so the two handlers name the same harts only where both shifts agree on the VM's harts.
-/

namespace Bao

/-- The error codes of `sbi.h`. -/
def sbiSuccess : Int := 0
def sbiErrFailure : Int := -1
def sbiErrNotSupported : Int := -2
def sbiErrInvalidParam : Int := -3
def sbiErrAlreadyAvailable : Int := -6

/-- `struct sbiret`. A C initialiser that leaves out `value` makes it 0. -/
structure SbiRet where
  error : Int
  value : Int := 0
  deriving DecidableEq, Repr

/-- `enum SBI_MSG_EVENTS`. -/
inductive SbiMsgEvent where
  | sendIpi
  | hartStart
  deriving DecidableEq, Repr

/-- A `cpu_msg_t` for `sbi_msg_handler`. -/
structure SbiMsg where
  event : SbiMsgEvent
  data : Nat := 0
  deriving DecidableEq, Repr

/-- The calls `sbi_rfence_handler` makes into the firmware. -/
inductive RfenceCall where
  | remoteFenceI (hartMask hartMaskBase : Nat)
  | remoteHfenceVvma (hartMask hartMaskBase : Nat) (startAddr size : Word)
  | remoteHfenceVvmaAsid (hartMask hartMaskBase : Nat) (startAddr size asid : Word)
  deriving DecidableEq

/-- The mask of physical harts handed to the firmware. -/
def RfenceCall.hartMask : RfenceCall → Nat
  | .remoteFenceI m _ => m
  | .remoteHfenceVvma m _ _ _ => m
  | .remoteHfenceVvmaAsid m _ _ _ _ => m

/-- `sbi_ipi_handler` for the calling `vcpu`: the result, and the messages sent with their target
harts. -/
def sbiIpiHandler (cpus : Nat) (vcpu : Vcpu) (fid : Nat) : SbiRet × List (Nat × SbiMsg) :=
  if fid ≠ 0 then (⟨sbiErrNotSupported, 0⟩, [])
  else
    let hartMask := (vcpuReadreg vcpu regA0).toNat
    let hartMaskBase := (vcpuReadreg vcpu regA1).toNat
    let msg : SbiMsg := { event := .sendIpi }
    let sent := (List.range 64).filterMap fun i =>
      if hartMask.testBit i then
        (vmTranslateToPcpuid cpus (u64 (hartMaskBase + i))).map fun phartId => (phartId, msg)
      else none
    (⟨sbiSuccess, 0⟩, sent)

/-- `sbi_rfence_handler`: an answer of its own, or the firmware call whose answer it returns. `ret`
is what the uninitialised local of that name holds. -/
def sbiRfenceHandler (cpus : Nat) (vcpu : Vcpu) (ret : SbiRet) (fid : Nat) :
    Except SbiRet RfenceCall :=
  let hartMask := (vcpuReadreg vcpu regA0).toNat
  let hartMaskBase := (vcpuReadreg vcpu regA1).toNat
  let startAddr := vcpuReadreg vcpu regA2
  let size := vcpuReadreg vcpu regA3
  let asid := vcpuReadreg vcpu regA4
  let hartMaskWidth := 64
  if hartMaskBase ≠ 0 ∧ (hartMaskWidth ≤ hartMaskBase ∨
      (bitmapFindNth hartMask.testBit hartMaskWidth 1 (hartMaskWidth - hartMaskBase) true).any
        (0 < ·)) then
    .error ⟨sbiErrInvalidParam, 0⟩
  else
    let hartMask := hartMask >>> hartMaskBase
    let phartMask := vmTranslateToPcpuMask cpus hartMask 64
    match fid with
    | 0 => .ok (.remoteFenceI phartMask 0)
    | 1 => .ok (.remoteHfenceVvma phartMask 0 startAddr size)
    | 2 => .ok (.remoteHfenceVvmaAsid phartMask 0 startAddr size asid)
    | _ => .error { ret with error := sbiErrNotSupported }

variable {cpus : Nat} {vcpu : Vcpu} {ret : SbiRet} {fid : Nat} {call : RfenceCall}

theorem sbiRfenceHandler_ok (h : sbiRfenceHandler cpus vcpu ret fid = .ok call) :
    (vcpuReadreg vcpu regA1).toNat < 64 ∧
      call.hartMask = vmTranslateToPcpuMask cpus
        ((vcpuReadreg vcpu regA0).toNat >>> (vcpuReadreg vcpu regA1).toNat) 64 := by
  unfold sbiRfenceHandler at h
  simp only at h
  split at h
  · cases h
  · rename_i hacc
    refine ⟨by omega, ?_⟩
    split at h <;> cases h <;> rfl

theorem sbiRfenceHandler_onPcpu (h : sbiRfenceHandler cpus vcpu ret fid = .ok call) (p : Nat) :
    call.hartMask.testBit p = true ↔
      OnPcpu cpus ((vcpuReadreg vcpu regA0).toNat >>> (vcpuReadreg vcpu regA1).toNat) p := by
  rw [(sbiRfenceHandler_ok h).2, vmTranslateToPcpuMask_testBit]
  constructor
  · rintro ⟨v, hv, hbit⟩
    exact ⟨v, by omega, hbit⟩
  · rintro ⟨v, hv, hbit, htrans⟩
    have := vmTranslateToPcpuid_lt_popcount hv htrans
    have := popcount_le cpus
    exact ⟨v, by omega, hbit, htrans⟩

/-- The harts `sbi_ipi_handler` sends a message to. -/
def ipiTargets (cpus : Nat) (vcpu : Vcpu) : List Nat := (sbiIpiHandler cpus vcpu 0).2.map (·.1)

theorem mem_ipiTargets {p : Nat} :
    p ∈ ipiTargets cpus vcpu ↔ ∃ i < 64, (vcpuReadreg vcpu regA0).toNat.testBit i = true ∧
      vmTranslateToPcpuid cpus (u64 ((vcpuReadreg vcpu regA1).toNat + i)) = some p := by
  simp only [ipiTargets, sbiIpiHandler, ne_eq, not_true_eq_false, if_false, List.mem_map,
    List.mem_filterMap, List.mem_range]
  constructor
  · rintro ⟨⟨q, msg⟩, ⟨i, hi, hsent⟩, rfl⟩
    split at hsent
    · rename_i hbit
      obtain ⟨q', hq, heq⟩ := Option.map_eq_some_iff.mp hsent
      cases heq
      exact ⟨i, hi, hbit, hq⟩
    · cases hsent
  · rintro ⟨i, hi, hbit, htrans⟩
    exact ⟨(p, _), ⟨i, hi, by rw [if_pos hbit, htrans]; rfl⟩, rfl⟩

theorem mem_ipiTargets_onPcpu {p : Nat} (hbase : (vcpuReadreg vcpu regA1).toNat < 64) :
    p ∈ ipiTargets cpus vcpu ↔
      OnPcpu cpus ((vcpuReadreg vcpu regA0).toNat <<< (vcpuReadreg vcpu regA1).toNat) p := by
  rw [mem_ipiTargets]
  have hwidth := (vcpuReadreg vcpu regA0).isLt
  generalize (vcpuReadreg vcpu regA0).toNat = mask at *
  generalize (vcpuReadreg vcpu regA1).toNat = base at *
  constructor
  · rintro ⟨i, hi, hbit, htrans⟩
    rw [u64_of_lt (by omega)] at htrans
    refine ⟨base + i, by omega, ?_, htrans⟩
    simpa [Nat.testBit_shiftLeft] using hbit
  · rintro ⟨v, hv, hbit, htrans⟩
    simp only [Nat.testBit_shiftLeft, Bool.and_eq_true, decide_eq_true_eq] at hbit
    have hlt : v - base < 64 := by
      by_contra hge
      rw [Nat.testBit_lt_two_pow (hwidth.trans_le (Nat.pow_le_pow_right (by decide)
        (Nat.not_lt.mp hge)))] at hbit
      simp at hbit
    refine ⟨v - base, hlt, hbit.2, ?_⟩
    rwa [u64_of_lt (by omega), Nat.add_sub_cancel' hbit.1]

/-- For a remote fence that is not refused, `sbi_ipi_handler` reaches the harts `base + i` the guest
named. The fence reaches the same harts exactly when the mask shifted to the left by the base agrees
with the mask shifted to the right on the VM's virtual harts; base 0 is the common case. -/
theorem sbiHartMasks_agree_iff (h : sbiRfenceHandler cpus vcpu ret fid = .ok call) :
    let hartMask := (vcpuReadreg vcpu regA0).toNat
    let base := (vcpuReadreg vcpu regA1).toNat
    (∀ p, p ∈ ipiTargets cpus vcpu ↔
      ∃ i < 64, hartMask.testBit i = true ∧ vmTranslateToPcpuid cpus (base + i) = some p) ∧
    ((∀ p, call.hartMask.testBit p = true ↔ p ∈ ipiTargets cpus vcpu) ↔
      (hartMask >>> base) % 2 ^ popcount cpus = (hartMask <<< base) % 2 ^ popcount cpus) := by
  intro hartMask base
  have hbase := (sbiRfenceHandler_ok h).1
  constructor
  · intro p
    rw [mem_ipiTargets]
    refine exists_congr fun i => and_congr_right fun hi => ?_
    rw [u64_of_lt (by omega)]
  · simp only [sbiRfenceHandler_onPcpu h, mem_ipiTargets_onPcpu hbase]
    exact onPcpu_congr_iff cpus _ _

/-- A vcpu with the given argument registers. -/
def vcpuWithArgs (a0 a1 : Word) : Vcpu :=
  vcpuWritereg (vcpuWritereg ⟨0, 0, 0, {}, {}⟩ regA0 a0) regA1 a1

/-- With base 0 both handlers reach hart 1 of a VM on harts 4 and 6. -/
theorem sbiHartMasks_agree_base_zero :
    sbiRfenceHandler 0x50 (vcpuWithArgs 2 0) ⟨0, 0⟩ 0 = .ok (.remoteFenceI 0x40 0) ∧
    (∀ p, (RfenceCall.remoteFenceI 0x40 0).hartMask.testBit p = true ↔
      p ∈ ipiTargets 0x50 (vcpuWithArgs 2 0)) := by
  have h : sbiRfenceHandler 0x50 (vcpuWithArgs 2 0) ⟨0, 0⟩ 0 = .ok (.remoteFenceI 0x40 0) := by
    decide
  exact ⟨h, (sbiHartMasks_agree_iff h).2.mpr (by decide)⟩

/-- With base 1 and mask 1 the guest names hart 1; the message goes there, the fence to nobody. -/
theorem sbiHartMasks_disagree :
    sbiRfenceHandler 3 (vcpuWithArgs 1 1) ⟨0, 0⟩ 0 = .ok (.remoteFenceI 0 0) ∧
    ipiTargets 3 (vcpuWithArgs 1 1) = [1] ∧
    ¬ ∀ p, (RfenceCall.remoteFenceI 0 0).hartMask.testBit p = true ↔
      p ∈ ipiTargets 3 (vcpuWithArgs 1 1) :=
  ⟨by decide, by decide, fun h => absurd ((h 1).mpr (by decide)) (by decide)⟩

end Bao
