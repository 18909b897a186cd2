import Bao.Lib.Bit
import Bao.Armv8.Vgic

/-!
# Forwarded register writes of the virtual GIC

A vcpu that writes a field of an interrupt which another vcpu owns does not update it but sends the
write to the owner: the interrupt, the register and the value go into the fields of one word, and
the owner looks them up again. The word has eight bits for the value, and the field for the
redistributor is always 0.
-/

namespace Bao.Armv8

/-! ## The fields of the word -/

section Fields

variable (vmId vgicrId intId reg : Nat) (val : BitVec 64)

theorem getLsbD_vgicMsgData (i : Nat) :
    (vgicMsgData vmId vgicrId intId reg val).getLsbD i =
      (decide (i < 8) && val.getLsbD i ||
      decide (8 ≤ i ∧ i < 16) && reg.testBit (i - 8) ||
      decide (16 ≤ i ∧ i < 31) && intId.testBit (i - 16) ||
      decide (32 ≤ i ∧ i < 48) && vgicrId.testBit (i - 32) ||
      decide (48 ≤ i ∧ i < 64) && vmId.testBit (i - 48)) := by
  simp only [vgicMsgData, BitVec.getLsbD_or, BitVec.getLsbD_shiftLeft, BitVec.getLsbD_setWidth,
    BitVec.getLsbD_ofNat]
  grind

omit vmId vgicrId intId reg val in
theorem toNat_field {word : BitVec 64} {off len x : Nat}
    (h : ∀ i < len, word.getLsbD (off + i) = x.testBit i) :
    (word.extractLsb' off len).toNat = x % 2 ^ len := by
  have hfield : word.extractLsb' off len = BitVec.ofNat len x := by
    apply BitVec.eq_of_getLsbD_eq
    intro i hi
    rw [BitVec.getLsbD_extractLsb', BitVec.getLsbD_ofNat, h i hi]
  rw [hfield, BitVec.toNat_ofNat]

theorem vgicMsgVm_data : vgicMsgVm (vgicMsgData vmId vgicrId intId reg val) = vmId % 2 ^ 16 := by
  apply toNat_field
  intro i hi
  rw [getLsbD_vgicMsgData]
  grind

theorem vgicMsgVgicrid_data :
    vgicMsgVgicrid (vgicMsgData vmId vgicrId intId reg val) = vgicrId % 2 ^ 16 := by
  apply toNat_field
  intro i hi
  rw [getLsbD_vgicMsgData]
  grind

theorem vgicMsgIntid_data :
    vgicMsgIntid (vgicMsgData vmId vgicrId intId reg val) = intId % 2 ^ 15 := by
  apply toNat_field
  intro i hi
  rw [getLsbD_vgicMsgData]
  grind

theorem vgicMsgReg_data : vgicMsgReg (vgicMsgData vmId vgicrId intId reg val) = reg % 2 ^ 8 := by
  apply toNat_field
  intro i hi
  rw [getLsbD_vgicMsgData]
  grind

theorem vgicMsgVal_data :
    vgicMsgVal (vgicMsgData vmId vgicrId intId reg val) = (val.setWidth 8).setWidth 64 := by
  apply BitVec.eq_of_getLsbD_eq
  intro i hi
  rw [vgicMsgVal, BitVec.getLsbD_setWidth, BitVec.getLsbD_extractLsb', getLsbD_vgicMsgData,
    BitVec.getLsbD_setWidth, BitVec.getLsbD_setWidth]
  grind

end Fields

/-! ## The owner's call -/

variable {n : Nat} (g : VgicConfig n)

/-- The interrupts that the VM has. -/
def IntRef.Valid : IntRef n → Prop
  | .priv _ _ => True
  | .spi id => gicCpuPriv ≤ id ∧ id < g.intNum

/-- The message is a write of `data` to the field of `h` of the interrupt `r`. -/
def WritesField (msg : VgicMsg) (h : RegHandler) (r : IntRef n) (data : BitVec 64) : Prop :=
  msg.event = .setReg ∧ vgicMsgVm msg.data = g.vmId ∧ setRegCall g msg.data = some (h, r, data)

theorem vgicGetRegHandlerInfo_regid (h : RegHandler) :
    vgicGetRegHandlerInfo (h.regid % 2 ^ 8) = some h := by
  cases h <;> rfl

theorem vgicGetInt_forwarded {r : IntRef n} (hr : r.Valid g) :
    vgicGetInt g (r.id % 2 ^ 15) (0 % 2 ^ 16) = some r ↔ ∀ u id, r = .priv u id → u.val = 0 := by
  cases r with
  | priv u id =>
    have hid : id.val % 2 ^ 15 = id := Nat.mod_eq_of_lt (id.isLt.trans (by decide))
    simp only [IntRef.id, hid, vgicGetInt, id.isLt, ↓reduceDIte]
    constructor
    · intro hint u' id' heq
      cases heq
      split at hint
      · cases hint; rfl
      · cases hint
    · intro hzero
      have hu := hzero u id rfl
      have hn : 0 % 2 ^ 16 < n := by omega
      rw [dif_pos hn]
      congr 2
      exact Fin.ext hu.symm
  | spi id =>
    obtain ⟨hpriv, hnum⟩ := hr
    have hid : id % 2 ^ 15 = id := Nat.mod_eq_of_lt (by have := g.intNum_le; omega)
    simp only [IntRef.id, hid, vgicGetInt, hpriv.not_gt, hnum]
    simp

theorem setWidth_byte_iff (data : BitVec 64) :
    (data.setWidth 8).setWidth 64 = data ↔ data.toNat < 256 := by
  rw [BitVec.toNat_eq, BitVec.toNat_setWidth, BitVec.toNat_setWidth]
  omega

/-- A forwarded write updates on the owner what it would update locally, with the same value, in
exactly the cases in which the value fits into eight bits and the interrupt is one of the
distributor or of the redistributor 0. The other values are those of `IROUTER`. -/
theorem vgicSetField_forwarded_iff {s : VgicState n} {v w : Fin n} {r : IntRef n} (h : RegHandler)
    (val : BitVec 64) (off : Nat) (hr : r.Valid g) (howner : (s.ints r).owner = some w)
    (hother : w ≠ v) (hfree : s.locked r = false) :
    ∃ msg, vgicIntSetField g s v h r (bitExtract val off h.fieldWidth) =
        some (s.cpuSendMsg msg (g.physId w)) ∧
      (WritesField g msg h r (bitExtract val off h.fieldWidth) ↔
        (bitExtract val off h.fieldWidth).toNat < 256 ∧ ∀ u id, r = .priv u id → u.val = 0) := by
  generalize bitExtract val off h.fieldWidth = data
  refine ⟨⟨.setReg, vgicMsgData g.vmId 0 r.id h.regid data⟩, ?_, ?_⟩
  · simp [vgicIntSetField, hfree, vgicGetOwnership, vgicOwns, howner, hother]
  · rw [WritesField, vgicMsgVm_data, Nat.mod_eq_of_lt g.vmId_lt, setRegCall, vgicMsgReg_data,
      vgicGetRegHandlerInfo_regid, vgicMsgIntid_data, vgicMsgVgicrid_data, vgicMsgVal_data,
      ← vgicGetInt_forwarded g hr, ← setWidth_byte_iff]
    cases hint : vgicGetInt g (r.id % 2 ^ 15) (0 % 2 ^ 16) with
    | none => simp
    | some r' => simp [and_comm]

/-- A VM with two vcpus in different clusters of a GICv3 platform. -/
def twoClusters : VgicConfig 2 where
  version := .gicv3
  vmId := 1
  cpus := 0b11
  cpuNum := 2
  intNum := 64
  numIrqs := 33
  numLrs := 4
  physId v := v
  vmpidr v := 0x80000000 ||| BitVec.ofNat 64 v <<< 8
  cpuIdToMpidr i := 0x80000000 ||| BitVec.ofNat 64 i <<< 8
  vmId_lt := by decide
  intNum_le := by decide

/-- All interrupts are owned by the vcpu `v`. -/
def allOwnedBy (v : Fin 2) : VgicState 2 where
  ints _ := { owner := some v }
  cpu _ := {}
  held _ := none
  queue _ := []

/-- A priority that vcpu 0 writes for an interrupt of vcpu 1. -/
theorem vgicSetField_forwarded_prio : ∃ msg,
    vgicIntSetField twoClusters (allOwnedBy 1) 0 .ipriorityr (.spi 40) 0xa0 =
      some ((allOwnedBy 1).cpuSendMsg msg 1) ∧
    WritesField twoClusters msg .ipriorityr (.spi 40) 0xa0 := by
  obtain ⟨msg, hsend, hwrites⟩ := vgicSetField_forwarded_iff twoClusters
    (s := allOwnedBy 1) (v := 0) (w := 1) (r := .spi 40) .ipriorityr 0xb0a0 0
    ⟨by decide, by decide⟩ rfl (by decide) (by decide)
  have hdata : bitExtract 0xb0a0 0 RegHandler.ipriorityr.fieldWidth = 0xa0 := by decide
  rw [hdata] at hsend hwrites
  exact ⟨msg, hsend, hwrites.mpr ⟨by decide, by simp⟩⟩

/-- The route to vcpu 1 that vcpu 0 writes arrives as the route to vcpu 0, and the enable bit of a
private interrupt of vcpu 1 arrives at that of vcpu 0. -/
theorem vgicSetField_forwarded_elsewhere :
    (∃ msg, vgicIntSetField twoClusters (allOwnedBy 1) 0 .irouter (.spi 40)
        (bitExtract 0x100 0 RegHandler.irouter.fieldWidth) =
          some ((allOwnedBy 1).cpuSendMsg msg 1) ∧
      WritesField twoClusters msg .irouter (.spi 40) 0 ∧
      ¬ WritesField twoClusters msg .irouter (.spi 40)
        (bitExtract 0x100 0 RegHandler.irouter.fieldWidth)) ∧
    ∃ msg, vgicIntSetField twoClusters (allOwnedBy 1) 0 .isenabler (.priv 1 ⟨20, by decide⟩)
        (bitExtract 0x100000 20 RegHandler.isenabler.fieldWidth) =
          some ((allOwnedBy 1).cpuSendMsg msg 1) ∧
      WritesField twoClusters msg .isenabler (.priv 0 ⟨20, by decide⟩) 1 ∧
      ¬ WritesField twoClusters msg .isenabler (.priv 1 ⟨20, by decide⟩)
        (bitExtract 0x100000 20 RegHandler.isenabler.fieldWidth) := by
  refine ⟨⟨⟨.setReg, vgicMsgData 1 0 40 7 0x100⟩, ?_, ?_, ?_⟩,
    ⟨⟨.setReg, vgicMsgData 1 0 20 0 1⟩, ?_, ?_, ?_⟩⟩
  · rfl
  · exact ⟨rfl, by decide, by decide⟩
  · rintro ⟨-, -, hcall⟩
    exact absurd hcall (by decide)
  · rfl
  · exact ⟨rfl, by decide, by decide⟩
  · rintro ⟨-, -, hcall⟩
    exact absurd hcall (by decide)

end Bao.Armv8
