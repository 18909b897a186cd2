import Bao.Riscv.SyncExceptions
import Bao.Riscv.VplicRegs

/-!
# Guest loads from the vPLIC

The way of a load from the page fault it causes to the register of the vcpu: the fault handler
decodes the instruction, `vm_emul_get_mem` finds the handler of the window, and the handler writes
the register. The address comes from `htval`, which does not hold its two low bits, and no one looks
at the signedness that was decoded.
-/

namespace Bao

open Foundation

/-! ## The handlers -/

/-- `vplic_global_emul_handler` and `vplic_hart_emul_handler`. -/
inductive VplicHandler where
  | global
  | hart
  deriving DecidableEq

/-- The emulation list of a VM to which `vplic_init` has added its two regions. -/
def vplicEmulList (plat : PlicPlat) : List (EmulNode VplicHandler) :=
  let list := vmEmulAddMem []
    { vaBase := plat.plicBase.toNat, size := plicGlobalSize plat, handler := some .global } true
  vmEmulAddMem list
    { vaBase := (plat.plicBase + 0x200000).toNat, size := plicHartSize plat, handler := some .hart }
    true

/-- The controller of a VM and the vcpu that accesses it. -/
structure VplicGuest where
  vplic : VplicState
  vcpu : Vcpu

def emulAccess (vcpu : Vcpu) (addr : Word) (emul : LdstEmul) : EmulAccess where
  addr := addr
  width := emul.width
  write := emul.write
  regVal := vcpuReadreg vcpu emul.reg

/-- The end of a handler: the line that is left is updated and a load writes its register. -/
def vplicFinish (vm : VplicVm) (cpu reg : Nat) (vcpu : Vcpu) (r : VplicResult) : VplicGuest where
  vplic := (r.line.map fun vcntxt => (vplicUpdateHartLine vm cpu vcntxt r.state).val).getD r.state
  vcpu := (r.val.map fun val => vcpuWritereg vcpu reg val).getD vcpu

/-- A call of a handler on the physical cpu `cpu`, which has no result when it returns `false`. -/
def vplicCall (vm : VplicVm) (cpu : Nat) (handler : VplicHandler) (addr : Word) (emul : LdstEmul)
    (s : VplicGuest) : Option VplicGuest :=
  let acc := emulAccess s.vcpu addr emul
  let result := match handler with
    | .global => vplicGlobalEmulHandler vm cpu acc s.vplic
    | .hart => vplicHartEmulHandler vm cpu acc s.vplic
  result.map fun x => vplicFinish vm cpu emul.reg s.vcpu x.val

/-- `guest_page_fault_handler` for a VM whose emulation list has the regions of the controller. -/
def vplicFault (vm : VplicVm) (cpu : Nat) (hlvxhu : Word → BitVec 16) (csrs : FaultCsrs)
    (s : VplicGuest) : Option (VplicGuest × Nat) :=
  guestPageFaultHandler (vplicEmulList vm.plat) (vplicCall vm cpu) hlvxhu csrs s

section Windows

variable {vm : VplicVm} {plat : PlicPlat} {cpu : Nat} {addr : Word}

theorem inEmulMem_iff (vaBase : Word) (size : Nat) :
    inEmulMem vaBase size addr = true ↔
      vaBase.toNat ≤ addr.toNat ∧ addr.toNat < u64 (vaBase.toNat + size) := by
  simp [inEmulMem, BitVec.le_def, BitVec.lt_def, BitVec.toNat_add, u64]

theorem vmEmulGetMem_vplic : vmEmulGetMem (vplicEmulList plat) addr.toNat =
    if inEmulMem plat.plicBase (plicGlobalSize plat) addr then some .global
    else if inEmulMem (plat.plicBase + 0x200000) (plicHartSize plat) addr then some .hart
    else none := by
  simp only [inEmulMem_iff]
  rfl

variable {size : Nat} {acc : EmulAccess} {s : VplicState}

theorem vplicFault_eq {hlvxhu : Word → BitVec 16} {csrs : FaultCsrs} {emul : LdstEmul}
    (hdec : faultAccess hlvxhu csrs = some (emul, size)) (s : VplicGuest) :
    vplicFault vm cpu hlvxhu csrs s =
      (vplicEmul vm cpu (emulAccess s.vcpu (csrs.htval <<< 2) emul) s.vplic).map fun x =>
        (vplicFinish vm cpu emul.reg s.vcpu x.val, size) := by
  cases hglobal : inEmulMem vm.plat.plicBase (plicGlobalSize vm.plat) (csrs.htval <<< 2) with
  | true =>
    simp only [vplicFault, guestPageFaultHandler, vmEmulGetMem_vplic, hdec, vplicEmul, emulAccess,
      hglobal, if_true, Option.bind_some, vplicCall, Option.map_map]
    rfl
  | false =>
    cases hhart : inEmulMem (vm.plat.plicBase + 0x200000) (plicHartSize vm.plat)
        (csrs.htval <<< 2) with
    | true =>
      simp only [vplicFault, guestPageFaultHandler, vmEmulGetMem_vplic, hdec, vplicEmul, emulAccess,
        hglobal, hhart, Bool.false_eq_true, if_false, if_true, Option.bind_some, vplicCall,
        Option.map_map]
      rfl
    | false =>
      simp only [vplicFault, guestPageFaultHandler, vmEmulGetMem_vplic, vplicEmul, emulAccess,
        hglobal, hhart, Bool.false_eq_true, if_false]
      rfl

/-! ## Addresses that are not those of a word -/

theorem htval_addr_toNat (g : Word) : ((g >>> 2) <<< 2).toNat = g.toNat / 4 * 4 := by
  rw [BitVec.toNat_shiftLeft, BitVec.toNat_ushiftRight, Nat.shiftRight_eq_div_pow,
    Nat.shiftLeft_eq]
  omega

theorem htval_addr_and_three (g : Word) : (g >>> 2) <<< 2 &&& 3 = 0 := by
  rw [and_three_eq_zero_iff, htval_addr_toNat]
  omega

theorem inEmulMem_htval {vaBase : Word} (hbase : vaBase.toNat % 4 = 0) (hsize : size % 4 = 0)
    (g : Word) : inEmulMem vaBase size ((g >>> 2) <<< 2) = inEmulMem vaBase size g := by
  rw [Bool.eq_iff_iff, inEmulMem_iff, inEmulMem_iff, htval_addr_toNat, u64]
  omega

theorem vplicGlobalEmulHandler_eq_none_iff (haligned : acc.addr &&& 3 = 0) :
    vplicGlobalEmulHandler vm cpu acc s = none ↔ acc.width ≠ 4 := by
  by_cases hwidth : acc.width = 4
  · simp [vplicGlobalEmulHandler_eq hwidth haligned, hwidth]
  · exact iff_of_true (if_pos (.inl hwidth)) hwidth

theorem vplicHartEmulHandler_eq_none_iff (haligned : acc.addr &&& 3 = 0) :
    vplicHartEmulHandler vm cpu acc s = none ↔ 4 < acc.width := by
  by_cases hwidth : 4 < acc.width
  · exact iff_of_true (if_pos (.inl hwidth)) hwidth
  · refine iff_of_false ?_ hwidth
    rw [vplicHartEmulHandler_eq hwidth haligned]
    exact Option.some_ne_none _

theorem vplicEmul_eq_none_iff (haligned : acc.addr &&& 3 = 0) (s : VplicState) :
    vplicEmul vm cpu acc s = none ↔
      if inEmulMem vm.plat.plicBase (plicGlobalSize vm.plat) acc.addr then acc.width ≠ 4
      else inEmulMem (vm.plat.plicBase + 0x200000) (plicHartSize vm.plat) acc.addr = true →
        4 < acc.width := by
  rw [vplicEmul]
  split
  · exact vplicGlobalEmulHandler_eq_none_iff haligned
  · split
    · next hhart =>
      rw [vplicHartEmulHandler_eq_none_iff haligned]
      exact ⟨fun h _ => h, fun h => h hhart⟩
    · next hhart => exact iff_of_true rfl fun h => absurd h hhart

end Windows

/-! ## The registers that can be loaded -/

/-- A register of the controller: a word that is held, a word of the pending bits, or the claim
register of a context. -/
inductive VplicLoadReg where
  | held (r : VplicReg)
  | pend (word : Nat)
  | claim (vcntxt : Nat)

namespace VplicLoadReg

def offset : VplicLoadReg → Nat
  | held r => r.offset
  | pend word => 0x1000 + 4 * word
  | claim vcntxt => 0x200000 + 0x1000 * vcntxt + 4

def addr (plat : PlicPlat) (r : VplicLoadReg) : Word := plicAddr plat r.offset

def Emulated (plat : PlicPlat) (r : VplicLoadReg) : Prop :=
  match r with
  | held r => r.Emulated plat
  | pend word => word < 1024 ∧ inEmulMem plat.plicBase (plicGlobalSize plat) (r.addr plat)
  | claim vcntxt => vcntxt < plat.cntxtNum ∧
      inEmulMem (plat.plicBase + 0x200000) (plicHartSize plat) (r.addr plat)

/-- The 32 bits that the register has for a load. -/
def value (vm : VplicVm) (s : VplicState) : VplicLoadReg → BitVec 32
  | held r => r.value vm s.mem
  | pend word => (vplicPendWord s.mem (word * 32)).val
  | claim vcntxt =>
    if vplicVcntxtValid vm vcntxt then
      BitVec.ofNat 32 (vplicNextPending vm.plat s.mem vcntxt).val
    else 0

theorem offset_mod (r : VplicLoadReg) : r.offset % 4 = 0 := by
  cases r with
  | held r => exact r.offset_mod
  | pend word =>
    simp only [offset]
    omega
  | claim vcntxt =>
    simp only [offset]
    omega

end VplicLoadReg

section Loads

variable {vm : VplicVm} {acc : EmulAccess}

theorem vplicNextPending_le (plat : PlicPlat) (mem : VplicMem) (vcntxt : Nat) :
    (vplicNextPending plat mem vcntxt).val ≤ plicMaxInterrupts := by
  by_cases hzero : (vplicNextPending plat mem vcntxt).val = 0
  · rw [hzero]
    exact Nat.zero_le _
  · exact (vplicNextPending_spec rfl hzero).1

variable (hbase : vm.plat.plicBase.toNat % 0x4000 = 0) (hnum : vm.plat.cntxtNum ≤ 64)
  (hwidth : acc.width = 4) (hload : acc.write = false) (cpu : Nat) (s : VplicState)

include hbase hwidth hload

theorem vplicEmul_load_pend {word : Nat} (hr : (VplicLoadReg.pend word).Emulated vm.plat)
    (haddr : acc.addr = (VplicLoadReg.pend word).addr vm.plat) :
    ∃ x, vplicEmul vm cpu acc s = some x ∧
      x.val.val = some ((vplicPendWord s.mem (word * 32)).val.setWidth 64) := by
  obtain ⟨hword, hwin⟩ := hr
  have hmod : acc.addr.toNat % 0x4000 = (0x1000 + 4 * word) % 0x4000 :=
    haddr ▸ plicAddr_toNat_mod hbase
  have hsub : (acc.addr - vm.plat.plicBase).toNat = 0x1000 + 4 * word :=
    haddr ▸ plicAddr_sub_toNat (show 0x1000 + 4 * word < 2 ^ 64 by omega)
  have haligned : acc.addr &&& 3 = 0 := by
    rw [and_three_eq_zero_iff]
    omega
  have hreg : globalAccessReg vm acc = word := by
    rw [globalAccessReg_eq, hsub]
    omega
  rw [← haddr] at hwin
  rw [vplicEmul, if_pos hwin, vplicGlobalEmulHandler_eq hwidth haligned, if_neg (by omega),
    if_pos (by omega)]
  refine ⟨_, rfl, ?_⟩
  simp [vplicEmulPendAccess, hload, hreg]

include hnum

theorem vplicEmul_load_claim {vcntxt : Nat} (hr : (VplicLoadReg.claim vcntxt).Emulated vm.plat)
    (haddr : acc.addr = (VplicLoadReg.claim vcntxt).addr vm.plat) :
    ∃ x, vplicEmul vm cpu acc s = some x ∧
      x.val.val = some (((VplicLoadReg.claim vcntxt).value vm s).setWidth 64) := by
  obtain ⟨hc, hwin⟩ := hr
  have hmod : acc.addr.toNat % 0x4000 = (0x200000 + 0x1000 * vcntxt + 4) % 0x4000 :=
    haddr ▸ plicAddr_toNat_mod hbase
  have hsub : (acc.addr - vm.plat.plicBase).toNat = 0x200000 + 0x1000 * vcntxt + 4 :=
    haddr ▸ plicAddr_sub_toNat (show 0x200000 + 0x1000 * vcntxt + 4 < 2 ^ 64 by omega)
  have haligned : acc.addr &&& 3 = 0 := by
    rw [and_three_eq_zero_iff]
    omega
  have hlow : (acc.addr &&& 0xf).toNat = 4 := by
    rw [low_toNat]
    omega
  have hcntxt : hartAccessCntxt vm acc = vcntxt := by
    rw [hartAccessCntxt_eq (by omega), hsub]
    omega
  have hid : (BitVec.ofNat 32 (vplicNextPending vm.plat s.mem vcntxt).val).setWidth 64 =
      BitVec.ofNat 64 (vplicNextPending vm.plat s.mem vcntxt).val := by
    have hle : _ ≤ 1024 := vplicNextPending_le vm.plat s.mem vcntxt
    refine BitVec.eq_of_toNat_eq ?_
    rw [BitVec.toNat_setWidth, BitVec.toNat_ofNat, BitVec.toNat_ofNat]
    omega
  rw [← haddr] at hwin
  rw [vplicEmul_hart hnum (by omega) hwin, vplicHartEmulHandler_eq (by omega) haligned, hcntxt,
    hlow]
  refine ⟨_, rfl, ?_⟩
  cases hvalid : vplicVcntxtValid vm vcntxt <;>
    simp [VplicLoadReg.value, hvalid, vplicClaim, hid, hload]

theorem vplicEmul_loadReg {r : VplicLoadReg} (hr : r.Emulated vm.plat)
    (haddr : acc.addr = r.addr vm.plat) :
    ∃ x, vplicEmul vm cpu acc s = some x ∧ x.val.val = some ((r.value vm s).setWidth 64) := by
  cases r with
  | held r =>
    obtain ⟨x, hx, hval, -⟩ := vplicEmul_reg hbase hnum hr haddr hwidth cpu s
    exact ⟨x, hx, hval hload⟩
  | pend word => exact vplicEmul_load_pend hbase hwidth hload cpu s hr haddr
  | claim vcntxt => exact vplicEmul_load_claim hbase hnum hwidth hload cpu s hr haddr

end Loads

/-! ## The result of a load -/

section Result

variable {vm : VplicVm} {i : LdSt} {hlvxhu : Word → BitVec 16} {csrs : FaultCsrs} {g : Word}
  (hbase : vm.plat.plicBase.toNat % 0x4000 = 0)
  (hdec : faultAccess hlvxhu csrs = some (ldstEmul i.access, i.size))
  (hg : csrs.htval = g >>> 2) (cpu : Nat) (s : VplicGuest)

include hbase hdec hg

theorem vplicFault_eq_none_iff
    (hwin : inEmulMem vm.plat.plicBase (plicGlobalSize vm.plat) g = true ∨
      inEmulMem (vm.plat.plicBase + 0x200000) (plicHartSize vm.plat) g = true) :
    vplicFault vm cpu hlvxhu csrs s = none ↔
      if inEmulMem vm.plat.plicBase (plicGlobalSize vm.plat) g then i.access.width ≠ 4
      else 4 < i.access.width := by
  have hglobal : inEmulMem vm.plat.plicBase (plicGlobalSize vm.plat) ((g >>> 2) <<< 2) =
      inEmulMem vm.plat.plicBase (plicGlobalSize vm.plat) g := by
    have hsize : plicGlobalSize vm.plat % 0x1000 = 0 := align_mod _
    exact inEmulMem_htval (by omega) (by omega) g
  have hhart : inEmulMem (vm.plat.plicBase + 0x200000) (plicHartSize vm.plat) ((g >>> 2) <<< 2) =
      inEmulMem (vm.plat.plicBase + 0x200000) (plicHartSize vm.plat) g := by
    refine inEmulMem_htval ?_ (by rw [plicHartSize]; omega) g
    rw [BitVec.toNat_add, show (0x200000 : Word).toNat = 0x200000 from rfl]
    omega
  have haligned : (emulAccess s.vcpu ((g >>> 2) <<< 2) (ldstEmul i.access)).addr &&& 3 = 0 :=
    htval_addr_and_three g
  rw [vplicFault_eq hdec, hg, Option.map_eq_none_iff, vplicEmul_eq_none_iff haligned]
  simp only [emulAccess, hglobal, hhart]
  split
  · rfl
  · next hout => exact ⟨fun h => h (hwin.resolve_left hout), fun h _ => h⟩

theorem vplicFault_loaded_iff (hnum : vm.plat.cntxtNum ≤ 64) (hload : i.access.write = false)
    (hwidth : i.access.width = 4) {r : VplicLoadReg} (hr : r.Emulated vm.plat)
    (haddr : g = r.addr vm.plat) :
    ∃ t, vplicFault vm cpu hlvxhu csrs s = some (t, i.size) ∧
      (vcpuReadreg t.vcpu i.access.reg = i.access.loaded (r.value vm s.vplic) ↔
        i.access.reg = 0 ∨ i.access.signExt = false ∨ (r.value vm s.vplic).msb = false) := by
  have haligned : g.toNat % 4 = 0 := by
    have hmod : g.toNat % 0x4000 = r.offset % 0x4000 := haddr ▸ plicAddr_toNat_mod hbase
    have hoff := r.offset_mod
    omega
  have hword : (g >>> 2) <<< 2 = g := by
    refine BitVec.eq_of_toNat_eq ?_
    rw [htval_addr_toNat]
    omega
  have hreg : i.access.reg < 32 := i.expand.access_reg_lt
  have hacc : (emulAccess s.vcpu g (ldstEmul i.access)).width = 4 := hwidth
  obtain ⟨x, hx, hval⟩ := vplicEmul_loadReg hbase hnum hacc hload cpu s.vplic hr haddr
  rw [vplicFault_eq hdec, hg, hword, hx]
  refine ⟨_, rfl, ?_⟩
  by_cases hzero : i.access.reg = 0
  · simp [LdStAccess.loaded, vcpuReadreg, hzero]
  · have hle : i.access.reg ≤ 31 := by omega
    have hread : vcpuReadreg (vplicFinish vm cpu (ldstEmul i.access).reg s.vcpu x.val).vcpu
        i.access.reg = (r.value vm s.vplic).setWidth 64 := by
      simp [vplicFinish, hval, ldstEmul, hzero, hle]
    rw [hread, LdStAccess.setWidth_eq_loaded_iff hzero, or_iff_right hzero]

end Result

/-- The fault of the instruction `i` on the guest physical address `g`. The instruction lies at
`sepc`, and `htinst` is 0 or holds its transformed form. -/
structure FaultOf (hlvxhu : Word → BitVec 16) (csrs : FaultCsrs) (i : LdSt) (g : Word) : Prop where
  htval : csrs.htval = g >>> 2
  sepc : csrs.sepc &&& 1 = 0
  ins : InsAt hlvxhu csrs.sepc i
  htinst : csrs.htinst = 0 ∨ ∃ rs1 imm, csrs.htinst = (i.transformed rs1 imm).setWidth 64

/-- The fault handler can decode the instruction: all of them from `htinst`, and those that the
decoder knows if it has to read them from memory. -/
def Decodable (csrs : FaultCsrs) (i : LdSt) : Prop := csrs.htinst = 0 → rawDecoded i = true

variable {hlvxhu : Word → BitVec 16} {csrs : FaultCsrs} {i : LdSt} {g : Word}

theorem FaultOf.decoded (h : FaultOf hlvxhu csrs i g) (hdec : Decodable csrs i) :
    faultAccess hlvxhu csrs = some (ldstEmul i.access, i.size) := by
  obtain ⟨-, hpc, hins, hzero | ⟨rs1, imm, htinst⟩⟩ := h
  · have hfetched := faultAccess_fetched hpc hins csrs.htval
    rwa [if_pos (hdec hzero), ← hzero] at hfetched
  · have htransformed : faultAccess hlvxhu ⟨csrs.htval, (i.transformed rs1 imm).setWidth 64,
      csrs.sepc⟩ = some (ldstEmul i.access, i.size) := faultAccess_transformed csrs.htval rs1 imm
    rwa [← htinst] at htransformed

theorem FaultOf.error {vm : VplicVm} (h : FaultOf hlvxhu csrs i g) (hdec : ¬ Decodable csrs i)
    (cpu : Nat) (s : VplicGuest) : vplicFault vm cpu hlvxhu csrs s = none := by
  obtain ⟨hzero, hraw⟩ := Classical.not_imp.mp hdec
  have hfetched := faultAccess_fetched h.sepc h.ins csrs.htval
  rw [if_neg hraw, ← hzero] at hfetched
  have hnone : faultAccess hlvxhu csrs = none := hfetched
  rw [vplicFault, guestPageFaultHandler, hnone]
  cases vmEmulGetMem (vplicEmulList vm.plat) (csrs.htval <<< 2).toNat <;> rfl

/-- What becomes of a load from the controller, from either source of the instruction. An address
within a word is rejected for its width, or if the instruction cannot be decoded, and else the
access is served from the containing word. A load of a register of 32 bits that can be decoded
extends it with zeros, which is right unless it is a signed one and the value has its highest bit
set. -/
theorem vplic_load_iff {vm : VplicVm} (hbase : vm.plat.plicBase.toNat % 0x4000 = 0)
    (hnum : vm.plat.cntxtNum ≤ 64) {i : LdSt} (hload : i.access.write = false)
    {hlvxhu : Word → BitVec 16} {csrs : FaultCsrs} {g : Word} (hfault : FaultOf hlvxhu csrs i g)
    (cpu : Nat) (s : VplicGuest) :
    (g.toNat % 4 ≠ 0 →
      (inEmulMem vm.plat.plicBase (plicGlobalSize vm.plat) g = true ∨
        inEmulMem (vm.plat.plicBase + 0x200000) (plicHartSize vm.plat) g = true) →
      (vplicFault vm cpu hlvxhu csrs s = none ↔ (Decodable csrs i →
        if inEmulMem vm.plat.plicBase (plicGlobalSize vm.plat) g then i.access.width ≠ 4
        else 4 < i.access.width))) ∧
    (i.access.width = 4 → ∀ r : VplicLoadReg, r.Emulated vm.plat → g = r.addr vm.plat →
      ((∃ t, vplicFault vm cpu hlvxhu csrs s = some (t, i.size) ∧
          vcpuReadreg t.vcpu i.access.reg = i.access.loaded (r.value vm s.vplic)) ↔
        Decodable csrs i ∧
          (i.access.reg = 0 ∨ i.access.signExt = false ∨ (r.value vm s.vplic).msb = false))) := by
  refine ⟨fun _ hwin => ?_, fun hwidth r hr haddr => ?_⟩ <;> by_cases hdec : Decodable csrs i
  · rw [vplicFault_eq_none_iff hbase (hfault.decoded hdec) hfault.htval cpu s hwin]
    exact ⟨fun h _ => h, fun h => h hdec⟩
  · exact iff_of_true (hfault.error hdec cpu s) fun h => absurd h hdec
  · obtain ⟨t, ht, hiff⟩ := vplicFault_loaded_iff hbase (hfault.decoded hdec) hfault.htval cpu s
      hnum hload hwidth hr haddr
    rw [and_iff_right hdec, ← hiff, ht]
    refine ⟨?_, fun hread => ⟨t, rfl, hread⟩⟩
    rintro ⟨t', heq, hread⟩
    cases heq
    exact hread
  · refine iff_of_false ?_ fun h => hdec h.1
    rintro ⟨t, ht, -⟩
    rw [hfault.error hdec cpu s] at ht
    cases ht

/-- A hart of `virtPlat` with a priority that has its highest bit set, and a low one. -/
def highPrioGuest : VplicGuest where
  vplic.mem := Function.update (Function.update (fun _ => 0) (prioAt 5) 0x80000007) (prioAt 6) 7
  vcpu := { id := 0, physId := 0 }

/-- The fault of an instruction at address 0 that `htinst` describes. -/
def loadFault (i : LdSt) (g : Word) : FaultCsrs where
  htval := g >>> 2
  htinst := (i.transformed 0 0).setWidth 64
  sepc := 0

/-- `lwu` of the priority of interrupt 5, which `htinst` describes, and `c.lw` of the one of
interrupt 6, which is fetched. -/
theorem vplic_load_lwu :
    let vm : VplicVm := { plat := virtPlat, cpus := 1, cntxtNum := 2 }
    let lwu := LdSt32.load .lwu 10 11 0
    let lw := LdSt16.load .w 2 3 0 0
    (∃ t, vplicFault vm 0 (memWithIns lwu.encode) (loadFault (.full lwu) 0xc000014)
        highPrioGuest = some (t, 4) ∧ vcpuReadreg t.vcpu 10 = 0x80000007) ∧
      ∃ t, vplicFault vm 0 (memWithIns (lw.encode.setWidth 32)) ⟨(0xc000018 : Word) >>> 2, 0, 0⟩
        highPrioGuest = some (t, 2) ∧ vcpuReadreg t.vcpu 10 = 0x7 := by
  intro vm lwu lw
  have hbase : vm.plat.plicBase.toNat % 0x4000 = 0 := by decide
  have hfull : FaultOf (memWithIns lwu.encode) (loadFault (.full lwu) 0xc000014) (.full lwu)
      0xc000014 := ⟨rfl, by decide, ⟨by decide, by decide⟩, .inr ⟨0, 0, rfl⟩⟩
  have hshort : FaultOf (memWithIns (lw.encode.setWidth 32)) ⟨(0xc000018 : Word) >>> 2, 0, 0⟩
      (.compressed lw) 0xc000018 :=
    ⟨rfl, by decide, (show memWithIns (lw.encode.setWidth 32) 0 = lw.encode by decide), .inl rfl⟩
  obtain ⟨t, ht, hread⟩ := ((vplic_load_iff hbase (by decide) (by decide) hfull 0
    highPrioGuest).2 rfl (.held (.prio 5)) (show (VplicReg.prio 5).Emulated virtPlat by decide)
    rfl).mpr ⟨fun h => absurd h (by decide), .inr (.inl rfl)⟩
  obtain ⟨t', ht', hread'⟩ := ((vplic_load_iff hbase (by decide) (by decide) hshort 0
    highPrioGuest).2 rfl (.held (.prio 6)) (show (VplicReg.prio 6).Emulated virtPlat by decide)
    rfl).mpr ⟨fun _ => rfl, .inr (.inr (by decide))⟩
  exact ⟨⟨t, ht, hread.trans (by decide)⟩, t', ht', hread'.trans (by decide)⟩

/-- `lw` of the first of these gives a positive number, and so does `lw` from an address that is not
aligned. -/
theorem vplic_load_lw :
    let vm : VplicVm := { plat := virtPlat, cpus := 1, cntxtNum := 2 }
    let lw := LdSt32.load .lw 10 11 0
    (VplicLoadReg.held (.prio 5)).value vm highPrioGuest.vplic = 0x80000007 ∧
      lw.access.loaded 0x80000007 = 0xffffffff80000007 ∧
      (vplicFault vm 0 (memWithIns lw.encode) (loadFault (.full lw) 0xc000014)
          highPrioGuest).map (fun p => vcpuReadreg p.1.vcpu 10) = some 0x80000007 ∧
      (vplicFault vm 0 (memWithIns lw.encode) (loadFault (.full lw) 0xc000015)
          highPrioGuest).map (fun p => vcpuReadreg p.1.vcpu 10) = some 0x80000007 := by
  decide +kernel

end Bao
