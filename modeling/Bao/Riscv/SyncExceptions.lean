import Bao.Foundation.LdSt
import Bao.Core.VmEmul
import Bao.Riscv.Vcpu

/-!
# Guest page faults

The handler of `sync_exceptions.c` for the faults of a guest on an address that is emulated. It
learns from `htinst` which load or store faulted, or reads the instruction from the guest's memory
when `htinst` is 0. An `ERROR` is the result `none`.
-/

namespace Bao

open Foundation

/-! ## Instruction fields -/

def insCompressed (ins : Word) : Bool := ins &&& 3 ≠ 3

def insSize (ins : Word) : Nat := if ins &&& 3 = 3 then 4 else 2

def insOpcode (ins : Word) : Word := ins &&& 0x7f

def insFunct3 (ins : Word) : Word := (ins >>> 12) &&& 0x7

def insRd (ins : Word) : Word := (ins >>> 7) &&& 0x1f

def insRs2 (ins : Word) : Word := (ins >>> 20) &&& 0x1f

def matchLoad : Word := 0x03

def matchStore : Word := 0x23

def insCOpcode (ins : Word) : Word := ins &&& 0xe003

def insCRdRs2 (ins : Word) : Word := (ins >>> 2) &&& 0x7

def matchCLoad : Word := 0x4000

def matchCStore : Word := 0xc000

def tinstPseudoStore : BitVec 32 := 0x3020

def tinstPseudoLoad : BitVec 32 := 0x3000

def tinstInsCompressed (tinst : Word) : Bool := tinst &&& 2 = 0

def tinstInsSize (tinst : Word) : Nat := if tinstInsCompressed tinst then 2 else 4

/-! ## Decoding -/

/-- The fields of `emul_access_t` that `ins_ldst_decode` sets. -/
structure LdstEmul extends LdStAccess where
  regWidth : Nat
  deriving DecidableEq, Repr

/-- `REGLEN`. -/
def reglen : Nat := 8

/-- `read_ins`, where `hlvxhu` gives the 16 bits at an address of the guest. -/
def readIns (hlvxhu : Word → BitVec 16) (insAddr : Word) : Option (BitVec 32) :=
  if insAddr &&& 1 ≠ 0 then none
  else
    let ins := (hlvxhu insAddr).setWidth 32
    if ins &&& 3 = 3 then some (ins ||| (hlvxhu (insAddr + 2)).setWidth 32 <<< 16) else some ins

/-- `ins_ldst_decode`, with `none` for the result `-1`. -/
def insLdstDecode (ins : Word) : Option LdstEmul :=
  if insCompressed ins then
    if insCOpcode ins ≠ matchCLoad ∧ insCOpcode ins ≠ matchCStore then none
    else
      some { width := 4
             regWidth := reglen
             write := insCOpcode ins = matchCStore
             reg := (insCRdRs2 ins + 8).toNat
             signExt := true }
  else
    if insOpcode ins ≠ matchLoad ∧ insOpcode ins ≠ matchStore then none
    else
      let funct3 := insFunct3 ins
      let write : Bool := insOpcode ins = matchStore
      some { width :=
               if funct3 &&& 3 = 0 then 1 else if funct3 &&& 3 = 1 then 2
               else if funct3 &&& 3 = 2 then 4 else 8
             regWidth := reglen
             write := write
             reg := (if write then insRs2 ins else insRd ins).toNat
             signExt := funct3 &&& 4 = 0 }

def isPseudoIns (ins : BitVec 32) : Bool := ins = tinstPseudoStore ∨ ins = tinstPseudoLoad

/-- The CSRs that describe a guest page fault. -/
structure FaultCsrs where
  htval : Word
  htinst : Word
  sepc : Word

/-- The part of `guest_page_fault_handler` that finds the instruction and its size. -/
def faultIns (hlvxhu : Word → BitVec 16) (csrs : FaultCsrs) : Option (Word × Nat) :=
  if csrs.htinst = 0 then
    (readIns hlvxhu csrs.sepc).map fun ins => (ins.setWidth 64, insSize (ins.setWidth 64))
  else if isPseudoIns (csrs.htinst.setWidth 32) then none
  else some (csrs.htinst ||| 2, tinstInsSize csrs.htinst)

/-- The access and the size of the instruction that `guest_page_fault_handler` derives. -/
def faultAccess (hlvxhu : Word → BitVec 16) (csrs : FaultCsrs) : Option (LdstEmul × Nat) :=
  (faultIns hlvxhu csrs).bind fun (ins, size) => (insLdstDecode ins).map fun emul => (emul, size)

/-- `guest_page_fault_handler`: the state after the emulation and the step of the pc. The handlers
of the VM's emulation list are run by `call`, which has no result when a handler returns `false`. -/
def guestPageFaultHandler {H σ : Type} (list : List (EmulNode H))
    (call : H → Word → LdstEmul → σ → Option σ) (hlvxhu : Word → BitVec 16) (csrs : FaultCsrs)
    (s : σ) : Option (σ × Nat) :=
  let addr := csrs.htval <<< 2
  (vmEmulGetMem list addr.toNat).bind fun handler =>
    (faultAccess hlvxhu csrs).bind fun (emul, size) =>
      (call handler addr emul s).map fun s => (s, size)

/-! ## Decoding what was encoded -/

/-- The access of an instruction as the handler records it. -/
def ldstEmul (acc : LdStAccess) : LdstEmul := { acc with regWidth := reglen }

section Full

variable (i : LdSt32)

theorem insOpcode_encode : insOpcode (i.encode.setWidth 64) = i.opcode.setWidth 64 := by
  rw [← i.encode_opcode]
  exact and_mask (k := 7) i.encode (by decide)

theorem insFunct3_encode : insFunct3 (i.encode.setWidth 64) = i.funct3.setWidth 64 := by
  rw [← i.encode_funct3]
  exact shift_and_mask (k := 3) i.encode 12 (by decide)

theorem encode_and_three : i.encode.setWidth 64 &&& 3#64 = 3#64 := by
  have hlow := and_mask (k := 2) (v := 64) i.encode (by decide)
  rw [i.encode_low] at hlow
  exact hlow

theorem insRd_encode (op : LoadOp) (rd rs1 : BitVec 5) (imm : BitVec 12) :
    insRd ((LdSt32.load op rd rs1 imm).encode.setWidth 64) = rd.setWidth 64 := by
  conv_rhs => rw [← LdSt32.encode_rd op rd rs1 imm]
  exact shift_and_mask (k := 5) _ 7 (by decide)

theorem insRs2_encode (op : StoreOp) (rs2 rs1 : BitVec 5) (imm : BitVec 12) :
    insRs2 ((LdSt32.store op rs2 rs1 imm).encode.setWidth 64) = rs2.setWidth 64 := by
  conv_rhs => rw [← LdSt32.encode_rs2 op rs2 rs1 imm]
  exact shift_and_mask (k := 5) _ 20 (by decide)

theorem insLdstDecode_encode : insLdstDecode (i.encode.setWidth 64) = some (ldstEmul i.access) := by
  have hfull : insCompressed (i.encode.setWidth 64) = false := by
    simp [insCompressed, encode_and_three]
  cases i with
  | load op rd rs1 imm =>
    simp only [insLdstDecode, hfull, insOpcode_encode, insFunct3_encode, insRd_encode,
      LdSt32.opcode, LdSt32.funct3]
    have hreg : rd.toNat < 2 ^ 64 := rd.isLt.trans (by decide)
    cases op <;> simp [matchLoad, matchStore, LdSt32.access, ldstEmul, LoadOp.funct3, LoadOp.width,
      LoadOp.signExt] <;> exact hreg
  | store op rs2 rs1 imm =>
    simp only [insLdstDecode, hfull, insOpcode_encode, insFunct3_encode, insRs2_encode,
      LdSt32.opcode, LdSt32.funct3]
    have hreg : rs2.toNat < 2 ^ 64 := rs2.isLt.trans (by decide)
    cases op <;> simp [matchLoad, matchStore, LdSt32.access, ldstEmul, StoreOp.funct3,
      StoreOp.width] <;> exact hreg

end Full

section Compressed

variable (i : LdSt16)

/-- The mask of `INS_C_OPCODE` keeps the upper three and the lower two of 16 bits. -/
theorem insCOpcode_eq (x : BitVec 16) : insCOpcode (x.setWidth 64) =
    (x.extractLsb' 13 3).setWidth 64 <<< 13 ||| (x.extractLsb' 0 2).setWidth 64 := by
  have hmask : ∀ k < 64, (0xe003#64).getLsbD k = (decide (k < 2) || decide (13 ≤ k ∧ k < 16)) := by
    decide
  refine BitVec.eq_of_getLsbD_eq fun k hk => ?_
  have hlow : (13 + (k - 13) = k) ↔ 13 ≤ k := by omega
  simp only [insCOpcode, BitVec.getLsbD_and, BitVec.getLsbD_or, BitVec.getLsbD_setWidth,
    BitVec.getLsbD_shiftLeft, BitVec.getLsbD_extractLsb', hk, decide_true, Bool.true_and,
    Nat.zero_add]
  rw [show (0xe003 : Word).getLsbD k = _ from hmask k hk]
  by_cases h13 : 13 ≤ k
  · have h2 : ¬ k < 2 := by omega
    have hlt : ¬ k < 13 := by omega
    have hfield : k - 13 < 3 ↔ k < 16 := by omega
    have hsmall : k - 13 < 64 := by omega
    simp [h13, h2, hlt, hfield, hsmall, hlow.mpr h13, Bool.and_comm]
  · have hlt : k < 13 := by omega
    simp [h13, hlt, Bool.and_comm]

theorem insCRdRs2_encode :
    insCRdRs2 (i.encode.setWidth 64) = (i.fields.extractLsb' 0 3).setWidth 64 := by
  rw [← i.encode_low_fields]
  exact shift_and_mask (k := 3) i.encode 2 (by decide)

theorem encode_and_three_eq :
    i.encode.setWidth 64 &&& 3#64 = i.quadrant.setWidth 64 := by
  rw [← i.encode_quadrant]
  exact and_mask (k := 2) i.encode (by decide)

theorem cReg_toNat : ∀ r : BitVec 3, (r.setWidth 64 + 8 : Word).toNat = (cReg r).toNat := by
  decide

/-- The decoder knows two of the eight compressed loads and stores. -/
def cDecoded : LdSt16 → Bool
  | .load .w _ _ _ _ => true
  | .store .w _ _ _ _ => true
  | _ => false

theorem insLdstDecode_compressed : insLdstDecode (i.encode.setWidth 64) =
    if cDecoded i then some (ldstEmul i.expand.access) else none := by
  have hshort : insCompressed (i.encode.setWidth 64) = true := by
    rw [insCompressed, show (3 : Word) = 3#64 from rfl, encode_and_three_eq]
    cases i <;> rfl
  have hopcode : insCOpcode (i.encode.setWidth 64) =
      i.funct3.setWidth 64 <<< 13 ||| i.quadrant.setWidth 64 := by
    rw [insCOpcode_eq, i.encode_funct3, i.encode_quadrant]
  have hfields := insCRdRs2_encode i
  simp only [insLdstDecode, hshort, hopcode, if_true]
  cases i with
  | load size rd rs1 hi lo =>
    rw [show (LdSt16.load size rd rs1 hi lo).fields.extractLsb' 0 3 = rd from
      extract_append_low _ _] at hfields
    rw [hfields, cReg_toNat]
    cases size <;> simp [LdSt16.funct3, LdSt16.quadrant, matchCLoad, matchCStore, cDecoded,
      ldstEmul, LdSt16.expand, LdSt32.access, CSize.loadOp, LoadOp.width, LoadOp.signExt]
  | store size rs2 rs1 hi lo =>
    rw [show (LdSt16.store size rs2 rs1 hi lo).fields.extractLsb' 0 3 = rs2 from
      extract_append_low _ _] at hfields
    rw [hfields, cReg_toNat]
    cases size <;> simp [LdSt16.funct3, LdSt16.quadrant, matchCLoad, matchCStore, cDecoded,
      ldstEmul, LdSt16.expand, LdSt32.access, CSize.storeOp, StoreOp.width]
  | loadSp size rd hrd hi lo =>
    cases size <;> simp [LdSt16.funct3, LdSt16.quadrant, matchCLoad, matchCStore, cDecoded]
  | storeSp size rs2 off =>
    cases size <;> simp [LdSt16.funct3, LdSt16.quadrant, matchCLoad, matchCStore, cDecoded]

end Compressed

/-! ## Both sources of the instruction -/

/-- The instruction lies in the guest's memory at `pc`. -/
def InsAt (hlvxhu : Word → BitVec 16) (pc : Word) : LdSt → Prop
  | .full i => hlvxhu pc = i.encode.extractLsb' 0 16 ∧ hlvxhu (pc + 2) = i.encode.extractLsb' 16 16
  | .compressed i => hlvxhu pc = i.encode

/-- Whether the decoder knows the instruction as it is in memory. -/
def rawDecoded : LdSt → Bool
  | .full _ => true
  | .compressed i => cDecoded i

section Sources

variable {hlvxhu : Word → BitVec 16} {pc : Word} {i : LdSt}

theorem readIns_full {i : LdSt32} (hpc : pc &&& 1 = 0) (h : InsAt hlvxhu pc (.full i)) :
    readIns hlvxhu pc = some i.encode := by
  obtain ⟨hlow, hhigh⟩ := h
  have hfull : (i.encode.extractLsb' 0 16).setWidth 32 &&& 3#32 = 3#32 := by
    have hmask := and_mask (k := 2) (v := 32) (i.encode.extractLsb' 0 16) (by decide)
    rw [BitVec.extractLsb'_extractLsb'_of_le (by decide), i.encode_low] at hmask
    exact hmask
  have hjoin : (i.encode.extractLsb' 0 16).setWidth 32 |||
      (i.encode.extractLsb' 16 16).setWidth 32 <<< 16 = i.encode := by
    refine BitVec.eq_of_getLsbD_eq fun k hk => ?_
    by_cases h16 : k < 16
    · simp [hk, h16]
    · have hk16 : k - 16 < 16 := by omega
      simp [hk, h16, hk16, show 16 + (k - 16) = k by omega]
  rw [readIns, if_neg (not_not_intro hpc), hlow, hhigh]
  exact (if_pos hfull).trans (congrArg some hjoin)

theorem readIns_compressed {i : LdSt16} (hpc : pc &&& 1 = 0)
    (h : InsAt hlvxhu pc (.compressed i)) :
    readIns hlvxhu pc = some (i.encode.setWidth 32) := by
  have hshort : i.encode.setWidth 32 &&& 3#32 ≠ 3#32 := by
    have hmask := and_mask (k := 2) (v := 32) i.encode (by decide)
    rw [i.encode_quadrant] at hmask
    have hquadrant : i.quadrant.setWidth 32 ≠ 3#32 := by cases i <;> simp [LdSt16.quadrant]
    exact fun heq => hquadrant (hmask.symm.trans heq)
  rw [readIns, if_neg (not_not_intro hpc), show hlvxhu pc = i.encode from h]
  exact if_neg hshort

theorem faultAccess_fetched (hpc : pc &&& 1 = 0) (h : InsAt hlvxhu pc i) (htval : Word) :
    faultAccess hlvxhu ⟨htval, 0, pc⟩ =
      if rawDecoded i then some (ldstEmul i.access, i.size) else none := by
  cases i with
  | full i =>
    have hsize : insSize (i.encode.setWidth 64) = 4 := if_pos (encode_and_three i)
    simp [faultAccess, faultIns, readIns_full hpc h, insLdstDecode_encode, hsize, rawDecoded,
      LdSt.access, LdSt.expand, LdSt.size]
  | compressed i =>
    have hwiden : (i.encode.setWidth 32).setWidth 64 = i.encode.setWidth 64 :=
      BitVec.setWidth_setWidth (by decide)
    have hsize : insSize (i.encode.setWidth 64) = 2 := by
      refine if_neg fun hthree => ?_
      rw [show (3 : Word) = 3#64 from rfl, encode_and_three_eq] at hthree
      cases i <;> simp [LdSt16.quadrant] at hthree
    cases hknown : cDecoded i <;> simp [faultAccess, faultIns, readIns_compressed hpc h, hwiden,
      insLdstDecode_compressed, hsize, hknown, rawDecoded, LdSt.access, LdSt.expand, LdSt.size]

theorem faultAccess_transformed (htval : Word) (rs1 : BitVec 5) (imm : BitVec 12) :
    faultAccess hlvxhu ⟨htval, (i.transformed rs1 imm).setWidth 64, pc⟩ =
      some (ldstEmul i.access, i.size) := by
  have hbit := i.transformed_getLsbD_zero rs1 imm
  have hone := i.transformed_getLsbD_one rs1 imm
  have hnonzero : (i.transformed rs1 imm).setWidth 64 ≠ 0 := by
    intro hzero
    have hbit0 := congrArg (fun x => x.getLsbD 0) hzero
    rw [BitVec.getLsbD_setWidth, hbit] at hbit0
    exact absurd hbit0 (by decide)
  have hpseudo : isPseudoIns (((i.transformed rs1 imm).setWidth 64).setWidth 32) = false := by
    rw [BitVec.setWidth_setWidth (by decide), BitVec.setWidth_eq]
    refine decide_eq_false ?_
    rintro (heq | heq) <;> rw [heq] at hbit <;> exact absurd hbit (by decide)
  have hins : (i.transformed rs1 imm).setWidth 64 ||| 2 =
      (i.expand.rebase rs1 imm).encode.setWidth 64 := by
    rw [← i.transformed_or_two, BitVec.setWidth_or]
    rfl
  have hsize : tinstInsSize ((i.transformed rs1 imm).setWidth 64) = i.size := by
    have hand := BitVec.and_twoPow ((i.transformed rs1 imm).setWidth 64) 1
    rw [BitVec.getLsbD_setWidth, hone] at hand
    rw [tinstInsSize, tinstInsCompressed, show (2 : Word) = BitVec.twoPow 64 1 from rfl, hand]
    cases i <;> rfl
  rw [faultAccess, faultIns, if_neg hnonzero, hpseudo, hins, hsize]
  simp [insLdstDecode_encode, LdSt.access]

/-- Both sources give the access of the instruction when the decoder knows it as it is in memory.
The six compressed loads and stores that it does not know are an error if they are fetched, and
decode from `htinst`. -/
theorem faultAccess_sources (hpc : pc &&& 1 = 0) (h : InsAt hlvxhu pc i) (htval : Word)
    (rs1 : BitVec 5) (imm : BitVec 12) :
    (faultAccess hlvxhu ⟨htval, 0, pc⟩ = some (ldstEmul i.access, i.size) ↔ rawDecoded i = true) ∧
      faultAccess hlvxhu ⟨htval, (i.transformed rs1 imm).setWidth 64, pc⟩ =
        some (ldstEmul i.access, i.size) := by
  refine ⟨?_, faultAccess_transformed htval rs1 imm⟩
  rw [faultAccess_fetched hpc h]
  cases rawDecoded i <;> simp

end Sources

/-- Guest memory with an instruction at address 0. -/
def memWithIns (ins : BitVec 32) (addr : Word) : BitVec 16 :=
  if addr = 0 then ins.extractLsb' 0 16 else ins.extractLsb' 16 16

/-- The load `lbu x10, 4(x11)`, from memory and as its transformed instruction. -/
theorem faultAccess_sources_lbu :
    faultAccess (memWithIns (LdSt32.load .lbu 10 11 4).encode) ⟨0x3000000, 0, 0⟩ =
        some (⟨⟨1, false, 10, false⟩, 8⟩, 4) ∧
      faultAccess (memWithIns (LdSt32.load .lbu 10 11 4).encode)
          ⟨0x3000000, ((LdSt.full (.load .lbu 10 11 4)).transformed 0 0).setWidth 64, 0⟩ =
        some (⟨⟨1, false, 10, false⟩, 8⟩, 4) :=
  have hins : InsAt (memWithIns (LdSt32.load .lbu 10 11 4).encode) 0
    (.full (.load .lbu 10 11 4)) := ⟨by decide, by decide⟩
  have h := faultAccess_sources (by decide) hins 0x3000000 0 0
  ⟨h.1.mpr (by decide), h.2⟩

/-- The load `c.ld x10, 0(x11)` and the store `c.swsp x10, 0(sp)` are an error if they are fetched.
From `htinst` both decode. -/
theorem faultAccess_fetched_c_ld :
    let ld := LdSt16.load .d 2 3 0 0
    let swsp := LdSt16.storeSp .w 10 0
    (faultAccess (memWithIns (ld.encode.setWidth 32)) ⟨0x3000000, 0, 0⟩ = none ∧
      faultAccess (memWithIns (ld.encode.setWidth 32))
          ⟨0x3000000, ((LdSt.compressed ld).transformed 0 0).setWidth 64, 0⟩ =
        some (⟨⟨8, false, 10, true⟩, 8⟩, 2)) ∧
    faultAccess (memWithIns (swsp.encode.setWidth 32)) ⟨0x3000000, 0, 0⟩ = none ∧
      faultAccess (memWithIns (swsp.encode.setWidth 32))
          ⟨0x3000000, ((LdSt.compressed swsp).transformed 0 0).setWidth 64, 0⟩ =
        some (⟨⟨4, true, 10, true⟩, 8⟩, 2) := by
  decide +kernel

end Bao
