import Mathlib.Data.BitVec

/-!
# Integer loads and stores of RV64IC

The encodings of the loads and stores of RV64I and of the compressed ones, which are defined by the
instruction that they expand to. The transformed instruction is what the hypervisor extension
reports about a trapped load or store: its 32-bit form, with bit 1 clear if it was a compressed one.
-/

namespace Bao.Foundation

inductive LoadOp where
  | lb | lh | lw | ld | lbu | lhu | lwu
  deriving DecidableEq, Repr

inductive StoreOp where
  | sb | sh | sw | sd
  deriving DecidableEq, Repr

/-- The two widths of compressed loads and stores. -/
inductive CSize where
  | w | d
  deriving DecidableEq, Repr

/-- A load or store of RV64I. -/
inductive LdSt32 where
  | load (op : LoadOp) (rd rs1 : BitVec 5) (imm : BitVec 12)
  | store (op : StoreOp) (rs2 rs1 : BitVec 5) (imm : BitVec 12)

/-- A compressed load or store, with its offset fields as they are encoded. The ones that are
relative to the stack pointer name any register, but a load names one that can be written. -/
inductive LdSt16 where
  | load (size : CSize) (rd rs1 : BitVec 3) (hi : BitVec 3) (lo : BitVec 2)
  | store (size : CSize) (rs2 rs1 : BitVec 3) (hi : BitVec 3) (lo : BitVec 2)
  | loadSp (size : CSize) (rd : BitVec 5) (hrd : rd ≠ 0) (hi : BitVec 1) (lo : BitVec 5)
  | storeSp (size : CSize) (rs2 : BitVec 5) (off : BitVec 6)

inductive LdSt where
  | full (i : LdSt32)
  | compressed (i : LdSt16)

/-! ## Meaning -/

/-- What a load or store does to memory and registers, apart from the address. Only loads of less
than a register can be without sign extension. -/
structure LdStAccess where
  width : Nat
  write : Bool
  reg : Nat
  signExt : Bool
  deriving DecidableEq, Repr

/-- What a load of 32 bits leaves in its register. -/
def LdStAccess.loaded (acc : LdStAccess) (v : BitVec 32) : BitVec 64 :=
  if acc.reg = 0 then 0 else if acc.signExt then v.signExtend 64 else v.setWidth 64

def LoadOp.width : LoadOp → Nat
  | lb | lbu => 1
  | lh | lhu => 2
  | lw | lwu => 4
  | ld => 8

def LoadOp.signExt : LoadOp → Bool
  | lbu | lhu | lwu => false
  | _ => true

def StoreOp.width : StoreOp → Nat
  | sb => 1
  | sh => 2
  | sw => 4
  | sd => 8

def LdSt32.access : LdSt32 → LdStAccess
  | load op rd _ _ => ⟨op.width, false, rd.toNat, op.signExt⟩
  | store op rs2 _ _ => ⟨op.width, true, rs2.toNat, true⟩

/-! ## Encoding -/

def LoadOp.funct3 : LoadOp → BitVec 3
  | lb => 0
  | lh => 1
  | lw => 2
  | ld => 3
  | lbu => 4
  | lhu => 5
  | lwu => 6

def StoreOp.funct3 : StoreOp → BitVec 3
  | sb => 0
  | sh => 1
  | sw => 2
  | sd => 3

def LdSt32.encode : LdSt32 → BitVec 32
  | load op rd rs1 imm => imm ++ rs1 ++ op.funct3 ++ rd ++ 0x03#7
  | store op rs2 rs1 imm =>
    imm.extractLsb' 5 7 ++ rs2 ++ rs1 ++ op.funct3 ++ imm.extractLsb' 0 5 ++ 0x23#7

namespace LdSt16

/-- The upper three bits. -/
def funct3 : LdSt16 → BitVec 3
  | load .w _ _ _ _ => 0b010
  | load .d _ _ _ _ => 0b011
  | store .w _ _ _ _ => 0b110
  | store .d _ _ _ _ => 0b111
  | loadSp .w _ _ _ _ => 0b010
  | loadSp .d _ _ _ _ => 0b011
  | storeSp .w _ _ => 0b110
  | storeSp .d _ _ => 0b111

/-- The registers and the offset. -/
def fields : LdSt16 → BitVec 11
  | load _ rd rs1 hi lo => hi ++ rs1 ++ lo ++ rd
  | store _ rs2 rs1 hi lo => hi ++ rs1 ++ lo ++ rs2
  | loadSp _ rd _ hi lo => hi ++ rd ++ lo
  | storeSp _ rs2 off => off ++ rs2

/-- The lower two bits. -/
def quadrant : LdSt16 → BitVec 2
  | load _ _ _ _ _ => 0b00
  | store _ _ _ _ _ => 0b00
  | loadSp _ _ _ _ _ => 0b10
  | storeSp _ _ _ => 0b10

def encode (i : LdSt16) : BitVec 16 := i.funct3 ++ i.fields ++ i.quadrant

end LdSt16

/-! ## Expansion -/

/-- The register that three bits of a compressed instruction stand for. -/
def cReg (r : BitVec 3) : BitVec 5 := 0b01#2 ++ r

def spReg : BitVec 5 := 2

/-- The offset of a compressed load or store, whose bits are encoded out of order. -/
def cOffset : CSize → BitVec 3 → BitVec 2 → BitVec 12
  | .w, hi, lo =>
    (lo.extractLsb' 0 1 ++ hi ++ lo.extractLsb' 1 1 ++ 0b00#2 : BitVec 7).setWidth 12
  | .d, hi, lo => (lo ++ hi ++ 0b000#3 : BitVec 8).setWidth 12

def cLoadSpOffset : CSize → BitVec 1 → BitVec 5 → BitVec 12
  | .w, hi, lo =>
    (lo.extractLsb' 0 2 ++ hi ++ lo.extractLsb' 2 3 ++ 0b00#2 : BitVec 8).setWidth 12
  | .d, hi, lo =>
    (lo.extractLsb' 0 3 ++ hi ++ lo.extractLsb' 3 2 ++ 0b000#3 : BitVec 9).setWidth 12

def cStoreSpOffset : CSize → BitVec 6 → BitVec 12
  | .w, off => (off.extractLsb' 0 2 ++ off.extractLsb' 2 4 ++ 0b00#2 : BitVec 8).setWidth 12
  | .d, off => (off.extractLsb' 0 3 ++ off.extractLsb' 3 3 ++ 0b000#3 : BitVec 9).setWidth 12

def CSize.loadOp : CSize → LoadOp
  | w => .lw
  | d => .ld

def CSize.storeOp : CSize → StoreOp
  | w => .sw
  | d => .sd

def LdSt16.expand : LdSt16 → LdSt32
  | load size rd rs1 hi lo => .load size.loadOp (cReg rd) (cReg rs1) (cOffset size hi lo)
  | store size rs2 rs1 hi lo => .store size.storeOp (cReg rs2) (cReg rs1) (cOffset size hi lo)
  | loadSp size rd _ hi lo => .load size.loadOp rd spReg (cLoadSpOffset size hi lo)
  | storeSp size rs2 off => .store size.storeOp rs2 spReg (cStoreSpOffset size off)

namespace LdSt

def expand : LdSt → LdSt32
  | full i => i
  | compressed i => i.expand

def access (i : LdSt) : LdStAccess := i.expand.access

/-- The length in bytes. -/
def size : LdSt → Nat
  | full _ => 4
  | compressed _ => 2

end LdSt

/-- The same instruction with another base register and offset. -/
def LdSt32.rebase (rs1 : BitVec 5) (imm : BitVec 12) : LdSt32 → LdSt32
  | load op rd _ _ => .load op rd rs1 imm
  | store op rs2 _ _ => .store op rs2 rs1 imm

/-- The transformed instruction. What the base and offset fields of the 32-bit form hold is left
open: the hypervisor extension uses them for the offset of the faulting address. -/
def LdSt.transformed (rs1 : BitVec 5) (imm : BitVec 12) : LdSt → BitVec 32
  | full i => (i.rebase rs1 imm).encode
  | compressed i => (i.expand.rebase rs1 imm).encode &&& ~~~2#32

@[simp] theorem LdSt32.access_rebase (i : LdSt32) (rs1 : BitVec 5) (imm : BitVec 12) :
    (i.rebase rs1 imm).access = i.access := by
  cases i <;> rfl

theorem LdSt32.access_reg_lt (i : LdSt32) : i.access.reg < 32 := by
  cases i with
  | load op rd rs1 imm => exact rd.isLt
  | store op rs2 rs1 imm => exact rs2.isLt

theorem setWidth_eq_signExtend_iff (v : BitVec 32) :
    v.setWidth 64 = v.signExtend 64 ↔ v.msb = false := by
  constructor
  · intro heq
    have hbit := congrArg (fun x => x.getLsbD 63) heq
    rw [BitVec.getLsbD_signExtend, BitVec.getLsbD_setWidth, BitVec.getLsbD_of_ge v 63 (by decide)]
      at hbit
    exact hbit.symm
  · exact fun hmsb => (BitVec.signExtend_eq_setWidth_of_msb_false hmsb).symm

/-- Extending the value with zeros is right unless it is negative for the load. -/
theorem LdStAccess.setWidth_eq_loaded_iff {acc : LdStAccess} (hreg : acc.reg ≠ 0) (v : BitVec 32) :
    v.setWidth 64 = acc.loaded v ↔ acc.signExt = false ∨ v.msb = false := by
  rw [loaded, if_neg hreg]
  cases acc.signExt with
  | false => simp
  | true => simpa using setWidth_eq_signExtend_iff v

/-! ## Fields -/

section Fields

variable {v w k a b : Nat}

theorem shift_and_mask (x : BitVec w) (s : Nat) (hv : w ≤ v) :
    (x.setWidth v >>> s) &&& BitVec.ofNat v (2 ^ k - 1) = (x.extractLsb' s k).setWidth v := by
  refine BitVec.eq_of_getLsbD_eq fun i hi => ?_
  simp only [BitVec.getLsbD_and, BitVec.getLsbD_ushiftRight, BitVec.getLsbD_setWidth,
    BitVec.getLsbD_ofNat, BitVec.getLsbD_extractLsb', Nat.testBit_two_pow_sub_one, hi, decide_true,
    Bool.true_and]
  by_cases hs : s + i < v
  · simp [hs, Bool.and_comm]
  · simp [hs, BitVec.getLsbD_of_ge x (s + i) (by omega)]

theorem and_mask (x : BitVec w) (hv : w ≤ v) :
    x.setWidth v &&& BitVec.ofNat v (2 ^ k - 1) = (x.extractLsb' 0 k).setWidth v := by
  rw [← shift_and_mask x 0 hv, BitVec.ushiftRight_zero]

theorem extract_append_low (x : BitVec a) (y : BitVec b) : (x ++ y).extractLsb' 0 b = y := by
  rw [BitVec.extractLsb'_append_eq_of_add_le (by omega), BitVec.extractLsb'_eq_self]

theorem extract_append_skip (x : BitVec a) (y : BitVec b) (s k : Nat) :
    (x ++ y).extractLsb' (b + s) k = x.extractLsb' s k := by
  rw [BitVec.extractLsb'_append_eq_of_le (by omega), Nat.add_sub_cancel_left]

theorem extract_append_within (x : BitVec a) (y : BitVec b) (hk : k ≤ b) :
    (x ++ y).extractLsb' 0 k = y.extractLsb' 0 k :=
  BitVec.extractLsb'_append_eq_of_add_le (by omega)

end Fields

namespace LdSt32

/-- The opcode of a load or of a store. -/
def opcode : LdSt32 → BitVec 7
  | load _ _ _ _ => 0x03
  | store _ _ _ _ => 0x23

def funct3 : LdSt32 → BitVec 3
  | load op _ _ _ => op.funct3
  | store op _ _ _ => op.funct3

variable (i : LdSt32)

theorem encode_opcode : i.encode.extractLsb' 0 7 = i.opcode := by
  cases i with
  | load op rd rs1 imm => exact extract_append_low _ _
  | store op rs2 rs1 imm => exact extract_append_low _ _

theorem encode_funct3 : i.encode.extractLsb' 12 3 = i.funct3 := by
  cases i with
  | load op rd rs1 imm =>
    calc (LdSt32.load op rd rs1 imm).encode.extractLsb' 12 3
      _ = (imm ++ rs1 ++ op.funct3 ++ rd).extractLsb' 5 3 := extract_append_skip _ _ 5 3
      _ = (imm ++ rs1 ++ op.funct3).extractLsb' 0 3 := extract_append_skip _ _ 0 3
      _ = op.funct3 := extract_append_low _ _
  | store op rs2 rs1 imm =>
    calc (LdSt32.store op rs2 rs1 imm).encode.extractLsb' 12 3
      _ = (imm.extractLsb' 5 7 ++ rs2 ++ rs1 ++ op.funct3 ++ imm.extractLsb' 0 5).extractLsb' 5 3 :=
        extract_append_skip _ _ 5 3
      _ = (imm.extractLsb' 5 7 ++ rs2 ++ rs1 ++ op.funct3).extractLsb' 0 3 :=
        extract_append_skip _ _ 0 3
      _ = op.funct3 := extract_append_low _ _

theorem encode_rd (op : LoadOp) (rd rs1 : BitVec 5) (imm : BitVec 12) :
    (LdSt32.load op rd rs1 imm).encode.extractLsb' 7 5 = rd :=
  (extract_append_skip _ _ 0 5).trans (extract_append_low _ _)

theorem encode_rs2 (op : StoreOp) (rs2 rs1 : BitVec 5) (imm : BitVec 12) :
    (LdSt32.store op rs2 rs1 imm).encode.extractLsb' 20 5 = rs2 :=
  calc (LdSt32.store op rs2 rs1 imm).encode.extractLsb' 20 5
    _ = (imm.extractLsb' 5 7 ++ rs2 ++ rs1 ++ op.funct3 ++ imm.extractLsb' 0 5).extractLsb' 13 5 :=
      extract_append_skip _ _ 13 5
    _ = (imm.extractLsb' 5 7 ++ rs2 ++ rs1 ++ op.funct3).extractLsb' 8 5 :=
      extract_append_skip _ _ 8 5
    _ = (imm.extractLsb' 5 7 ++ rs2 ++ rs1).extractLsb' 5 5 := extract_append_skip _ _ 5 5
    _ = (imm.extractLsb' 5 7 ++ rs2).extractLsb' 0 5 := extract_append_skip _ _ 0 5
    _ = rs2 := extract_append_low _ _

theorem encode_low : i.encode.extractLsb' 0 2 = 3#2 := by
  cases i with
  | load op rd rs1 imm => exact (extract_append_within _ (0x03#7) (by decide)).trans (by decide)
  | store op rs2 rs1 imm => exact (extract_append_within _ (0x23#7) (by decide)).trans (by decide)

theorem encode_getLsbD {k : Nat} (hk : k < 2) : i.encode.getLsbD k = true := by
  have hbit := congrArg (fun x => x.getLsbD k) i.encode_low
  rw [BitVec.getLsbD_extractLsb', Nat.zero_add] at hbit
  have hthree : ∀ k < 2, (3#2).getLsbD k = true := by decide
  rw [hthree k hk, decide_eq_true hk, Bool.true_and] at hbit
  exact hbit

end LdSt32

namespace LdSt16

variable (i : LdSt16)

theorem encode_funct3 : i.encode.extractLsb' 13 3 = i.funct3 :=
  calc i.encode.extractLsb' 13 3
    _ = (i.funct3 ++ i.fields).extractLsb' 11 3 := extract_append_skip _ _ 11 3
    _ = i.funct3.extractLsb' 0 3 := extract_append_skip _ _ 0 3
    _ = i.funct3 := BitVec.extractLsb'_eq_self

theorem encode_quadrant : i.encode.extractLsb' 0 2 = i.quadrant := extract_append_low _ _

theorem encode_low_fields : i.encode.extractLsb' 2 3 = i.fields.extractLsb' 0 3 :=
  calc i.encode.extractLsb' 2 3
    _ = (i.funct3 ++ i.fields).extractLsb' 0 3 := extract_append_skip _ _ 0 3
    _ = i.fields.extractLsb' 0 3 := extract_append_within _ _ (by decide)

end LdSt16

namespace LdSt

variable (i : LdSt) (rs1 : BitVec 5) (imm : BitVec 12)

theorem transformed_or_two :
    i.transformed rs1 imm ||| 2#32 = (i.expand.rebase rs1 imm).encode := by
  have htwo : ∀ k < 32, (2#32).getLsbD k = decide (k = 1) := by decide
  have hmask : ∀ k < 32, (~~~2#32).getLsbD k = decide (k ≠ 1) := by decide
  have hbit := (i.expand.rebase rs1 imm).encode_getLsbD (show 1 < 2 by decide)
  refine BitVec.eq_of_getLsbD_eq fun k hk => ?_
  rw [BitVec.getLsbD_or, htwo k hk]
  by_cases hk1 : k = 1
  · rw [hk1, hbit, decide_eq_true rfl, Bool.or_true]
  · rw [decide_eq_false hk1, Bool.or_false]
    cases i with
    | full i => rfl
    | compressed i =>
      rw [transformed, BitVec.getLsbD_and, hmask k hk, decide_eq_true hk1, Bool.and_true]
      rfl

theorem transformed_getLsbD_zero : (i.transformed rs1 imm).getLsbD 0 = true := by
  have hbit := (i.expand.rebase rs1 imm).encode_getLsbD (show 0 < 2 by decide)
  rw [← i.transformed_or_two, BitVec.getLsbD_or] at hbit
  simpa using hbit

/-- Bit 1 tells whether the instruction was a compressed one. -/
theorem transformed_getLsbD_one : (i.transformed rs1 imm).getLsbD 1 = decide (i.size = 4) := by
  cases i with
  | full i => exact (i.rebase rs1 imm).encode_getLsbD (by decide)
  | compressed i => simp [transformed, size]

end LdSt

end Bao.Foundation
