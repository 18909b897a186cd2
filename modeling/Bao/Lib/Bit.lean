import Mathlib.Data.Nat.Bitwise

/-!
# Masks and fields of `bit.h`
-/

namespace Bao

/-- `BIT_MASK(OFF, LEN)`. -/
def bitMask (off len : Nat) : BitVec 64 := (((1 : BitVec 64) <<< (len - 1)) <<< 1 - 1) <<< off

def bitExtract (word : BitVec 64) (off len : Nat) : BitVec 64 := word >>> off &&& bitMask 0 len

variable {len : Nat}

theorem getLsbD_low_ones (hlen : len ≤ 64) (b : Nat) :
    (BitVec.ofNat 64 (2 ^ len - 1)).getLsbD b = decide (b < len) := by
  rw [BitVec.getLsbD_ofNat, Nat.testBit_two_pow_sub_one]
  grind

theorem bitMask_zero (hpos : 0 < len) :
    bitMask 0 len = BitVec.ofNat 64 (2 ^ len - 1) := by
  have hone : 1 ≤ 2 ^ len := Nat.one_le_two_pow
  have hshift : (((1 : BitVec 64) <<< (len - 1)) <<< 1).toNat = 2 ^ len % 2 ^ 64 := by
    rw [← BitVec.shiftLeft_add, Nat.sub_add_cancel hpos, BitVec.toNat_shiftLeft,
      show (1 : BitVec 64).toNat = 1 from rfl, Nat.one_shiftLeft]
  rw [bitMask, BitVec.shiftLeft_zero]
  apply BitVec.eq_of_toNat_eq
  rw [BitVec.toNat_sub, hshift, BitVec.toNat_ofNat, show (1 : BitVec 64).toNat = 1 from rfl]
  omega

theorem getLsbD_bitMask (hpos : 0 < len) (hlen : len ≤ 64) (off b : Nat) :
    (bitMask off len).getLsbD b =
      (decide (b < 64) && decide (off ≤ b) && decide (b < off + len)) := by
  have hshift : bitMask off len = bitMask 0 len <<< off := by simp [bitMask]
  rw [hshift, BitVec.getLsbD_shiftLeft, bitMask_zero hpos, getLsbD_low_ones hlen]
  grind

theorem getLsbD_bitExtract (hpos : 0 < len) (hlen : len ≤ 64) (word : BitVec 64) (off b : Nat) :
    (bitExtract word off len).getLsbD b = (decide (b < len) && word.getLsbD (off + b)) := by
  rw [bitExtract, bitMask_zero hpos, BitVec.getLsbD_and, BitVec.getLsbD_ushiftRight,
    getLsbD_low_ones hlen, Bool.and_comm]

end Bao
