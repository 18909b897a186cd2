import Mathlib.Logic.Function.Basic
import Bao.Lib.Bit
import Bao.Lib.Util

/-!
# Priorities in the distributor

Four priorities share a word of `IPRIORITYR`. `gicd_set_prio` writes the byte of its interrupt and
no other one. `gicd_get_prio` shifts the byte down and then takes the mask of the place where it
was, so it returns a priority only for every fourth interrupt: for the next one the byte behind its
own, and for the others 0.
-/

namespace Bao.Armv8

def gicMaxInterupts : Nat := 1024
def gicPrioBits : Nat := 8

/-- `GIC_PRIO_REG(NINT)`. -/
def gicPrioReg (nint : Nat) : Nat := u64 (nint * gicPrioBits) / 32

/-- `GIC_PRIO_OFF(NINT)`. -/
def gicPrioOff (nint : Nat) : Nat := u64 (nint * gicPrioBits) % 32

/-- The registers of the distributor with the priorities. -/
structure Gicd where
  ipriorityr : Nat → BitVec 32

def gicdGetPrio (gicd : Gicd) (intId : Nat) : BitVec 64 :=
  let regInd := gicPrioReg intId
  let off := gicPrioOff intId
  (gicd.ipriorityr regInd >>> off).setWidth 64 &&& bitMask off gicPrioBits

def gicdSetPrio (gicd : Gicd) (intId : Nat) (prio : BitVec 8) : Gicd :=
  let regInd := gicPrioReg intId
  let off := gicPrioOff intId
  let mask := bitMask off gicPrioBits
  -- `prio << off` is an `int`, which is extended by its sign
  let value := (prio.setWidth 32 <<< off).signExtend 64
  let word := (gicd.ipriorityr regInd).setWidth 64 &&& ~~~mask ||| value &&& mask
  { ipriorityr := Function.update gicd.ipriorityr regInd (word.setWidth 32) }

/-! ## Words and their bytes -/

/-- The byte of an interrupt. -/
def prioField (gicd : Gicd) (intId : Nat) : BitVec 8 :=
  (gicd.ipriorityr (intId / 4)).extractLsb' (8 * (intId % 4)) 8

variable {gicd : Gicd} {id : Nat} {p : BitVec 8}

theorem gicPrioReg_of_lt (h : id < gicMaxInterupts) : gicPrioReg id = id / 4 := by
  simp only [gicMaxInterupts] at h
  simp only [gicPrioReg, gicPrioBits, u64]
  omega

theorem gicPrioOff_eq (id : Nat) : gicPrioOff id = 8 * (id % 4) := by
  simp only [gicPrioOff, gicPrioBits, u64]
  omega

theorem getLsbD_prioMask (off b : Nat) : (bitMask off gicPrioBits).getLsbD b =
    (decide (b < 64) && decide (off ≤ b) && decide (b < off + 8)) :=
  getLsbD_bitMask (by decide) (by decide) off b

@[simp]
theorem getLsbD_prioField (gicd : Gicd) (id b : Nat) : (prioField gicd id).getLsbD b =
    (decide (b < 8) && (gicd.ipriorityr (id / 4)).getLsbD (8 * (id % 4) + b)) := by
  rw [prioField, BitVec.getLsbD_extractLsb']

theorem getLsbD_gicdSetPrio (hid : id < gicMaxInterupts) (p : BitVec 8) {b : Nat} (hb : b < 32) :
    ((gicdSetPrio gicd id p).ipriorityr (id / 4)).getLsbD b =
      if 8 * (id % 4) ≤ b ∧ b < 8 * (id % 4) + 8 then p.getLsbD (b - 8 * (id % 4))
      else (gicd.ipriorityr (id / 4)).getLsbD b := by
  simp only [gicdSetPrio, gicPrioReg_of_lt hid, gicPrioOff_eq, Function.update_self,
    BitVec.getLsbD_setWidth, BitVec.getLsbD_or, BitVec.getLsbD_and, BitVec.getLsbD_not,
    getLsbD_prioMask, BitVec.getLsbD_signExtend, BitVec.getLsbD_shiftLeft]
  have h64 : b < 64 := by omega
  by_cases hlow : 8 * (id % 4) ≤ b <;> by_cases hhigh : b < 8 * (id % 4) + 8
  · have hin : ¬b < 8 * (id % 4) := by omega
    have hsub : b - 8 * (id % 4) < 32 := by omega
    simp [hb, h64, hlow, hhigh, hin, hsub]
  · simp [hb, h64, hhigh]
  · simp [hb, h64, hlow]
  · simp [hb, h64, hlow]

theorem prioField_gicdSetPrio (hid : id < gicMaxInterupts) (p : BitVec 8) (j : Nat) :
    prioField (gicdSetPrio gicd id p) j = if j = id then p else prioField gicd j := by
  apply BitVec.eq_of_getLsbD_eq
  intro b hb
  have hmod : 8 * (j % 4) + b < 32 := by omega
  by_cases hword : j / 4 = id / 4
  · rw [getLsbD_prioField, hword, getLsbD_gicdSetPrio hid p hmod]
    by_cases hj : j = id
    · simp [hj, hb]
    · have hout : ¬(8 * (id % 4) ≤ 8 * (j % 4) + b ∧ 8 * (j % 4) + b < 8 * (id % 4) + 8) := by
        omega
      rw [if_neg hout, if_neg hj, getLsbD_prioField, hword]
  · have hj : j ≠ id := fun h => hword (by rw [h])
    simp [hj, gicdSetPrio, gicPrioReg_of_lt hid, Function.update_of_ne hword]

/-- The mask of `gicd_get_prio` lets through bits `off` to `off + 7` of the shifted word, which are
bits `2 * off` to `2 * off + 7` of the register. -/
theorem getLsbD_gicdGetPrio (gicd : Gicd) (hid : id < gicMaxInterupts) {b : Nat} (hb : b < 64) :
    (gicdGetPrio gicd id).getLsbD b =
      (decide (8 * (id % 4) ≤ b) && decide (b < 8 * (id % 4) + 8) &&
        (gicd.ipriorityr (id / 4)).getLsbD (8 * (id % 4) + b)) := by
  simp only [gicdGetPrio, gicPrioReg_of_lt hid, gicPrioOff_eq, BitVec.getLsbD_and,
    BitVec.getLsbD_setWidth, BitVec.getLsbD_ushiftRight, getLsbD_prioMask, hb, decide_true,
    Bool.true_and]
  rw [Bool.and_comm]

theorem gicdGetPrio_first (gicd : Gicd) (hid : id < gicMaxInterupts) (h : id % 4 = 0) :
    gicdGetPrio gicd id = (prioField gicd id).setWidth 64 := by
  apply BitVec.eq_of_getLsbD_eq
  intro b hb
  rw [getLsbD_gicdGetPrio gicd hid hb]
  simp [h, hb]

theorem gicdGetPrio_second (gicd : Gicd) (hid : id < gicMaxInterupts) (h : id % 4 = 1) :
    gicdGetPrio gicd id = (prioField gicd (id + 1)).setWidth 64 <<< 8 := by
  apply BitVec.eq_of_getLsbD_eq
  intro b hb
  have hword : (id + 1) / 4 = id / 4 := by omega
  have hplace : (id + 1) % 4 = 2 := by omega
  rw [getLsbD_gicdGetPrio gicd hid hb]
  by_cases hlow : 8 ≤ b
  · have hshift : 16 + (b - 8) = 8 + b := by omega
    have hbit : decide (b - 8 < 8) = decide (b < 16) := by
      rw [decide_eq_decide]
      omega
    simp [h, hb, hlow, hword, hplace, hshift, hbit]
  · have hlow' : b < 8 := by omega
    simp [h, hlow, hlow']

theorem gicdGetPrio_last (gicd : Gicd) (hid : id < gicMaxInterupts) (h : 2 ≤ id % 4) :
    gicdGetPrio gicd id = (0#8).setWidth 64 := by
  apply BitVec.eq_of_getLsbD_eq
  intro b hb
  rw [getLsbD_gicdGetPrio gicd hid hb]
  by_cases hlow : 8 * (id % 4) ≤ b
  · rw [BitVec.getLsbD_of_ge (gicd.ipriorityr (id / 4)) _ (by omega)]
    simp
  · simp [hlow]

/-! ## Reading back -/

theorem setWidth_eq_iff (p q : BitVec 8) : q.setWidth 64 = p.setWidth 64 ↔ q = p := by
  constructor
  · intro h
    have hnat := congrArg BitVec.toNat h
    apply BitVec.eq_of_toNat_eq
    simp only [BitVec.toNat_setWidth] at hnat
    omega
  · exact fun h => h ▸ rfl

theorem shiftLeft_eq_iff (p q : BitVec 8) :
    q.setWidth 64 <<< 8 = p.setWidth 64 <<< 8 ↔ q = p := by
  constructor
  · intro h
    have hnat := congrArg BitVec.toNat h
    apply BitVec.eq_of_toNat_eq
    simp only [BitVec.toNat_shiftLeft, BitVec.toNat_setWidth, Nat.shiftLeft_eq] at hnat
    omega
  · exact fun h => h ▸ rfl

theorem setWidth_shiftLeft_eq_setWidth_iff (p q : BitVec 8) :
    q.setWidth 64 <<< 8 = p.setWidth 64 ↔ p = 0#8 ∧ q = 0#8 := by
  constructor
  · intro h
    have hnat := congrArg BitVec.toNat h
    simp only [BitVec.toNat_shiftLeft, BitVec.toNat_setWidth, Nat.shiftLeft_eq] at hnat
    refine ⟨BitVec.eq_of_toNat_eq ?_, BitVec.eq_of_toNat_eq ?_⟩ <;>
    · rw [BitVec.toNat_zero]
      omega
  · rintro ⟨rfl, rfl⟩
    decide

/-- Only the interrupt below the one that was set, where that is the third one of its word, may be
read as another priority than before. -/
theorem gicdGetPrio_gicdSetPrio_of_ne (gicd : Gicd) (hid : id < gicMaxInterupts) (p : BitVec 8)
    {j : Nat} (hj : j < gicMaxInterupts) (hne : j ≠ id) (hnext : j % 4 = 1 → j + 1 ≠ id) :
    gicdGetPrio (gicdSetPrio gicd id p) j = gicdGetPrio gicd j := by
  obtain h | h | h : j % 4 = 0 ∨ j % 4 = 1 ∨ 2 ≤ j % 4 := by omega
  · rw [gicdGetPrio_first _ hj h, gicdGetPrio_first _ hj h, prioField_gicdSetPrio hid, if_neg hne]
  · rw [gicdGetPrio_second _ hj h, gicdGetPrio_second _ hj h, prioField_gicdSetPrio hid,
      if_neg (hnext h)]
  · rw [gicdGetPrio_last _ hj h, gicdGetPrio_last _ hj h]

theorem gicdGetPrio_others_iff (gicd : Gicd) (hid : id < gicMaxInterupts) (h : id % 4 = 2)
    (p : BitVec 8) :
    (∀ j < gicMaxInterupts, j ≠ id →
      gicdGetPrio (gicdSetPrio gicd id p) j = gicdGetPrio gicd j) ↔ p = prioField gicd id := by
  have hprev : id - 1 < gicMaxInterupts := by omega
  have hplace : (id - 1) % 4 = 1 := by omega
  have hbelow : gicdGetPrio (gicdSetPrio gicd id p) (id - 1) = gicdGetPrio gicd (id - 1) ↔
      p = prioField gicd id := by
    rw [gicdGetPrio_second _ hprev hplace, gicdGetPrio_second _ hprev hplace,
      show id - 1 + 1 = id by omega, prioField_gicdSetPrio hid, if_pos rfl, shiftLeft_eq_iff]
  constructor
  · exact fun hsame => hbelow.1 (hsame (id - 1) hprev (by omega))
  · intro hp j hj hne
    by_cases hj' : j + 1 = id
    · obtain rfl : j = id - 1 := by omega
      exact hbelow.2 hp
    · exact gicdGetPrio_gicdSetPrio_of_ne gicd hid p hj hne fun _ => hj'

/-- A priority that was set is read back and the others read as before just for the interrupts whose
byte is the lowest of its word. For the other three the priority has to be 0, and so has the byte
that `gicd_get_prio` takes for the second one of the word. -/
theorem gicdGetPrio_gicdSetPrio_iff (gicd : Gicd) (hid : id < gicMaxInterupts) (p : BitVec 8) :
    (gicdGetPrio (gicdSetPrio gicd id p) id = p.setWidth 64 ∧
      ∀ j < gicMaxInterupts, j ≠ id →
        gicdGetPrio (gicdSetPrio gicd id p) j = gicdGetPrio gicd j) ↔
      id % 4 = 0 ∨ p = 0#8 ∧ (id % 4 = 1 → prioField gicd (id + 1) = 0#8) ∧
        (id % 4 = 2 → prioField gicd id = 0#8) := by
  have hother : id % 4 ≠ 2 → ∀ j < gicMaxInterupts, j ≠ id →
      gicdGetPrio (gicdSetPrio gicd id p) j = gicdGetPrio gicd j :=
    fun h j hj hne => gicdGetPrio_gicdSetPrio_of_ne gicd hid p hj hne (by omega)
  obtain h | h | h | h : id % 4 = 0 ∨ id % 4 = 1 ∨ id % 4 = 2 ∨ id % 4 = 3 := by omega
  · have hread : gicdGetPrio (gicdSetPrio gicd id p) id = p.setWidth 64 := by
      rw [gicdGetPrio_first _ hid h, prioField_gicdSetPrio hid, if_pos rfl]
    exact iff_of_true ⟨hread, hother (by omega)⟩ (Or.inl h)
  · have hread : gicdGetPrio (gicdSetPrio gicd id p) id = p.setWidth 64 ↔
        p = 0#8 ∧ prioField gicd (id + 1) = 0#8 := by
      rw [gicdGetPrio_second _ hid h, prioField_gicdSetPrio hid, if_neg (by omega),
        setWidth_shiftLeft_eq_setWidth_iff]
    rw [and_iff_left (hother (by omega)), hread]
    simp [h]
  · rw [gicdGetPrio_last _ hid h.ge, setWidth_eq_iff, gicdGetPrio_others_iff gicd hid h]
    simp only [h, OfNat.ofNat_ne_zero, OfNat.ofNat_ne_one, false_or, false_implies, true_and,
      true_implies]
    grind
  · rw [and_iff_left (hother (by omega)), gicdGetPrio_last _ hid (by omega), setWidth_eq_iff]
    simp [h, eq_comm (a := 0#8)]

theorem gicdGetPrio_gicdSetPrio_fortieth :
    40 < gicMaxInterupts ∧
      gicdGetPrio (gicdSetPrio ⟨fun _ => 0⟩ 40 0xa0) 40 = 0xa0 ∧
      ∀ j < gicMaxInterupts, j ≠ 40 →
        gicdGetPrio (gicdSetPrio ⟨fun _ => 0⟩ 40 0xa0) j = gicdGetPrio ⟨fun _ => 0⟩ j :=
  ⟨by decide, (gicdGetPrio_gicdSetPrio_iff ⟨fun _ => 0⟩ (by decide) 0xa0).2 (Or.inl (by decide))⟩

/-- The priority of interrupt 41 is lost, and the one of interrupt 42 is read for it, at another
place. -/
theorem gicdGetPrio_gicdSetPrio_ne :
    gicdGetPrio (gicdSetPrio ⟨fun _ => 0⟩ 41 0xa0) 41 = 0 ∧
      gicdGetPrio (gicdSetPrio ⟨fun _ => 0⟩ 42 0xa0) 41 = 0xa000 ∧
      gicdGetPrio ⟨fun _ => 0⟩ 41 = 0 := by
  decide

end Bao.Armv8
