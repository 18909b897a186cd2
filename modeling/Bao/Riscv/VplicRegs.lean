import Bao.Riscv.VplicFrame

/-!
# The vPLIC's registers as memory

The words of the priority, enable and threshold registers, the addresses at which a guest finds
them, and the words of the controller's state that hold them. A guest load gives the word that is
held, and a guest store replaces it and no other one, as long as the VM has no more contexts than
the platform: the enable words of a context beyond those would lie on the thresholds.
-/

namespace Bao

open Foundation

/-! ## Bits and words of the memory -/

theorem memBit_update (mem : VplicMem) (w : Nat) (v : BitVec 32) (k : Nat) :
    memBit (Function.update mem w v) k =
      if k / 32 = w then v.getLsbD (k % 32) else memBit mem k := by
  unfold memBit
  split
  · next h => rw [h, Function.update_self]
  · next h => rw [Function.update_of_ne h]

theorem getLsbD_foldl_or {w : Nat} (p : Nat → Bool) {n : Nat} (hn : n ≤ w) (j : Nat) :
    ((List.range n).foldl (fun val i => if p i then val ||| 1#w <<< i else val) 0#w).getLsbD j =
      (decide (j < n) && p j) := by
  induction n with
  | zero => simp
  | succ n ih =>
    have hbit : (1#w <<< n).getLsbD j = decide (j = n) := by
      rw [BitVec.getLsbD_shiftLeft, BitVec.getLsbD_one]
      grind
    rw [List.range_succ, List.foldl_append, List.foldl_cons, List.foldl_nil]
    by_cases hp : p n = true
    · rw [if_pos hp, BitVec.getLsbD_or, ih (by omega), hbit]
      grind
    · rw [if_neg hp, ih (by omega)]
      grind

section EnblWord

variable {vm : VplicVm} {cpu vcntxt id word : Nat} {s : VplicState}

theorem vplicSetEnbl_memBit_eq {set : Bool} (hid : id < plicMaxInterrupts) (k : Nat) :
    memBit (vplicSetEnbl vm cpu vcntxt id set s).val.mem k =
      if k = enblAt vcntxt id then set else memBit s.mem k := by
  by_cases hk : k = enblAt vcntxt id
  · subst hk
    simp only [vplicSetEnbl, vplicGetEnbl, if_pos (IdLe.of_lt hid), Logged.val_ite, Logged.val_bind,
      Logged.val_pure, Logged.val_touch, if_true]
    split
    · split <;> simp [memBit_memWriteBit]
    · next h => simpa using h
  · rw [vplicSetEnbl_memBit hk, if_neg hk]

theorem enblAt_add (i : Nat) : enblAt vcntxt (id + i) = enblAt vcntxt id + i :=
  (Nat.add_assoc _ _ _).symm

theorem vplicSetEnblWord_memBit (hword : word < 32) (val : Word) (n : Nat) (hn : n ≤ 32) (k : Nat) :
    memBit ((List.range n).foldlM
        (fun s i => vplicSetEnbl vm cpu vcntxt (word * 32 + i) (val.getLsbD i) s) s).val.mem k =
      if enblAt vcntxt (word * 32) ≤ k ∧ k < enblAt vcntxt (word * 32) + n then
        val.getLsbD (k - enblAt vcntxt (word * 32))
      else memBit s.mem k := by
  induction n with
  | zero => simp [show ¬ (enblAt vcntxt (word * 32) ≤ k ∧ k < enblAt vcntxt (word * 32)) by omega]
  | succ n ih =>
    have hid : word * 32 + n < plicMaxInterrupts := by
      simp only [plicMaxInterrupts]
      omega
    simp only [List.range_succ, List.foldlM_append, List.foldlM_cons, List.foldlM_nil,
      Logged.val_bind, Logged.val_pure]
    rw [vplicSetEnbl_memBit_eq hid, ih (by omega), enblAt_add]
    by_cases hk : k = enblAt vcntxt (word * 32) + n
    · simp [hk]
    · rw [if_neg hk]
      exact if_congr (by omega) rfl rfl

/-- The word that holds the enable bits of a context for 32 interrupts. -/
def enblWordAt (vcntxt word : Nat) : Nat := 96 + plicMaxInterrupts + 32 * vcntxt + word

theorem enblAt_word : enblAt vcntxt (word * 32) = 32 * enblWordAt vcntxt word := by
  simp only [enblAt, enblWordAt, plicMaxInterrupts]
  omega

theorem vplicSetEnblWord_mem (hword : word < 32) (val : Word) :
    (vplicSetEnblWord vm cpu vcntxt (word * 32) val s).val.mem =
      Function.update s.mem (enblWordAt vcntxt word) (val.setWidth 32) := by
  refine mem_ext_memBit fun k => ?_
  have hmod := Nat.mod_lt k (show 0 < 32 by decide)
  have hin : 32 * enblWordAt vcntxt word ≤ k ∧ k < 32 * enblWordAt vcntxt word + 32 ↔
      k / 32 = enblWordAt vcntxt word := by omega
  rw [vplicSetEnblWord, vplicSetEnblWord_memBit hword val 32 le_rfl, memBit_update, enblAt_word]
  simp only [hin]
  split
  · next h =>
    rw [show k - 32 * enblWordAt vcntxt word = k % 32 by omega]
    simp [hmod]
  · rfl

theorem vplicEnblWord_val (mem : VplicMem) (hword : word < 32) :
    (vplicEnblWord mem vcntxt (word * 32)).val = (mem (enblWordAt vcntxt word)).setWidth 64 := by
  have hloop : (vplicEnblWord mem vcntxt (word * 32)).val = (List.range 32).foldl (fun val i =>
      if (vplicGetEnbl mem vcntxt (word * 32 + i)).val then val ||| 1#64 <<< i else val) 0#64 := by
    simp only [vplicEnblWord, Logged.val_foldlM, Logged.val_bind, Logged.val_pure]
    rfl
  refine BitVec.eq_of_getLsbD_eq fun j hj => ?_
  rw [hloop, getLsbD_foldl_or _ (by decide), BitVec.getLsbD_setWidth]
  by_cases hj32 : j < 32
  · have hid : IdLe (word * 32 + j) := .of_lt (show word * 32 + j < 1024 by omega)
    rw [vplicGetEnbl, if_pos hid, Logged.val_touch, memBit, enblAt_add, enblAt_word,
      show (32 * enblWordAt vcntxt word + j) / 32 = enblWordAt vcntxt word by omega,
      show (32 * enblWordAt vcntxt word + j) % 32 = j by omega, decide_eq_true hj32,
      decide_eq_true hj]
  · rw [decide_eq_false hj32, BitVec.getLsbD_of_ge _ j (by omega), Bool.false_and, Bool.and_false]

end EnblWord

/-! ## The registers -/

def plicAddr (plat : PlicPlat) (offset : Nat) : Word := plat.plicBase + BitVec.ofNat 64 offset

/-- A word of the priority, enable or threshold registers. -/
inductive VplicReg where
  | prio (id : Nat)
  | enbl (vcntxt word : Nat)
  | threshold (vcntxt : Nat)
  deriving DecidableEq

namespace VplicReg

/-- The place of a word after the base address of the controller. -/
def offset : VplicReg → Nat
  | prio id => 4 * id
  | enbl vcntxt word => 0x2000 + 0x80 * vcntxt + 4 * word
  | threshold vcntxt => 0x200000 + 0x1000 * vcntxt

def addr (plat : PlicPlat) (r : VplicReg) : Word := plicAddr plat r.offset

/-- The word is one of those that `vplic_init` has emulated. -/
def Emulated (plat : PlicPlat) (r : VplicReg) : Prop :=
  match r with
  | prio id => id < plicMaxInterrupts ∧ inEmulMem plat.plicBase (plicGlobalSize plat) (r.addr plat)
  | enbl vcntxt word => word < 32 ∧ 0x2000 + 0x80 * vcntxt < plicGlobalSize plat ∧
      inEmulMem plat.plicBase (plicGlobalSize plat) (r.addr plat)
  | threshold vcntxt => vcntxt < plat.cntxtNum ∧
      inEmulMem (plat.plicBase + 0x200000) (plicHartSize plat) (r.addr plat)

instance (plat : PlicPlat) : (r : VplicReg) → Decidable (r.Emulated plat)
  | prio _ => inferInstanceAs (Decidable (_ ∧ _))
  | enbl _ _ => inferInstanceAs (Decidable (_ ∧ _ ∧ _))
  | threshold _ => inferInstanceAs (Decidable (_ ∧ _))

/-- The word is there for the VM: the registers of a context are if the context is valid. -/
def held (vm : VplicVm) : VplicReg → Bool
  | prio _ => true
  | enbl vcntxt _ => vplicVcntxtValid vm vcntxt
  | threshold vcntxt => vplicVcntxtValid vm vcntxt

/-- The word of `vplic_t` that holds the register. -/
def wordAt (plat : PlicPlat) : VplicReg → Nat
  | prio id => prioAt id
  | enbl vcntxt word => enblWordAt vcntxt word
  | threshold vcntxt => thresholdAt plat vcntxt

def value (vm : VplicVm) (mem : VplicMem) (r : VplicReg) : BitVec 32 :=
  if r.held vm then mem (r.wordAt vm.plat) else 0

def load (plat : PlicPlat) (r : VplicReg) : EmulAccess :=
  { addr := r.addr plat, width := 4, write := false }

def store (plat : PlicPlat) (r : VplicReg) (val : Word) : EmulAccess :=
  { addr := r.addr plat, width := 4, write := true, regVal := val }

end VplicReg

/-! ## Decoding the addresses -/

section Decode

variable {vm : VplicVm} {plat : PlicPlat} {r : VplicReg} {acc : EmulAccess}

theorem and_mask_toNat (x : Word) {k : Nat} (hk : k ≤ 64) :
    (x &&& BitVec.ofNat 64 (2 ^ k - 1)).toNat = x.toNat % 2 ^ k := by
  have hlt : 2 ^ k - 1 < 2 ^ 64 :=
    Nat.sub_one_lt_of_le (Nat.two_pow_pos k) (Nat.pow_le_pow_right (by decide) hk)
  rw [BitVec.toNat_and, BitVec.toNat_ofNat, Nat.mod_eq_of_lt hlt, Nat.and_two_pow_sub_one_eq_mod]

theorem and_three_eq_zero_iff (x : Word) : x &&& 3 = 0 ↔ x.toNat % 4 = 0 := by
  rw [← BitVec.toNat_inj]
  exact (and_mask_toNat (k := 2) x (by decide)) ▸ Iff.rfl

theorem sub_toNat (x : Word) {k : Nat} (hk : k ≤ x.toNat) :
    (x - BitVec.ofNat 64 k).toNat = x.toNat - k := by
  rw [BitVec.toNat_sub, BitVec.toNat_ofNat, Nat.mod_eq_of_lt (show k < 2 ^ 64 by omega)]
  omega

theorem page_toNat (x : Word) : ((x >>> 12) &&& 3).toNat = x.toNat % 0x4000 / 0x1000 := by
  refine (and_mask_toNat (k := 2) (x >>> 12) (by decide)).trans ?_
  rw [BitVec.toNat_ushiftRight, Nat.shiftRight_eq_div_pow]
  omega

theorem plicAddr_sub_toNat {offset : Nat} (h : offset < 2 ^ 64) :
    (plicAddr plat offset - plat.plicBase).toNat = offset := by
  rw [plicAddr, BitVec.add_comm, BitVec.add_sub_cancel, BitVec.toNat_ofNat, Nat.mod_eq_of_lt h]

theorem plicAddr_toNat_mod {offset : Nat} (hbase : plat.plicBase.toNat % 0x4000 = 0) :
    (plicAddr plat offset).toNat % 0x4000 = offset % 0x4000 := by
  rw [plicAddr, BitVec.toNat_add, BitVec.toNat_ofNat]
  omega

theorem plicGlobalSize_bounds (hnum : plat.cntxtNum ≤ 64) :
    0x2000 ≤ plicGlobalSize plat ∧ plicGlobalSize plat ≤ 0x4000 := by
  rw [plicGlobalSize, align_eq (by simp only [pageSize]; omega)]
  simp only [pageSize]
  omega

namespace VplicReg

/-- The numbers of the register are within its fields of the address. -/
def Fits : VplicReg → Prop
  | prio id => id < 1024
  | enbl vcntxt word => vcntxt < 64 ∧ word < 32
  | threshold vcntxt => vcntxt < 64

theorem Emulated.fits (hnum : plat.cntxtNum ≤ 64) (h : r.Emulated plat) : r.Fits := by
  have hsize := (plicGlobalSize_bounds hnum).2
  cases r with
  | prio id => exact h.1
  | enbl vcntxt word => exact ⟨by have := h.2.1; omega, h.1⟩
  | threshold vcntxt => exact h.1.trans_le hnum

theorem Fits.offset_lt (h : r.Fits) : r.offset < 0x240000 := by
  cases r <;> simp only [Fits, offset] at h ⊢ <;> omega

theorem Fits.eq_of_offset {r' : VplicReg} (h : r.Fits) (h' : r'.Fits)
    (heq : r.offset = r'.offset) : r = r' := by
  cases r <;> cases r' <;>
    simp only [Fits, offset, prio.injEq, enbl.injEq, threshold.injEq] at h h' heq ⊢ <;> omega

theorem addr_sub_toNat (hnum : plat.cntxtNum ≤ 64) (h : r.Emulated plat) :
    (r.addr plat - plat.plicBase).toNat = r.offset :=
  plicAddr_sub_toNat ((h.fits hnum).offset_lt.trans (by decide))

theorem addr_toNat_mod (hbase : plat.plicBase.toNat % 0x4000 = 0) :
    (r.addr plat).toNat % 0x4000 = r.offset % 0x4000 :=
  plicAddr_toNat_mod hbase

theorem offset_mod : r.offset % 4 = 0 := by
  cases r <;> simp only [offset] <;> omega

theorem addr_and_three (hbase : plat.plicBase.toNat % 0x4000 = 0) : r.addr plat &&& 3 = 0 := by
  have hmod := addr_toNat_mod (r := r) hbase
  have hoff := r.offset_mod
  rw [and_three_eq_zero_iff]
  omega

end VplicReg

theorem globalAccessReg_eq :
    globalAccessReg vm acc = (acc.addr - vm.plat.plicBase).toNat % 0x1000 / 4 := by
  rw [globalAccessReg, show (0xfff : Word) = BitVec.ofNat 64 (2 ^ 12 - 1) from rfl,
    and_mask_toNat _ (by decide)]
  rfl

theorem hartAccessCntxt_eq (h : 0x200000 ≤ (acc.addr - vm.plat.plicBase).toNat) :
    hartAccessCntxt vm acc =
      ((acc.addr - vm.plat.plicBase).toNat - 0x200000) / 0x1000 % 0x400 := by
  rw [hartAccessCntxt, show (0x3ff : Word) = BitVec.ofNat 64 (2 ^ 10 - 1) from rfl,
    and_mask_toNat _ (by decide), BitVec.toNat_ushiftRight, Nat.shiftRight_eq_div_pow,
    show (0x200000 : Word) = BitVec.ofNat 64 0x200000 from rfl, sub_toNat _ h]
  rfl

theorem low_toNat (x : Word) : (x &&& 0xf).toNat = x.toNat % 16 :=
  and_mask_toNat (k := 4) x (by decide)

variable (hnum : vm.plat.cntxtNum ≤ 64) (haddr : acc.addr = r.addr vm.plat)

include hnum haddr

theorem globalAccessReg_prio {id : Nat} (hr : r = .prio id) (h : r.Emulated vm.plat) :
    globalAccessReg vm acc = id := by
  rw [globalAccessReg_eq, haddr, VplicReg.addr_sub_toNat hnum h]
  subst hr
  have hid : id < 1024 := h.1
  simp only [VplicReg.offset]
  omega

theorem enblAccess_enbl {vcntxt word : Nat} (hr : r = .enbl vcntxt word)
    (h : r.Emulated vm.plat) :
    enblAccessCntxt vm acc = vcntxt ∧ enblAccessFirst vm acc = word * 32 := by
  have hsub := VplicReg.addr_sub_toNat hnum h
  have hsize := (plicGlobalSize_bounds hnum).2
  subst hr
  obtain ⟨hword, hlt, -⟩ := h
  simp only [VplicReg.offset] at hsub
  constructor
  · rw [enblAccessCntxt, haddr, show (0x1fffff : Word) = BitVec.ofNat 64 (2 ^ 21 - 1) from rfl,
      and_mask_toNat _ (by decide), show (0x2000 : Word) = BitVec.ofNat 64 0x2000 from rfl,
      sub_toNat _ (by omega), hsub]
    omega
  · rw [enblAccessFirst, haddr, show (0x7f : Word) = BitVec.ofNat 64 (2 ^ 7 - 1) from rfl,
      and_mask_toNat _ (by decide), hsub]
    omega

theorem hartAccessCntxt_threshold {vcntxt : Nat} (hr : r = .threshold vcntxt)
    (h : r.Emulated vm.plat) : hartAccessCntxt vm acc = vcntxt := by
  have hsub := VplicReg.addr_sub_toNat hnum h
  subst hr
  have hc := h.1
  rw [← haddr] at hsub
  simp only [VplicReg.offset] at hsub
  rw [hartAccessCntxt_eq (by omega), hsub]
  omega

end Decode

/-! ## Loads and stores -/

section Access

variable {vm : VplicVm} {cpu : Nat} {s : VplicState} {r : VplicReg} {acc : EmulAccess}

theorem vplicSetPrio_mem {id : Nat} (hid : id < plicMaxInterrupts) (prio : BitVec 32) :
    (vplicSetPrio vm cpu id prio s).val.mem = Function.update s.mem (prioAt id) prio := by
  have hloop (t : VplicState) :
      ((List.range vm.cntxtNum).foldlM (vplicSetPrioBody vm cpu id) t).val.mem = t.mem :=
    Logged.foldlM_invariant (I := fun _ (u : VplicState) => u.mem = t.mem)
      (fun _ _ _ hu => vplicSetPrioBody_mem.trans hu) rfl
  simp only [vplicSetPrio, vplicGetPrio, if_pos (IdLe.of_lt hid), Logged.val_ite, Logged.val_bind,
    Logged.val_pure, Logged.val_touch]
  split
  · split
    · rfl
    · rw [hloop]
  · next hsame => rw [← not_not.mp hsame, Function.update_eq_self]

theorem vplicGlobalEmulHandler_eq (hwidth : acc.width = 4) (haligned : acc.addr &&& 3 = 0) :
    vplicGlobalEmulHandler vm cpu acc s =
      some (if acc.addr.toNat % 0x4000 / 0x1000 = 0 then vplicEmulPrioAccess vm cpu acc s
        else if acc.addr.toNat % 0x4000 / 0x1000 = 1 then vplicEmulPendAccess vm acc s
        else vplicEmulEnblAccess vm cpu acc s) := by
  rw [vplicGlobalEmulHandler, if_neg (not_or.mpr ⟨not_not.mpr hwidth, not_not.mpr haligned⟩),
    page_toNat]
  generalize acc.addr.toNat % 0x4000 / 0x1000 = page
  cases page with
  | zero => rfl
  | succ page => cases page <;> rfl

theorem vplicEmul_hart (hnum : vm.plat.cntxtNum ≤ 64)
    (hoff : 0x200000 ≤ (acc.addr - vm.plat.plicBase).toNat)
    (hwin : inEmulMem (vm.plat.plicBase + 0x200000) (plicHartSize vm.plat) acc.addr = true) :
    vplicEmul vm cpu acc s = vplicHartEmulHandler vm cpu acc s := by
  have hglobal : ¬ inEmulMem vm.plat.plicBase (plicGlobalSize vm.plat) acc.addr = true := by
    intro hin
    have hlt := sub_lt_of_inEmulMem hin
    have hsize := (plicGlobalSize_bounds hnum).2
    omega
  rw [vplicEmul, if_neg hglobal, if_pos hwin]

theorem vplicHartEmulHandler_eq (hwidth : ¬ 4 < acc.width) (haligned : acc.addr &&& 3 = 0) :
    vplicHartEmulHandler vm cpu acc s = some
      (if vplicVcntxtValid vm (hartAccessCntxt vm acc) = false then
        pure { state := s, val := if acc.write then none else some 0 }
      else if (acc.addr &&& 0xf).toNat = 0 then
        if acc.write then vplicSetThreshold vm (hartAccessCntxt vm acc) (acc.regVal.setWidth 32) s
        else do
          let threshold ← vplicGetTheshold vm.plat s.mem (hartAccessCntxt vm acc)
          pure { state := s, val := some (threshold.setWidth 64) }
      else if (acc.addr &&& 0xf).toNat = 4 then
        if acc.write then vplicComplete cpu (hartAccessCntxt vm acc) (intArg acc.regVal) s
        else vplicClaim vm (hartAccessCntxt vm acc) s
      else pure { state := s }) := by
  rw [vplicHartEmulHandler, if_neg (not_or.mpr ⟨hwidth, not_not.mpr haligned⟩)]
  generalize (acc.addr &&& 0xf).toNat = low
  split
  · rfl
  · split
    · split <;> rfl
    · split <;> rfl
    · next h0 h4 => rw [if_neg h0, if_neg h4]

variable (hbase : vm.plat.plicBase.toNat % 0x4000 = 0) (hnum : vm.plat.cntxtNum ≤ 64)
  (hr : r.Emulated vm.plat) (haddr : acc.addr = r.addr vm.plat) (hwidth : acc.width = 4)

include hbase hr haddr hwidth

theorem vplicEmul_prio {id : Nat} (heq : r = .prio id) :
    vplicEmul vm cpu acc s = some (vplicEmulPrioAccess vm cpu acc s) := by
  have hmod := VplicReg.addr_toNat_mod (r := r) hbase
  have haligned := VplicReg.addr_and_three (r := r) hbase
  rw [← haddr] at hmod haligned
  subst heq
  have hid : id < 1024 := hr.1
  simp only [VplicReg.offset] at hmod
  rw [vplicEmul, if_pos (haddr ▸ hr.2), vplicGlobalEmulHandler_eq hwidth haligned,
    if_pos (by omega)]

include hnum

theorem vplicEmul_enbl {vcntxt word : Nat} (heq : r = .enbl vcntxt word) :
    vplicEmul vm cpu acc s = some (vplicEmulEnblAccess vm cpu acc s) := by
  have hmod := VplicReg.addr_toNat_mod (r := r) hbase
  have haligned := VplicReg.addr_and_three (r := r) hbase
  have hsize := (plicGlobalSize_bounds hnum).2
  rw [← haddr] at hmod haligned
  subst heq
  obtain ⟨hword, hoff, hwin⟩ := hr
  simp only [VplicReg.offset] at hmod
  rw [vplicEmul, if_pos (haddr ▸ hwin), vplicGlobalEmulHandler_eq hwidth haligned,
    if_neg (by omega), if_neg (by omega)]

theorem vplicEmul_threshold {vcntxt : Nat} (heq : r = .threshold vcntxt) :
    vplicEmul vm cpu acc s = some
      (if vplicVcntxtValid vm vcntxt = false then
        pure { state := s, val := if acc.write then none else some 0 }
      else if acc.write then vplicSetThreshold vm vcntxt (acc.regVal.setWidth 32) s
      else do
        let threshold ← vplicGetTheshold vm.plat s.mem vcntxt
        pure { state := s, val := some (threshold.setWidth 64) }) := by
  have hmod := VplicReg.addr_toNat_mod (r := r) hbase
  have haligned := VplicReg.addr_and_three (r := r) hbase
  have hsub := VplicReg.addr_sub_toNat hnum hr
  have hcntxt := hartAccessCntxt_threshold hnum haddr heq hr
  rw [← haddr] at hmod haligned hsub
  have hlow : (acc.addr &&& 0xf).toNat = 0 := by
    rw [heq] at hmod
    simp only [VplicReg.offset] at hmod
    rw [low_toNat]
    omega
  subst heq
  rw [vplicEmul_hart hnum (by rw [hsub]; exact Nat.le_add_right ..) (haddr ▸ hr.2),
    vplicHartEmulHandler_eq (by omega) haligned, if_pos hlow, hcntxt]

/-- A load gives the word that is held, and a store replaces it. -/
theorem vplicEmul_reg (cpu : Nat) (s : VplicState) :
    ∃ x, vplicEmul vm cpu acc s = some x ∧
      (acc.write = false → x.val.val = some ((r.value vm s.mem).setWidth 64)) ∧
      (acc.write = false ∨ r.held vm = false → x.val.state = s) ∧
      x.val.state.mem = if acc.write ∧ r.held vm then
        Function.update s.mem (r.wordAt vm.plat) (acc.regVal.setWidth 32) else s.mem := by
  cases hreg : r with
  | prio id =>
    refine ⟨_, vplicEmul_prio hbase hr haddr hwidth hreg, ?_⟩
    have hid := globalAccessReg_prio hnum haddr hreg hr
    have hlt : id < plicMaxInterrupts := hid ▸ globalAccessReg_lt acc
    cases hwrite : acc.write <;> simp [vplicEmulPrioAccess, hwrite, hid, vplicGetPrio,
      IdLe.of_lt hlt, vplicSetPrio_mem hlt, VplicReg.value, VplicReg.held, VplicReg.wordAt]
  | enbl vcntxt word =>
    refine ⟨_, vplicEmul_enbl hbase hnum hr haddr hwidth hreg, ?_⟩
    obtain ⟨hc, hfirst⟩ := enblAccess_enbl hnum haddr hreg hr
    have hword : word < 32 := by
      subst hreg
      exact hr.1
    cases hwrite : acc.write <;> cases hvalid : vplicVcntxtValid vm vcntxt <;>
      simp [vplicEmulEnblAccess, hwrite, hc, hfirst, hvalid, vplicEnblWord_val _ hword,
        vplicSetEnblWord_mem hword, VplicReg.value, VplicReg.held, VplicReg.wordAt]
  | threshold vcntxt =>
    refine ⟨_, vplicEmul_threshold hbase hnum hr haddr hwidth hreg, ?_⟩
    cases hwrite : acc.write <;> cases hvalid : vplicVcntxtValid vm vcntxt <;>
      simp [hvalid, vplicGetTheshold, vplicSetThreshold, VplicReg.value, VplicReg.held,
        VplicReg.wordAt]

end Access

/-! ## Runs -/

/-- An access is one of a whole register word. Any other action may come in between. -/
def VplicAction.OnRegs (plat : PlicPlat) : VplicAction → Prop
  | .access _ acc => acc.width = 4 ∧ ∃ r : VplicReg, r.Emulated plat ∧ acc.addr = r.addr plat
  | _ => True

namespace VplicReg

/-- What a memory has at the address of the register after an action, if it had `old` there. -/
def after (plat : PlicPlat) (r : VplicReg) (old : BitVec 32) : VplicAction → BitVec 32
  | .access _ acc =>
    if acc.write ∧ acc.addr = r.addr plat then acc.regVal.setWidth 32 else old
  | _ => old

/-- The low half of the last value stored to the register, or 0. -/
def lastWritten (plat : PlicPlat) (r : VplicReg) (as : List VplicAction) : BitVec 32 :=
  as.foldl (r.after plat) 0

variable {vm : VplicVm} {plat : PlicPlat} {r r' : VplicReg}

theorem eq_of_addr (hnum : plat.cntxtNum ≤ 64) (hr : r.Emulated plat) (hr' : r'.Emulated plat)
    (h : r.addr plat = r'.addr plat) : r = r' := by
  refine (hr.fits hnum).eq_of_offset (hr'.fits hnum) ?_
  rw [← addr_sub_toNat hnum hr, h, addr_sub_toNat hnum hr']

/-- The register belongs to a context of the platform. -/
def OfPlat (plat : PlicPlat) : VplicReg → Prop
  | prio _ => True
  | enbl vcntxt _ => vcntxt < plat.cntxtNum
  | threshold vcntxt => vcntxt < plat.cntxtNum

theorem ofPlat_of_held (hown : vm.cntxtNum ≤ vm.plat.cntxtNum) (h : r.held vm = true) :
    r.OfPlat vm.plat := by
  have hlt (vcntxt : Nat) (hvalid : vplicVcntxtValid vm vcntxt = true) :
      vcntxt < vm.plat.cntxtNum := by
    simp only [vplicVcntxtValid, Bool.and_eq_true, decide_eq_true_eq] at hvalid
    exact hvalid.1.trans_le hown
  cases r with
  | prio id => trivial
  | enbl vcntxt word => exact hlt vcntxt h
  | threshold vcntxt => exact hlt vcntxt h

theorem eq_of_wordAt (hr : r.Fits) (hr' : r'.Fits) (h : r.OfPlat plat) (h' : r'.OfPlat plat)
    (heq : r.wordAt plat = r'.wordAt plat) : r = r' := by
  cases r <;> cases r' <;> simp only [Fits, OfPlat, wordAt, prioAt, enblWordAt, thresholdAt,
    plicMaxInterrupts, prio.injEq, enbl.injEq, threshold.injEq] at hr hr' h h' heq ⊢ <;> omega

theorem wordAt_bounds (hnum : plat.cntxtNum ≤ 64) (hr : r.Fits) :
    96 ≤ r.wordAt plat ∧ r.wordAt plat < 2 ^ 58 := by
  cases r <;> simp only [Fits, wordAt, prioAt, enblWordAt, thresholdAt, plicMaxInterrupts]
    at hr ⊢ <;> omega

end VplicReg

section Runs

variable {vm : VplicVm} {s t : VplicSystem} {a : VplicAction} {r : VplicReg} {w : Nat}

theorem vplicStep_word (hacc : ∀ cpu acc, a ≠ .access cpu acc) (hw : 96 ≤ w)
    (h : vplicStep vm s a = some t) : t.state.mem w = s.state.mem w := by
  by_cases hinject : ∃ cpu vcpuId id, a = .inject cpu vcpuId id
  · obtain ⟨cpu, vcpuId, id, rfl⟩ := hinject
    rw [(vplicStep_inject h).mem]
    split
    · next hid =>
      have hle : id ≤ 1024 := hid.1.2
      exact memWriteBit_word (by simp only [pendAt, plicMaxInterrupts]; omega)
    · rfl
  · rw [(vplicStep_quiet hacc (fun cpu v id heq => hinject ⟨cpu, v, id, heq⟩) h).1]

theorem vplicInit_word (interrupts : List Nat) (hw : 96 ≤ w) (hlt : w < 2 ^ 58) :
    (vplicInit interrupts).state.mem w = 0 := by
  refine Logged.foldlM_invariant (f := vplicSetHw) (a := fun _ => 0)
    (I := fun _ (mem : VplicMem) => mem w = 0) (fun mem id _ hmem => ?_) rfl
  rw [vplicSetHw]
  split
  · next hid =>
    -- The bitmap ends before the registers, and a negative id is far behind them.
    rw [Logged.val_touch, memWriteBit_word (by simp only [IdLe, plicMaxInterrupts] at hid; omega)]
    exact hmem
  · exact hmem

variable (hbase : vm.plat.plicBase.toNat % 0x4000 = 0) (hnum : vm.plat.cntxtNum ≤ 64)
  (hown : vm.cntxtNum ≤ vm.plat.cntxtNum)

include hbase hnum hown

theorem vplicStep_reg (hr : r.Emulated vm.plat) (hheld : r.held vm = true)
    (ha : a.OnRegs vm.plat) (h : vplicStep vm s a = some t) :
    t.state.mem (r.wordAt vm.plat) = r.after vm.plat (s.state.mem (r.wordAt vm.plat)) a := by
  have hword := (VplicReg.wordAt_bounds hnum (hr.fits hnum)).1
  cases a with
  | access cpu acc =>
    obtain ⟨hwidth, r', hr', haddr⟩ := ha
    simp only [vplicStep, vplicExec, Option.map_eq_some_iff, Option.ite_none_right_eq_some] at h
    obtain ⟨_, ⟨-, x, hx, rfl⟩, rfl⟩ := h
    simp only [Logged.val_bind, Logged.val_pure, VplicReg.after]
    obtain ⟨y, hy, -, -, hmem⟩ := vplicEmul_reg hbase hnum hr' haddr hwidth cpu s.state
    obtain rfl : y = x := Option.some.inj (hy.symm.trans hx)
    rw [hmem, haddr]
    by_cases heq : r' = r
    · subst heq
      cases hwrite : acc.write <;> simp [hheld]
    · have hother : ¬ (acc.write = true ∧ r'.addr vm.plat = r.addr vm.plat) :=
        fun hsame => heq (VplicReg.eq_of_addr hnum hr' hr hsame.2)
      rw [if_neg hother]
      split
      · next hheld' =>
        refine Function.update_of_ne (fun heq' => heq ?_) ..
        exact VplicReg.eq_of_wordAt (hr'.fits hnum) (hr.fits hnum)
          (VplicReg.ofPlat_of_held hown hheld'.2) (VplicReg.ofPlat_of_held hown hheld) heq'.symm
      · rfl
  | inject cpu vcpuId id => exact vplicStep_word (by simp) hword h
  | updateLine cpu => exact vplicStep_word (by simp) hword h
  | handleMsg cpu => exact vplicStep_word (by simp) hword h
  | reset cpu => exact vplicStep_word (by simp) hword h

theorem vplic_run_reg {as : List VplicAction} (hr : r.Emulated vm.plat) (hheld : r.held vm = true)
    (has : ∀ a ∈ as, a.OnRegs vm.plat) (h : run (vplicStep vm) s as = some t) :
    t.state.mem (r.wordAt vm.plat) =
      as.foldl (r.after vm.plat) (s.state.mem (r.wordAt vm.plat)) := by
  induction as generalizing s with
  | nil =>
    cases h
    rfl
  | cons a as ih =>
    obtain ⟨u, hu, ht⟩ := run_cons.mp h
    rw [ih (fun b hb => has b (List.mem_cons_of_mem a hb)) ht,
      vplicStep_reg hbase hnum hown hr hheld (has a List.mem_cons_self) hu, List.foldl_cons]

end Runs

/-- In every run whose accesses are those of whole register words, a load gives the last value that
was stored to the same word. The words of the contexts that the VM does not have read as 0, and a
store to them leaves the controller as it is. -/
theorem vplic_regs_memory {vm : VplicVm} (hbase : vm.plat.plicBase.toNat % 0x4000 = 0)
    (hnum : vm.plat.cntxtNum ≤ 64) (hown : vm.cntxtNum ≤ vm.plat.cntxtNum)
    {interrupts : List Nat} {as : List VplicAction} {t : VplicSystem}
    (hrun : run (vplicStep vm) (vplicInit interrupts) as = some t)
    (has : ∀ a ∈ as, a.OnRegs vm.plat) {r : VplicReg} (hr : r.Emulated vm.plat) (cpu : Nat) :
    (∃ x, vplicEmul vm cpu (r.load vm.plat) t.state = some x ∧ x.val.state = t.state ∧
      x.val.val = some ((if r.held vm then r.lastWritten vm.plat as else 0).setWidth 64)) ∧
    ∀ val, ∃ x, vplicEmul vm cpu (r.store vm.plat val) t.state = some x ∧
      (r.held vm = false → x.val.state = t.state) := by
  constructor
  · obtain ⟨x, hx, hval, hstate, -⟩ := vplicEmul_reg hbase hnum hr
      (show (r.load vm.plat).addr = r.addr vm.plat from rfl) rfl cpu t.state
    refine ⟨x, hx, hstate (.inl rfl), ?_⟩
    rw [hval rfl, VplicReg.value]
    cases hheld : r.held vm with
    | false => rfl
    | true =>
      obtain ⟨hlo, hhi⟩ := VplicReg.wordAt_bounds hnum (hr.fits hnum)
      rw [vplic_run_reg hbase hnum hown hr hheld has hrun, vplicInit_word interrupts hlo hhi,
        VplicReg.lastWritten]
  · intro val
    obtain ⟨x, hx, -, hsame, -⟩ := vplicEmul_reg hbase hnum hr
      (show (r.store vm.plat val).addr = r.addr vm.plat from rfl) rfl cpu t.state
    exact ⟨x, hx, fun hheld => hsame (.inr hheld)⟩

/-- Two harts of a VM store to their enable words, and the first one stores again. -/
theorem vplic_regs_memory_enable :
    let vm : VplicVm := { plat := virtPlat, cpus := 3, cntxtNum := 4 }
    let as := [VplicAction.access 0 ((VplicReg.enbl 1 0).store virtPlat 0x200),
      .access 1 ((VplicReg.enbl 3 0).store virtPlat 0x200),
      .access 0 ((VplicReg.enbl 1 0).store virtPlat 0xf00000400)]
    ∃ t x, run (vplicStep vm) (vplicInit [9]) as = some t ∧
      vplicEmul vm 1 ((VplicReg.enbl 1 0).load virtPlat) t.state = some x ∧
      x.val.val = some 0x400 := by
  intro vm as
  obtain ⟨t, ht⟩ : ∃ t, run (vplicStep vm) (vplicInit [9]) as = some t :=
    Option.isSome_iff_exists.mp (by decide +kernel)
  have has : ∀ a ∈ as, a.OnRegs vm.plat := by
    simp only [as, List.forall_mem_cons]
    exact ⟨⟨rfl, _, by decide, rfl⟩, ⟨rfl, _, by decide, rfl⟩, ⟨rfl, _, by decide, rfl⟩,
      List.forall_mem_nil _⟩
  obtain ⟨⟨x, hx, -, hval⟩, -⟩ := vplic_regs_memory (by decide) (by decide) (by decide)
    ht has (r := .enbl 1 0) (by decide) 1
  exact ⟨t, x, ht, hx, hval.trans (by decide +kernel)⟩

/-- The constants of `openpiton`, which has two cpus and two contexts. -/
def openpitonPlat : PlicPlat where
  cntxtNum := 2
  implInterrupts := 127
  plicBase := 0xfff1100000

/-- A guest with both cpus of `openpiton` has four contexts. It stores 5 to an enable word of the
third one, and the threshold of its second context reads 5. -/
theorem vplic_regs_alias :
    let vm : VplicVm := { plat := openpitonPlat, cpus := 3, cntxtNum := 4 }
    let as := [VplicAction.access 0 ((VplicReg.enbl 2 1).store openpitonPlat 5)]
    (VplicReg.enbl 2 1).Emulated openpitonPlat ∧ (VplicReg.threshold 1).Emulated openpitonPlat ∧
    (VplicReg.threshold 1).held vm = true ∧
    (VplicReg.threshold 1).lastWritten openpitonPlat as = 0 ∧
    ((run (vplicStep vm) (vplicInit []) as).bind fun t =>
      (vplicEmul vm 0 ((VplicReg.threshold 1).load openpitonPlat) t.state).map fun x => x.val.val) =
        some (some 5) := by
  decide +kernel

end Bao
