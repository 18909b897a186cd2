import Mathlib.Data.BitVec
import Mathlib.Algebra.Order.Ring.Nat
import Mathlib.Tactic.IntervalCases
import Bao.Lib.Util
import Bao.Riscv.Vcpu

/-!
# Page tables

Page-table entries and the walks of `arch/riscv/page_table.c` and `arch/riscv/mem.c`, over a memory
of 64-bit words at physical addresses. Tables below the root are reached by their physical
addresses, which the hypervisor has mapped to themselves. The root table is reached through the
virtual address `root`; an entry is named by its physical address here, and only
`pt_getpteindex`, which takes an entry's index from the pointer to it, sees the other one.
-/

namespace Bao

/-- The 64-bit word at each physical address. -/
abbrev PhysMem := Nat → Word

/-- `page_table_dscr_t`. -/
structure PtDscr where
  lvls : Nat
  lvlOff : List Nat
  lvlWdt : List Nat
  lvlTerm : List Bool

def sv39PtDscr : PtDscr where
  lvls := 3
  lvlOff := [30, 21, 12]
  lvlWdt := [39, 30, 21]
  lvlTerm := [true, true, true]

def sv39x4PtDscr : PtDscr where
  lvls := 3
  lvlOff := [30, 21, 12]
  lvlWdt := [41, 30, 21]
  lvlTerm := [true, true, true]

/-- `page_table_t`, with the physical address of the root table. -/
structure PageTable where
  dscr : PtDscr
  root : Nat
  rootPa : Nat

def ptNentries (pt : PageTable) (lvl : Nat) : Nat :=
  (1 <<< pt.dscr.lvlWdt.getD lvl 0) >>> pt.dscr.lvlOff.getD lvl 0

def ptLvlsize (pt : PageTable) (lvl : Nat) : Nat := 1 <<< pt.dscr.lvlOff.getD lvl 0

def ptSize (pt : PageTable) (lvl : Nat) : Nat := ptNentries pt lvl * 8

def ptLvlTerminal (pt : PageTable) (lvl : Nat) : Bool := pt.dscr.lvlTerm.getD lvl false

/-- `pt_getpteindex`, of the pointer through which the hypervisor reaches the entry. -/
def ptGetpteindex (pt : PageTable) (pte lvl : Nat) : Nat :=
  let ptr := if lvl = 0 then pt.root + (pte - pt.rootPa) else pte
  (ptr &&& (ptSize pt lvl - 1)) / 8

def ptGetpteindexByVa (pt : PageTable) (va lvl : Nat) : Nat :=
  (va >>> pt.dscr.lvlOff.getD lvl 0) &&& (ptNentries pt lvl - 1)

/-! ### Entries -/

def pteAddrMsk : Word := ((1 <<< 44) - 1) <<< 12
def pteFlagsMsk : Word := 0xff
def pteRswMsk : Word := 3 <<< 8

/-- `PTE_TABLE` and `PTE_PAGE`: the type of an entry that points to a table or maps memory. -/
def pteTypeTable : Word := 0
def pteTypePage : Word := 0xe

/-- `PTE_HYP_FLAGS`: valid, global, accessed, dirty. -/
def pteHypFlags : Word := 0xe1

/-- `PTE_VM_FLAGS`: valid, user, accessed, dirty. -/
def pteVmFlags : Word := 0xd1

def pteRswRsrv : Word := 3 <<< 8

/-- The entry that `pte_set` stores. -/
def pteSet (addr : Nat) (type flags : Word) : Word :=
  ((BitVec.ofNat 64 addr &&& pteAddrMsk) >>> 2) ||| (flags &&& pteFlagsMsk) ||| type

def pteAddr (pte : Word) : Nat := ((pte <<< 2) &&& pteAddrMsk).toNat

def pteValid (pte : Word) : Bool := pte &&& 1 ≠ 0

/-- The entry that `pte_set_rsw` stores. -/
def pteSetRsw (pte flag : Word) : Word := (pte &&& ~~~ pteRswMsk) ||| (flag &&& pteRswMsk)

def pteCheckRsw (pte flag : Word) : Bool := pte &&& pteRswMsk = flag &&& pteRswMsk

def pteTable (pte : Word) : Bool := pte &&& 0xf = 1

/-- `pt_pte_type`. -/
def ptPteType : Word := pteTypePage

/-! ### Walks -/

/-- `pt_get_pte`, with `none` for the null pointer. -/
def ptGetPte (pt : PageTable) (mem : PhysMem) : (lvl va : Nat) → Option Nat
  | 0, va => some (pt.rootPa + 8 * ptGetpteindexByVa pt va 0)
  | i + 1, va =>
    match ptGetPte pt mem i va with
    | some pte =>
      if pteValid (mem pte) then some (pteAddr (mem pte) + 8 * ptGetpteindexByVa pt va (i + 1))
      else none
    | none => none

/-- `pt_get`: the start of the table that holds the entry. -/
def ptGet (pt : PageTable) (mem : PhysMem) (lvl va : Nat) : Option Nat :=
  (ptGetPte pt mem lvl va).map fun pte => pte - pte % ptSize pt lvl

/-- The loop of `mem_translate`: the entry at which it stops, with its level. -/
def memTranslateLoop (pt : PageTable) (mem : PhysMem) (va : Nat) : (left i pte : Nat) → Nat × Nat
  | 0, _, pte => (pte, 0)
  | left + 1, i, pte =>
    if !pteValid (mem pte) || !pteTable (mem pte) then (pte, i)
    else memTranslateLoop pt mem va left (i + 1)
      (pteAddr (mem pte) + 8 * ptGetpteindexByVa pt va (i + 1))

/-- `mem_translate`, with `none` for the result `false`. -/
def memTranslate (pt : PageTable) (mem : PhysMem) (va : Nat) : Option Nat :=
  let r := memTranslateLoop pt mem va pt.dscr.lvls 0 (pt.rootPa + 8 * ptGetpteindexByVa pt va 0)
  if r.1 ≠ 0 ∧ pteValid (mem r.1) then
    let block := ptLvlsize pt r.2
    some (pteAddr (mem r.1) / block * block + va % block)
  else none

/-! ## Entries and their fields -/

theorem pteTable_valid {w : Word} (h : pteTable w = true) : pteValid w = true := by
  simp only [pteTable, pteValid, decide_eq_true_eq] at *
  intro h0
  have h1 : w &&& 0xf &&& 1 = w &&& 1 := by
    rw [BitVec.and_assoc]; rfl
  rw [h, h0] at h1
  exact absurd h1 (by decide)

theorem pteTable_of_invalid {w : Word} (h : pteValid w = false) : pteTable w = false :=
  Bool.eq_false_of_not_eq_true fun htable => by
    rw [pteTable_valid htable] at h
    cases h

@[simp] theorem pteValid_zero : pteValid 0 = false := by decide

theorem getLsbD_pteAddrMsk (i : Nat) :
    pteAddrMsk.getLsbD i = (decide (12 ≤ i) && decide (i < 56)) := by
  by_cases hi : i < 64
  · revert i; decide
  · rw [BitVec.getLsbD_of_ge _ _ (by omega)]; simp; omega

theorem addr_field (x c : Word) (hc : (c <<< 2) &&& pteAddrMsk = 0) :
    ((((x &&& pteAddrMsk) >>> 2) ||| c) <<< 2) &&& pteAddrMsk = x &&& pteAddrMsk := by
  ext i hi
  have hci := congrArg (BitVec.getLsbD · i) hc
  simp only [BitVec.getLsbD_and, BitVec.getLsbD_shiftLeft, getLsbD_pteAddrMsk] at hci
  simp only [← BitVec.getLsbD_eq_getElem, BitVec.getLsbD_and, BitVec.getLsbD_shiftLeft,
    BitVec.getLsbD_or, BitVec.getLsbD_ushiftRight, getLsbD_pteAddrMsk]
  by_cases h12 : 12 ≤ i ∧ i < 56
  · have h2 : ¬ i < 2 := by omega
    rw [show 2 + (i - 2) = i by omega]
    simp_all
  · have : (decide (12 ≤ i) && decide (i < 56)) = false := by simpa using h12
    simp only [this, Bool.and_false]

theorem and_pteAddrMsk {addr : Nat} (hlt : addr < 2 ^ 56) (hal : addr % pageSize = 0) :
    (BitVec.ofNat 64 addr &&& pteAddrMsk).toNat = addr := by
  apply Nat.eq_of_testBit_eq
  intro i
  rw [← BitVec.getLsbD, BitVec.getLsbD_and, getLsbD_pteAddrMsk, BitVec.getLsbD_ofNat]
  by_cases hlo : 12 ≤ i
  · by_cases hhi : i < 56
    · simp [hlo, hhi]; omega
    · rw [Nat.testBit_lt_two_pow (Nat.lt_of_lt_of_le hlt (Nat.pow_le_pow_right (by decide)
        (by omega)))]
      simp
  · have : addr.testBit i = false := by
      obtain ⟨q, rfl⟩ := Nat.dvd_of_mod_eq_zero hal
      rw [show pageSize = 2 ^ 12 from rfl, Nat.testBit_two_pow_mul]
      simp [hlo]
    simp [this]

theorem pteAddr_pteSet {addr : Nat} {type flags : Word} (hlt : addr < 2 ^ 56)
    (hal : addr % pageSize = 0)
    (hlow : (((flags &&& pteFlagsMsk) ||| type) <<< 2) &&& pteAddrMsk = 0) :
    pteAddr (pteSet addr type flags) = addr := by
  rw [pteAddr, pteSet, BitVec.or_assoc, addr_field _ _ hlow, and_pteAddrMsk hlt hal]

theorem pteAddr_mod (w : Word) : pteAddr w % pageSize = 0 := by
  rw [show pageSize = 2 ^ 12 from rfl]
  apply Nat.eq_of_testBit_eq
  intro i
  rw [Nat.testBit_mod_two_pow, Nat.zero_testBit, pteAddr, ← BitVec.getLsbD, BitVec.getLsbD_and,
    getLsbD_pteAddrMsk]
  by_cases hi : i < 12
  · have : ¬ 12 ≤ i := by omega
    simp [this]
  · simp [hi]

theorem pteSet_and_low (addr : Nat) (type flags m : Word) (hm : m.toNat < 16) :
    pteSet addr type flags &&& m = ((flags &&& pteFlagsMsk) ||| type) &&& m := by
  ext i hi
  simp only [← BitVec.getLsbD_eq_getElem, pteSet, BitVec.getLsbD_and, BitVec.getLsbD_or,
    BitVec.getLsbD_ushiftRight, getLsbD_pteAddrMsk]
  by_cases h : i < 4
  · have : ¬ 12 ≤ 2 + i := by omega
    simp [this]
  · have : m.getLsbD i = false := Nat.testBit_lt_two_pow (Nat.lt_of_lt_of_le
      (show m.toNat < 2 ^ 4 from hm) (Nat.pow_le_pow_right (by decide) (by omega)))
    simp [this]

theorem pteTable_pteSet_table (addr : Nat) :
    pteTable (pteSet addr pteTypeTable pteHypFlags) = true := by
  rw [pteTable, pteSet_and_low _ _ _ _ (by decide)]; decide

theorem pteTable_pteSet_leaf (addr : Nat) (flags : Word) :
    pteTable (pteSet addr ptPteType flags) = false := by
  have hbit := congrArg (BitVec.getLsbD · 1)
    (pteSet_and_low addr ptPteType flags 0xf (by decide))
  simp only [pteTable, decide_eq_false_iff_not]
  intro h
  rw [h] at hbit
  simp [ptPteType, pteTypePage] at hbit

theorem pteValid_pteSet_leaf (addr : Nat) {flags : Word} (h : pteValid flags = true) :
    pteValid (pteSet addr ptPteType flags) = true := by
  have hbit : ((flags &&& pteFlagsMsk) ||| ptPteType) &&& 1 = flags &&& 1 := by
    ext i hi
    simp only [← BitVec.getLsbD_eq_getElem, BitVec.getLsbD_and, BitVec.getLsbD_or]
    cases i with
    | zero => simp [pteFlagsMsk, ptPteType, pteTypePage]
    | succ i => simp
  rw [pteValid, pteSet_and_low _ _ _ _ (by decide), hbit]
  exact h

theorem pteAddr_pteSet_leaf {addr : Nat} (flags : Word) (hlt : addr < 2 ^ 56)
    (hal : addr % pageSize = 0) : pteAddr (pteSet addr ptPteType flags) = addr := by
  refine pteAddr_pteSet hlt hal ?_
  ext i hi
  simp only [← BitVec.getLsbD_eq_getElem, BitVec.getLsbD_and, BitVec.getLsbD_shiftLeft,
    BitVec.getLsbD_or, getLsbD_pteAddrMsk]
  by_cases h12 : 12 ≤ i
  · -- The address field begins above the flags and the type.
    have hlow : ∀ w : Word, w.toNat < 2 ^ 8 → w.getLsbD (i - 2) = false := fun w hw =>
      Nat.testBit_lt_two_pow (hw.trans_le (Nat.pow_le_pow_right (by decide) (by omega)))
    simp [hlow pteFlagsMsk (by decide), hlow ptPteType (by decide)]
  · simp [h12]

theorem pteTable_pteSet_page (addr : Nat) :
    pteTable (pteSet addr ptPteType pteVmFlags) = false := by
  rw [pteTable, pteSet_and_low _ _ _ _ (by decide)]; decide

theorem getLsbD_pteRswMsk (i : Nat) :
    pteRswMsk.getLsbD i = (decide (8 ≤ i) && decide (i < 10)) := by
  by_cases hi : i < 64
  · revert i; decide
  · rw [BitVec.getLsbD_of_ge _ _ (by omega)]; simp; omega

theorem pteCheckRsw_pteSet (addr : Nat) {type : Word} (flags : Word) (htype : type[8] = false) :
    pteCheckRsw (pteSet addr type flags) pteRswRsrv = false := by
  rw [pteCheckRsw, decide_eq_false_iff_not]
  intro h
  have hbit := congrArg (BitVec.getLsbD · 8) h
  simp [pteSet, getLsbD_pteRswMsk, pteFlagsMsk, pteRswRsrv, htype] at hbit
  exact absurd hbit.2 (by decide)

theorem pteValid_pteSetRsw (w flag : Word) : pteValid (pteSetRsw w flag) = pteValid w := by
  have : pteSetRsw w flag &&& 1 = w &&& 1 := by
    ext i hi
    simp only [← BitVec.getLsbD_eq_getElem, pteSetRsw, BitVec.getLsbD_and, BitVec.getLsbD_or,
      BitVec.getLsbD_not]
    cases i with
    | zero => simp [pteRswMsk]
    | succ i => simp
  simp only [pteValid, this]

/-! ## Tables of three levels -/

/-- The page table has one of the descriptors of RV64. -/
def PageTable.Rv64 (pt : PageTable) : Prop := pt.dscr = sv39PtDscr ∨ pt.dscr = sv39x4PtDscr

namespace PageTable.Rv64

variable {pt : PageTable} {lvl va pte : Nat}

section

variable (h : pt.Rv64)

include h

theorem lvls : pt.dscr.lvls = 3 := by
  rcases h with h | h <;> rw [h] <;> rfl

theorem lvlTerminal (hl : lvl < 3) : ptLvlTerminal pt lvl = true := by
  rcases h with h | h <;> simp only [ptLvlTerminal, h] <;> interval_cases lvl <;> rfl

theorem lvlsize (hl : lvl < 3) : ptLvlsize pt lvl = 2 ^ (30 - 9 * lvl) := by
  rcases h with h | h <;> simp only [ptLvlsize, h] <;> interval_cases lvl <;> rfl

theorem nentries (h0 : 0 < lvl) (hl : lvl < 3) : ptNentries pt lvl = 512 := by
  rcases h with h | h <;> simp only [ptNentries, h] <;> interval_cases lvl <;> rfl

theorem nentries_zero : ptNentries pt 0 = 512 ∨ ptNentries pt 0 = 2048 := by
  rcases h with h | h
  · exact .inl (by simp only [ptNentries, h]; rfl)
  · exact .inr (by simp only [ptNentries, h]; rfl)

theorem nentries_pow (hl : lvl < 3) : ∃ w, ptNentries pt lvl = 2 ^ w := by
  rcases Nat.eq_zero_or_pos lvl with rfl | h0
  · rcases h.nentries_zero with h | h
    · exact ⟨9, h⟩
    · exact ⟨11, h⟩
  · exact ⟨9, h.nentries h0 hl⟩

theorem nentries_pos (hl : lvl < 3) : 0 < ptNentries pt lvl := by
  obtain ⟨w, hw⟩ := h.nentries_pow hl
  rw [hw]; exact Nat.two_pow_pos w

theorem index (hl : lvl < 3) :
    ptGetpteindexByVa pt va lvl = va / ptLvlsize pt lvl % ptNentries pt lvl := by
  obtain ⟨w, hw⟩ := h.nentries_pow hl
  rw [ptGetpteindexByVa, ptLvlsize, hw, Nat.and_two_pow_sub_one_eq_mod,
    Nat.shiftRight_eq_div_pow, Nat.one_shiftLeft]

theorem index_lt (hl : lvl < 3) (va : Nat) : ptGetpteindexByVa pt va lvl < ptNentries pt lvl := by
  rw [h.index hl]; exact Nat.mod_lt _ (h.nentries_pos hl)

theorem getpteindex_lt (hl : lvl < 3) (pte : Nat) :
    ptGetpteindex pt pte lvl < ptNentries pt lvl := by
  have hpos := h.nentries_pos hl
  rw [ptGetpteindex, ptSize]
  refine Nat.div_lt_of_lt_mul (Nat.lt_of_le_of_lt Nat.and_le_right ?_)
  omega

theorem getpteindex (h0 : 0 < lvl) (hl : lvl < 3) :
    ptGetpteindex pt pte lvl = pte % pageSize / 8 := by
  rw [ptGetpteindex, ptSize, h.nentries h0 hl, if_neg (by omega),
    show 512 * 8 - 1 = 2 ^ 12 - 1 from rfl, Nat.and_two_pow_sub_one_eq_mod]
  rfl

/-- An entry of a table below the root lies in the page of the table, at its index. -/
theorem entry_of_table (hl : lvl + 1 < 3) {base : Nat} (hbase : base % pageSize = 0) (va : Nat) :
    (base + 8 * ptGetpteindexByVa pt va (lvl + 1)) / pageSize = base / pageSize ∧
      ptGetpteindex pt (base + 8 * ptGetpteindexByVa pt va (lvl + 1)) (lvl + 1) =
        ptGetpteindexByVa pt va (lvl + 1) := by
  have hindex := h.index_lt hl va
  rw [h.nentries (by omega) hl] at hindex
  rw [h.getpteindex (by omega) hl]
  simp only [pageSize] at *
  omega

/-- In the root table the pointer gives the place in a block of the size of the table, wherever the
table begins. -/
theorem getpteindex_root (i : Nat) :
    ptGetpteindex pt (pt.rootPa + 8 * i) 0 = (pt.root + 8 * i) % ptSize pt 0 / 8 := by
  obtain ⟨w, hw⟩ : ∃ w, ptSize pt 0 = 2 ^ w := by
    obtain ⟨w, hw⟩ := h.nentries_pow (show 0 < 3 by decide)
    exact ⟨w + 3, by rw [ptSize, hw, Nat.pow_add]⟩
  rw [ptGetpteindex, if_pos rfl, Nat.add_sub_cancel_left, hw, Nat.and_two_pow_sub_one_eq_mod]

theorem lvlsize_succ (hl : lvl + 1 < 3) : ptLvlsize pt lvl = ptLvlsize pt (lvl + 1) * 512 := by
  rw [h.lvlsize (by omega), h.lvlsize hl, show 30 - 9 * lvl = 30 - 9 * (lvl + 1) + 9 by omega,
    Nat.pow_add]

theorem lvlsize_le (hl : lvl < 3) : ptLvlsize pt lvl ≤ 2 ^ 30 := by
  rw [h.lvlsize hl]
  exact Nat.pow_le_pow_right (by decide) (by omega)

theorem lvlsize_pos (hl : lvl < 3) : 0 < ptLvlsize pt lvl := by
  rw [h.lvlsize hl]; exact Nat.two_pow_pos _

theorem index_next (hl : lvl < 3) (hin : ptGetpteindexByVa pt va lvl + 1 < ptNentries pt lvl) :
    ptGetpteindexByVa pt (va + ptLvlsize pt lvl) lvl = ptGetpteindexByVa pt va lvl + 1 := by
  rw [h.index hl] at hin ⊢
  rw [h.index hl, Nat.add_div_right _ (h.lvlsize_pos hl), Nat.add_mod,
    Nat.mod_eq_of_lt (b := ptNentries pt lvl) (a := 1) (by omega), Nat.mod_eq_of_lt hin]

theorem div_next (hl : lvl + 1 < 3)
    (hin : ptGetpteindexByVa pt va (lvl + 1) + 1 < ptNentries pt (lvl + 1)) :
    (va + ptLvlsize pt (lvl + 1)) / ptLvlsize pt lvl = va / ptLvlsize pt lvl := by
  rw [h.index hl, h.nentries (by omega) hl] at hin
  rw [h.lvlsize_succ hl, ← Nat.div_div_eq_div_mul, ← Nat.div_div_eq_div_mul,
    Nat.add_div_right _ (h.lvlsize_pos hl)]
  omega

end

end PageTable.Rv64

end Bao
