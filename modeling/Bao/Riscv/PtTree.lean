import Bao.Riscv.PageTable

/-!
# Page tables as trees

The tables that a walk can reach from the root form a tree when no two ways lead to the same entry
and the entries of the last level lead no further. Two updates keep the tree: an entry gets a leaf,
which settles the translation of its block and of nothing else, and an entry that led to no table
gets a new one, whose entries settle the translation of the block. An empty table below an entry
that was not valid changes no translation.

Addresses are compared by the blocks of a level they lie in. A block has a number in the range that
the root table covers, and an address beyond that range falls into a block of it.
-/

namespace Bao

/-- `pte` is the entry for `va` at level `lvl`, reached through table entries. -/
inductive PtEntry (pt : PageTable) (mem : PhysMem) (va : Nat) : (lvl pte : Nat) → Prop
  | root : PtEntry pt mem va 0 (pt.rootPa + 8 * ptGetpteindexByVa pt va 0)
  | next {lvl pte : Nat} (h : PtEntry pt mem va lvl pte) (table : pteTable (mem pte) = true) :
      PtEntry pt mem va (lvl + 1) (pteAddr (mem pte) + 8 * ptGetpteindexByVa pt va (lvl + 1))

/-- The number of the block of a level that an address lies in. -/
def blockOf (pt : PageTable) (va : Nat) : (lvl : Nat) → Nat
  | 0 => ptGetpteindexByVa pt va 0
  | lvl + 1 => blockOf pt va lvl * 512 + ptGetpteindexByVa pt va (lvl + 1)

/-- The range that the root table covers. -/
def ptSpan (pt : PageTable) : Nat := ptLvlsize pt 0 * ptNentries pt 0

/-- Whether the entry at which the way of an address ends is marked as reserved. -/
def pageReserved (pt : PageTable) (mem : PhysMem) (va : Nat) : Bool :=
  let r := memTranslateLoop pt mem va pt.dscr.lvls 0 (pt.rootPa + 8 * ptGetpteindexByVa pt va 0)
  pteCheckRsw (mem r.1) pteRswRsrv

/-- The entries that can be reached are the entries of a tree. None of them is at address 0, where
`mem_translate` would take it for the null pointer. -/
structure PtTree (pt : PageTable) (mem : PhysMem) : Prop where
  inj : ∀ {va va' lvl lvl' pte}, PtEntry pt mem va lvl pte → PtEntry pt mem va' lvl' pte →
    lvl = lvl' ∧ blockOf pt va lvl = blockOf pt va' lvl
  last : ∀ {va pte}, PtEntry pt mem va 2 pte → pteTable (mem pte) = false
  pos : ∀ {va lvl pte}, PtEntry pt mem va lvl pte → pte ≠ 0

/-! ## Blocks -/

section Block

variable {pt : PageTable} {va va' lvl : Nat} (hrv : pt.Rv64) (hl : lvl < 3)
include hrv hl

theorem lvlsize_dvd_span : ptLvlsize pt lvl ∣ ptSpan pt := by
  rw [ptSpan, hrv.lvlsize hl, hrv.lvlsize (by decide)]
  exact Dvd.dvd.mul_right (Nat.pow_dvd_pow 2 (by omega)) _

theorem blockOf_eq : blockOf pt va lvl = va % ptSpan pt / ptLvlsize pt lvl := by
  induction lvl with
  | zero =>
    rw [blockOf, hrv.index hl, ptSpan, Nat.mod_mul_right_div_self]
  | succ lvl ih =>
    have hdvd : ptLvlsize pt (lvl + 1) * 512 ∣ ptSpan pt :=
      hrv.lvlsize_succ hl ▸ lvlsize_dvd_span hrv (by omega)
    have hindex : ptGetpteindexByVa pt va (lvl + 1) =
        va % ptSpan pt / ptLvlsize pt (lvl + 1) % 512 := by
      rw [hrv.index hl, hrv.nentries (by omega) hl, ← Nat.mod_mul_right_div_self,
        ← Nat.mod_mul_right_div_self, Nat.mod_mod_of_dvd _ hdvd]
    rw [blockOf, ih (by omega), hindex, hrv.lvlsize_succ hl, ← Nat.div_div_eq_div_mul,
      Nat.div_add_mod']

theorem index_eq_of_blockOf_eq (h : blockOf pt va lvl = blockOf pt va' lvl) :
    ptGetpteindexByVa pt va lvl = ptGetpteindexByVa pt va' lvl := by
  cases lvl with
  | zero => exact h
  | succ lvl =>
    have h₁ := hrv.index_lt hl va
    have h₂ := hrv.index_lt hl va'
    rw [hrv.nentries (by omega) hl] at h₁ h₂
    simp only [blockOf] at h
    omega

theorem blockOf_eq_of_le {j : Nat} (hj : j ≤ lvl) (h : blockOf pt va lvl = blockOf pt va' lvl) :
    blockOf pt va j = blockOf pt va' j := by
  induction lvl with
  | zero => rwa [Nat.le_zero.mp hj]
  | succ lvl ih =>
    rcases Nat.eq_or_lt_of_le hj with rfl | hj
    · exact h
    · refine ih (by omega) (by omega) ?_
      have hindex := index_eq_of_blockOf_eq hrv hl h
      simp only [blockOf] at h
      omega

theorem blockOf_eq_of_div_eq (h : va / ptLvlsize pt lvl = va' / ptLvlsize pt lvl) :
    blockOf pt va lvl = blockOf pt va' lvl := by
  obtain ⟨m, hm⟩ := lvlsize_dvd_span hrv hl
  rw [blockOf_eq hrv hl, blockOf_eq hrv hl, hm, Nat.mod_mul_right_div_self,
    Nat.mod_mul_right_div_self, h]

theorem blockOf_of_lt (hva : va % ptLvlsize pt lvl = 0) (hle : va ≤ va')
    (hlt : va' < va + ptLvlsize pt lvl) : blockOf pt va lvl = blockOf pt va' lvl := by
  refine blockOf_eq_of_div_eq hrv hl (Nat.div_eq_of_lt_le ?_ ?_).symm
  · rwa [Nat.div_mul_cancel (Nat.dvd_of_mod_eq_zero hva)]
  · rwa [Nat.succ_mul, Nat.div_mul_cancel (Nat.dvd_of_mod_eq_zero hva)]

/-- Within one range of the root table, blocks are told apart by their addresses. -/
theorem blockOf_eq_iff_div (hspan : va / ptSpan pt = va' / ptSpan pt) :
    blockOf pt va lvl = blockOf pt va' lvl ↔ va / ptLvlsize pt lvl = va' / ptLvlsize pt lvl := by
  obtain ⟨m, hm⟩ := lvlsize_dvd_span hrv hl
  have hdiv : ∀ x, x / ptLvlsize pt lvl = m * (x / ptSpan pt) + blockOf pt x lvl := by
    intro x
    rw [blockOf_eq hrv hl, ← Nat.mul_add_div (hrv.lvlsize_pos hl), ← Nat.mul_assoc, ← hm,
      Nat.div_add_mod]
  rw [hdiv, hdiv, hspan, Nat.add_left_cancel_iff]

omit hrv hl in
theorem div_span_of_window {top a : Nat} (h : va % ptSpan pt + (top - va) ≤ ptSpan pt)
    (hlo : va ≤ a) (hhi : a < top) : a / ptSpan pt = va / ptSpan pt := by
  have hsplit := Nat.div_add_mod' va (ptSpan pt)
  refine Nat.div_eq_of_lt_le (by omega) ?_
  rw [Nat.succ_mul]
  omega

theorem blockOf_eq_iff (hva : va % ptLvlsize pt lvl = 0) (a : Nat) :
    blockOf pt a lvl = blockOf pt va lvl ↔ va % ptSpan pt ≤ a % ptSpan pt ∧
      a % ptSpan pt < va % ptSpan pt + ptLvlsize pt lvl := by
  have hpos := hrv.lvlsize_pos hl
  have hmod : va % ptSpan pt % ptLvlsize pt lvl = 0 := by
    rw [Nat.mod_mod_of_dvd _ (lvlsize_dvd_span hrv hl), hva]
  rw [blockOf_eq hrv hl, blockOf_eq hrv hl, Nat.div_eq_iff hpos,
    Nat.div_mul_cancel (Nat.dvd_of_mod_eq_zero hmod)]
  omega

theorem mod_lvlsize_of_block (hva : va % ptLvlsize pt lvl = 0) {a : Nat}
    (hlo : va % ptSpan pt ≤ a % ptSpan pt)
    (hhi : a % ptSpan pt < va % ptSpan pt + ptLvlsize pt lvl) :
    a % ptLvlsize pt lvl = a % ptSpan pt - va % ptSpan pt := by
  have hdvd := lvlsize_dvd_span hrv hl
  have hmod : va % ptSpan pt % ptLvlsize pt lvl = 0 := by rw [Nat.mod_mod_of_dvd _ hdvd, hva]
  rw [← Nat.mod_mod_of_dvd a hdvd]
  calc a % ptSpan pt % ptLvlsize pt lvl
      = (va % ptSpan pt + (a % ptSpan pt - va % ptSpan pt)) % ptLvlsize pt lvl := by
        rw [Nat.add_sub_cancel' hlo]
    _ = (a % ptSpan pt - va % ptSpan pt) % ptLvlsize pt lvl := by
        rw [← Nat.mod_add_mod, hmod, Nat.zero_add]
    _ = a % ptSpan pt - va % ptSpan pt := Nat.mod_eq_of_lt (by omega)

omit hl in
theorem index_lt_of_room (h : va % ptSpan pt + ptLvlsize pt 0 < ptSpan pt) :
    ptGetpteindexByVa pt va 0 + 1 < ptNentries pt 0 := by
  have hblock : ptGetpteindexByVa pt va 0 = _ := blockOf_eq hrv (show 0 < 3 by decide)
  rw [hblock, ← Nat.add_div_right _ (hrv.lvlsize_pos (by decide))]
  exact Nat.div_lt_of_lt_mul h

end Block

/-! ## Entries -/

namespace PtEntry

variable {pt : PageTable} {mem mem' : PhysMem} {va va' lvl pte : Nat}

theorem getPte (h : PtEntry pt mem va lvl pte) : ptGetPte pt mem lvl va = some pte := by
  induction h with
  | root => rfl
  | next h table ih => simp only [ptGetPte, ih, pteTable_valid table, if_true]

theorem unique {pte' : Nat} (h : PtEntry pt mem va lvl pte) (h' : PtEntry pt mem va lvl pte') :
    pte = pte' := Option.some.inj (h.getPte.symm.trans h'.getPte)

theorem eq_root (hrv : pt.Rv64)
    (hroot : ∀ i < ptNentries pt 0, pteTable (mem (pt.rootPa + 8 * i)) = false)
    (h : PtEntry pt mem va lvl pte) :
    lvl = 0 ∧ pte = pt.rootPa + 8 * ptGetpteindexByVa pt va 0 := by
  induction h with
  | root => exact ⟨rfl, rfl⟩
  | next _ table ih =>
    rw [ih.2, hroot _ (hrv.index_lt (by decide) va)] at table
    cases table

theorem up (h : PtEntry pt mem va (lvl + 1) pte) : ∃ q, PtEntry pt mem va lvl q ∧
    pteTable (mem q) = true ∧ pte = pteAddr (mem q) + 8 * ptGetpteindexByVa pt va (lvl + 1) := by
  cases h with
  | next h table => exact ⟨_, h, table, rfl⟩

theorem getpteindex (hrv : pt.Rv64) (hl : lvl + 1 < 3) (h : PtEntry pt mem va (lvl + 1) pte) :
    ptGetpteindex pt pte (lvl + 1) = ptGetpteindexByVa pt va (lvl + 1) := by
  obtain ⟨q, -, -, rfl⟩ := h.up
  exact (hrv.entry_of_table hl (pteAddr_mod _) va).2

/-- From an entry below the root on, there are no more entries than the table has. -/
theorem index_add_left (h : PtEntry pt mem va lvl pte) (hrv : pt.Rv64) (hl : lvl < 3)
    (h0 : 0 < lvl) :
    ptGetpteindexByVa pt va lvl + (ptNentries pt lvl - ptGetpteindex pt pte lvl) ≤ 512 := by
  obtain ⟨j, rfl⟩ : ∃ j, lvl = j + 1 := ⟨lvl - 1, by omega⟩
  have := hrv.index_lt hl va
  rw [h.getpteindex hrv hl, hrv.nentries h0 hl] at *
  omega

theorem getpteindex_of_aligned (hrv : pt.Rv64) (hroot : pt.root % ptSize pt 0 = 0) (hl : lvl < 3)
    (h : PtEntry pt mem va lvl pte) : ptGetpteindex pt pte lvl = ptGetpteindexByVa pt va lvl := by
  cases h with
  | root =>
    have hlt := hrv.index_lt (show 0 < 3 by decide) va
    rw [hrv.getpteindex_root, ← Nat.mod_add_mod, hroot, Nat.zero_add, Nat.mod_eq_of_lt]
    · omega
    · rw [ptSize]
      omega
  | next h table => exact getpteindex hrv hl (.next h table)

theorem above {j : Nat} (h : PtEntry pt mem va lvl pte) (hj : j < lvl) :
    ∃ q, PtEntry pt mem va j q ∧ pteTable (mem q) = true := by
  induction h with
  | root => omega
  | next h table ih =>
    rcases Nat.lt_succ_iff_lt_or_eq.mp hj with hj | rfl
    · exact ih hj
    · exact ⟨_, h, table⟩

theorem exists_stop (hlast : ∀ {pte}, PtEntry pt mem va 2 pte → pteTable (mem pte) = false) :
    ∃ lvl pte, PtEntry pt mem va lvl pte ∧ pteTable (mem pte) = false := by
  by_contra hnone
  have hgo : ∀ {lvl pte}, PtEntry pt mem va lvl pte → pteTable (mem pte) = true := fun h =>
    Bool.eq_true_of_not_eq_false fun hleaf => hnone ⟨_, _, h, hleaf⟩
  have h₁ := PtEntry.next .root (hgo .root)
  have h₂ := h₁.next (hgo h₁)
  have hleaf := hlast h₂
  rw [hgo h₂] at hleaf
  cases hleaf

theorem congr_mem (h : PtEntry pt mem va lvl pte)
    (hmem : ∀ j < lvl, ∀ q, PtEntry pt mem va j q → pteTable (mem q) = true → mem' q = mem q) :
    PtEntry pt mem' va lvl pte := by
  induction h with
  | root => exact .root
  | @next lvl pte h table ih =>
    have heq := hmem lvl (Nat.lt_succ_self _) pte h table
    have hbelow := ih fun j hj => hmem j (by omega)
    rw [← heq] at table ⊢
    exact .next hbelow table

theorem translateLoop (h : PtEntry pt mem va lvl pte) (left : Nat) :
    memTranslateLoop pt mem va (lvl + left) 0 (pt.rootPa + 8 * ptGetpteindexByVa pt va 0) =
      memTranslateLoop pt mem va left lvl pte := by
  induction h generalizing left with
  | root => rw [Nat.zero_add]
  | @next lvl pte h table ih =>
    have hgo : ¬ ((!pteValid (mem pte) || !pteTable (mem pte)) = true) := by
      simp [table, pteTable_valid table]
    rw [Nat.add_right_comm, Nat.add_assoc, ih (left + 1), memTranslateLoop, if_neg hgo]

section Rv64

variable (hrv : pt.Rv64) (hl : lvl < 3) (h : PtEntry pt mem va lvl pte)
include hrv hl h

theorem congr_va (hblock : blockOf pt va lvl = blockOf pt va' lvl) :
    PtEntry pt mem va' lvl pte := by
  induction h with
  | root =>
    rw [index_eq_of_blockOf_eq hrv hl hblock]
    exact .root
  | next h table ih =>
    rw [index_eq_of_blockOf_eq hrv hl hblock]
    exact .next (ih (by omega) (blockOf_eq_of_le hrv hl (Nat.le_succ _) hblock)) table

theorem of_block (hva : va % ptLvlsize pt lvl = 0) (hle : va ≤ va')
    (hlt : va' < va + ptLvlsize pt lvl) : PtEntry pt mem va' lvl pte :=
  congr_va hrv hl h (blockOf_of_lt hrv hl hva hle hlt)

theorem next_block (hin : ptGetpteindexByVa pt va lvl + 1 < ptNentries pt lvl) :
    PtEntry pt mem (va + ptLvlsize pt lvl) lvl (pte + 8) := by
  have hindex := hrv.index_next hl hin
  cases h with
  | root =>
    have hroot : PtEntry pt mem (va + ptLvlsize pt 0) 0 _ := .root
    rwa [hindex, Nat.mul_add, ← Nat.add_assoc] at hroot
  | @next lvl q h table =>
    have hblock := blockOf_eq_of_div_eq hrv (by omega) (hrv.div_next hl hin)
    have hnext := (h.congr_va hrv (by omega) hblock.symm).next table
    rwa [hindex, Nat.mul_add, ← Nat.add_assoc] at hnext

theorem stop (hleaf : pteTable (mem pte) = false) :
    memTranslateLoop pt mem va pt.dscr.lvls 0 (pt.rootPa + 8 * ptGetpteindexByVa pt va 0) =
      (pte, lvl) := by
  obtain ⟨left, hleft⟩ : ∃ left, 3 = lvl + (left + 1) := ⟨2 - lvl, by omega⟩
  rw [hrv.lvls, hleft, h.translateLoop, memTranslateLoop, if_pos (by simp [hleaf])]

theorem translate (hleaf : pteTable (mem pte) = false) :
    memTranslate pt mem va =
      if pte ≠ 0 ∧ pteValid (mem pte) then
        some (pteAddr (mem pte) / ptLvlsize pt lvl * ptLvlsize pt lvl + va % ptLvlsize pt lvl)
      else none := by
  simp only [memTranslate, h.stop hrv hl hleaf]

theorem reserved (hleaf : pteTable (mem pte) = false) :
    pageReserved pt mem va = pteCheckRsw (mem pte) pteRswRsrv := by
  simp only [pageReserved, h.stop hrv hl hleaf]

end Rv64

end PtEntry

namespace PtTree

variable {pt : PageTable} {mem mem' : PhysMem} {va a lvl pte : Nat} {w : Word}

theorem lvl_lt (tree : PtTree pt mem) (h : PtEntry pt mem va lvl pte) : lvl < 3 := by
  by_contra hl
  obtain ⟨q, hq, htable⟩ := h.above (show 2 < lvl by omega)
  rw [tree.last hq] at htable
  cases htable

theorem exists_stop (tree : PtTree pt mem) (va : Nat) :
    ∃ lvl pte, PtEntry pt mem va lvl pte ∧ pteTable (mem pte) = false :=
  PtEntry.exists_stop fun h => tree.last h

theorem entry_congr (hmem : ∀ {a l q}, PtEntry pt mem a l q → mem' q = mem q) :
    PtEntry pt mem' va lvl pte ↔ PtEntry pt mem va lvl pte := by
  refine ⟨fun h => ?_, fun h => h.congr_mem fun _ _ _ hq _ => hmem hq⟩
  induction h with
  | root => exact .root
  | next h table ih =>
    rw [hmem ih] at table ⊢
    exact ih.next table

theorem congr_mem (tree : PtTree pt mem) (hmem : ∀ {a l q}, PtEntry pt mem a l q → mem' q = mem q) :
    PtTree pt mem' where
  inj h h' := tree.inj ((entry_congr hmem).mp h) ((entry_congr hmem).mp h')
  last h := by
    have hold := (entry_congr hmem).mp h
    rw [hmem hold]
    exact tree.last hold
  pos h := tree.pos ((entry_congr hmem).mp h)

section Translate

variable (tree : PtTree pt mem) (hrv : pt.Rv64)
include tree hrv

/-- `mem_translate` does not tell addresses apart that differ by a multiple of the range. -/
theorem translate_mod (h : a % ptSpan pt = va % ptSpan pt) :
    memTranslate pt mem a = memTranslate pt mem va := by
  obtain ⟨lvl, pte, hentry, hleaf⟩ := tree.exists_stop va
  have hl := tree.lvl_lt hentry
  have hdvd := lvlsize_dvd_span hrv hl
  have hblock : blockOf pt va lvl = blockOf pt a lvl := by
    rw [blockOf_eq hrv hl, blockOf_eq hrv hl, h]
  rw [hentry.translate hrv hl hleaf, (hentry.congr_va hrv hl hblock).translate hrv hl hleaf,
    ← Nat.mod_mod_of_dvd a hdvd, h, Nat.mod_mod_of_dvd va hdvd]

theorem invalid_of_unmapped (h : PtEntry pt mem va lvl pte) (hleaf : pteTable (mem pte) = false)
    (hnone : memTranslate pt mem va = none) : pteValid (mem pte) = false := by
  rw [h.translate hrv (tree.lvl_lt h) hleaf] at hnone
  split at hnone
  · cases hnone
  · rename_i hno
    exact Bool.eq_false_of_not_eq_true fun hv => hno ⟨tree.pos h, hv⟩

section

variable (hmem : ∀ lvl pte, PtEntry pt mem va lvl pte → mem' pte = mem pte)

include hmem

omit hrv in
theorem exists_stop_congr :
    ∃ lvl pte, lvl < 3 ∧ PtEntry pt mem va lvl pte ∧ PtEntry pt mem' va lvl pte ∧
      pteTable (mem pte) = false ∧ mem' pte = mem pte := by
  obtain ⟨lvl, pte, h, hleaf⟩ := tree.exists_stop va
  exact ⟨lvl, pte, tree.lvl_lt h, h, h.congr_mem fun j _ q hq _ => hmem j q hq, hleaf,
    hmem lvl pte h⟩

theorem translate_congr : memTranslate pt mem' va = memTranslate pt mem va := by
  obtain ⟨lvl, pte, hl, h, h', hleaf, heq⟩ := tree.exists_stop_congr hmem
  rw [h.translate hrv hl hleaf, h'.translate hrv hl (heq ▸ hleaf), heq]

theorem reserved_congr : pageReserved pt mem' va = pageReserved pt mem va := by
  obtain ⟨lvl, pte, hl, h, h', hleaf, heq⟩ := tree.exists_stop_congr hmem
  rw [h.reserved hrv hl hleaf, h'.reserved hrv hl (heq ▸ hleaf), heq]

end

end Translate

theorem of_root (hrv : pt.Rv64) (hpos : 0 < pt.rootPa)
    (hroot : ∀ i < ptNentries pt 0, pteTable (mem (pt.rootPa + 8 * i)) = false) :
    PtTree pt mem := by
  refine ⟨fun h₁ h₂ => ?_, fun h₁ => ?_, fun h₁ => ?_⟩
  · obtain ⟨rfl, rfl⟩ := h₁.eq_root hrv hroot
    obtain ⟨rfl, heq⟩ := h₂.eq_root hrv hroot
    refine ⟨rfl, ?_⟩
    simp only [blockOf]
    omega
  · exact absurd (h₁.eq_root hrv hroot).1 (by decide)
  · rw [(h₁.eq_root hrv hroot).2]
    omega

/-! ## A leaf -/

section Leaf

variable (tree : PtTree pt mem) (h : PtEntry pt mem va lvl pte) (hw : pteTable w = false)
include tree h

theorem write_ne {a lvl' q : Nat} (hq : PtEntry pt mem a lvl' q)
    (hne : lvl' ≠ lvl ∨ blockOf pt a lvl ≠ blockOf pt va lvl) : q ≠ pte := by
  rintro rfl
  obtain ⟨rfl, hblock⟩ := tree.inj hq h
  exact hne.elim (fun h => h rfl) fun h => h hblock

theorem entry_write {a lvl' q : Nat} (hl : lvl' ≤ lvl) (hq : PtEntry pt mem a lvl' q) :
    PtEntry pt (Function.update mem pte w) a lvl' q :=
  hq.congr_mem fun j hj q' hq' _ =>
    Function.update_of_ne (tree.write_ne h hq' (.inl (by omega))) _ _

omit tree h in
include hw in
theorem entry_of_write {a lvl' q : Nat} (hq : PtEntry pt (Function.update mem pte w) a lvl' q) :
    PtEntry pt mem a lvl' q := by
  induction hq with
  | root => exact .root
  | @next lvl' q hq table ih =>
    by_cases hpte : q = pte
    · rw [hpte, Function.update_self, hw] at table
      cases table
    · rw [Function.update_of_ne hpte] at table ⊢
      exact .next ih table

omit tree h in
theorem entry_write_of_leaf {a lvl' q : Nat} (hold : pteTable (mem pte) = false)
    (hq : PtEntry pt mem a lvl' q) : PtEntry pt (Function.update mem pte w) a lvl' q := by
  refine hq.congr_mem fun j _ q' _ htable => Function.update_of_ne ?_ _ _
  rintro rfl
  rw [hold] at htable
  cases htable

omit h in
include hw in
theorem write : PtTree pt (Function.update mem pte w) where
  inj h₁ h₂ := tree.inj (entry_of_write hw h₁) (entry_of_write hw h₂)
  last := by
    intro va' q hq
    by_cases hpte : q = pte
    · rw [hpte, Function.update_self, hw]
    · rw [Function.update_of_ne hpte]
      exact tree.last (entry_of_write hw hq)
  pos hq := tree.pos (entry_of_write hw hq)

theorem translate_write_of_ne (hrv : pt.Rv64) (hne : blockOf pt a lvl ≠ blockOf pt va lvl) :
    memTranslate pt (Function.update mem pte w) a = memTranslate pt mem a :=
  tree.translate_congr hrv fun _ _ hq =>
    Function.update_of_ne (tree.write_ne h hq (.inr hne)) _ _

include hw in
theorem translate_write (hrv : pt.Rv64) (hblock : blockOf pt a lvl = blockOf pt va lvl)
    (hv : pteValid w = true) :
    memTranslate pt (Function.update mem pte w) a =
      some (pteAddr w / ptLvlsize pt lvl * ptLvlsize pt lvl + a % ptLvlsize pt lvl) := by
  have hl := tree.lvl_lt h
  have hentry := (tree.entry_write (w := w) h le_rfl h).congr_va hrv hl hblock.symm
  have hword : Function.update mem pte w pte = w := Function.update_self ..
  rw [hentry.translate hrv hl (by rw [hword, hw]), hword, if_pos ⟨tree.pos h, hv⟩]

include hw in
theorem translate_write_none (hrv : pt.Rv64) (hblock : blockOf pt a lvl = blockOf pt va lvl)
    (hv : pteValid w = false) : memTranslate pt (Function.update mem pte w) a = none := by
  have hl := tree.lvl_lt h
  have hentry := (tree.entry_write (w := w) h le_rfl h).congr_va hrv hl hblock.symm
  have hword : Function.update mem pte w pte = w := Function.update_self ..
  rw [hentry.translate hrv hl (by rw [hword, hw]), hword, hv]
  simp

end Leaf

/-! ## A new table -/

/-- The entry `pte`, which led to no table, leads to a table in the page at `base`. The page had no
entries of the tree, and the entries it has now lead to no table. -/
structure Split (pt : PageTable) (mem mem' : PhysMem) (pte base : Nat) : Prop where
  page : base % pageSize = 0
  fresh : ∀ {va lvl q}, PtEntry pt mem va lvl q → q / pageSize ≠ base / pageSize
  leaf : pteTable (mem pte) = false
  table : pteTable (mem' pte) = true
  addr : pteAddr (mem' pte) = base
  leaves : ∀ a, a / pageSize = base / pageSize → pteTable (mem' a) = false
  other : ∀ a, a ≠ pte → a / pageSize ≠ base / pageSize → mem' a = mem a

section SplitTable

variable {base : Nat}

theorem Split.mem_eq {a lvl' q : Nat} (split : Split pt mem mem' pte base)
    (hq : PtEntry pt mem a lvl' q) (hne : q ≠ pte) : mem' q = mem q :=
  split.other q hne (split.fresh hq)

/-- All ways stay, because none goes through an entry that led to no table. -/
theorem Split.entry {a lvl' q : Nat} (split : Split pt mem mem' pte base)
    (hq : PtEntry pt mem a lvl' q) : PtEntry pt mem' a lvl' q := by
  refine hq.congr_mem fun j _ q' hq' htable => split.mem_eq hq' ?_
  rintro rfl
  rw [split.leaf] at htable
  cases htable

theorem Split.mem_eq_of_ne {l q : Nat} (split : Split pt mem mem' pte base) (tree : PtTree pt mem)
    (h : PtEntry pt mem va lvl pte) (hne : blockOf pt a lvl ≠ blockOf pt va lvl)
    (hq : PtEntry pt mem a l q) : mem' q = mem q := by
  refine split.mem_eq hq ?_
  rintro rfl
  obtain ⟨rfl, hblock⟩ := tree.inj hq h
  exact hne hblock

variable (tree : PtTree pt mem) (hrv : pt.Rv64) (h : PtEntry pt mem va lvl pte) (hl : lvl + 1 < 3)
  (split : Split pt mem mem' pte base)
include hrv hl split

theorem split_page (a : Nat) :
    (base + 8 * ptGetpteindexByVa pt a (lvl + 1)) / pageSize = base / pageSize :=
  (hrv.entry_of_table hl split.page a).1

include h in
theorem Split.below (hblock : blockOf pt a lvl = blockOf pt va lvl) :
    PtEntry pt mem' a (lvl + 1) (base + 8 * ptGetpteindexByVa pt a (lvl + 1)) := by
  have hbelow := (split.entry (h.congr_va hrv (by omega) hblock.symm)).next split.table
  rwa [split.addr] at hbelow

include tree h

theorem entry_of_split {a lvl' q : Nat} (hq : PtEntry pt mem' a lvl' q) :
    PtEntry pt mem a lvl' q ∨ (lvl' = lvl + 1 ∧ blockOf pt a lvl = blockOf pt va lvl ∧
      q = base + 8 * ptGetpteindexByVa pt a (lvl + 1)) := by
  induction hq with
  | root => exact .inl .root
  | @next lvl' q hq table ih =>
    rcases ih with hold | ⟨-, -, rfl⟩
    · by_cases hpte : q = pte
      · subst hpte
        obtain ⟨rfl, hblock⟩ := tree.inj hold h
        exact .inr ⟨rfl, hblock, by rw [split.addr]⟩
      · rw [split.mem_eq hold hpte] at table ⊢
        exact .inl (.next hold table)
    · -- The entries of the new table lead nowhere.
      rw [split.leaves _ (split_page hrv hl split a)] at table
      cases table

theorem split_tree (hpos : base ≠ 0) : PtTree pt mem' where
  inj := by
    intro va₁ va₂ l₁ l₂ q h₁ h₂
    rcases entry_of_split tree hrv h hl split h₁ with h₁ | ⟨rfl, hb₁, hq₁⟩ <;>
      rcases entry_of_split tree hrv h hl split h₂ with h₂ | ⟨rfl, hb₂, hq₂⟩
    · exact tree.inj h₁ h₂
    · exact absurd (hq₂ ▸ split_page hrv hl split va₂) (split.fresh h₁)
    · exact absurd (hq₁ ▸ split_page hrv hl split va₁) (split.fresh h₂)
    · refine ⟨rfl, ?_⟩
      rw [blockOf, blockOf, hb₁, hb₂]
      omega
  last := by
    intro va' q hq
    rcases entry_of_split tree hrv h hl split hq with hold | ⟨-, -, rfl⟩
    · have hne : q ≠ pte := by
        rintro rfl
        have := (tree.inj hold h).1
        omega
      rw [split.mem_eq hold hne]
      exact tree.last hold
    · exact split.leaves _ (split_page hrv hl split va')
  pos := by
    intro va' l' q hq
    rcases entry_of_split tree hrv h hl split hq with hold | ⟨-, -, rfl⟩
    · exact tree.pos hold
    · omega

omit hl in
theorem translate_split_of_ne (hne : blockOf pt a lvl ≠ blockOf pt va lvl) :
    memTranslate pt mem' a = memTranslate pt mem a :=
  tree.translate_congr hrv fun _ _ hq => split.mem_eq_of_ne tree h hne hq

omit hl in
theorem reserved_split_of_ne (hne : blockOf pt a lvl ≠ blockOf pt va lvl) :
    pageReserved pt mem' a = pageReserved pt mem a :=
  tree.reserved_congr hrv fun _ _ hq => split.mem_eq_of_ne tree h hne hq

end SplitTable

/-- The entry `pte`, which was not valid, leads to the new and empty table at `base`, in a page
without entries of the tree. -/
structure NewPt (pt : PageTable) (mem mem' : PhysMem) (pte base : Nat) : Prop where
  page : base % pageSize = 0
  fresh : ∀ {va lvl q}, PtEntry pt mem va lvl q → q / pageSize ≠ base / pageSize
  invalid : pteValid (mem pte) = false
  table : pteTable (mem' pte) = true
  plain : pteCheckRsw (mem' pte) pteRswRsrv = false
  addr : pteAddr (mem' pte) = base
  empty : ∀ a, a / pageSize = base / pageSize → mem' a = 0
  other : ∀ a, a ≠ pte → a / pageSize ≠ base / pageSize → mem' a = mem a

section NewTable

variable {base : Nat}

theorem NewPt.split (new : NewPt pt mem mem' pte base) : Split pt mem mem' pte base :=
  { new with
    leaf := pteTable_of_invalid new.invalid
    leaves := fun a ha => by rw [new.empty a ha]; decide }

theorem NewPt.entry {a lvl' q : Nat} (new : NewPt pt mem mem' pte base)
    (hq : PtEntry pt mem a lvl' q) : PtEntry pt mem' a lvl' q := new.split.entry hq

variable (tree : PtTree pt mem) (hrv : pt.Rv64) (h : PtEntry pt mem va lvl pte) (hl : lvl + 1 < 3)
  (new : NewPt pt mem mem' pte base)
include tree hrv h hl new

omit tree h in
theorem newPt_page (a : Nat) :
    (base + 8 * ptGetpteindexByVa pt a (lvl + 1)) / pageSize = base / pageSize :=
  split_page hrv hl new.split a

theorem newPt (hpos : base ≠ 0) : PtTree pt mem' := split_tree tree hrv h hl new.split hpos

theorem translate_newPt (a : Nat) : memTranslate pt mem' a = memTranslate pt mem a := by
  by_cases hblock : blockOf pt a lvl = blockOf pt va lvl
  · -- The way ended at the entry, and now it ends in the new table.
    have hbelow := Split.below hrv h hl new.split hblock
    have hzero := new.empty _ (newPt_page hrv hl new a)
    rw [hbelow.translate hrv hl (by rw [hzero]; decide), hzero,
      (h.congr_va hrv (by omega) hblock.symm).translate hrv (by omega) new.split.leaf,
      pteValid_zero, new.invalid]
    simp
  · exact translate_split_of_ne tree hrv h new.split hblock

theorem reserved_newPt (hfree : pteCheckRsw (mem pte) pteRswRsrv = false) (a : Nat) :
    pageReserved pt mem' a = pageReserved pt mem a := by
  by_cases hblock : blockOf pt a lvl = blockOf pt va lvl
  · have hbelow := Split.below hrv h hl new.split hblock
    have hzero := new.empty _ (newPt_page hrv hl new a)
    rw [hbelow.reserved hrv hl (by rw [hzero]; decide), hzero,
      (h.congr_va hrv (by omega) hblock.symm).reserved hrv (by omega) new.split.leaf, hfree]
    decide
  · exact reserved_split_of_ne tree hrv h new.split hblock

end NewTable

end PtTree

end Bao
