import Bao.Core.AsState

/-!
# Splitting superpages

`mem_expand_pte` puts a new table below an entry and gives the 512 entries of the table what the
entry stood for: the parts of a superpage, a reservation, or nothing. `mem_inflate_pt` does this for
a range of addresses, level by level.

A superpage keeps its translation when its address is aligned to its own size, up to the size of the
parts, which `mem_translate` masks out. A reservation gets lost when the entry is also valid.
-/

namespace Bao

/-! ## Entries -/

theorem pteCheckRsw_pteSetRsw (w flag : Word) : pteCheckRsw (pteSetRsw w flag) flag = true := by
  rw [pteCheckRsw, decide_eq_true_iff]
  ext i hi
  simp only [← BitVec.getLsbD_eq_getElem, pteSetRsw, BitVec.getLsbD_and, BitVec.getLsbD_or,
    BitVec.getLsbD_not]
  cases pteRswMsk.getLsbD i <;> simp

/-- The entry that `mem_expand_pte` writes at index `i` of the table below an entry of level
`lvl`. -/
def expandedPte (as : AddrSpace) (lvl : Nat) (w : Word) (i : Nat) : Word :=
  if pteValid w then
    pteSet (pteAddr w + i * ptLvlsize as.pt (lvl + 1)) ptPteType
      (if as.type = .hyp then pteHypFlags else pteVmFlags)
  else if pteCheckRsw w pteRswRsrv then pteSetRsw 0 pteRswRsrv
  else 0

section ExpandedPte

variable (as : AddrSpace) (lvl : Nat) (w : Word) (i : Nat)

theorem pteTable_expandedPte : pteTable (expandedPte as lvl w i) = false := by
  unfold expandedPte
  split
  · exact pteTable_pteSet_leaf _ _
  · split <;> decide

theorem pteValid_expandedPte : pteValid (expandedPte as lvl w i) = pteValid w := by
  unfold expandedPte
  split
  · rename_i hv
    rw [hv]
    split <;> exact pteValid_pteSet_leaf _ (by decide)
  · rename_i hv
    rw [Bool.eq_false_of_not_eq_true hv]
    split <;> decide

theorem pteCheckRsw_expandedPte : pteCheckRsw (expandedPte as lvl w i) pteRswRsrv =
    (pteCheckRsw w pteRswRsrv && !pteValid w) := by
  unfold expandedPte
  split
  · rename_i hv
    rw [pteCheckRsw_pteSet _ _ (by decide), hv, Bool.not_true, Bool.and_false]
  · rename_i hv
    rw [Bool.eq_false_of_not_eq_true hv, Bool.not_false, Bool.and_true]
    split
    · rename_i hr
      rw [hr, pteCheckRsw_pteSetRsw]
    · rename_i hr
      rw [Bool.eq_false_of_not_eq_true hr]
      decide

end ExpandedPte

theorem pteAddr_lt (w : Word) : pteAddr w < 2 ^ 56 := by
  refine Nat.lt_pow_two_of_testBit _ fun i hi => ?_
  rw [pteAddr, ← BitVec.getLsbD, BitVec.getLsbD_and, getLsbD_pteAddrMsk]
  simp
  omega

/-- The address of part `i` of a superpage that begins in the first part of a block. -/
theorem part_of_block {A L i : Nat} (hA : A % (L * 512) < L) (hi : i < 512) :
    (A + i * L) / L * L = A / (L * 512) * (L * 512) + i * L ∧
      A + i * L < A / (L * 512) * (L * 512) + L * 512 := by
  have hpos : 0 < L := by omega
  have hdiv := Nat.div_add_mod' A (L * 512)
  have hquot : A / L = A / (L * 512) * 512 := by
    refine Nat.div_eq_of_lt_le ?_ ?_
    · rw [Nat.mul_assoc, Nat.mul_comm 512]; omega
    · rw [Nat.succ_mul, Nat.mul_assoc, Nat.mul_comm 512]; omega
  have hle : i * L ≤ 511 * L := Nat.mul_le_mul_right L (by omega)
  refine ⟨?_, by omega⟩
  rw [Nat.add_mul_div_right _ _ hpos, hquot, Nat.add_mul, Nat.mul_assoc, Nat.mul_comm 512]

/-- The address of a part fits the entry when the superpage begins in the first part of a block of
its size. -/
theorem pteAddr_expandedPte {as : AddrSpace} {lvl i : Nat} {w : Word} (hrv : as.pt.Rv64)
    (hl : lvl + 1 < 3) (hi : i < 512) (hv : pteValid w = true)
    (halign : pteAddr w % ptLvlsize as.pt lvl < ptLvlsize as.pt (lvl + 1)) :
    pteAddr (expandedPte as lvl w i) = pteAddr w + i * ptLvlsize as.pt (lvl + 1) := by
  rw [hrv.lvlsize_succ hl] at halign
  obtain ⟨-, hend⟩ := part_of_block halign hi
  have hsize : pageSize ∣ ptLvlsize as.pt (lvl + 1) ∧ ptLvlsize as.pt (lvl + 1) * 512 ∣ 2 ^ 56 := by
    rw [hrv.lvlsize hl]
    obtain rfl | rfl : lvl = 0 ∨ lvl = 1 := by omega
    · decide
    · decide
  rw [expandedPte, if_pos hv]
  refine pteAddr_pteSet_leaf _ (hend.trans_le ?_) ?_
  · -- The block that the superpage begins in ends within the memory that an entry can address.
    have hblocks := Nat.div_lt_div_of_lt_of_dvd hsize.2 (pteAddr_lt w)
    rw [← Nat.succ_mul, ← Nat.le_div_iff_mul_le (by have := hrv.lvlsize_pos hl; omega)]
    exact hblocks
  · rw [Nat.add_mod, pteAddr_mod, Nat.zero_add, Nat.mod_mod]
    exact Nat.mod_eq_zero_of_dvd (hsize.1.mul_left _)

theorem expandFill_spec (vld rsv : Bool) (type flags : Word) (lvlsz left pte paddr : Nat)
    (s : MemState) :
    let s' := expandFill vld rsv type flags lvlsz left pte paddr s
    s'.pools = s.pools ∧
      (∀ i < left, s'.mem (pte + 8 * i) = if vld then pteSet (paddr + i * lvlsz) type flags
        else if rsv then pteSetRsw (s.mem (pte + 8 * i)) pteRswRsrv else s.mem (pte + 8 * i)) ∧
      ∀ a, (∀ i < left, a ≠ pte + 8 * i) → s'.mem a = s.mem a := by
  induction left generalizing pte paddr s with
  | zero => exact ⟨rfl, fun i hi => absurd hi (Nat.not_lt_zero i), fun _ _ => rfl⟩
  | succ left ih =>
    intro s'
    obtain ⟨hpools, hin, hout⟩ := ih (pte + 8) (paddr + lvlsz)
      (if vld then s.write pte (pteSet paddr type flags)
        else if rsv then s.write pte (pteSetRsw (s.mem pte) pteRswRsrv) else s)
    have hfirst : ∀ a, a ≠ pte → (if vld then s.write pte (pteSet paddr type flags)
        else if rsv then s.write pte (pteSetRsw (s.mem pte) pteRswRsrv) else s).mem a =
          s.mem a := by
      intro a ha
      split
      · exact s.write_of_ne ha _
      · split
        · exact s.write_of_ne ha _
        · rfl
    refine ⟨?_, fun i hi => ?_, fun a ha => ?_⟩
    · rw [show s'.pools = _ from hpools]
      split
      · rfl
      · split <;> rfl
    · cases i with
      | zero =>
        rw [show s'.mem (pte + 8 * 0) = _ from hout _ fun i _ => by omega, Nat.mul_zero,
          Nat.add_zero, Nat.zero_mul, Nat.add_zero]
        split
        · exact s.write_self _ _
        · split
          · exact s.write_self _ _
          · rfl
      | succ i =>
        have hi' := hin i (by omega)
        rw [show pte + 8 * (i + 1) = pte + 8 + 8 * i by omega,
          show s'.mem (pte + 8 + 8 * i) = _ from hi', hfirst _ (by omega),
          show paddr + (i + 1) * lvlsz = paddr + lvlsz + i * lvlsz by rw [Nat.add_mul]; omega]
    · rw [show s'.mem a = _ from hout a fun i hi => by
        have := ha (i + 1) (by omega)
        omega]
      exact hfirst a (by simpa using ha 0 (by omega))

/-! ## One entry -/

/-- What `mem_expand_pte` does to an entry that leads to no table. -/
structure Expanded (as : AddrSpace) (lvl pte base : Nat) (mem mem' : PhysMem) : Prop where
  split : PtTree.Split as.pt mem mem' pte base
  pos : base ≠ 0
  entries : ∀ i < 512, mem' (base + 8 * i) = expandedPte as lvl (mem pte) i

section Expand

variable {clr : Colors} {as : AddrSpace} {rel : Bool} {used : Set Nat} {s : MemState}
  {va lvl pte : Nat}

theorem memExpandPte_expanded (hrv : as.pt.Rv64) (h : PtEntry as.pt s.mem va lvl pte)
    (hl : lvl + 1 < 3) (hleaf : pteTable (s.mem pte) = false)
    (hfresh : ∀ r m, tableRequest clr as lvl s.pools = some (r, m) → r.size ≠ 0 →
      FreshTable (tableFrames as.pt s.mem) r.base) :
    memExpandPte clr as va lvl s = .error .noTable ∨
      ∃ r s', tableRequest clr as lvl s.pools = some (r, s'.pools) ∧ r.size ≠ 0 ∧
        memExpandPte clr as va lvl s = .ok s' ∧ Expanded as lvl pte r.base s.mem s'.mem := by
  have hlvls : ¬ as.pt.dscr.lvls - 1 ≤ lvl := by rw [hrv.lvls]; omega
  simp only [memExpandPte, if_neg hlvls, h.getPte, hleaf, Bool.false_eq_true, if_false]
  obtain herr | ⟨r, s₁, hreq, hsize, halloc, -, hmem⟩ := memAllocPt_eq clr hrv h hl hleaf
    fun r m hr hsize => ⟨(hfresh r m hr hsize).page, (hfresh r m hr hsize).top⟩
  · exact .inl (by rw [herr])
  obtain ⟨hpage, hpos, htop, hout⟩ := hfresh r _ hreq hsize
  have hpte : pte / pageSize ≠ r.base / pageSize := fun heq => hout (heq ▸ h.mem_tableFrames)
  -- The table after the loop, if there is a loop.
  obtain ⟨s', hs', hpools, hin, hother⟩ : ∃ s', memExpandPte clr as va lvl s = .ok s' ∧
      s'.pools = s₁.pools ∧
      (∀ i < 512, s'.mem (r.base + 8 * i) = expandedPte as lvl (s.mem pte) i) ∧
      ∀ a, (∀ i < 512, a ≠ r.base + 8 * i) → s'.mem a = s₁.mem a := by
    have hzero : ∀ i < 512, s₁.mem (r.base + 8 * i) = 0 := fun i hi => by
      rw [hmem]
      refine if_pos ?_
      simp only [pageSize] at hpage ⊢
      omega
    have hindex : ptNentries as.pt (lvl + 1) - ptGetpteindex as.pt r.base (lvl + 1) = 512 := by
      rw [hrv.getpteindex (by omega) hl, hpage, hrv.nentries (by omega) hl]
    simp only [memExpandPte, if_neg hlvls, h.getPte, hleaf, Bool.false_eq_true, if_false, halloc,
      hindex]
    by_cases hfill : (pteValid (s.mem pte) || pteCheckRsw (s.mem pte) pteRswRsrv) = true
    · obtain ⟨hpools, hin, hother⟩ := expandFill_spec (pteValid (s.mem pte))
        (pteCheckRsw (s.mem pte) pteRswRsrv) ptPteType
        (if as.type = .hyp then pteHypFlags else pteVmFlags) (ptLvlsize as.pt (lvl + 1)) 512 r.base
        (pteAddr (s.mem pte)) s₁
      refine ⟨_, if_pos hfill, hpools, fun i hi => ?_, hother⟩
      rw [hin i hi, hzero i hi]
      rfl
    · refine ⟨s₁, if_neg hfill, rfl, fun i hi => ?_, fun _ _ => rfl⟩
      simp only [Bool.or_eq_true, not_or, Bool.not_eq_true] at hfill
      simp only [hzero i hi, expandedPte, hfill, Bool.false_eq_true, if_false]
  have hback : ∀ a, a / pageSize ≠ r.base / pageSize → s'.mem a =
      Function.update s.mem pte (pteSet r.base pteTypeTable pteHypFlags) a := fun a ha => by
    rw [hother a, hmem]
    · exact if_neg ha
    · intro i hi heq
      refine ha ?_
      simp only [pageSize] at hpage ⊢
      omega
  refine .inr ⟨r, s', hpools ▸ hreq, hsize, ?_, ⟨hpage, fun hq heq => ?_, hleaf, ?_, ?_,
    fun a ha => ?_, fun a hne ha => ?_⟩, hpos, hin⟩
  · rw [← hs']
    simp only [memExpandPte, if_neg hlvls, h.getPte, hleaf, Bool.false_eq_true, if_false]
  · exact hout (heq ▸ hq.mem_tableFrames)
  · rw [hback _ hpte, Function.update_self, pteTable_pteSet_table]
  · rw [hback _ hpte, Function.update_self]
    exact pteAddr_pteSet htop hpage (by decide)
  · by_cases hentry : ∃ i < 512, a = r.base + 8 * i
    · obtain ⟨i, hi, rfl⟩ := hentry
      rw [hin i hi]
      exact pteTable_expandedPte _ _ _ _
    · push Not at hentry
      rw [hother a hentry, hmem]
      simp only [if_pos ha]
      decide
  · rw [hback a ha, Function.update_of_ne hne]

end Expand

/-! ## The address space after a split -/

namespace Expanded

variable {as : AddrSpace} {mem mem' : PhysMem} {va lvl pte base a : Nat}
  (hrv : as.pt.Rv64) (tree : PtTree as.pt mem) (h : PtEntry as.pt mem va lvl pte)
  (hl : lvl + 1 < 3) (ex : Expanded as lvl pte base mem mem')
include hrv hl ex

theorem entry_word (a : Nat) : mem' (base + 8 * ptGetpteindexByVa as.pt a (lvl + 1)) =
    expandedPte as lvl (mem pte) (ptGetpteindexByVa as.pt a (lvl + 1)) := by
  have hlt := hrv.index_lt hl a
  rw [hrv.nentries (by omega) hl] at hlt
  exact ex.entries _ hlt

include tree h

theorem tree' : PtTree as.pt mem' := PtTree.split_tree tree hrv h hl ex.split ex.pos

omit tree in
/-- The reservation stays, unless the entry is valid. -/
theorem reserved_eq (hblock : blockOf as.pt a lvl = blockOf as.pt va lvl) :
    pageReserved as.pt mem' a = (pageReserved as.pt mem a && !pteValid (mem pte)) := by
  have hbelow := PtTree.Split.below hrv h hl ex.split hblock
  have hold := h.congr_va hrv (by omega) hblock.symm
  rw [hbelow.reserved hrv hl (by rw [ex.entry_word hrv hl a]; exact pteTable_expandedPte _ _ _ _),
    hold.reserved hrv (by omega) ex.split.leaf, ex.entry_word hrv hl a, pteCheckRsw_expandedPte]

theorem translate_eq (hblock : blockOf as.pt a lvl = blockOf as.pt va lvl) :
    memTranslate as.pt mem' a =
      if pteValid (mem pte) then
        some (pteAddr (expandedPte as lvl (mem pte) (ptGetpteindexByVa as.pt a (lvl + 1))) /
          ptLvlsize as.pt (lvl + 1) * ptLvlsize as.pt (lvl + 1) + a % ptLvlsize as.pt (lvl + 1))
      else none := by
  have hbelow := PtTree.Split.below hrv h hl ex.split hblock
  have hpos := (ex.tree' hrv tree h hl).pos hbelow
  rw [hbelow.translate hrv hl (by rw [ex.entry_word hrv hl a]; exact pteTable_expandedPte _ _ _ _),
    ex.entry_word hrv hl a, pteValid_expandedPte]
  simp only [hpos, ne_eq, not_false_eq_true, true_and]

theorem translate_old (hblock : blockOf as.pt a lvl = blockOf as.pt va lvl) :
    memTranslate as.pt mem a =
      if pteValid (mem pte) then
        some (pteAddr (mem pte) / ptLvlsize as.pt lvl * ptLvlsize as.pt lvl +
          a % ptLvlsize as.pt lvl)
      else none := by
  have hold := h.congr_va hrv (by omega) hblock.symm
  have hpos := tree.pos hold
  rw [hold.translate hrv (by omega) ex.split.leaf]
  simp only [hpos, ne_eq, not_false_eq_true, true_and]

theorem translate_aligned (halign : pteAddr (mem pte) % ptLvlsize as.pt lvl <
      ptLvlsize as.pt (lvl + 1)) (hblock : blockOf as.pt a lvl = blockOf as.pt va lvl) :
    memTranslate as.pt mem' a = memTranslate as.pt mem a := by
  rw [ex.translate_eq hrv tree h hl hblock, ex.translate_old hrv tree h hl hblock]
  split
  swap
  · rfl
  rename_i hv
  have hindex : ptGetpteindexByVa as.pt a (lvl + 1) = _ := hrv.index hl
  have hlt := hrv.index_lt hl a
  rw [hrv.nentries (by omega) hl] at hindex hlt
  have haddr := pteAddr_expandedPte hrv hl hlt hv halign
  rw [hrv.lvlsize_succ hl] at halign ⊢
  obtain ⟨hplace, -⟩ := part_of_block halign hlt
  rw [haddr, hplace, hindex, Nat.mod_mul, Nat.mul_comm (_ % 512)]
  congr 1
  omega

/-- The split keeps the translation exactly when the superpage, if it is one, begins in the first
part of a block of its size. -/
theorem translate_iff :
    (∀ a, memTranslate as.pt mem' a = memTranslate as.pt mem a) ↔
      (pteValid (mem pte) = true → pteAddr (mem pte) % ptLvlsize as.pt lvl <
        ptLvlsize as.pt (lvl + 1)) := by
  constructor
  · intro hall hv
    -- The first address of the block is that of the first part.
    have hpos := hrv.lvlsize_pos hl
    have hposL := hrv.lvlsize_pos (show lvl < 3 by omega)
    have hsucc := hrv.lvlsize_succ hl
    generalize hfirst : va / ptLvlsize as.pt lvl * ptLvlsize as.pt lvl = first
    have hblock : blockOf as.pt first lvl = blockOf as.pt va lvl := by
      refine blockOf_eq_of_div_eq hrv (by omega) ?_
      rw [← hfirst, Nat.mul_div_cancel _ hposL]
    have hmod : first % ptLvlsize as.pt lvl = 0 := by rw [← hfirst, Nat.mul_mod_left]
    have hpart : first % ptLvlsize as.pt (lvl + 1) = 0 := by
      rw [← hfirst, hsucc, ← Nat.mul_assoc, Nat.mul_right_comm, Nat.mul_mod_left]
    have hindex : ptGetpteindexByVa as.pt first (lvl + 1) = 0 := by
      rw [hrv.index hl, hrv.nentries (by omega) hl, ← Nat.mod_mul_right_div_self, ← hsucc, hmod,
        Nat.zero_div]
    have heq := hall first
    rw [ex.translate_eq hrv tree h hl hblock, ex.translate_old hrv tree h hl hblock, if_pos hv,
      if_pos hv, hmod, hpart, hindex, expandedPte, if_pos hv, Nat.zero_mul] at heq
    simp only [Nat.add_zero, Option.some.injEq,
      pteAddr_pteSet_leaf _ (pteAddr_lt (mem pte)) (pteAddr_mod (mem pte))] at heq
    have h₁ := Nat.div_add_mod' (pteAddr (mem pte)) (ptLvlsize as.pt (lvl + 1))
    have h₂ := Nat.div_add_mod' (pteAddr (mem pte)) (ptLvlsize as.pt lvl)
    have h₃ := Nat.mod_lt (pteAddr (mem pte)) hpos
    omega
  · intro halign a
    by_cases hblock : blockOf as.pt a lvl = blockOf as.pt va lvl
    · by_cases hv : pteValid (mem pte) = true
      · exact ex.translate_aligned hrv tree h hl (halign hv) hblock
      · rw [ex.translate_eq hrv tree h hl hblock, ex.translate_old hrv tree h hl hblock, if_neg hv,
          if_neg hv]
    · exact PtTree.translate_split_of_ne tree hrv h ex.split hblock

/-- The split keeps the reservations exactly when the entry is not both valid and reserved. -/
theorem reserved_iff :
    (∀ a, pageReserved as.pt mem' a = pageReserved as.pt mem a) ↔
      (pteValid (mem pte) = true → pteCheckRsw (mem pte) pteRswRsrv = false) := by
  constructor
  · intro hall hv
    have heq := hall va
    rw [ex.reserved_eq hrv h hl rfl, hv, Bool.not_true, Bool.and_false,
      h.reserved hrv (by omega) ex.split.leaf] at heq
    exact heq.symm
  · intro hfree a
    by_cases hblock : blockOf as.pt a lvl = blockOf as.pt va lvl
    · rw [ex.reserved_eq hrv h hl hblock,
        (h.congr_va hrv (by omega) hblock.symm).reserved hrv (by omega) ex.split.leaf]
      cases hv : pteValid (mem pte) with
      | true => rw [hfree hv, Bool.false_and]
      | false => rw [Bool.not_false, Bool.and_true]
    · exact PtTree.reserved_split_of_ne tree hrv h ex.split hblock

end Expanded

theorem AsState.expand {clr : Colors} {as : AddrSpace} {rel : Bool} {used : Set Nat}
    {s : MemState} {va lvl pte : Nat} (hs : AsState clr as rel used s)
    (h : PtEntry as.pt s.mem va lvl pte) (hl : lvl + 1 < 3) (hleaf : pteTable (s.mem pte) = false) :
    memExpandPte clr as va lvl s = .error .noTable ∨
      ∃ base s', memExpandPte clr as va lvl s = .ok s' ∧ FreshTable used base ∧
        AsState clr as rel (insert (base / pageSize) used) s' ∧
        Expanded as lvl pte base s.mem s'.mem := by
  obtain herr | ⟨r, s', hreq, hsize, hok, ex⟩ := memExpandPte_expanded (s := s) hs.rv64 h hl hleaf
    fun r m hr hsize => (hs.fresh.request (by omega) hr hsize).1.mono hs.frames
  · exact .inl herr
  obtain ⟨hfresh, hrest⟩ := hs.fresh.request (by omega) hreq hsize
  exact .inr ⟨r.base, s', hok, hfresh, ⟨hs.rv64, ex.tree' hs.rv64 hs.tree h hl,
    (tableFrames_split hs.tree hs.rv64 h hl ex.split).trans (Set.insert_subset_insert hs.frames),
    hrest⟩, ex⟩

/-- An entry that `pt_get_pte` finds, when no entry above it is a leaf, is one of the tree. -/
theorem PtEntry.of_getPte {pt : PageTable} {mem : PhysMem} {va lvl pte : Nat}
    (hpath : ∀ j < lvl, ∀ q, PtEntry pt mem va j q → pteValid (mem q) = true →
      pteTable (mem q) = true)
    (h : ptGetPte pt mem lvl va = some pte) : PtEntry pt mem va lvl pte := by
  induction lvl generalizing pte with
  | zero => cases h; exact .root
  | succ lvl ih =>
    rw [ptGetPte] at h
    split at h
    · rename_i q hq
      split at h
      · rename_i hv
        cases h
        have hentry := ih (fun j hj => hpath j (by omega)) hq
        exact .next hentry (hpath lvl (Nat.lt_succ_self lvl) q hentry hv)
      · cases h
    · cases h

/-- `mem_expand_pte` at a level above the last one has found a superpage. -/
def SplitsLeaf (as : AddrSpace) (mem : PhysMem) (va lvl pte : Nat) : Prop :=
  lvl + 1 < 3 ∧ ptGetPte as.pt mem lvl va = some pte ∧ pteTable (mem pte) = false ∧
    pteValid (mem pte) = true

/-- `mem_expand_pte` with a fresh page for the table, where no entry above the level is a leaf: it
changes no translation, unless the entry is a superpage that does not begin in the first part of a
block of its size; it changes no reservation, unless the entry is a superpage that is marked as
reserved; and the entry is a table afterwards. -/
theorem memExpandPte_preserves {clr : Colors} {as : AddrSpace} {s : MemState} {va lvl : Nat}
    (hrv : as.pt.Rv64) (tree : PtTree as.pt s.mem)
    (hpath : ∀ j < lvl, ∀ q, PtEntry as.pt s.mem va j q → pteValid (s.mem q) = true →
      pteTable (s.mem q) = true)
    (hroom : memExpandPte clr as va lvl s ≠ .error .noTable)
    (hfresh : ∀ r m, tableRequest clr as lvl s.pools = some (r, m) → r.size ≠ 0 →
      FreshTable (tableFrames as.pt s.mem) r.base) :
    ∃ s', memExpandPte clr as va lvl s = .ok s' ∧
      ((∀ a, memTranslate as.pt s'.mem a = memTranslate as.pt s.mem a) ↔
        ∀ pte, SplitsLeaf as s.mem va lvl pte →
          pteAddr (s.mem pte) % ptLvlsize as.pt lvl < ptLvlsize as.pt (lvl + 1)) ∧
      ((∀ a, pageReserved as.pt s'.mem a = pageReserved as.pt s.mem a) ↔
        ∀ pte, SplitsLeaf as s.mem va lvl pte → pteCheckRsw (s.mem pte) pteRswRsrv = false) ∧
      (lvl + 1 < 3 → ∀ pte, ptGetPte as.pt s.mem lvl va = some pte →
        ptGetPte as.pt s'.mem lvl va = some pte ∧ pteTable (s'.mem pte) = true) := by
  by_cases hl : lvl + 1 < 3
  swap
  · refine ⟨s, ?_, ?_, ?_, fun h => absurd h hl⟩
    · rw [memExpandPte, if_pos (by rw [hrv.lvls]; omega)]
    · exact iff_of_true (fun _ => rfl) fun _ h => absurd h.1 hl
    · exact iff_of_true (fun _ => rfl) fun _ h => absurd h.1 hl
  have hlvls : ¬ as.pt.dscr.lvls - 1 ≤ lvl := by rw [hrv.lvls]; omega
  cases hget : ptGetPte as.pt s.mem lvl va with
  | none =>
    refine ⟨s, by simp only [memExpandPte, if_neg hlvls, hget], ?_, ?_, fun _ _ h => by cases h⟩
    · exact iff_of_true (fun _ => rfl) fun _ h => by rw [SplitsLeaf, hget] at h; cases h.2.1
    · exact iff_of_true (fun _ => rfl) fun _ h => by rw [SplitsLeaf, hget] at h; cases h.2.1
  | some pte =>
    have hentry := PtEntry.of_getPte hpath hget
    by_cases htable : pteTable (s.mem pte) = true
    · have hno : ∀ q, ¬ SplitsLeaf as s.mem va lvl q := by
        rintro q ⟨-, hq, hleaf, -⟩
        obtain rfl := Option.some.inj (hget.symm.trans hq)
        rw [htable] at hleaf
        cases hleaf
      refine ⟨s, by simp only [memExpandPte, if_neg hlvls, hget, htable, if_true], ?_, ?_, ?_⟩
      · exact iff_of_true (fun _ => rfl) fun q hq => absurd hq (hno q)
      · exact iff_of_true (fun _ => rfl) fun q hq => absurd hq (hno q)
      · rintro - q hq
        cases hq
        exact ⟨hget, htable⟩
    rw [Bool.not_eq_true] at htable
    obtain herr | ⟨r, s', -, -, hok, ex⟩ := memExpandPte_expanded hrv hentry hl htable hfresh
    · exact absurd herr hroom
    have hleaf : ∀ (P : Nat → Prop), (∀ q, SplitsLeaf as s.mem va lvl q → P q) ↔
        (pteValid (s.mem pte) = true → P pte) := by
      refine fun P => ⟨fun h hv => h pte ⟨hl, hget, htable, hv⟩, fun h q hq => ?_⟩
      obtain rfl := Option.some.inj (hget.symm.trans hq.2.1)
      exact h hq.2.2.2
    refine ⟨s', hok, ?_, ?_, ?_⟩
    · rw [hleaf fun q => pteAddr (s.mem q) % ptLvlsize as.pt lvl < ptLvlsize as.pt (lvl + 1)]
      exact ex.translate_iff hrv tree hentry hl
    · rw [hleaf fun q => pteCheckRsw (s.mem q) pteRswRsrv = false]
      exact ex.reserved_iff hrv tree hentry hl
    · rintro - q hq
      cases hq
      exact ⟨(ex.split.entry hentry).getPte, ex.split.table⟩

/-- A superpage at `addr` as the only mapping of a guest. -/
def superState (addr : Nat) : MemState :=
  clearState.write (0x80000000 + 8) (pteSet addr ptPteType pteVmFlags)

theorem superState_root (addr : Nat) :
    ∀ i < ptNentries emptyGuest.pt 0,
      pteTable ((superState addr).mem (emptyGuest.pt.rootPa + 8 * i)) = false := by
  intro i _
  by_cases hi : i = 1
  · subst hi
    exact (congrArg pteTable (clearState.write_self _ _)).trans (pteTable_pteSet_leaf _ _)
  · have hne : emptyGuest.pt.rootPa + 8 * i ≠ 0x80000000 + 8 := by
      simp only [emptyGuest]
      omega
    rw [superState, MemState.write_of_ne _ hne]
    exact (by decide : pteTable 0 = false)

theorem superState_tree (addr : Nat) : PtTree emptyGuest.pt (superState addr).mem :=
  .of_root (.inr rfl) (by decide) (superState_root addr)

theorem superState_fresh (addr : Nat) (r : Ppages) (m : PoolMem)
    (hr : tableRequest {} emptyGuest 0 (superState addr).pools = some (r, m)) :
    FreshTable (tableFrames emptyGuest.pt (superState addr).mem) r.base := by
  have hbase : (tableRequest {} emptyGuest 0 clearState.pools).map (·.1.base) =
      some 0x80100000 := by decide +kernel
  rw [show (superState addr).pools = clearState.pools from rfl] at hr
  rw [hr, Option.map_some, Option.some.injEq] at hbase
  dsimp only at hbase
  rw [hbase]
  refine ⟨by decide, by decide, by decide, ?_⟩
  rintro ⟨va, lvl, pte, hentry, hpage⟩
  have hindex : ptGetpteindexByVa emptyGuest.pt va 0 < 2048 :=
    PageTable.Rv64.index_lt (.inr rfl) (by decide) va
  rw [(hentry.eq_root (.inr rfl) (superState_root addr)).2] at hpage
  simp only [emptyGuest, pageSize] at hindex hpage
  omega

/-- A superpage of 1 GiB at 3 GiB is split. -/
theorem memExpandPte_preserves_super :
    ∃ s', memExpandPte {} emptyGuest 0x40000000 0 (superState 0xc0000000) = .ok s' ∧
      (∀ a, memTranslate emptyGuest.pt s'.mem a =
        memTranslate emptyGuest.pt (superState 0xc0000000).mem a) ∧
      pteTable (s'.mem (0x80000000 + 8)) = true := by
  have hroom : memExpandPte {} emptyGuest 0x40000000 0 (superState 0xc0000000) ≠
      .error .noTable := ne_error_of_isOk (by decide +kernel)
  obtain ⟨s', hok, htrans, -, htable⟩ := memExpandPte_preserves (.inr rfl) (superState_tree _)
    (fun j hj => absurd hj (Nat.not_lt_zero j)) hroom fun r m hr _ => superState_fresh _ r m hr
  refine ⟨s', hok, htrans.mpr ?_, (htable (by decide) _ rfl).2⟩
  rintro pte ⟨-, hpte, -⟩
  obtain rfl : 0x80000000 + 8 = pte := Option.some.inj hpte
  decide

/-- A superpage of 1 GiB at 2 GiB and 2 MiB, which `mem_translate` takes to begin at 2 GiB. After
the split its first address is translated to 2 MiB higher up. -/
theorem memExpandPte_moves_superpage :
    PtTree emptyGuest.pt (superState 0x80200000).mem ∧
      memTranslate emptyGuest.pt (superState 0x80200000).mem 0x40000000 = some 0x80000000 ∧
      (memExpandPte {} emptyGuest 0x40000000 0 (superState 0x80200000)).toOption.map
        (fun s' => memTranslate emptyGuest.pt s'.mem 0x40000000) = some (some 0x80200000) :=
  ⟨superState_tree _, by decide +kernel, by decide +kernel⟩

end Bao
