import Bao.Core.Mem
import Bao.Core.MemMapExact

/-!
# The index of an entry

`pt_getpteindex_by_va` computes the index of an entry from the bits of an address, and
`pt_getpteindex` from the low bits of the pointer to the entry. The loops over the entries of a
table go by the second one. Tables below the root are pages, for which the two agree. The root table
of a guest has four pages, and `as_init` takes them wherever `mem_alloc_vpage` finds them. -/

namespace Bao

/-! ## The two indices -/

/-- The two ways to compute an index agree, for all entries that `pt_get_pte` finds. -/
def IndexAgrees (pt : PageTable) (mem : PhysMem) : Prop :=
  ∀ lvl < pt.dscr.lvls, ∀ va pte, ptGetPte pt mem lvl va = some pte →
    ptGetpteindex pt pte lvl = ptGetpteindexByVa pt va lvl

section Index

variable {pt : PageTable} {mem : PhysMem}

theorem getpteindex_of_getPte (hrv : pt.Rv64) {lvl va pte : Nat} (hl : lvl + 1 < 3)
    (h : ptGetPte pt mem (lvl + 1) va = some pte) :
    ptGetpteindex pt pte (lvl + 1) = ptGetpteindexByVa pt va (lvl + 1) := by
  simp only [ptGetPte] at h
  split at h
  · rename_i q hq
    split at h
    · obtain rfl := Option.some.inj h
      exact (hrv.entry_of_table hl (pteAddr_mod _) va).2
    · cases h
  · cases h

/-- They agree in exactly those page tables whose root table is aligned to its size. -/
theorem indexAgrees_iff (hrv : pt.Rv64) (hpage : pt.root % pageSize = 0) :
    IndexAgrees pt mem ↔ pt.root % ptSize pt 0 = 0 := by
  constructor
  · intro h
    -- The first entry of the root table has index 0.
    have hzero := h 0 (by rw [hrv.lvls]; decide) 0 _ rfl
    rw [hrv.getpteindex_root, hrv.index (by decide), Nat.zero_div, Nat.zero_mod, Nat.mul_zero,
      Nat.add_zero] at hzero
    have hdvd : pageSize ∣ ptSize pt 0 := by
      rcases hrv.nentries_zero with h | h <;> rw [ptSize, h] <;> decide
    have hmod := Nat.mod_mod_of_dvd pt.root hdvd
    simp only [pageSize] at hmod hpage
    omega
  · intro hroot lvl hl va pte h
    rw [hrv.lvls] at hl
    cases lvl with
    | zero =>
      obtain rfl := Option.some.inj h
      exact (PtEntry.root : PtEntry pt mem va 0 _).getpteindex_of_aligned hrv hroot hl
    | succ lvl => exact getpteindex_of_getPte hrv hl h

end Index

/-! ## The pages that are returned -/

section Page

variable {clr : Colors} {as : AddrSpace} {at_ n : Nat} {s s' : MemState}

/-- The search is at a page, and so is the first page that it has counted. -/
def VpageScan.Pages (c : VpageScan) : Prop := c.addr % pageSize = 0 ∧ c.vpage % pageSize = 0

theorem vpageEntry_pages {pte : Nat} {c c' : VpageScan} (hc : c.Pages)
    (h : vpageEntry clr as at_ n pte c s = .ok (c', s')) :
    c'.Pages ∧ c'.addr = c.addr ∧ c'.lvl = c.lvl := by
  simp only [vpageEntry] at h
  split at h
  · cases h
    exact ⟨⟨hc.1, rfl⟩, rfl, rfl⟩
  split at h
  · split at h
    · cases h
      refine ⟨⟨hc.1, ?_⟩, rfl, rfl⟩
      dsimp only
      split
      · exact hc.1
      · exact hc.2
    · cases halloc : memAllocPt clr as pte c.lvl c.addr s with
      | error e =>
        rw [halloc] at h
        cases h
      | ok r =>
        rw [halloc] at h
        cases h
        exact ⟨hc, rfl, rfl⟩
  · cases h
    exact ⟨hc, rfl, rfl⟩

theorem vpageTable_pages {left pte : Nat} {c c' : VpageScan} (hrv : as.pt.Rv64)
    (hl : c.lvl < 3) (hc : c.Pages) (h : vpageTable clr as at_ n left pte c s = .ok (c', s')) :
    c'.Pages := by
  induction left generalizing pte c s with
  | zero =>
    cases h
    exact hc
  | succ left ih =>
    rw [vpageTable] at h
    split at h
    · split at h
      · cases h
      rename_i c₁ s₁ hentry
      obtain ⟨hc₁, haddr, hlvl⟩ := vpageEntry_pages hc hentry
      have hmod : u64 (c₁.addr + ptLvlsize as.pt c₁.lvl) % pageSize = 0 := by
        have hdvd : u64 (c₁.addr + ptLvlsize as.pt c₁.lvl) % pageSize = _ :=
          Nat.mod_mod_of_dvd _ (by decide)
        rw [hdvd, hlvl, Nat.add_mod, hc₁.1, hrv.lvlsize hl, Nat.zero_add, Nat.mod_mod]
        exact Nat.mod_eq_zero_of_dvd (Nat.pow_dvd_pow 2 (show 12 ≤ 30 - 9 * c.lvl by omega))
      split at h
      · cases h
        exact hc₁
      split at h
      · cases h
        exact hc₁
      split at h
      · cases h
        exact ⟨hmod, hc₁.2⟩
      · exact ih (c := { c₁ with addr := u64 (c₁.addr + ptLvlsize as.pt c₁.lvl) })
          (show c₁.lvl < 3 by omega) ⟨hmod, hc₁.2⟩ h
    · cases h
      exact hc

theorem vpageSearch_pages {sec : Section} {rounds : Nat} {c c' : VpageScan} (hrv : as.pt.Rv64)
    (hc : c.Pages) (h : vpageSearch clr as sec at_ n rounds c s = .ok (c', s')) : c'.Pages := by
  induction rounds generalizing c s with
  | zero => cases h
  | succ rounds ih =>
    rw [vpageSearch, hrv.lvls] at h
    split at h
    · split at h
      · cases h
        exact ⟨hc.1, rfl⟩
      split at h
      · cases h
      rename_i hl
      split at h
      · cases h
      simp only at h
      split at h
      · cases h
      rename_i c₁ s₁ htable
      exact ih (vpageTable_pages hrv (by omega) hc htable) h
    · cases h
      exact hc

theorem memAllocVpage_page {section_ rounds v : Nat} (hrv : as.pt.Rv64)
    (h : memAllocVpage clr as section_ at_ n rounds s = .ok (v, s')) : v % pageSize = 0 := by
  simp only [memAllocVpage] at h
  split at h
  · cases h
  split at h
  · cases h
    rfl
  split at h
  · cases h
  rename_i c s₁ hsearch
  have hpages := vpageSearch_pages hrv ⟨Nat.mul_mod_left _ _, rfl⟩ hsearch
  split at h
  · split at h
    · cases h
    · cases h
      exact hpages.2
  · cases h
    exact hpages.2

theorem memAllocPage_page {sec rounds v : Nat} {physAligned : Bool} {pages : Ppages}
    (hrv : as.pt.Rv64)
    (h : memAllocPage clr as n sec physAligned rounds s = .ok (v, pages, s')) :
    v % pageSize = 0 := by
  simp only [memAllocPage] at h
  split at h
  · cases h
  split at h
  · split at h
    · cases h
    rename_i v' s₁ hvpage
    split at h
    · cases h
    · cases hmap : memMap clr as v' (some _) n pteHypFlags rounds s₁ with
      | error e =>
        rw [hmap] at h
        cases h
      | ok r =>
        rw [hmap] at h
        cases h
        exact memAllocVpage_page hrv hvpage
  · cases h
    rfl

end Page

/-! ## Address spaces -/

/-- In an address space of `as_init`, the two indices agree in exactly those cases in which the root
table is aligned to its size; the hypervisor's root tables, which are pages, always are. -/
theorem asInit_indexAgrees_iff {clr : Colors} {regions : List MemRegion} {cpu as : AddrSpace}
    {hyp : List Section} {type : AsType} {rootPt : Option (Nat × Nat)} {colors rounds : Nat}
    {s s' : MemState} (hcpu : cpu.pt.Rv64) (hroot : ∀ r ∈ rootPt, r.1 % pageSize = 0)
    (hok : asInit clr regions cpu hyp type rootPt colors rounds s = .ok (as, s')) (mem : PhysMem) :
    (IndexAgrees as.pt mem ↔ as.pt.root % ptSize as.pt 0 = 0) ∧
      (type ≠ .vm → IndexAgrees as.pt mem) := by
  have hdscr : as.pt.dscr = (if type = .hyp ∨ type = .hypCpy then sv39PtDscr else sv39x4PtDscr) ∧
      as.pt.root % pageSize = 0 := by
    simp only [asInit] at hok
    split at hok
    · cases hok
      exact ⟨rfl, hroot _ rfl⟩
    · split at hok
      · cases hok
      rename_i hpage
      split at hok
      · cases hok
      · cases hok
        exact ⟨rfl, memAllocPage_page hcpu hpage⟩
  obtain ⟨hdscr, hpage⟩ := hdscr
  have hrv : as.pt.Rv64 := by
    rw [PageTable.Rv64, hdscr]
    split
    · exact .inl rfl
    · exact .inr rfl
  refine ⟨indexAgrees_iff hrv hpage, fun htype => (indexAgrees_iff hrv hpage).mpr ?_⟩
  have hhyp : type = .hyp ∨ type = .hypCpy := by
    cases type with
    | hyp => exact .inl rfl
    | vm => exact absurd rfl htype
    | hypCpy => exact .inr rfl
  rw [if_pos hhyp] at hdscr
  have hsize : ptSize as.pt 0 = pageSize := by
    simp only [ptSize, ptNentries, hdscr]
    rfl
  rw [hsize, hpage]

/-- The address space of a cpu without mappings. -/
def emptyCpu (imageEnd dmemBeg : Nat) : AddrSpace :=
  ⟨⟨sv39PtDscr, 0x80000000, 0x80000000⟩, hypSecs imageEnd dmemBeg, .hyp, 0⟩

/-- A cpu with an image of 2 MiB and no devices. -/
def smallCpu : AddrSpace := emptyCpu (baoVasBase + 0x200000) (baoVasBase + 0x200000)

/-- The first guest whose root table is the first thing in its section. -/
theorem asInit_indexAgrees_iff_first :
    ∃ as s', asInit {} [] smallCpu smallCpu.secs .vm none 0 8 clearState = .ok (as, s') ∧
      IndexAgrees as.pt s'.mem := by
  have hroot : (asInit {} [] smallCpu smallCpu.secs .vm none 0 8 clearState).toOption.map
      (fun r => r.1.pt.root % ptSize r.1.pt 0) = some 0 := by decide +kernel
  obtain ⟨⟨as, s'⟩, hok, hroot⟩ := Option.map_eq_some_iff.mp hroot
  rw [toOption_eq_some] at hok
  exact ⟨as, s', hok, (asInit_indexAgrees_iff (.inl rfl) (by simp) hok s'.mem).1.mpr hroot⟩

/-- With a page of the section reserved before, the root table of the guest begins at the second
page of the section. Its first entry then has index 512 by its pointer, and index 0 by its
address. -/
theorem asInit_index_differs :
    ((memAllocVpage {} smallCpu secHypVm 0 1 8 clearState).toOption.bind fun r =>
      (asInit {} [] smallCpu smallCpu.secs .vm none 0 8 r.2).toOption.map fun r =>
        (r.1.pt.root, (ptGetPte r.1.pt r.2.mem 0 0).map (ptGetpteindex r.1.pt · 0),
          ptGetpteindexByVa r.1.pt 0 0)) = some (baoVmBase + 0x1000, some 512, 0) := by
  decide +kernel

end Bao
