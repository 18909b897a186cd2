import Bao.Core.ClrMap
import Bao.Core.MemMapExact
import Bao.Core.VpageFresh

/-!
# Mapping to pages that were not mapped

`mem_map` for the virtual pages that `mem_alloc_vpage` returns, first of pages without colours and
then of pages with colours, which are mapped one by one.
-/

namespace Bao

variable {clr : Colors} {as : AddrSpace} {rel : Bool} {used : Set Nat} {s s' : MemState}
  {flags : Word}

section Map

variable {va base n : Nat}

theorem AsState.base_page_of_mapped {rounds : Nat} (hs : AsState clr as rel used s) (hn : 1 ≤ n)
    (hok : memMap clr as va (some ⟨base, n, 0⟩) n flags rounds s = .ok (true, s')) :
    base % pageSize = 0 := by
  simp only [memMap] at hok
  split at hok
  · cases hok
  obtain ⟨s₁, hloop, -⟩ := map_eq_ok.mp hok
  change memMapLoop clr as true n flags rounds ⟨pageOf va, base, 0⟩ s = .ok s₁ at hloop
  cases rounds with
  | zero => cases hloop
  | succ rounds =>
    rw [memMapLoop, if_pos (show 0 < n from hn)] at hloop
    obtain ⟨lvl, pte, s₂, -, found⟩ | ⟨e, herr, -⟩ := hs.mapFind (n - 0) base as.pt.dscr.lvls
      (show PtEntry as.pt s.mem (pageOf va) 0 _ from .root)
    · obtain ⟨used₂, hs₂, -⟩ := found.reach
      have hbase := found.paddr_mod
      rw [hs.rv64.lvlsize_eq (hs₂.tree.lvl_lt found.entry)] at hbase
      exact Nat.mod_eq_zero_of_dvd
        ((Nat.dvd_mul_left pageSize _).trans (Nat.dvd_of_mod_eq_zero hbase))
    · simp only [if_true, herr] at hloop
      cases hloop

theorem VpagesTaken.mapGiven {at_ rounds v : Nat} {s₁ : MemState} (hs : AsState clr as rel used s)
    (taken : VpagesTaken clr as rel used at_ n s v s₁) (req : MapRequest as.pt v base n flags)
    (hok : memMap clr as v (some ⟨base, n, 0⟩) n flags rounds s₁ = .ok (true, s')) :
    AsReach clr as rel used s s' ∧
      (∀ a pa, memTranslate as.pt s.mem a = some pa → memTranslate as.pt s'.mem a = some pa) ∧
      ∀ k < n * pageSize, memTranslate as.pt s'.mem (v + k) = some (base + k) := by
  have hwindow := req.window
  obtain ⟨used₁, hs₁, hgrows⟩ := taken.state
  obtain ⟨hfalse, -⟩ | ⟨⟨used', hs', hgrows'⟩, htrans⟩ := hs₁.mapGiven req hok
  · cases hfalse
  have hmod : ∀ k < n * pageSize, (v + k) % ptSpan as.pt = v % ptSpan as.pt + k := fun k hk => by
    rw [← Nat.mod_add_mod, Nat.mod_eq_of_lt (by omega)]
  refine ⟨⟨used', hs', hgrows.comp hgrows'⟩, fun a pa ha => ?_, fun k hk => ?_⟩
  · -- An address of the pages was not mapped.
    rw [htrans, mappedTo, if_neg, taken.trans, ha]
    rintro ⟨hlo, hhi⟩
    have hk : a % ptSpan as.pt - v % ptSpan as.pt < n * pageSize := by omega
    have hsame : memTranslate as.pt s.mem a =
        memTranslate as.pt s.mem (v + (a % ptSpan as.pt - v % ptSpan as.pt)) :=
      hs.tree.translate_mod hs.rv64 (by rw [hmod _ hk]; omega)
    rw [(taken.pages _ hk).1, ha] at hsame
    cases hsame
  · rw [htrans, mappedTo, hmod k hk, if_pos (by omega), Nat.add_sub_cancel_left]

end Map

/-! ## Tables for pages that are not mapped -/

section Inflate

variable {va top lvl : Nat}

/-- Above the entry that `pt_get_pte` finds for an address that is not mapped, there is no leaf. -/
theorem PtTree.entry_of_unmapped {pt : PageTable} {mem : PhysMem} {va lvl pte : Nat}
    (tree : PtTree pt mem) (hrv : pt.Rv64) (hnone : memTranslate pt mem va = none)
    (h : ptGetPte pt mem lvl va = some pte) : PtEntry pt mem va lvl pte := by
  refine .of_getPte (fun j _ q hq hv => ?_) h
  by_contra hleaf
  rw [Bool.not_eq_true] at hleaf
  rw [tree.invalid_of_unmapped hrv hq hleaf hnone] at hv
  cases hv

theorem AsState.expandUnmapped (hs : AsState clr as rel used s) (hl : lvl + 1 < 3)
    (hnone : memTranslate as.pt s.mem va = none) (hok : memExpandPte clr as va lvl s = .ok s') :
    AsReach clr as rel used s s' ∧
      ∀ a, memTranslate as.pt s'.mem a = memTranslate as.pt s.mem a := by
  have hlvls : ¬ as.pt.dscr.lvls - 1 ≤ lvl := by rw [hs.rv64.lvls]; omega
  cases hget : ptGetPte as.pt s.mem lvl va with
  | none =>
    simp only [memExpandPte, if_neg hlvls, hget] at hok
    cases hok
    exact ⟨hs.reach, fun _ => rfl⟩
  | some pte =>
    have h := hs.tree.entry_of_unmapped hs.rv64 hnone hget
    cases htable : pteTable (s.mem pte) with
    | true =>
      simp only [memExpandPte, if_neg hlvls, hget, htable, if_true] at hok
      cases hok
      exact ⟨hs.reach, fun _ => rfl⟩
    | false =>
      obtain herr | ⟨base, s₁, hok₁, hfresh, hs₁, ex⟩ := hs.expand h hl htable
      · rw [herr] at hok
        cases hok
      rw [hok₁] at hok
      cases hok
      refine ⟨⟨_, hs₁, .split hs.tree hs.rv64 h hl ex.split hfresh.fresh⟩,
        (ex.translate_iff hs.rv64 hs.tree h hl).mpr fun hv => ?_⟩
      rw [hs.tree.invalid_of_unmapped hs.rv64 h htable hnone] at hv
      cases hv

theorem AsState.inflateLvlUnmapped {rounds vaddr : Nat} (hs : AsState clr as rel used s)
    (hl : lvl + 1 < 3) (hwrap : top + ptLvlsize as.pt lvl ≤ 2 ^ 64)
    (hnone : ∀ a, vaddr ≤ a → a < top → memTranslate as.pt s.mem a = none)
    (hok : Bao.inflateLvl clr as top lvl rounds vaddr s = .ok s') :
    AsReach clr as rel used s s' ∧
      ∀ a, memTranslate as.pt s'.mem a = memTranslate as.pt s.mem a := by
  induction rounds generalizing vaddr s used with
  | zero => cases hok
  | succ rounds ih =>
    rw [Bao.inflateLvl] at hok
    split at hok
    · rename_i hlt
      split at hok
      · cases hok
      rename_i s₁ hexpand
      rw [u64_of_lt (by omega)] at hok
      obtain ⟨⟨used₁, hs₁, hgrows₁⟩, htrans₁⟩ :=
        hs.expandUnmapped hl (hnone vaddr le_rfl hlt) hexpand
      obtain ⟨⟨used₂, hs₂, hgrows₂⟩, htrans₂⟩ := ih hs₁
        (fun a hlo hhi => (htrans₁ a).trans (hnone a (by omega) hhi)) hok
      exact ⟨⟨used₂, hs₂, hgrows₁.comp hgrows₂⟩, fun a => (htrans₂ a).trans (htrans₁ a)⟩
    · cases hok
      exact ⟨hs.reach, fun _ => rfl⟩

/-- `mem_inflate_pt` for a range that is not mapped changes no translation. -/
theorem AsState.inflateUnmapped {length rounds : Nat} (hs : AsState clr as rel used s)
    (hwrap : va + length + 2 ^ 30 ≤ 2 ^ 64)
    (hnone : ∀ k < length, memTranslate as.pt s.mem (va + k) = none)
    (hok : memInflatePt clr as va length rounds s = .ok s') :
    AsReach clr as rel used s s' ∧
      ∀ a, memTranslate as.pt s'.mem a = memTranslate as.pt s.mem a := by
  have h₀ := hs.rv64.lvlsize_le (show 0 < 3 by decide)
  have h₁ := hs.rv64.lvlsize_le (show 1 < 3 by decide)
  have hrange : ∀ a, va ≤ a → a < va + length → memTranslate as.pt s.mem a = none := by
    intro a hlo hhi
    have := hnone (a - va) (by omega)
    rwa [Nat.add_sub_cancel' hlo] at this
  rw [memInflatePt_eq hs.rv64 (by omega)] at hok
  cases hfirst : Bao.inflateLvl clr as (va + length) 0 rounds va s with
  | error e =>
    rw [hfirst] at hok
    cases hok
  | ok s₁ =>
    rw [hfirst] at hok
    obtain ⟨⟨used₁, hs₁, hgrows₁⟩, htrans₁⟩ :=
      hs.inflateLvlUnmapped (by decide) (by omega) hrange hfirst
    obtain ⟨⟨used₂, hs₂, hgrows₂⟩, htrans₂⟩ := hs₁.inflateLvlUnmapped (by decide) (by omega)
      (fun a hlo hhi => (htrans₁ a).trans (hrange a hlo hhi)) hok
    exact ⟨⟨used₂, hs₂, hgrows₁.comp hgrows₂⟩, fun a => (htrans₂ a).trans (htrans₁ a)⟩

end Inflate

/-! ## Pages with colours -/

/-- A page that an entry can address. -/
structure PageAddr (paddr : Nat) : Prop where
  page : paddr % pageSize = 0
  top : paddr < 2 ^ 56

theorem PtTree.translate_setPage {pt : PageTable} {mem : PhysMem} {va pte paddr : Nat}
    {flags : Word}
    (tree : PtTree pt mem) (hrv : pt.Rv64) (h : PtEntry pt mem va 2 pte) (hp : PageAddr paddr)
    (hflags : pteValid flags = true) (a : Nat) :
    memTranslate pt (Function.update mem pte (pteSet paddr pteTypePage flags)) a =
      if blockOf pt a 2 = blockOf pt va 2 then some (paddr + a % pageSize)
      else memTranslate pt mem a := by
  split
  · rename_i hblock
    have hsize : ptLvlsize pt 2 = pageSize := hrv.lvlsize (by decide)
    change memTranslate pt (Function.update mem pte (pteSet paddr ptPteType flags)) a = _
    rw [tree.translate_write h (pteTable_pteSet_leaf paddr flags) hrv hblock
      (pteValid_pteSet_leaf paddr hflags), pteAddr_pteSet_leaf flags hp.top hp.page, hsize,
      Nat.div_mul_cancel (Nat.dvd_of_mod_eq_zero hp.page)]
  · rename_i hblock
    exact tree.translate_write_of_ne h hrv hblock

section Pages

variable {vaddr : Nat} {paddrs : List Nat}

theorem blockOf_page {pt : PageTable} {va k : Nat} (hrv : pt.Rv64) (hva : va % pageSize = 0)
    (hk : k < pageSize) : blockOf pt (va + k) 2 = blockOf pt va 2 := by
  refine blockOf_eq_of_div_eq hrv (by decide) ?_
  rw [hrv.lvlsize (by decide)]
  simp only [pageSize] at *
  omega

theorem AsState.mapsPages (hs : AsState clr as rel used s) (hva : vaddr % pageSize = 0)
    (hspan : paddrs.length * pageSize ≤ ptSpan as.pt) (hflags : pteValid flags = true)
    (hpages : ∀ p ∈ paddrs, PageAddr p)
    (hnone : ∀ k < paddrs.length * pageSize, memTranslate as.pt s.mem (vaddr + k) = none)
    (hmaps : MapsPages as flags vaddr paddrs s s') :
    AsReach clr as rel used s s' ∧
      (∀ i (hi : i < paddrs.length), ∀ k < pageSize,
        memTranslate as.pt s'.mem (vaddr + i * pageSize + k) = some (paddrs[i] + k)) ∧
      ∀ a, OutOf as.pt vaddr paddrs.length a →
        memTranslate as.pt s'.mem a = memTranslate as.pt s.mem a := by
  induction hmaps with
  | nil => exact ⟨hs.reach, fun i hi => absurd hi (Nat.not_lt_zero i), fun _ _ => rfl⟩
  | @cons vaddr paddr pte paddrs s s' entry rest ih =>
    obtain ⟨hpage, hpages⟩ := List.forall_mem_cons.mp hpages
    rw [List.length_cons, Nat.add_mul, Nat.one_mul] at hspan hnone
    rw [hs.rv64.lvls] at entry
    have h := hs.tree.entry_of_unmapped hs.rv64
      (by simpa using hnone 0 (Nat.add_pos_right _ (by decide))) entry
    have hleaf := pteTable_pteSet_leaf paddr flags
    have hset := hs.tree.translate_setPage hs.rv64 h hpage hflags
    have hpage₂ := hs.rv64.lvlsize (show 2 < 3 by decide)
    -- The page and the others have no address in common.
    have hapart : ∀ k < pageSize, OutOf as.pt (vaddr + pageSize) paddrs.length (vaddr + k) :=
      fun k hk j hj => mod_ne_of_lt (by omega) (by omega)
    have hother : ∀ a, OutOf as.pt vaddr 1 a → blockOf as.pt a 2 ≠ blockOf as.pt vaddr 2 :=
      fun a ha => ha.blockOf_ne hs.rv64 (by decide) (by rwa [hpage₂]) le_rfl
    obtain ⟨⟨used', hs', hgrows⟩, hin, hout⟩ := ih (hs.write hleaf) (by simpa using hva) (by omega)
      hpages fun k hk => by
        rw [MemState.write, hset, if_neg, Nat.add_assoc]
        · exact hnone _ (by omega)
        · exact hother _ fun j hj => (mod_ne_of_lt (by omega) (by omega)).symm
    refine ⟨⟨used', hs', (Grows.write h hleaf).comp hgrows⟩, fun i hi k hk => ?_, fun a ha => ?_⟩
    · cases i with
      | zero =>
        have hk' : (vaddr + k) % pageSize = k := by
          simp only [pageSize] at *
          omega
        rw [Nat.zero_mul, Nat.add_zero, hout _ (hapart k hk), MemState.write, hset,
          if_pos (blockOf_page hs.rv64 hva hk), hk']
        rfl
      | succ i =>
        have := hin i (by simpa using hi) k hk
        rwa [show vaddr + pageSize + i * pageSize + k = vaddr + (i + 1) * pageSize + k by
          rw [Nat.add_mul]; omega] at this
    · have hdrop : OutOf as.pt (vaddr + pageSize) paddrs.length a := by
        intro k hk
        have := ha (pageSize + k) (by rw [List.length_cons, Nat.add_mul]; omega)
        rwa [← Nat.add_assoc] at this
      rw [hout a hdrop, MemState.write, hset, if_neg]
      refine hother a fun k hk => ha k ?_
      rw [List.length_cons, Nat.add_mul]
      omega

/-- `mem_map` of pages with colours to virtual pages that are not mapped. -/
theorem AsState.mapColoured {r : Ppages} {va n rounds : Nat} {ok : Bool} {os : List Nat}
    (hs : AsState clr as rel used s) (hclr : allClrs clr r.colors = false) (hn : r.size = n)
    (hva : va % pageSize = 0) (hwrap : va + n * pageSize + 2 ^ 30 ≤ 2 ^ 64)
    (hspan : n * pageSize ≤ ptSpan as.pt) (hflags : pteValid flags = true)
    (hnone : ∀ k < n * pageSize, memTranslate as.pt s.mem (va + k) = none)
    (hos : r.offsets clr = some os) (hpages : ∀ o ∈ os, PageAddr (r.base + o * pageSize))
    (hok : memMap clr as va (some r) n flags rounds s = .ok (ok, s')) :
    ok = false ∧ s' = s ∨ AsReach clr as rel used s s' ∧
      (∀ i (hi : i < os.length), ∀ k < pageSize,
        memTranslate as.pt s'.mem (va + i * pageSize + k) = some (r.base + os[i] * pageSize + k)) ∧
      ∀ a, OutOf as.pt va n a → memTranslate as.pt s'.mem a = memTranslate as.pt s.mem a := by
  have hpage : pageOf va = va := Nat.div_mul_cancel (Nat.dvd_of_mod_eq_zero hva)
  simp only [memMap, hpage] at hok
  split at hok
  · cases hok
    exact .inl ⟨rfl, rfl⟩
  simp only [memMapPages, hclr, Bool.not_false, if_true, memMapColoured] at hok
  cases hinflate : memInflatePt clr as va (n * pageSize) rounds s with
  | error e =>
    simp only [hinflate] at hok
    cases hok
  | ok s₁ =>
    simp only [hinflate] at hok
    cases hloop : mapClrLoop clr as r flags r.size va 0 s₁ with
    | error e =>
      rw [hloop] at hok
      cases hok
    | ok s₂ =>
      rw [hloop] at hok
      cases hok
      obtain ⟨os', hos', hmaps⟩ := mapClrLoop_iff.mp hloop
      simp only [Ppages.offsets, hclr, Bool.not_false, if_true] at hos
      obtain rfl : os = os' := Option.some.inj (hos.symm.trans hos')
      have hlen : os.length = n := (clrIndices_length hos).trans hn
      obtain ⟨⟨used₁, hs₁, hgrows₁⟩, htrans₁⟩ := hs.inflateUnmapped hwrap hnone hinflate
      obtain ⟨⟨used₂, hs₂, hgrows₂⟩, hin, hout⟩ := hs₁.mapsPages hva
        (by rwa [List.length_map, hlen]) hflags
        (by simpa using hpages)
        (fun k hk => by
          rw [List.length_map, hlen] at hk
          rw [htrans₁, hnone k hk]) hmaps
      refine .inr ⟨⟨used₂, hs₂, hgrows₁.comp hgrows₂⟩, fun i hi k hk => ?_, fun a ha => ?_⟩
      · rw [hin i (by simpa using hi) k hk, List.getElem_map]
      · rw [hout a (by rwa [List.length_map, hlen]), htrans₁]

end Pages

end Bao
