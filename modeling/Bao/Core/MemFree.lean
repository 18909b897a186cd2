import Bao.Core.MemInflate

/-!
# Unmapping virtual pages

`mem_free_vpage` walks over a range with one level variable. It clears the leaf entries that lie
wholly in the range and splits the others, and when it has come to the end of a table it goes on one
level up, in whatever table the next address belongs to. That is the right place unless it leaves a
table of the last level at the end of a block of 1 GiB: the next address may then belong to a leaf
of the root table, which the walk takes for a table.

The loops are followed with the translation as a whole: up to the current address the range is
unmapped, and everything else is as it was.
-/

namespace Bao

/-! ## Where the walk goes astray -/

/-- The entry of the root table for an address leads to no table. -/
def RootLeaf (pt : PageTable) (mem : PhysMem) (va : Nat) : Prop :=
  pteTable (mem (pt.rootPa + 8 * ptGetpteindexByVa pt va 0)) = false

/-- The entry of the root table for an address is where `pt_getpteindex` begins to count anew, which
is inside the table if the table is not aligned to its size. -/
def CountsAnew (pt : PageTable) (va : Nat) : Prop :=
  ptGetpteindex pt (pt.rootPa + 8 * ptGetpteindexByVa pt va 0) 0 = 0

/-- The walk from `vaddr` on gets over the end `b` of a block of 1 GiB. Where a leaf of the root
table begins there, it does not come from a table of the last level: there is none for the last page
of the block, and none is made, because the walk does not begin in the last 2 MiB of the block. And
where the entries of the root table are counted anew, it does not come from a leaf of the root
table. -/
structure BoundaryOk (pt : PageTable) (mem : PhysMem) (vaddr b : Nat) : Prop where
  table : RootLeaf pt mem b → vaddr + 2 ^ 21 ≤ b ∧ ∀ q, ¬ PtEntry pt mem (b - 1) 2 q
  leaf : CountsAnew pt b → vaddr + 2 ^ 30 ≤ b → ¬ RootLeaf pt mem (b - 1)

def FreeOk (pt : PageTable) (mem : PhysMem) (vaddr top : Nat) : Prop :=
  ∀ b, b % 2 ^ 30 = 0 → vaddr < b → b < top → BoundaryOk pt mem vaddr b

/-- Superpages in the range are aligned to their sizes. -/
def AlignedIn (pt : PageTable) (mem : PhysMem) (vaddr top : Nat) : Prop :=
  ∀ {va lvl pte}, vaddr ≤ va → va < top → PtEntry pt mem va lvl pte → lvl + 1 < 3 →
    pteTable (mem pte) = false → pteValid (mem pte) = true →
      pteAddr (mem pte) % ptLvlsize pt lvl = 0

/-- The pages behind the addresses from `vaddr` to `top` are in use, but not for tables. -/
def PagesUsed (pt : PageTable) (used : Set Nat) (mem : PhysMem) (f : Nat → Option Nat)
    (vaddr top : Nat) : Prop :=
  ∀ a p, vaddr ≤ a → a < top → f a = some p →
    p / pageSize ∈ used ∧ p / pageSize ∉ tableFrames pt mem

/-- A range from `at_` to `top` to unmap, with `f` as the translation before. When the pages go back
to the pools, no page is mapped twice. -/
structure UnmapRange (as : AddrSpace) (rel : Bool) (at_ top : Nat) (f : Nat → Option Nat) :
    Prop where
  page : at_ % pageSize = 0
  top_page : top % pageSize = 0
  le : at_ ≤ top
  window : at_ % ptSpan as.pt + (top - at_) ≤ ptSpan as.pt
  below : top + 2 ^ 30 ≤ 2 ^ 64
  mapped : ∀ a, at_ ≤ a → a < top → f a ≠ none
  inj : rel = true → ∀ a a' p p', at_ ≤ a → a < top → at_ ≤ a' → a' < top → f a = some p →
    f a' = some p' → p / pageSize = p' / pageSize → a / pageSize = a' / pageSize

/-- The translation `f` without the first `len` addresses of the range. -/
def freedTo (pt : PageTable) (at_ len : Nat) (f : Nat → Option Nat) (a : Nat) : Option Nat :=
  if at_ % ptSpan pt ≤ a % ptSpan pt ∧ a % ptSpan pt < at_ % ptSpan pt + len then none else f a

/-- The state of `mem_free_vpage` at the address `vaddr`. -/
structure Freeing (clr : Colors) (as : AddrSpace) (rel : Bool) (at_ top : Nat)
    (f : Nat → Option Nat) (used : Set Nat) (vaddr : Nat) (s : MemState) : Prop where
  state : AsState clr as rel used s
  aligned : AlignedIn as.pt s.mem vaddr top
  lo : at_ ≤ vaddr
  hi : vaddr ≤ top
  page : vaddr % pageSize = 0
  trans : ∀ a, memTranslate as.pt s.mem a = freedTo as.pt at_ (vaddr - at_) f a
  pages : rel = true → PagesUsed as.pt used s.mem f vaddr top

section Steps

variable {clr : Colors} {as : AddrSpace} {rel : Bool} {at_ top a : Nat} {f : Nat → Option Nat}
  {used : Set Nat} {vaddr lvl pte : Nat} {s : MemState} {pt : PageTable} {mem : PhysMem} {ok : Prop}

theorem UnmapRange.mod_eq (r : UnmapRange as rel at_ top f) (hlo : at_ ≤ a) (hhi : a < top) :
    a % ptSpan as.pt = at_ % ptSpan as.pt + (a - at_) := by
  have hwindow := r.window
  obtain ⟨k, rfl⟩ := Nat.exists_eq_add_of_le hlo
  rw [← Nat.mod_add_mod, Nat.mod_eq_of_lt (by omega)]
  omega

variable {b va vaddr' lvl' rounds : Nat} {s' : MemState}

/-- In the range, addresses that share an entry of a level lie in one block of that level. -/
theorem UnmapRange.blockOf_iff (r : UnmapRange as rel at_ top f) (hrv : as.pt.Rv64) (hl : lvl < 3)
    (ha : at_ ≤ a) (ha' : a < top) (hb : at_ ≤ b) (hb' : b < top) :
    blockOf as.pt a lvl = blockOf as.pt b lvl ↔
      a / ptLvlsize as.pt lvl = b / ptLvlsize as.pt lvl := by
  refine blockOf_eq_iff_div hrv hl ?_
  rw [div_span_of_window r.window ha ha', div_span_of_window r.window hb hb']

theorem Freeing.trans_eq (r : UnmapRange as rel at_ top f)
    (fr : Freeing clr as rel at_ top f used vaddr s) (hlo : vaddr ≤ a) (hhi : a < top) :
    memTranslate as.pt s.mem a = f a := by
  have := fr.lo
  rw [fr.trans, freedTo, r.mod_eq (by omega) hhi, if_neg (by omega)]

theorem Freeing.valid (r : UnmapRange as rel at_ top f)
    (fr : Freeing clr as rel at_ top f used vaddr s) (hlo : vaddr ≤ a) (hhi : a < top)
    (h : PtEntry as.pt s.mem a lvl pte) (hleaf : pteTable (s.mem pte) = false) :
    pteValid (s.mem pte) = true := by
  refine Bool.eq_true_of_not_eq_false fun hinv => r.mapped a (fr.lo.trans hlo) hhi ?_
  rw [← fr.trans_eq r hlo hhi, h.translate fr.state.rv64 (fr.state.tree.lvl_lt h) hleaf,
    if_neg (by simp [hinv])]

/-! ## A leaf that lies partly in the range -/

theorem expandedPte_aligned {as : AddrSpace} {lvl i : Nat} {w : Word} (hrv : as.pt.Rv64)
    (hl : lvl + 1 < 3) (hi : i < 512) (hv : pteValid w = true)
    (h : pteAddr w % ptLvlsize as.pt lvl = 0) :
    pteAddr (expandedPte as lvl w i) % ptLvlsize as.pt (lvl + 1) = 0 := by
  rw [pteAddr_expandedPte hrv hl hi hv (by rw [h]; exact hrv.lvlsize_pos hl),
    Nat.add_mul_mod_self_right]
  exact Nat.mod_eq_zero_of_dvd
    ((hrv.lvlsize_succ hl ▸ Nat.dvd_mul_right _ 512).trans (Nat.dvd_of_mod_eq_zero h))

section

variable (r : UnmapRange as rel at_ top f) (fr : Freeing clr as rel at_ top f used vaddr s)
  (h : PtEntry as.pt s.mem vaddr lvl pte)

include r fr h

theorem Freeing.expand (hleaf : pteTable (s.mem pte) = false)
    (hpart : 0 < vaddr % ptLvlsize as.pt lvl ∨ top < vaddr + ptLvlsize as.pt lvl)
    (hlt : vaddr < top) :
    memExpandPte clr as vaddr lvl s = .error .noTable ∨
      ∃ used' s' base, memExpandPte clr as vaddr lvl s = .ok s' ∧ lvl + 1 < 3 ∧
        Freeing clr as rel at_ top f used' vaddr s' ∧
        Expanded as lvl pte base s.mem s'.mem := by
  have hrv := fr.state.rv64
  have htree := fr.state.tree
  have hl := htree.lvl_lt h
  have hpage := fr.page
  have htop := r.top_page
  -- Pages are never covered in part.
  have hl1 : lvl + 1 < 3 := by
    by_contra hlast
    obtain rfl : lvl = 2 := by omega
    rw [hrv.lvlsize (by decide)] at hpart
    simp only [pageSize] at *
    omega
  obtain herr | ⟨base, s', hok, hfresh, hs', ex⟩ := fr.state.expand h hl1 hleaf
  · exact .inl herr
  have haddr := fr.aligned le_rfl hlt h hl1 hleaf
  refine .inr ⟨_, s', base, hok, hl1, ⟨hs', ?_, fr.lo, fr.hi, hpage, fun a => ?_,
    fun hrel a p hlo hhi hp => ?_⟩, ex⟩
  · intro va' lvl' q hlo hhi hq hl' hqleaf hv
    rcases PtTree.entry_of_split htree hrv h hl1 ex.split hq with hold | ⟨rfl, -, rfl⟩
    · have hne : q ≠ pte := by
        rintro rfl
        rw [ex.split.table] at hqleaf
        cases hqleaf
      rw [ex.split.mem_eq hold hne] at hqleaf hv ⊢
      exact fr.aligned hlo hhi hold hl' hqleaf hv
    · have hlt := hrv.index_lt hl1 va'
      rw [hrv.nentries (by omega) hl1] at hlt
      rw [ex.entry_word hrv hl1 va', pteValid_expandedPte] at hv
      rw [ex.entry_word hrv hl1 va']
      exact expandedPte_aligned hrv hl1 hlt hv (haddr hv)
  · rw [← fr.trans]
    refine (ex.translate_iff hrv htree h hl1).mpr (fun hv => ?_) a
    rw [haddr hv]
    exact hrv.lvlsize_pos hl1
  · obtain ⟨hin, hout⟩ := fr.pages hrel a p hlo hhi hp
    refine ⟨.inr hin, ?_⟩
    rintro ⟨va', lvl', q, hq, hframe⟩
    rcases PtTree.entry_of_split htree hrv h hl1 ex.split hq with hq | ⟨-, -, rfl⟩
    · exact hout (hframe ▸ hq.mem_tableFrames)
    · rw [PtTree.split_page hrv hl1 ex.split va'] at hframe
      exact hfresh.fresh (hframe ▸ hin)

variable {mem' : PhysMem}

/-- An entry of the root table that is not the one of a block of the range, or that still leads to
no table. -/
theorem Freeing.rootLeaf_iff (hlt : vaddr < top)
    (hmem : ∀ {a q}, PtEntry as.pt s.mem a 0 q → q ≠ pte → mem' q = s.mem q) (hlo : vaddr ≤ a)
    (hhi : a < top) (hne : lvl = 0 → a / 2 ^ 30 ≠ vaddr / 2 ^ 30) :
    RootLeaf as.pt mem' a ↔ RootLeaf as.pt s.mem a := by
  have hrv := fr.state.rv64
  unfold RootLeaf
  rw [hmem .root fun heq => ?_]
  have hentry : PtEntry as.pt s.mem a 0 pte := heq ▸ .root
  obtain ⟨hlvl, hblock⟩ := fr.state.tree.inj hentry h
  refine hne hlvl.symm ?_
  have := (r.blockOf_iff hrv (by decide) (fr.lo.trans hlo) hhi fr.lo hlt).mp hblock
  rwa [hrv.lvlsize (by decide)] at this

/-- A split changes nothing at the ends of blocks of 1 GiB. -/
theorem Freeing.freeOk_expand {base : Nat} (hl1 : lvl + 1 < 3)
    (hpart : 0 < vaddr % ptLvlsize as.pt lvl ∨ top < vaddr + ptLvlsize as.pt lvl)
    (hlt : vaddr < top) (ex : Expanded as lvl pte base s.mem mem') :
    FreeOk as.pt mem' vaddr top ↔ FreeOk as.pt s.mem vaddr top := by
  have hrv := fr.state.rv64
  have hlo := fr.lo
  have hroot : ∀ {a}, vaddr ≤ a → a < top → (lvl = 0 → a / 2 ^ 30 ≠ vaddr / 2 ^ 30) →
      (RootLeaf as.pt mem' a ↔ RootLeaf as.pt s.mem a) :=
    fr.rootLeaf_iff r h hlt fun hq hne => ex.split.mem_eq hq hne
  refine forall_congr' fun b => forall_congr' fun hb => forall_congr' fun hvb =>
    forall_congr' fun hbt => ?_
  have htable : RootLeaf as.pt mem' b ↔ RootLeaf as.pt s.mem b :=
    hroot (by omega) hbt fun _ => by omega
  have hlast : vaddr + 2 ^ 21 ≤ b →
      ((∀ q, ¬ PtEntry as.pt mem' (b - 1) 2 q) ↔ ∀ q, ¬ PtEntry as.pt s.mem (b - 1) 2 q) := by
    intro hfar
    refine forall_congr' fun q => not_congr ⟨fun hq => ?_, ex.split.entry⟩
    rcases PtTree.entry_of_split fr.state.tree hrv h hl1 ex.split hq with hq | ⟨hlvl, hblock, -⟩
    · exact hq
    · -- The block of the new table would begin at `vaddr` and end at `b`.
      obtain rfl : lvl = 1 := by omega
      have hdiv := (r.blockOf_iff hrv (by decide) (by omega) (by omega) hlo hlt).mp hblock
      rw [hrv.lvlsize (by decide)] at hdiv hpart
      omega
  have hleaf : vaddr + 2 ^ 30 ≤ b →
      (RootLeaf as.pt mem' (b - 1) ↔ RootLeaf as.pt s.mem (b - 1)) := by
    refine fun hfar => hroot (by omega) (by omega) fun hlvl hdiv => ?_
    subst hlvl
    rw [hrv.lvlsize (by decide)] at hpart
    omega
  constructor <;> rintro ⟨h₁, h₂⟩
  · refine ⟨fun hr => ?_, fun hc hfar => mt (hleaf hfar).mpr (h₂ hc hfar)⟩
    obtain ⟨hfar, hno⟩ := h₁ (htable.mpr hr)
    exact ⟨hfar, (hlast hfar).mp hno⟩
  · refine ⟨fun hr => ?_, fun hc hfar => mt (hleaf hfar).mp (h₂ hc hfar)⟩
    obtain ⟨hfar, hno⟩ := h₁ (htable.mp hr)
    exact ⟨hfar, (hlast hfar).mpr hno⟩

end

/-! ## A leaf that lies in the range -/

section

variable (r : UnmapRange as rel at_ top f) (fr : Freeing clr as rel at_ top f used vaddr s)
  (h : PtEntry as.pt s.mem vaddr lvl pte) (hleaf : pteTable (s.mem pte) = false)
  (hal : vaddr % ptLvlsize as.pt lvl = 0) (hfits : vaddr + ptLvlsize as.pt lvl ≤ top)

include r fr h hleaf hal hfits

theorem Freeing.leaf_page {k : Nat} (hk : k < lvlPages lvl) :
    f (vaddr + k * pageSize) = some (pteAddr (s.mem pte) + k * pageSize) := by
  have hrv := fr.state.rv64
  have hl := fr.state.tree.lvl_lt h
  have hsize := hrv.lvlsize_eq hl
  have hin : k * pageSize < ptLvlsize as.pt lvl := by
    rw [hsize]
    exact Nat.mul_lt_mul_of_pos_right hk (by decide)
  have hv := fr.valid r le_rfl (by omega) h hleaf
  have haddr : pteAddr (s.mem pte) % ptLvlsize as.pt lvl = 0 := by
    by_cases hl1 : lvl + 1 < 3
    · exact fr.aligned le_rfl (by omega) h hl1 hleaf hv
    · obtain rfl : lvl = 2 := by omega
      rw [hrv.lvlsize (by decide)]
      exact pteAddr_mod _
  have hentry := h.of_block hrv hl hal (Nat.le_add_right _ (k * pageSize)) (by omega)
  rw [← fr.trans_eq r (by omega) (by omega), hentry.translate hrv hl hleaf,
    if_pos ⟨fr.state.tree.pos h, hv⟩, Nat.div_mul_cancel (Nat.dvd_of_mod_eq_zero haddr),
    Nat.add_mod, hal, Nat.zero_add, Nat.mod_mod, Nat.mod_eq_of_lt hin]

theorem Freeing.leaf_frame {i : Nat} (hi : i ∈ frames (pteAddr (s.mem pte)) (lvlPages lvl)) :
    ∃ a p, vaddr ≤ a ∧ a < vaddr + ptLvlsize as.pt lvl ∧ f a = some p ∧ p / pageSize = i := by
  have hsize := fr.state.rv64.lvlsize_eq (fr.state.tree.lvl_lt h)
  rw [frames, Set.mem_Ico] at hi
  have hk : i - pteAddr (s.mem pte) / pageSize < lvlPages lvl := by omega
  refine ⟨vaddr + (i - pteAddr (s.mem pte) / pageSize) * pageSize, _, by omega, ?_,
    fr.leaf_page r h hleaf hal hfits hk, ?_⟩
  · rw [hsize]
    exact Nat.add_lt_add_left (Nat.mul_lt_mul_of_pos_right hk (by decide)) _
  · rw [Nat.add_mul_div_right _ _ (by decide)]
    omega

end

theorem freeLeaf_eq (clr : Colors) (rel : Bool) (pte n : Nat) (s : MemState) :
    freeLeaf clr rel pte n s = .ok { s with
      pools := if rel then memFreePpages ⟨pteAddr (s.mem pte), n, 0⟩ s.pools else s.pools } := by
  unfold freeLeaf
  cases rel with
  | true =>
    have hall : allClrs clr (⟨pteAddr (s.mem pte), n, 0⟩ : Ppages).colors = true := rfl
    simp [memFreePpagesClr_eq hall]
  | false => rfl

theorem Freeing.leaf (r : UnmapRange as rel at_ top f)
    (fr : Freeing clr as rel at_ top f used vaddr s) (h : PtEntry as.pt s.mem vaddr lvl pte)
    (hleaf : pteTable (s.mem pte) = false) (hal : vaddr % ptLvlsize as.pt lvl = 0)
    (hfits : vaddr + ptLvlsize as.pt lvl ≤ top) :
    ∃ used' s', freeLeaf clr rel pte (ptLvlsize as.pt lvl / pageSize) s = .ok s' ∧
      Freeing clr as rel at_ top f used' (vaddr + ptLvlsize as.pt lvl) (s'.write pte 0) ∧
      (s'.write pte 0).mem = Function.update s.mem pte 0 := by
  have hrv := fr.state.rv64
  have htree := fr.state.tree
  have hl := htree.lvl_lt h
  have hsize := hrv.lvlsize_eq hl
  have hpos : 0 < ptLvlsize as.pt lvl := hrv.lvlsize_pos hl
  have hlo := fr.lo
  have hmod := r.mod_eq hlo (show vaddr < top by omega)
  have hzero : pteTable 0 = false := by decide
  have htables : tableFrames as.pt (Function.update s.mem pte 0) ⊆ tableFrames as.pt s.mem := by
    rintro i ⟨va', lvl', q, hq, rfl⟩
    exact (PtTree.entry_of_write hzero hq).mem_tableFrames
  refine ⟨if rel then used \ frames (pteAddr (s.mem pte)) (lvlPages lvl) else used, _,
    freeLeaf_eq clr rel pte _ s, ⟨⟨hrv, htree.write hzero, ?_, ?_⟩, ?_, by omega, hfits, ?_,
    fun a => ?_, ?_⟩, rfl⟩
  · -- The pages of the leaf hold no tables.
    intro i hi
    have hin := fr.state.frames (htables hi)
    split
    · rename_i hrel
      refine ⟨hin, fun hpages => ?_⟩
      obtain ⟨a, p, hlo', hhi', hp, rfl⟩ := fr.leaf_frame r h hleaf hal hfits hpages
      exact (fr.pages hrel a p hlo' (by omega) hp).2 (htables hi)
    · exact hin
  · have hfresh := fr.state.fresh
    rw [hrv.lvlsize_div hl]
    cases rel with
    | true => exact hfresh.release _ _
    | false => exact hfresh
  · intro va' lvl' q hlo' hhi' hq hl' hqleaf hqv
    have hne : q ≠ pte := by
      rintro rfl
      rw [MemState.write_self] at hqv
      cases hqv
    rw [MemState.write_of_ne _ hne] at hqleaf hqv ⊢
    exact fr.aligned (by omega) hhi' (PtTree.entry_of_write hzero hq) hl' hqleaf hqv
  · rw [Nat.add_mod, fr.page, hsize, Nat.mul_mod_left, Nat.zero_add, Nat.zero_mod]
  · have hblock := blockOf_eq_iff hrv hl hal a
    by_cases hin : blockOf as.pt a lvl = blockOf as.pt vaddr lvl
    · obtain ⟨hlo', hhi'⟩ := hblock.mp hin
      refine (htree.translate_write_none h hzero hrv hin (by decide)).trans ?_
      rw [freedTo, if_pos (by omega)]
    · refine (htree.translate_write_of_ne h hrv hin).trans ?_
      rw [fr.trans, freedTo, freedTo]
      refine if_congr ?_ rfl rfl
      rw [hblock] at hin
      omega
  · intro hrel a p hlo' hhi' hp
    obtain ⟨hin, hout⟩ := fr.pages hrel a p (by omega) hhi' hp
    rw [if_pos hrel]
    refine ⟨⟨hin, fun hpages => ?_⟩, fun htab => hout (htables htab)⟩
    obtain ⟨a', p', hlo₁, hhi₁, hp', heq⟩ := fr.leaf_frame r h hleaf hal hfits hpages
    have hpage := r.inj hrel a a' p p' (by omega) hhi' (by omega) (by omega) hp hp' heq.symm
    have hvpage := fr.page
    simp only [pageSize] at *
    omega

/-- Below a table, the root table has no leaf for any address of the block of 1 GiB. -/
theorem PtEntry.not_rootLeaf {lvl pte : Nat} (hrv : pt.Rv64) (h : PtEntry pt mem va lvl pte)
    (hl : 0 < lvl) (hdiv : va / 2 ^ 30 = a / 2 ^ 30) : ¬ RootLeaf pt mem a := by
  intro hroot
  obtain ⟨q, hq, htable⟩ := h.above hl
  rw [← hrv.lvlsize (show 0 < 3 by decide)] at hdiv
  rw [RootLeaf, PtEntry.root.unique (hq.congr_va hrv (by decide)
    (blockOf_eq_of_div_eq hrv (by decide) hdiv)), htable] at hroot
  cases hroot

theorem rootLeaf_write_leaf (hleaf : pteTable (mem pte) = false) (a : Nat) :
    RootLeaf pt (Function.update mem pte 0) a ↔ RootLeaf pt mem a := by
  unfold RootLeaf
  by_cases heq : pt.rootPa + 8 * ptGetpteindexByVa pt a 0 = pte
  · rw [heq, Function.update_self, hleaf, show pteTable 0 = false by decide]
  · rw [Function.update_of_ne heq]

/-- Tables stay as they are when a leaf is cleared, and leaves of the root table too. -/
theorem boundaryOk_write_leaf (hleaf : pteTable (mem pte) = false) :
    BoundaryOk pt (Function.update mem pte 0) vaddr b ↔ BoundaryOk pt mem vaddr b := by
  have hroot : ∀ a, RootLeaf pt (Function.update mem pte 0) a ↔ RootLeaf pt mem a :=
    rootLeaf_write_leaf hleaf
  have hlast : ∀ a q, PtEntry pt (Function.update mem pte 0) a 2 q ↔ PtEntry pt mem a 2 q :=
    fun a q => ⟨PtTree.entry_of_write (by decide), PtTree.entry_write_of_leaf hleaf⟩
  constructor <;> rintro ⟨h₁, h₂⟩
  · simp only [hroot, hlast] at h₁ h₂
    exact ⟨h₁, h₂⟩
  · refine ⟨?_, ?_⟩ <;> simp only [hroot, hlast]
    · exact h₁
    · exact h₂

section Leaf

variable (hrv : as.pt.Rv64) (hl : lvl < 3) (h : PtEntry as.pt s.mem vaddr lvl pte)
  (hleaf : pteTable (s.mem pte) = false) (hal : vaddr % ptLvlsize as.pt lvl = 0)
include hrv hl h hal

variable {b : Nat}

omit h in
theorem block_end (hb : b % 2 ^ 30 = 0) (hlt : vaddr < b) : vaddr + ptLvlsize as.pt lvl ≤ b := by
  rw [hrv.lvlsize hl] at hal ⊢
  interval_cases lvl <;> omega

omit hl in
include hleaf in
/-- The end of a block of 1 GiB that is also the end of a leaf. -/
theorem boundaryOk_leaf (hend : (vaddr + ptLvlsize as.pt lvl) % 2 ^ 30 = 0) (hl : lvl < 3) :
    BoundaryOk as.pt s.mem vaddr (vaddr + ptLvlsize as.pt lvl) ↔
      ¬ (lvl = 2 ∧ RootLeaf as.pt s.mem (vaddr + ptLvlsize as.pt lvl)) ∧
        ¬ (lvl = 0 ∧ CountsAnew as.pt (vaddr + ptLvlsize as.pt lvl)) := by
  have hpos := hrv.lvlsize_pos hl
  have hsame : PtEntry as.pt s.mem (vaddr + ptLvlsize as.pt lvl - 1) lvl pte :=
    h.of_block hrv hl hal (by omega) (by omega)
  have hno : lvl < 2 → ∀ q, ¬ PtEntry as.pt s.mem (vaddr + ptLvlsize as.pt lvl - 1) 2 q := by
    intro hlvl q hq
    obtain ⟨q', hq', htable⟩ := hq.above hlvl
    rw [← hsame.unique hq', hleaf] at htable
    cases htable
  constructor
  · rintro ⟨h₁, h₂⟩
    refine ⟨?_, ?_⟩
    · rintro ⟨rfl, hroot⟩
      have := (h₁ hroot).1
      rw [hrv.lvlsize (by decide)] at this
      omega
    · rintro ⟨rfl, hanew⟩
      refine h₂ hanew (by rw [hrv.lvlsize (by decide)]) ?_
      rw [RootLeaf, PtEntry.root.unique hsame, hleaf]
  · rintro ⟨h₁, h₂⟩
    refine ⟨fun hroot => ?_, fun hanew hfar => ?_⟩
    · have hlvl : lvl < 2 := by
        by_contra hlvl
        exact h₁ ⟨by omega, hroot⟩
      refine ⟨?_, hno hlvl⟩
      rw [hrv.lvlsize hl]
      interval_cases lvl <;> omega
    · have hlvl : lvl = 0 := by
        by_contra hlvl
        rw [hrv.lvlsize hl] at hfar
        interval_cases lvl <;> omega
      exact absurd ⟨hlvl, hanew⟩ h₂

/-- The end of a block of 1 GiB that lies behind a leaf. -/
theorem boundaryOk_behind (hb : b % 2 ^ 30 = 0) (hlt : vaddr + ptLvlsize as.pt lvl < b) :
    BoundaryOk as.pt s.mem (vaddr + ptLvlsize as.pt lvl) b ↔ BoundaryOk as.pt s.mem vaddr b := by
  -- A leaf below the root has tables above it, for all of its block of 1 GiB.
  have htable : 0 < lvl → vaddr + 2 ^ 30 = b → ¬ RootLeaf as.pt s.mem (b - 1) := by
    intro hlvl heq
    exact h.not_rootLeaf hrv hlvl (by omega)
  have hnear : b < vaddr + ptLvlsize as.pt lvl + 2 ^ 21 → vaddr + 2 ^ 21 ≤ b →
      ∃ q, PtEntry as.pt s.mem (b - 1) 2 q := by
    intro hnear hfar
    have hlvl : lvl = 2 := by
      by_contra hlvl
      rw [hrv.lvlsize hl] at hal hlt hnear
      interval_cases lvl <;> omega
    subst hlvl
    obtain ⟨q, hq, htable, -⟩ := h.up
    have hdiv : vaddr / ptLvlsize as.pt 1 = (b - 1) / ptLvlsize as.pt 1 := by
      rw [hrv.lvlsize (by decide)] at hnear hal
      rw [hrv.lvlsize (by decide)]
      omega
    exact ⟨_, (hq.congr_va hrv (by decide) (blockOf_eq_of_div_eq hrv (by decide) hdiv)).next htable⟩
  constructor <;> rintro ⟨h₁, h₂⟩
  · refine ⟨fun hroot => ?_, fun hanew hfar => ?_⟩
    · obtain ⟨hfar, hno⟩ := h₁ hroot
      exact ⟨by omega, hno⟩
    · by_cases hfar' : vaddr + ptLvlsize as.pt lvl + 2 ^ 30 ≤ b
      · exact h₂ hanew hfar'
      · rw [hrv.lvlsize hl] at hal hlt hfar'
        refine htable ?_ ?_ <;> interval_cases lvl <;> omega
  · refine ⟨fun hroot => ?_, fun hanew hfar => h₂ hanew (by omega)⟩
    obtain ⟨hfar, hno⟩ := h₁ hroot
    refine ⟨?_, hno⟩
    by_contra hlt'
    obtain ⟨q, hq⟩ := hnear (by omega) hfar
    exact hno q hq

include hleaf in
/-- What a leaf in the range has to do with the ends of blocks of 1 GiB: the walk gets over the one
behind the leaf unless it comes from a page there and a leaf of the root table follows, or from a
leaf of the root table and the entries are counted anew. -/
theorem freeOk_leaf : FreeOk as.pt s.mem vaddr top ↔
    ((vaddr + ptLvlsize as.pt lvl) % 2 ^ 30 = 0 → vaddr + ptLvlsize as.pt lvl < top →
      ¬ (lvl = 2 ∧ RootLeaf as.pt s.mem (vaddr + ptLvlsize as.pt lvl)) ∧
        ¬ (lvl = 0 ∧ CountsAnew as.pt (vaddr + ptLvlsize as.pt lvl))) ∧
    FreeOk as.pt (Function.update s.mem pte 0) (vaddr + ptLvlsize as.pt lvl) top := by
  have hpos := hrv.lvlsize_pos hl
  constructor
  · intro hok
    refine ⟨fun hend hlt => (boundaryOk_leaf hrv h hleaf hal hend hl).mp
      (hok _ hend (by omega) hlt), fun b hb hlo hhi => ?_⟩
    rw [boundaryOk_write_leaf hleaf, boundaryOk_behind hrv hl h hal hb hlo]
    exact hok b hb (by omega) hhi
  · rintro ⟨hend, hrest⟩ b hb hlo hhi
    rcases Nat.eq_or_lt_of_le (block_end hrv hl hal hb hlo) with rfl | hlt
    · exact (boundaryOk_leaf hrv h hleaf hal hb hl).mpr (hend hb hhi)
    · have := hrest b hb hlt hhi
      rwa [boundaryOk_write_leaf hleaf, boundaryOk_behind hrv hl h hal hb hlt] at this

end Leaf

/-! ## The walk -/

theorem counted_root (hrv : pt.Rv64) (i : Nat) :
    ptGetpteindex pt (pt.rootPa + 8 * i) 0 = (pt.root / 8 + i) % ptNentries pt 0 := by
  rw [hrv.getpteindex_root, ptSize, Nat.mod_mul_left_div_self, Nat.add_mul_div_left _ _ (by decide)]

section

variable (r : UnmapRange as rel at_ top f) (fr : Freeing clr as rel at_ top f used vaddr s)

include r fr

theorem Freeing.index_lt (hlt : vaddr + ptLvlsize as.pt 0 < top) :
    ptGetpteindexByVa as.pt vaddr 0 + 1 < ptNentries as.pt 0 := by
  have hmod := r.mod_eq fr.lo (show vaddr < top by omega)
  have hwindow := r.window
  have hlo := fr.lo
  exact index_lt_of_room fr.state.rv64 (by omega)

section

variable (h : PtEntry as.pt s.mem vaddr lvl pte) (hal : vaddr % ptLvlsize as.pt lvl = 0)
  (hlt : vaddr + ptLvlsize as.pt lvl < top)

include h hal hlt

/-- The entry behind a leaf, as long as the walk has entries of the table to go. -/
theorem Freeing.next_entry (hcount : ptGetpteindex as.pt pte lvl + 1 < ptNentries as.pt lvl) :
    PtEntry as.pt s.mem (vaddr + ptLvlsize as.pt lvl) lvl (pte + 8) ∧
      ptGetpteindex as.pt (pte + 8) lvl = ptGetpteindex as.pt pte lvl + 1 := by
  have hrv := fr.state.rv64
  have hl := fr.state.tree.lvl_lt h
  cases lvl with
  | zero =>
    obtain rfl := PtEntry.root.unique h
    have hin := fr.index_lt r hlt
    refine ⟨h.next_block hrv hl hin, ?_⟩
    rw [Nat.add_assoc, ← Nat.mul_add_one, counted_root hrv, counted_root hrv] at *
    rw [← Nat.add_assoc, Nat.add_mod, Nat.mod_eq_of_lt (show 1 < ptNentries as.pt 0 by omega),
      Nat.mod_eq_of_lt hcount]
  | succ l =>
    rw [h.getpteindex hrv hl] at hcount ⊢
    have hnext := h.next_block hrv hl hcount
    exact ⟨hnext, by rw [hnext.getpteindex hrv hl, hrv.index_next hl hcount]⟩

/-- Behind the last entry that the walk counts in a table: the next address has an entry one level
up, or the walk has not got over the end of a block of 1 GiB. -/
theorem Freeing.next_up (hcount : ptGetpteindex as.pt pte lvl + 1 = ptNentries as.pt lvl) :
    (∃ l q, lvl = l + 1 ∧ PtEntry as.pt s.mem (vaddr + ptLvlsize as.pt lvl) l q) ∨
      (vaddr + ptLvlsize as.pt lvl) % 2 ^ 30 = 0 ∧
        (lvl = 2 ∧ RootLeaf as.pt s.mem (vaddr + ptLvlsize as.pt lvl) ∨
          lvl = 0 ∧ CountsAnew as.pt (vaddr + ptLvlsize as.pt lvl)) := by
  have hrv := fr.state.rv64
  have hl := fr.state.tree.lvl_lt h
  obtain _ | _ | l := lvl
  · refine .inr ⟨?_, .inr ⟨rfl, ?_⟩⟩
    · rw [hrv.lvlsize (by decide)] at hal ⊢
      omega
    obtain rfl := PtEntry.root.unique h
    have hin := fr.index_lt r hlt
    rw [CountsAnew, hrv.index_next hl hin]
    rw [counted_root hrv] at hcount ⊢
    rw [← Nat.add_assoc, Nat.add_mod, Nat.mod_eq_of_lt (show 1 < ptNentries as.pt 0 by omega),
      hcount, Nat.mod_self]
  · exact .inl ⟨0, _, rfl, .root⟩
  · obtain rfl : l = 0 := by omega
    by_cases hroot : RootLeaf as.pt s.mem (vaddr + ptLvlsize as.pt 2)
    swap
    · rw [RootLeaf, Bool.not_eq_false] at hroot
      exact .inl ⟨1, _, rfl, .next .root hroot⟩
    refine .inr ⟨?_, .inl ⟨rfl, hroot⟩⟩
    by_contra hb
    refine h.not_rootLeaf hrv (by decide) ?_ hroot
    rw [hrv.lvlsize (by decide)] at hal hb ⊢
    omega

/-- Where the walk goes astray it has come to the last entry that it counts. -/
theorem Freeing.last_of_bad (hb : (vaddr + ptLvlsize as.pt lvl) % 2 ^ 30 = 0)
    (hbad : lvl = 2 ∧ RootLeaf as.pt s.mem (vaddr + ptLvlsize as.pt lvl) ∨
      lvl = 0 ∧ CountsAnew as.pt (vaddr + ptLvlsize as.pt lvl)) {left : Nat}
    (hcount : ptGetpteindex as.pt pte lvl + (left + 1) = ptNentries as.pt lvl) : left = 0 := by
  have hrv := fr.state.rv64
  by_contra hleft
  obtain ⟨hq, hnext⟩ := fr.next_entry r h hal hlt (by omega)
  obtain ⟨rfl, -⟩ | ⟨rfl, hanew⟩ := hbad
  · rw [hq.getpteindex hrv (by decide), hrv.index (by decide)] at hnext
    rw [hrv.lvlsize (by decide)] at hb hnext
    rw [hrv.nentries (by decide) (by decide)] at hnext
    omega
  · rw [CountsAnew, PtEntry.root.unique hq] at hanew
    omega

end

end

theorem PtEntry.counted_lt {lvl pte : Nat} (hrv : pt.Rv64) (hl : lvl < 3)
    (h : PtEntry pt mem va lvl pte) : ptGetpteindex pt pte lvl < ptNentries pt lvl := by
  cases lvl with
  | zero =>
    obtain rfl := PtEntry.root.unique h
    rw [counted_root hrv]
    exact Nat.mod_lt _ (by have := hrv.index_lt hl va; omega)
  | succ l =>
    rw [h.getpteindex hrv hl]
    exact hrv.index_lt hl va

/-- What is left to do: the pages to go, and the levels to go down. -/
def freeMeasure (top vaddr lvl : Nat) : Nat := 4 * ((top - vaddr) / pageSize) + (3 - lvl)

theorem freeMeasure_add_le (hrv : pt.Rv64) {top vaddr lvl : Nat} (hl : lvl < 3)
    (hfits : vaddr + ptLvlsize pt lvl ≤ top) :
    freeMeasure top (vaddr + ptLvlsize pt lvl) lvl + 4 ≤ freeMeasure top vaddr lvl := by
  have hsize := hrv.lvlsize_eq hl
  have hpages := lvlPages_pos lvl
  have hdiv : (top - vaddr) / pageSize =
      (top - (vaddr + ptLvlsize pt lvl)) / pageSize + lvlPages lvl := by
    rw [← Nat.add_mul_div_right _ _ (show 0 < pageSize by decide), ← hsize]
    congr 1
    omega
  unfold freeMeasure
  omega

/-- The walk is at an address that a leaf of the root table maps, on the level below. -/
structure Strayed (pt : PageTable) (mem : PhysMem) (at_ top vaddr : Nat) : Prop where
  lo : at_ ≤ vaddr
  hi : vaddr < top
  leaf : RootLeaf pt mem vaddr
  valid : pteValid (mem (pt.rootPa + 8 * ptGetpteindexByVa pt vaddr 0)) = true

/-- The walk of `mem_free_vpage` goes astray after some rounds: it leaves the root table for level
-1 with pages to go, or it goes on below a leaf of the root table as if that led to a table. -/
def FreeAstray (clr : Colors) (as : AddrSpace) (rel : Bool) (at_ top vaddr lvl : Nat)
    (s : MemState) : Prop :=
  ∃ k, (∀ rounds, freeLoop clr as top rel (k + rounds) vaddr lvl s = .error .level) ∨
    ∃ vaddr' s', (∀ rounds, freeLoop clr as top rel (k + rounds) vaddr lvl s =
      freeLoop clr as top rel rounds vaddr' 1 s') ∧ Strayed as.pt s'.mem at_ top vaddr'

theorem FreeAstray.of_step (hstep : ∀ rounds, freeLoop clr as top rel (rounds + 1) vaddr lvl s =
      freeLoop clr as top rel rounds vaddr' lvl' s')
    (h : FreeAstray clr as rel at_ top vaddr' lvl' s') :
    FreeAstray clr as rel at_ top vaddr lvl s := by
  have hshift : ∀ k rounds, freeLoop clr as top rel (k + 1 + rounds) vaddr lvl s =
      freeLoop clr as top rel (k + rounds) vaddr' lvl' s' := by
    intro k rounds
    rw [Nat.add_right_comm, hstep]
  obtain ⟨k, h⟩ := h
  refine ⟨k + 1, ?_⟩
  simpa only [hshift] using h

/-- What the inner loop of `mem_free_vpage` returns on the way. `ok` says whether the walk has got
over all ends of blocks in the beginning. -/
structure FreedTable (clr : Colors) (as : AddrSpace) (rel : Bool) (at_ top : Nat)
    (f : Nat → Option Nat) (ok : Prop) (vaddr lvl : Nat) (s : MemState) : Prop where
  freeing : ∃ used, Freeing clr as rel at_ top f used vaddr s
  lvl_lt : lvl < 3
  ok_iff : FreeOk as.pt s.mem vaddr top ↔ ok
  entry : vaddr < top → ∃ q, PtEntry as.pt s.mem vaddr lvl q

/-- Where the inner loop is, with `left` entries to go: at an entry of the table, or behind the last
one, where the table above goes on. -/
structure TableAt (as : AddrSpace) (top lvl left pte vaddr : Nat) (s : MemState) : Prop where
  entry : 0 < left → vaddr < top → PtEntry as.pt s.mem vaddr lvl pte ∧
    ptGetpteindex as.pt pte lvl + left = ptNentries as.pt lvl
  behind : left = 0 → vaddr < top → ∃ l q, lvl = l + 1 ∧ PtEntry as.pt s.mem vaddr l q

/-- How the inner loop ends: without a page for a table, astray, or with less than `m` to do. -/
inductive TableEnd (clr : Colors) (as : AddrSpace) (rel : Bool) (at_ top : Nat)
    (f : Nat → Option Nat) (ok : Prop) (m : Nat) (x : Except MemError (Nat × Nat × MemState)) : Prop
  | noTable (error : x = .error .noTable)
  | level (wrong : ¬ ok) (error : x = .error .level)
  | strayed {vaddr : Nat} {s : MemState} (wrong : ¬ ok) (run : x = .ok (vaddr, 1, s))
      (strayed : Strayed as.pt s.mem at_ top vaddr)
  | done {vaddr lvl : Nat} {s : MemState} (run : x = .ok (vaddr, lvl, s))
      (freed : FreedTable clr as rel at_ top f ok vaddr lvl s) (lt : freeMeasure top vaddr lvl < m)

theorem TableEnd.mono {m m' : Nat} {x : Except MemError (Nat × Nat × MemState)}
    (h : TableEnd clr as rel at_ top f ok m x) (hle : m ≤ m') :
    TableEnd clr as rel at_ top f ok m' x := by
  cases h with
  | noTable error => exact .noTable error
  | level wrong error => exact .level wrong error
  | strayed wrong run strayed => exact .strayed wrong run strayed
  | done run freed lt => exact .done run freed (lt.trans_le hle)

section

variable (r : UnmapRange as rel at_ top f) (fr : Freeing clr as rel at_ top f used vaddr s)
  (hok : FreeOk as.pt s.mem vaddr top ↔ ok)

include r fr hok

section

variable (h : PtEntry as.pt s.mem vaddr lvl pte) (hleaf : pteTable (s.mem pte) = false)
  (hlt : vaddr < top)

include h hleaf hlt

/-- A leaf that is partly in the range is split. -/
theorem Freeing.splitLeaf
    (hpart : 0 < vaddr % ptLvlsize as.pt lvl ∨ top < vaddr + ptLvlsize as.pt lvl) :
    TableEnd clr as rel at_ top f ok (freeMeasure top vaddr lvl)
      ((memExpandPte clr as vaddr lvl s).map fun s => (vaddr, lvl + 1, s)) := by
  obtain herr | ⟨used', s', base, hex, hl, fr', ex⟩ := fr.expand r h hleaf hpart hlt
  · exact .noTable (by rw [herr]; rfl)
  · refine .done (by rw [hex]; rfl) ⟨⟨used', fr'⟩, hl,
      (fr.freeOk_expand r h hl hpart hlt ex).trans hok,
      fun _ => ⟨_, (ex.split.entry h).next ex.split.table⟩⟩ ?_
    unfold freeMeasure
    omega

/-- The inner loop from a leaf on: it splits the leaf, or clears it and goes on behind it, unless it
goes astray there. -/
theorem Freeing.tableLeaf {left : Nat}
    (hindex : ptGetpteindex as.pt pte lvl + (left + 1) = ptNentries as.pt lvl)
    (ih : ∀ {pte' vaddr' used' s'}, Freeing clr as rel at_ top f used' vaddr' s' →
      (FreeOk as.pt s'.mem vaddr' top ↔ ok) → TableAt as top lvl left pte' vaddr' s' →
      TableEnd clr as rel at_ top f ok (freeMeasure top vaddr' lvl + 2)
        (freeTable clr as top rel lvl left pte' vaddr' s')) :
    TableEnd clr as rel at_ top f ok (freeMeasure top vaddr lvl)
      (freeTable clr as top rel lvl (left + 1) pte vaddr s) := by
  have hrv := fr.state.rv64
  have hl := fr.state.tree.lvl_lt h
  have hbelow := r.below
  have hgib := hrv.lvlsize_le hl
  have hmodle := Nat.mod_le vaddr (ptLvlsize as.pt lvl)
  simp only [freeTable]
  rw [if_pos hlt, if_pos (by simp [hleaf]), u64_of_lt (show vaddr - vaddr % ptLvlsize as.pt lvl +
    ptLvlsize as.pt lvl < 2 ^ 64 by omega)]
  by_cases hpart : vaddr > vaddr - vaddr % ptLvlsize as.pt lvl ∨
      top < vaddr - vaddr % ptLvlsize as.pt lvl + ptLvlsize as.pt lvl
  · rw [if_pos hpart]
    exact fr.splitLeaf r hok h hleaf hlt (by omega)
  rw [if_neg hpart]
  have hal : vaddr % ptLvlsize as.pt lvl = 0 := by omega
  have hfits : vaddr + ptLvlsize as.pt lvl ≤ top := by omega
  obtain ⟨used₁, s₁, hfree, fr₁, hmem⟩ := fr.leaf r h hleaf hal hfits
  have hmeasure := freeMeasure_add_le hrv hl hfits
  have hkeep : ∀ {a j q}, PtEntry as.pt s.mem a j q → PtEntry as.pt (s₁.write pte 0).mem a j q :=
    fun hq => hmem ▸ PtTree.entry_write_of_leaf hleaf hq
  have hleafok := hok.symm.trans (freeOk_leaf hrv hl h hleaf hal)
  rw [← hmem] at hleafok
  simp only [hfree, u64_of_lt (show vaddr + ptLvlsize as.pt lvl < 2 ^ 64 by omega)]
  by_cases hbad : (vaddr + ptLvlsize as.pt lvl) % 2 ^ 30 = 0 ∧ vaddr + ptLvlsize as.pt lvl < top ∧
      (lvl = 2 ∧ RootLeaf as.pt s.mem (vaddr + ptLvlsize as.pt lvl) ∨
        lvl = 0 ∧ CountsAnew as.pt (vaddr + ptLvlsize as.pt lvl))
  · obtain ⟨hb, hlt', hbad⟩ := hbad
    have hnot : ¬ ok := fun h => not_or.mpr ((hleafok.mp h).1 hb hlt') hbad
    obtain rfl : left = 0 := fr.last_of_bad r h hal hlt' hb hbad hindex
    obtain ⟨rfl, hroot⟩ | ⟨rfl, -⟩ := hbad
    · have hroot' := (rootLeaf_write_leaf hleaf _).mpr hroot
      rw [← hmem] at hroot'
      exact .strayed hnot (by rw [freeTable, if_neg (by omega)])
        ⟨fr₁.lo, hlt', hroot', fr₁.valid r le_rfl hlt' .root hroot'⟩
    · exact .level hnot (by rw [freeTable, if_pos ⟨rfl, hlt'⟩])
  · refine (ih fr₁ ?_ ⟨fun hmore hlt' => ?_, fun hlast hlt' => ?_⟩).mono (by omega)
    · rw [hleafok]
      exact (and_iff_right fun hb hlt' => not_or.mp fun h' => hbad ⟨hb, hlt', h'⟩).symm
    · obtain ⟨hq, hcount⟩ := fr.next_entry r h hal hlt' (by omega)
      exact ⟨hkeep hq, by omega⟩
    · obtain ⟨l, q, hl', hq⟩ | ⟨hb, h'⟩ := fr.next_up r h hal hlt' (by omega)
      · exact ⟨l, q, hl', hkeep hq⟩
      · exact absurd ⟨hb, hlt', h'⟩ hbad

end

/-- The inner loop clears leaves to the end of the table or of the range, to a table entry or to a
leaf that it splits. -/
theorem Freeing.freeTable {left : Nat} (hl : lvl < 3) (hat : TableAt as top lvl left pte vaddr s) :
    TableEnd clr as rel at_ top f ok (freeMeasure top vaddr lvl + 2)
      (freeTable clr as top rel lvl left pte vaddr s) := by
  induction left generalizing vaddr pte s used with
  | zero =>
    have hlevel : ¬ (lvl = 0 ∧ vaddr < top) := by
      rintro ⟨rfl, hlt⟩
      obtain ⟨l, q, hl, -⟩ := hat.behind rfl hlt
      omega
    refine .done (by rw [Bao.freeTable, if_neg hlevel])
      ⟨⟨used, fr⟩, by omega, hok, fun hlt => ?_⟩ ?_
    · obtain ⟨l, q, rfl, hq⟩ := hat.behind rfl hlt
      exact ⟨q, hq⟩
    · unfold freeMeasure
      omega
  | succ left ih =>
    by_cases hlt : vaddr < top
    swap
    · exact .done (by rw [Bao.freeTable, if_neg hlt])
        ⟨⟨used, fr⟩, hl, hok, fun h => absurd h hlt⟩ (by omega)
    obtain ⟨h, hindex⟩ := hat.entry (by omega) hlt
    by_cases hleaf : pteTable (s.mem pte) = false
    · exact (fr.tableLeaf r hok h hleaf hlt hindex ih).mono (by omega)
    · exact .done (by rw [Bao.freeTable, if_pos hlt, if_neg (by simpa using hleaf)])
        ⟨⟨used, fr⟩, hl, hok, fun _ => ⟨pte, h⟩⟩ (by omega)

end

/-- How the outer loop ends: without a page for a table, astray, or with the range clear. -/
def LoopEnd (clr : Colors) (as : AddrSpace) (rel : Bool) (at_ top : Nat) (f : Nat → Option Nat)
    (ok : Prop) (rounds vaddr lvl : Nat) (s : MemState) : Prop :=
  freeLoop clr as top rel rounds vaddr lvl s = .error .noTable ∨
    ¬ ok ∧ FreeAstray clr as rel at_ top vaddr lvl s ∨
    ok ∧ ∃ s', freeLoop clr as top rel rounds vaddr lvl s = .ok s' ∧
      ∀ a, memTranslate as.pt s'.mem a = freedTo as.pt at_ (top - at_) f a

theorem LoopEnd.of_step (hstep : ∀ n, freeLoop clr as top rel (n + 1) vaddr lvl s =
      freeLoop clr as top rel n vaddr' lvl' s')
    (h : LoopEnd clr as rel at_ top f ok rounds vaddr' lvl' s') :
    LoopEnd clr as rel at_ top f ok (rounds + 1) vaddr lvl s := by
  obtain herr | ⟨hnot, hastray⟩ | hdone := h
  · exact .inl (by rw [hstep, herr])
  · exact .inr (.inl ⟨hnot, hastray.of_step hstep⟩)
  · exact .inr (.inr (by rwa [hstep]))

theorem FreedTable.freeLoop (r : UnmapRange as rel at_ top f)
    (fd : FreedTable clr as rel at_ top f ok vaddr lvl s)
    (hrounds : freeMeasure top vaddr lvl < rounds) :
    LoopEnd clr as rel at_ top f ok rounds vaddr lvl s := by
  induction rounds generalizing vaddr lvl s with
  | zero => omega
  | succ rounds ih =>
    obtain ⟨⟨used, fr⟩, hl, hok, hentry⟩ := fd
    by_cases hlt : vaddr < top
    swap
    · obtain rfl : vaddr = top := Nat.le_antisymm fr.hi (by omega)
      exact .inr (.inr ⟨hok.mp fun b _ hlo hhi => by omega, s,
        by rw [Bao.freeLoop, if_neg hlt], fr.trans⟩)
    obtain ⟨pte, h⟩ := hentry hlt
    have hrv := fr.state.rv64
    by_cases hleaf : pteTable (s.mem pte) = false
    swap
    · rw [Bool.not_eq_false] at hleaf
      have hentry' := h.next hleaf
      refine .of_step (fun n => ?_) (ih ⟨⟨used, fr⟩, fr.state.tree.lvl_lt hentry', hok,
        fun _ => ⟨_, hentry'⟩⟩ (by unfold freeMeasure at *; omega))
      simp only [Bao.freeLoop, if_pos hlt, hrv.lvls, if_neg (show ¬ 3 ≤ lvl by omega), h.getPte]
      rw [if_neg (by simp [pteTable_valid hleaf]), if_pos hleaf]
    have hround : ∀ n, (∀ e, Bao.freeTable clr as top rel lvl
          (ptNentries as.pt lvl - ptGetpteindex as.pt pte lvl) pte vaddr s = .error e →
        Bao.freeLoop clr as top rel (n + 1) vaddr lvl s = .error e) ∧
        ∀ vaddr' lvl' s', Bao.freeTable clr as top rel lvl
          (ptNentries as.pt lvl - ptGetpteindex as.pt pte lvl) pte vaddr s =
            .ok (vaddr', lvl', s') →
        Bao.freeLoop clr as top rel (n + 1) vaddr lvl s =
          Bao.freeLoop clr as top rel n vaddr' lvl' s' := by
      intro n
      simp only [Bao.freeLoop, if_pos hlt, hrv.lvls, if_neg (show ¬ 3 ≤ lvl by omega), h.getPte]
      rw [if_neg (by simp [fr.valid r le_rfl hlt h hleaf]), if_neg (by simp [hleaf])]
      exact ⟨fun e he => by rw [he], fun vaddr' lvl' s' he => by rw [he]⟩
    obtain ⟨left, hleft⟩ := Nat.exists_eq_add_of_lt (h.counted_lt hrv hl)
    rw [show ptNentries as.pt lvl - ptGetpteindex as.pt pte lvl = left + 1 by omega] at hround
    cases fr.tableLeaf r hok h hleaf hlt hleft.symm
      fun fr' hok' hat => fr'.freeTable r hok' hl hat with
    | noTable error => exact .inl ((hround rounds).1 _ error)
    | level wrong error =>
      exact .inr (.inl ⟨wrong, 1, .inl fun n => by rw [Nat.add_comm, (hround n).1 _ error]⟩)
    | strayed wrong run strayed =>
      exact .inr (.inl ⟨wrong, 1, .inr ⟨_, _,
        fun n => by rw [Nat.add_comm, (hround n).2 _ _ _ run], strayed⟩⟩)
    | done run freed lt => exact .of_step (fun n => (hround n).2 _ _ _ run) (ih freed (by omega))

end Steps

/-- The `n` pages from `at_` on are unmapped from `s` to `s'`, and the translation of every other
address, taken modulo the range of the root table, stays. -/
structure PagesFreed (pt : PageTable) (at_ n : Nat) (s s' : MemState) : Prop where
  range : ∀ a, at_ ≤ a → a < at_ + n * pageSize → memTranslate pt s'.mem a = none
  others : ∀ a, (∀ k < n * pageSize, a % ptSpan pt ≠ (at_ + k) % ptSpan pt) →
    memTranslate pt s'.mem a = memTranslate pt s.mem a

theorem superState_as (addr : Nat) :
    AsState {} emptyGuest false (tableFrames emptyGuest.pt (superState addr).mem)
      (superState addr) where
  rv64 := .inr rfl
  tree := superState_tree addr
  frames := subset_rfl
  fresh := .of_pools clearState_framesWf (by decide) rfl (by decide) (by
      intro g hg k hk _
      obtain rfl := List.mem_singleton.mp hg
      rintro ⟨va, lvl, pte, hentry, hpage⟩
      have hindex : ptGetpteindexByVa emptyGuest.pt va 0 < 2048 :=
        PageTable.Rv64.index_lt (.inr rfl) (by decide) va
      rw [(hentry.eq_root (.inr rfl) (superState_root addr)).2] at hpage
      simp only [emptyGuest, PoolGeom.frame, pageSize] at hindex hpage
      omega)

end Bao
