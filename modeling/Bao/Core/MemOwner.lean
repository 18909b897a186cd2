import Mathlib.Order.Interval.Set.Defs
import Bao.Foundation.Ownership
import Bao.Core.Mem
import Bao.Riscv.PtTree

/-!
# Who owns a page

Every page that is marked in a pool for some purpose has an owner here: the hypervisor, a guest, or
a stage-2 table of a guest at some level. The invariant `OwnerInv` says that owned pages are marked,
and that the entries of a guest's tables lead only to tables of that guest one level down and to
pages of that guest. Allocation gives away pages that nobody owns, so it extends the ownership map,
and each operation on an address space keeps the invariant for an extension of the map.

What goes wrong with superpages is an alignment fact about `pp_alloc`, kept apart in
`Grant.natural`.
-/

namespace Bao

open Foundation

/-- The owner of a page; `reserved` is for shared memory and what else is only set aside. -/
inductive Owner where
  | hyp
  | reserved
  | guest (vm : Nat)
  | table (vm lvl : Nat)

/-- The owner of each page, which is named by its address divided by the page size. -/
abbrev PageOwners := Owners Nat Owner

/-- The pages of a range of addresses. -/
def frames (base n : Nat) : Set Nat := Set.Ico (base / pageSize) (base / pageSize + n)

def PoolGeom.frame (g : PoolGeom) (k : Nat) : Nat := g.base / pageSize + k

/-- Pools that begin at a page boundary and lie in the memory that an entry can address. -/
structure FramesWf (G : List PoolGeom) : Prop extends PoolsWf G where
  aligned : ∀ g ∈ G, g.base % pageSize = 0
  top : ∀ g ∈ G, g.stop ≤ 2 ^ 56

/-- Whatever is owned is a page of a pool and marked there. -/
def Marked (G : List PoolGeom) (own : PageOwners) (bits : Bitmap) : Prop :=
  ∀ f o, own f = some o → ∃ g ∈ G, ∃ k < g.size, f = g.frame k ∧ bits (g.bit k) = true

section Marked

variable {G : List PoolGeom} {own : PageOwners} {bits : Bitmap} {g h : PoolGeom} {k l n : Nat}

theorem FramesWf.page_eq (wf : FramesWf G) (hg : g ∈ G) : g.page k = g.frame k * pageSize := by
  have := wf.aligned g hg
  simp only [PoolGeom.page, PoolGeom.frame, pageSize] at *
  omega

theorem FramesWf.frame_inj (wf : FramesWf G) (hg : g ∈ G) (hh : h ∈ G) (hk : k < g.size)
    (hl : l < h.size) (heq : g.frame k = h.frame l) : g = h ∧ k = l :=
  wf.page_inj hg hh hk hl (by rw [wf.page_eq hg, wf.page_eq hh, heq])

theorem Marked.none_of_free (wf : FramesWf G) (hm : Marked G own bits) (hg : g ∈ G)
    (hk : k < g.size) (hfree : bits (g.bit k) = false) : own (g.frame k) = none := by
  cases ho : own (g.frame k) with
  | none => rfl
  | some o =>
    obtain ⟨g', hg', k', hk', heq, hbit⟩ := hm _ _ ho
    obtain ⟨rfl, rfl⟩ := wf.frame_inj hg hg' hk hk' heq
    rw [hfree] at hbit
    cases hbit

theorem Marked.give (hm : Marked G own bits) (hg : g ∈ G) (hin : k + n ≤ g.size)
    (o : Nat → Owner) :
    Marked G (own.give (Set.Ico (g.frame k) (g.frame k + n)) o)
      (bitmapSetConsecutive bits (g.bit k) n) := by
  intro f a hf
  by_cases hS : f ∈ Set.Ico (g.frame k) (g.frame k + n)
  · simp only [Set.mem_Ico, PoolGeom.frame] at hS
    refine ⟨g, hg, f - g.base / pageSize, by omega, by simp only [PoolGeom.frame]; omega, ?_⟩
    rw [bitmapSetConsecutive_apply, if_pos (by simp only [PoolGeom.bit]; omega)]
  · rw [Owners.give_of_notMem hS] at hf
    obtain ⟨g', hg', k', hk', heq, hbit⟩ := hm _ _ hf
    refine ⟨g', hg', k', hk', heq, ?_⟩
    rw [bitmapSetConsecutive_apply, hbit, ite_self]

end Marked

/-! ## Allocation -/

/-- What an allocation of `n` pages gives: pages without an owner, that may get any. When each pool
that is large enough begins at a multiple of half the request, an aligned result is one. -/
structure Grant (G : List PoolGeom) (own : PageOwners) (bits : Bitmap) (n : Nat) (aligned : Bool)
    (pages : Ppages) : Prop where
  size : pages.size = n
  pos : 0 < n
  page : pages.base % pageSize = 0
  top : pages.base + n * pageSize ≤ 2 ^ 56
  fresh : ∀ f ∈ frames pages.base n, own f = none
  marked : ∀ o, Marked G (own.give (frames pages.base n) o) bits
  natural : aligned = true → (∀ g ∈ G, n ≤ g.size → n ∣ 2 * (g.base / pageSize)) →
    n ∣ pages.base / pageSize

theorem Taken.grant {G : List PoolGeom} {own : PageOwners} {bits bits' : Bitmap} {n k : Nat}
    {aligned : Bool} {pages : Ppages} {g : PoolGeom} (wf : FramesWf G) (hm : Marked G own bits)
    (taken : Taken G bits n aligned pages bits' g k) : Grant G own bits' n aligned pages := by
  have hg := taken.mem
  have hin := taken.inside
  have hbase : pages.base = g.frame k * pageSize := taken.base.trans (wf.page_eq hg)
  have hdiv : pages.base / pageSize = g.frame k := by
    rw [hbase]; exact Nat.mul_div_cancel _ (by decide)
  refine ⟨taken.size, taken.pos, ?_, ?_, ?_, ?_, ?_⟩
  · rw [hbase]; exact Nat.mul_mod_left _ _
  · have htop := wf.top g hg
    have hstop : g.stop = g.frame g.size * pageSize := wf.page_eq hg
    rw [hstop] at htop
    rw [hbase, ← Nat.add_mul]
    exact (Nat.mul_le_mul_right _ (by simp only [PoolGeom.frame]; omega)).trans htop
  · intro f hf
    simp only [frames, Set.mem_Ico, hdiv] at hf
    have hfree := taken.free (f - g.frame k) (by omega)
    have hnone := hm.none_of_free wf hg (by omega) hfree
    rwa [show g.frame (k + (f - g.frame k)) = f by simp only [PoolGeom.frame] at *; omega] at hnone
  · intro o
    simp only [frames, hdiv, taken.bits_eq]
    exact hm.give hg hin o
  · intro hal hpools
    rw [hdiv]
    refine Nat.dvd_of_mod_eq_zero ((add_mod_of_accepted taken.pos (taken.align hal)).trans ?_)
    exact Nat.mod_eq_zero_of_dvd (hpools g hg (by omega))

/-! ## The invariant -/

/-- The number of pages that an entry of a level maps. -/
def lvlPages (lvl : Nat) : Nat := 2 ^ (18 - 9 * lvl)

theorem lvlPages_pos (lvl : Nat) : 0 < lvlPages lvl := Nat.two_pow_pos _

theorem PageTable.Rv64.lvlsize_eq {pt : PageTable} {lvl : Nat} (h : pt.Rv64) (hl : lvl < 3) :
    ptLvlsize pt lvl = lvlPages lvl * pageSize := by
  rw [h.lvlsize hl, lvlPages, show pageSize = 2 ^ 12 from rfl, ← Nat.pow_add]
  congr 1
  omega

theorem PageTable.Rv64.lvlsize_div {pt : PageTable} {lvl : Nat} (h : pt.Rv64) (hl : lvl < 3) :
    ptLvlsize pt lvl / pageSize = lvlPages lvl := by
  rw [h.lvlsize_eq hl]; exact Nat.mul_div_cancel _ (by decide)

/-- A valid entry of a level leads to a table of the same guest, or to pages of that guest. -/
def PteOk (own : PageOwners) (vm lvl : Nat) (w : Word) : Prop :=
  pteValid w = true →
    (pteTable w = true ∧ lvl + 1 < 3 ∧ own (pteAddr w / pageSize) = some (.table vm (lvl + 1))) ∨
    (pteTable w = false ∧ ∀ i < lvlPages lvl,
      own (pteAddr w / (lvlPages lvl * pageSize) * lvlPages lvl + i) = some (.guest vm))

structure OwnerInv (G : List PoolGeom) (own : PageOwners) (s : MemState) : Prop where
  geoms_eq : geoms s.pools.pools = G
  marked : Marked G own s.pools.bits
  tables : ∀ vm lvl f, own f = some (.table vm lvl) →
    ∀ i < 512, PteOk own vm lvl (s.mem (f * pageSize + 8 * i))
  hyp : ∀ r ∈ s.hyp, ∀ f ∈ frames r.base r.size,
    own f = some .hyp ∨ ∃ vm lvl, own f = some (.table vm lvl)

/-- An address space of the guest `vm`, without colours. Its root table has four pages. -/
structure VmAs (own : PageOwners) (vm : Nat) (as : AddrSpace) : Prop where
  secs : as.secs = vmSecs
  colors : as.colors = 0
  dscr : as.pt.dscr = sv39x4PtDscr
  page : as.pt.rootPa % pageSize = 0
  root : ∀ i < 4, own (as.pt.rootPa / pageSize + i) = some (.table vm 0)

/-- `pte` is an entry of a table of `vm` at level `lvl`. -/
structure Slot (own : PageOwners) (vm lvl pte : Nat) : Prop where
  lvl_lt : lvl < 3
  frame : own (pte / pageSize) = some (.table vm lvl)
  word : pte % 8 = 0

section Walk

variable {G : List PoolGeom} {own own' : PageOwners} {s : MemState} {as : AddrSpace}
  {vm lvl va pte : Nat} {w : Word}

theorem PteOk.mono (hle : own.Le own') (h : PteOk own vm lvl w) : PteOk own' vm lvl w := by
  intro hv
  rcases h hv with ⟨ht, hl, ho⟩ | ⟨ht, ho⟩
  · exact .inl ⟨ht, hl, hle ho⟩
  · exact .inr ⟨ht, fun i hi => hle (ho i hi)⟩

theorem PteOk.of_invalid (h : pteValid w = false) : PteOk own vm lvl w := by
  intro hv
  rw [h] at hv
  cases hv

theorem VmAs.mono (hle : own.Le own') (h : VmAs own vm as) : VmAs own' vm as :=
  { h with root := fun i hi => hle (h.root i hi) }

theorem VmAs.rv64 (h : VmAs own vm as) : as.pt.Rv64 := .inr h.dscr

theorem VmAs.allClrs (h : VmAs own vm as) (clr : Colors) : Bao.allClrs clr as.colors = true := by
  rw [h.colors]; rfl

theorem VmAs.nentries_zero (h : VmAs own vm as) : ptNentries as.pt 0 = 2048 := by
  simp only [ptNentries, h.dscr]; rfl

theorem Slot.mono (hle : own.Le own') (h : Slot own vm lvl pte) : Slot own' vm lvl pte :=
  { h with frame := hle h.frame }

theorem OwnerInv.entry (inv : OwnerInv G own s) (hslot : Slot own vm lvl pte) :
    PteOk own vm lvl (s.mem pte) := by
  have h := inv.tables vm lvl _ hslot.frame (pte % pageSize / 8)
    (by simp only [pageSize]; omega)
  have hword := hslot.word
  rwa [show pte / pageSize * pageSize + 8 * (pte % pageSize / 8) = pte by
    simp only [pageSize]; omega] at h

/-- The entries that a walk reaches through tables are entries of tables of the guest. -/
theorem OwnerInv.slot (inv : OwnerInv G own s) (has : VmAs own vm as)
    (h : PtEntry as.pt s.mem va lvl pte) : Slot own vm lvl pte := by
  induction h with
  | root =>
    have hidx := has.rv64.index_lt (show 0 < 3 by decide) va
    rw [has.nentries_zero] at hidx
    have hroot := has.root (ptGetpteindexByVa as.pt va 0 / 512) (by omega)
    have hpage := has.page
    simp only [pageSize] at *
    refine ⟨by decide, ?_, by omega⟩
    rwa [pageSize, show (as.pt.rootPa + 8 * ptGetpteindexByVa as.pt va 0) / 4096 =
      as.pt.rootPa / 4096 + ptGetpteindexByVa as.pt va 0 / 512 by omega]
  | @next lvl pte h table ih =>
    rcases inv.entry ih (pteTable_valid table) with ⟨-, hl, ho⟩ | ⟨hleaf, -⟩
    · have hpage := pteAddr_mod (s.mem pte)
      refine ⟨hl, ?_, by simp only [pageSize] at hpage; omega⟩
      rwa [(has.rv64.entry_of_table hl hpage va).1]
    · rw [table] at hleaf; cases hleaf

/-- The invariant of a later state, for an extension of the map: the words of the tables are those
of before or good, and so are the pages of the hypervisor. -/
theorem OwnerInv.extend (inv : OwnerInv G own s) (hle : own.Le own') {s' : MemState}
    {G' : List PoolGeom} (hgeoms : geoms s'.pools.pools = G')
    (hmarked : Marked G' own' s'.pools.bits)
    (htables : ∀ vm lvl f, own' f = some (.table vm lvl) → ∀ i < 512,
      own f = some (.table vm lvl) ∧
        s'.mem (f * pageSize + 8 * i) = s.mem (f * pageSize + 8 * i) ∨
      PteOk own' vm lvl (s'.mem (f * pageSize + 8 * i)))
    (hhyp : ∀ r ∈ s'.hyp, r ∈ s.hyp ∨ ∀ f ∈ frames r.base r.size,
      own' f = some .hyp ∨ ∃ vm lvl, own' f = some (.table vm lvl)) : OwnerInv G' own' s' := by
  refine ⟨hgeoms, hmarked, fun vm lvl f hf i hi => ?_, fun r hr f hf => ?_⟩
  · rcases htables vm lvl f hf i hi with ⟨ho, heq⟩ | h
    · rw [heq]
      exact (inv.tables vm lvl f ho i hi).mono hle
    · exact h
  · rcases hhyp r hr with h | h
    · exact (inv.hyp r h f hf).imp (fun h => hle h) fun ⟨vm, lvl, h⟩ => ⟨vm, lvl, hle h⟩
    · exact h f hf

theorem OwnerInv.write (inv : OwnerInv G own s) (hslot : Slot own vm lvl pte)
    (hw : PteOk own vm lvl w) : OwnerInv G own (s.write pte w) := by
  refine inv.extend (.refl own) inv.geoms_eq inv.marked (fun vm' lvl' f hf i hi => ?_)
    fun r hr => .inl hr
  by_cases heq : f * pageSize + 8 * i = pte
  · right
    have hframe : pte / pageSize = f := by rw [← heq]; simp only [pageSize]; omega
    have hsame := hslot.frame
    rw [hframe, hf, Option.some.injEq, Owner.table.injEq] at hsame
    obtain ⟨rfl, rfl⟩ := hsame
    simpa only [MemState.write, heq, Function.update_self] using hw
  · exact .inl ⟨hf, Function.update_of_ne heq _ _⟩

theorem OwnerInv.allocPpages (wf : FramesWf G) (inv : OwnerInv G own s) (n : Nat) (aligned : Bool) :
    (s.allocPpages n aligned).1.size = 0 ∧ OwnerInv G own (s.allocPpages n aligned).2 ∨
    geoms (s.allocPpages n aligned).2.pools.pools = G ∧
      Grant G own (s.allocPpages n aligned).2.pools.bits n aligned (s.allocPpages n aligned).1 := by
  have hspec := memAllocPpages_spec s.pools.bits n aligned s.pools.pools
    fun g hg => wf.size_lt (inv.geoms_eq ▸ hg)
  obtain ⟨hgeoms, ⟨hzero, hbits⟩ | ⟨g, k, taken⟩⟩ := hspec
  · left
    refine ⟨hzero, inv.extend (.refl own) (hgeoms.trans inv.geoms_eq) ?_
      (fun vm lvl f hf i _ => .inl ⟨hf, rfl⟩) fun r hr => .inl hr⟩
    simp only [MemState.allocPpages, hbits]
    exact inv.marked
  · rw [inv.geoms_eq] at taken
    exact .inr ⟨hgeoms.trans inv.geoms_eq, taken.grant wf inv.marked⟩

variable {n : Nat} {aligned : Bool} {pages : Ppages}

theorem Grant.base_lt {bits : Bitmap} (grant : Grant G own bits n aligned pages) :
    pages.base < 2 ^ 56 := by
  have := grant.top
  have := grant.pos
  simp only [pageSize] at *
  omega

theorem Grant.le_give {bits : Bitmap} (grant : Grant G own bits n aligned pages) (o : Nat → Owner) :
    own.Le (own.give (frames pages.base n) o) := Owners.le_give grant.fresh

theorem OwnerInv.allocHyp (wf : FramesWf G) (inv : OwnerInv G own s) (n : Nat) (aligned : Bool) :
    ∃ own', own.Le own' ∧ OwnerInv G own' (s.allocHyp n aligned).2 := by
  simp only [MemState.allocHyp]
  rcases inv.allocPpages wf n aligned with ⟨hzero, hinv⟩ | ⟨hgeoms, grant⟩
  · rw [if_pos hzero]
    exact ⟨own, .refl own, hinv⟩
  · rw [if_neg (by rw [grant.size]; exact grant.pos.ne')]
    have hle := grant.le_give fun _ => .hyp
    refine ⟨_, hle, inv.extend hle hgeoms (grant.marked _) (fun vm lvl f hf i _ => ?_)
      fun r hr => ?_⟩
    · by_cases hmem : f ∈ frames (s.allocPpages n aligned).1.base n
      · rw [Owners.give_of_mem hmem] at hf; cases hf
      · rw [Owners.give_of_notMem hmem] at hf
        exact .inl ⟨hf, rfl⟩
    · rcases List.mem_cons.mp hr with rfl | hr
      · right
        intro f hf
        rw [grant.size] at hf
        exact .inl (Owners.give_of_mem hf)
      · exact .inl hr

/-! ## Translation -/

theorem OwnerInv.translate (inv : OwnerInv G own s) (has : VmAs own vm as) {pa : Nat}
    (h : memTranslate as.pt s.mem va = some pa) : own (pa / pageSize) = some (.guest vm) := by
  obtain ⟨lvl, pte, hentry, hleaf⟩ : ∃ lvl pte, PtEntry as.pt s.mem va lvl pte ∧
      pteTable (s.mem pte) = false :=
    PtEntry.exists_stop fun h => Bool.eq_false_of_not_eq_true fun table =>
      absurd (inv.slot has (h.next table)).lvl_lt (by decide)
  have hslot := inv.slot has hentry
  rw [hentry.translate has.rv64 hslot.lvl_lt hleaf] at h
  split at h
  · rename_i hvalid
    cases h
    rcases inv.entry hslot hvalid.2 with ⟨htab, -⟩ | ⟨-, hown⟩
    · rw [hleaf] at htab; cases htab
    · have hoff : va % (lvlPages lvl * pageSize) / pageSize < lvlPages lvl :=
        Nat.div_lt_of_lt_mul (by
          rw [Nat.mul_comm pageSize]
          exact Nat.mod_lt _ (Nat.mul_pos (lvlPages_pos _) (by decide)))
      have := hown _ hoff
      rwa [has.rv64.lvlsize_eq hslot.lvl_lt, ← Nat.mul_assoc, Nat.add_comm,
        Nat.add_mul_div_right _ _ (by decide), Nat.add_comm]
  · cases h

/-! ## New tables -/

/-- What `mem_alloc_pt` does below an entry that leads to no table: the entry leads to a fresh page,
which is cleared. -/
theorem memAllocPt_eq (clr : Colors) (hrv : as.pt.Rv64) (h : PtEntry as.pt s.mem va lvl pte)
    (hl : lvl + 1 < 3) (hleaf : pteTable (s.mem pte) = false)
    (hpages : ∀ r m, tableRequest clr as lvl s.pools = some (r, m) → r.size ≠ 0 →
      r.base % pageSize = 0 ∧ r.base < 2 ^ 56) :
    memAllocPt clr as pte lvl va s = .error .noTable ∨
      ∃ r s', tableRequest clr as lvl s.pools = some (r, s'.pools) ∧ r.size ≠ 0 ∧
        memAllocPt clr as pte lvl va s = .ok (r.base, s') ∧ s'.hyp = r :: s.hyp ∧
        s'.mem = fun a => if a / pageSize = r.base / pageSize then 0
          else Function.update s.mem pte (pteSet r.base pteTypeTable pteHypFlags) a := by
  simp only [memAllocPt, hrv.lvls, if_neg (show ¬ 3 ≤ lvl + 1 by omega)]
  cases hreq : tableRequest clr as lvl s.pools with
  | none => exact .inl rfl
  | some res =>
    obtain ⟨r, m⟩ := res
    by_cases hsize : r.size = 0
    · simp [hsize]
    obtain ⟨hpage, htop⟩ := hpages r m hreq hsize
    have haddr : pteAddr (pteSet r.base pteTypeTable pteHypFlags) = r.base :=
      pteAddr_pteSet htop hpage (by decide)
    -- The way through the entry leads into the new table.
    have hentry : PtEntry as.pt
        (Function.update s.mem pte (pteSet r.base pteTypeTable pteHypFlags)) va (lvl + 1)
        (r.base + 8 * ptGetpteindexByVa as.pt va (lvl + 1)) := by
      have hup : PtEntry as.pt
          (Function.update s.mem pte (pteSet r.base pteTypeTable pteHypFlags)) va lvl pte := by
        refine h.congr_mem fun j _ q _ ht => Function.update_of_ne ?_ _ _
        rintro rfl
        rw [hleaf] at ht
        cases ht
      have hnext := hup.next (by rw [Function.update_self]; exact pteTable_pteSet_table _)
      rwa [Function.update_self, haddr] at hnext
    have hget : ptGet as.pt (Function.update s.mem pte (pteSet r.base pteTypeTable pteHypFlags))
        (lvl + 1) va = some r.base := by
      have hindex := hrv.index_lt hl va
      rw [hrv.nentries (by omega) hl] at hindex
      rw [ptGet, hentry.getPte, ptSize, hrv.nentries (by omega) hl]
      simp only [pageSize, Option.map_some, Option.some.injEq] at hpage ⊢
      omega
    have hinside : ∀ a, r.base ≤ a ∧ a < r.base + pageSize ↔
        a / pageSize = r.base / pageSize := by
      intro a
      simp only [pageSize] at hpage ⊢
      omega
    refine .inr ⟨r, (MemState.write ⟨m, s.mem, r :: s.hyp⟩ pte
      (pteSet r.base pteTypeTable pteHypFlags)).clear r.base pageSize, rfl, hsize, ?_, rfl, ?_⟩
    · simp only [if_neg hsize, MemState.write, hget]
    · funext a
      simp only [MemState.clear, MemState.write, hinside]

/-- The memory after that, when the entry was not valid and the page had no entries. -/
theorem newPt_of_mem_eq {pt : PageTable} {mem mem' : PhysMem} {base : Nat}
    (hmem : mem' = fun a => if a / pageSize = base / pageSize then 0
      else Function.update mem pte (pteSet base pteTypeTable pteHypFlags) a)
    (hpage : base % pageSize = 0) (htop : base < 2 ^ 56)
    (hfresh : ∀ {va lvl q}, PtEntry pt mem va lvl q → q / pageSize ≠ base / pageSize)
    (h : PtEntry pt mem va lvl pte) (hinvalid : pteValid (mem pte) = false) :
    PtTree.NewPt pt mem mem' pte base := by
  subst hmem
  refine ⟨hpage, hfresh, hinvalid, ?_, ?_, ?_, fun a ha => if_pos ha, fun a hne ha => ?_⟩
  · rw [if_neg (hfresh h), Function.update_self, pteTable_pteSet_table]
  · rw [if_neg (hfresh h), Function.update_self]
    exact pteCheckRsw_pteSet _ _ (by decide)
  · rw [if_neg (hfresh h), Function.update_self]
    exact pteAddr_pteSet htop hpage (by decide)
  · rw [if_neg ha, Function.update_of_ne hne]

/-- The pages of a new table go to the guest and, those that `mem_alloc_pt` asks for too much, to
the hypervisor. -/
theorem OwnerInv.withTable (inv : OwnerInv G own s) (hl : lvl + 1 < 3) (hslot : Slot own vm lvl pte)
    (s' : MemState) (hgeoms : geoms s'.pools.pools = G)
    (grant : Grant G own s'.pools.bits n aligned pages) (hhyp : s'.hyp = pages :: s.hyp)
    (new : PtTree.NewPt as.pt s.mem s'.mem pte pages.base) :
    ∃ own', own.Le own' ∧ OwnerInv G own' s' := by
  classical
  set o : Nat → Owner := fun f =>
    if f = pages.base / pageSize then .table vm (lvl + 1) else .hyp with ho
  have hfirst : pages.base / pageSize ∈ frames pages.base n :=
    ⟨le_rfl, Nat.lt_add_of_pos_right grant.pos⟩
  refine ⟨_, grant.le_give o, inv.extend (grant.le_give o) hgeoms (grant.marked o) ?_ ?_⟩
  · intro vm' lvl' f hf i hi
    have hdiv : (f * pageSize + 8 * i) / pageSize = f := by simp only [pageSize]; omega
    by_cases hmem : f ∈ frames pages.base n
    · rw [Owners.give_of_mem hmem, Option.some.injEq, ho] at hf
      by_cases heq : f = pages.base / pageSize
      · exact .inr (.of_invalid (by rw [new.empty _ (hdiv.trans heq), pteValid_zero]))
      · simp only [heq, if_false, reduceCtorEq] at hf
    · rw [Owners.give_of_notMem hmem] at hf
      by_cases hpte : f * pageSize + 8 * i = pte
      · right
        have hsame := hslot.frame
        rw [← hpte, hdiv, hf, Option.some.injEq, Owner.table.injEq] at hsame
        obtain ⟨rfl, rfl⟩ := hsame
        intro _
        rw [hpte]
        refine .inl ⟨new.table, hl, ?_⟩
        rw [new.addr, Owners.give_of_mem hfirst, ho]
        simp only [if_true]
      · refine .inl ⟨hf, new.other _ hpte ?_⟩
        rw [hdiv]
        rintro rfl
        exact hmem hfirst
  · intro r hr
    rw [hhyp] at hr
    rcases List.mem_cons.mp hr with rfl | hr
    · right
      intro f hf
      rw [grant.size] at hf
      rw [Owners.give_of_mem hf, ho]
      by_cases heq : f = r.base / pageSize
      · exact .inr ⟨vm, lvl + 1, by simp only [heq, if_true]⟩
      · exact .inl (by simp only [heq, if_false])
    · exact .inl hr

/-- `mem_alloc_pt` on the entry at which a way ends gives it a table. -/
theorem OwnerInv.allocPt {clr : Colors} (wf : FramesWf G) (inv : OwnerInv G own s)
    (has : VmAs own vm as) (h : PtEntry as.pt s.mem va lvl pte)
    (hinvalid : pteValid (s.mem pte) = false) {t : Nat} {s' : MemState}
    (hok : memAllocPt clr as pte lvl va s = .ok (t, s')) :
    lvl + 1 < 3 ∧ ∃ own' base, own.Le own' ∧ OwnerInv G own' s' ∧
      PtTree.NewPt as.pt s.mem s'.mem pte base := by
  have hl : lvl + 1 < 3 := by
    by_contra hlast
    rw [memAllocPt, has.rv64.lvls, if_pos (by omega)] at hok
    cases hok
  have hgrant : ∀ r m, tableRequest clr as lvl s.pools = some (r, m) → r.size ≠ 0 →
      geoms m.pools = G ∧ ∃ n aligned, Grant G own m.bits n aligned r := by
    intro r m hr hsize
    rw [tableRequest, memAllocPpagesClr_eq (.inl (has.allClrs clr))] at hr
    obtain ⟨rfl, rfl⟩ := Prod.mk.inj (Option.some.inj hr)
    obtain ⟨hgeoms, grant⟩ := (inv.allocPpages wf _ _).resolve_left fun h => hsize h.1
    exact ⟨hgeoms, _, _, grant⟩
  obtain herr | ⟨r, s₁, hreq, hsize, hok₁, hhyp, hmem⟩ :=
    memAllocPt_eq clr has.rv64 h hl (pteTable_of_invalid hinvalid) fun r m hr hsize => by
      obtain ⟨-, n, aligned, grant⟩ := hgrant r m hr hsize
      exact ⟨grant.page, grant.base_lt⟩
  · rw [herr] at hok; cases hok
  rw [hok₁] at hok
  cases hok
  obtain ⟨hgeoms, n, aligned, grant⟩ := hgrant r _ hreq hsize
  have new := newPt_of_mem_eq hmem grant.page grant.base_lt (fun hq heq => by
    have hframe := (inv.slot has hq).frame
    rw [heq, grant.fresh _ ⟨le_rfl, Nat.lt_add_of_pos_right grant.pos⟩] at hframe
    cases hframe) h hinvalid
  obtain ⟨own', hle, hinv⟩ := inv.withTable hl (inv.slot has h) s' hgeoms grant hhyp new
  exact ⟨hl, own', r.base, hle, hinv, new⟩

end Walk

end Bao
