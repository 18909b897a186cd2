import Bao.Core.MemOwner

/-!
# Trees of tables and the pages for new ones

The functions on an address space can rely on two things: its tables form a tree, and the pages that
the pools give for new tables are not in use. The second one is an assumption about the pools in the
state at hand, for as many tables as they may give; pools without colours satisfy it as long as the
pages in use are marked.
-/

namespace Bao

/-- The pages that hold entries of a page table. -/
def tableFrames (pt : PageTable) (mem : PhysMem) : Set Nat :=
  {f | ∃ va lvl pte, PtEntry pt mem va lvl pte ∧ pte / pageSize = f}

theorem PtEntry.mem_tableFrames {pt : PageTable} {mem : PhysMem} {va lvl pte : Nat}
    (h : PtEntry pt mem va lvl pte) : pte / pageSize ∈ tableFrames pt mem := ⟨va, lvl, pte, h, rfl⟩

theorem tableFrames_split {pt : PageTable} {mem mem' : PhysMem} {va lvl pte base : Nat}
    (tree : PtTree pt mem) (hrv : pt.Rv64) (h : PtEntry pt mem va lvl pte) (hl : lvl + 1 < 3)
    (split : PtTree.Split pt mem mem' pte base) :
    tableFrames pt mem' ⊆ insert (base / pageSize) (tableFrames pt mem) := by
  rintro f ⟨va', lvl', q, hq, rfl⟩
  rcases PtTree.entry_of_split tree hrv h hl split hq with hold | ⟨-, -, rfl⟩
  · exact .inr hold.mem_tableFrames
  · exact .inl (PtTree.split_page hrv hl split va')

/-- A page for a table that is not in use. -/
structure FreshTable (used : Set Nat) (base : Nat) : Prop where
  page : base % pageSize = 0
  pos : base ≠ 0
  top : base < 2 ^ 56
  fresh : base / pageSize ∉ used

/-- The next `k` changes of the pools give no page that is in use for a table. A change is a request
for a table or, with `rel`, a release, after which the released pages are no longer in use. -/
def FreshFor (clr : Colors) (as : AddrSpace) (rel : Bool) : Nat → PoolMem → Set Nat → Prop
  | 0, _, _ => True
  | k + 1, m, used =>
    (∀ lvl < 2, ∀ r m', tableRequest clr as lvl m = some (r, m') → r.size ≠ 0 →
      FreshTable used r.base ∧ FreshFor clr as rel k m' (insert (r.base / pageSize) used)) ∧
    (rel = true → ∀ base n, FreshFor clr as rel k (memFreePpages ⟨base, n, 0⟩ m)
      (used \ frames base n))

def TablesFresh (clr : Colors) (as : AddrSpace) (rel : Bool) (m : PoolMem) (used : Set Nat) :
    Prop := ∀ k, FreshFor clr as rel k m used

section Fresh

variable {clr : Colors} {as : AddrSpace} {rel : Bool} {m m' : PoolMem} {used used' : Set Nat}

theorem FreshTable.mono {base : Nat} (h : FreshTable used base) (hsub : used' ⊆ used) :
    FreshTable used' base := { h with fresh := fun hmem => h.fresh (hsub hmem) }

theorem TablesFresh.request {lvl : Nat} {r : Ppages} (h : TablesFresh clr as rel m used)
    (hlvl : lvl < 2) (hr : tableRequest clr as lvl m = some (r, m')) (hsize : r.size ≠ 0) :
    FreshTable used r.base ∧ TablesFresh clr as rel m' (insert (r.base / pageSize) used) :=
  ⟨((h 1).1 lvl hlvl r m' hr hsize).1, fun k => ((h (k + 1)).1 lvl hlvl r m' hr hsize).2⟩

theorem TablesFresh.release (h : TablesFresh clr as true m used) (base n : Nat) :
    TablesFresh clr as true (memFreePpages ⟨base, n, 0⟩ m) (used \ frames base n) :=
  fun k => (h (k + 1)).2 rfl base n

/-- Pools without colours give fresh pages when the pages in use are marked, and no free page is at
address 0. -/
theorem TablesFresh.of_pools {G : List PoolGeom} (wf : FramesWf G)
    (hclr : allClrs clr as.colors = true) (hG : geoms m.pools = G)
    (hpos : ∀ g ∈ G, g.base ≠ 0)
    (hused : ∀ g ∈ G, ∀ k < g.size, m.bits (g.bit k) = false → g.frame k ∉ used) :
    TablesFresh clr as false m used := by
  intro k
  induction k generalizing m used with
  | zero => trivial
  | succ k ih =>
    refine ⟨fun lvl hlvl r m' hr hsize => ?_, fun h => Bool.noConfusion h⟩
    rw [tableRequest, memAllocPpagesClr_eq (.inl hclr)] at hr
    obtain ⟨rfl, rfl⟩ := Prod.mk.inj (Option.some.inj hr)
    obtain ⟨hgeoms, ⟨hzero, -⟩ | ⟨g, j, taken⟩⟩ := memAllocPpages_spec m.bits
      (ptSize as.pt lvl / pageSize) (1 < ptSize as.pt lvl / pageSize) m.pools
      fun g hg => wf.size_lt (hG ▸ hg)
    · exact absurd hzero hsize
    rw [hG] at taken hgeoms
    have hg := taken.mem
    have hin := taken.inside
    have hone := taken.pos
    have hbase := taken.base
    have hframe : g.page j / pageSize = g.frame j := by
      rw [wf.page_eq hg, Nat.mul_div_cancel _ (by decide)]
    have hfresh := hused g hg j (by omega) (taken.free 0 hone)
    refine ⟨⟨?_, ?_, ?_, ?_⟩, ih hgeoms fun g' hg' k' hk' hclear => ?_⟩
    · rw [hbase, wf.page_eq hg, Nat.mul_mod_left]
    · have := hpos g hg
      rw [hbase, PoolGeom.page]
      omega
    · rw [hbase]
      exact (PoolGeom.page_lt_stop (by omega)).trans_le (wf.top g hg)
    · rwa [hbase, hframe]
    · rw [taken.bits_eq, bitmapSetConsecutive_apply] at hclear
      split at hclear
      · cases hclear
      · rename_i hnew
        rw [hbase, hframe, Set.mem_insert_iff, not_or]
        refine ⟨fun heq => ?_, hused g' hg' k' hk' hclear⟩
        obtain ⟨rfl, rfl⟩ := wf.frame_inj hg' hg hk' (by omega) heq
        exact hnew ⟨le_rfl, by omega⟩

end Fresh

/-! ## A new table -/

/-- An address space whose tables form a tree, in a state whose pools give fresh pages for more of
them. The tables are among the pages in use. -/
structure AsState (clr : Colors) (as : AddrSpace) (rel : Bool) (used : Set Nat) (s : MemState) :
    Prop where
  rv64 : as.pt.Rv64
  tree : PtTree as.pt s.mem
  frames : tableFrames as.pt s.mem ⊆ used
  fresh : TablesFresh clr as rel s.pools used

/-- What the functions on an address space change in the memory: entries of its tables, and pages
that were not in use, which become tables. -/
structure Grows (pt : PageTable) (used : Set Nat) (s : MemState) (used₁ : Set Nat) (s' : MemState) :
    Prop where
  subset : used ⊆ used₁
  frames : tableFrames pt s'.mem ⊆ tableFrames pt s.mem ∪ (used₁ \ used)
  keeps : ∀ a, a / pageSize ∈ used → a / pageSize ∉ tableFrames pt s.mem → s'.mem a = s.mem a

section Grows

variable {pt : PageTable} {used used₁ used₂ : Set Nat} {s s₁ s₂ : MemState} {va lvl pte base : Nat}

theorem Grows.refl (pt : PageTable) (used : Set Nat) (s : MemState) : Grows pt used s used s :=
  ⟨subset_rfl, Set.subset_union_left, fun _ _ _ => rfl⟩

theorem Grows.notMem_tableFrames (h : Grows pt used s used₁ s₁) {f : Nat} (hf : f ∈ used)
    (hno : f ∉ tableFrames pt s.mem) : f ∉ tableFrames pt s₁.mem := fun hmem =>
  (h.frames hmem).elim hno fun hnew => hnew.2 hf

theorem Grows.comp (h : Grows pt used s used₁ s₁) (h₁ : Grows pt used₁ s₁ used₂ s₂) :
    Grows pt used s used₂ s₂ where
  subset := h.subset.trans h₁.subset
  frames f hf := by
    rcases h₁.frames hf with hold | ⟨hin, hnew⟩
    · exact (h.frames hold).imp_right fun hnew => ⟨h₁.subset hnew.1, hnew.2⟩
    · exact .inr ⟨hin, fun hused => hnew (h.subset hused)⟩
  keeps a ha hno :=
    (h₁.keeps a (h.subset ha) (h.notMem_tableFrames ha hno)).trans (h.keeps a ha hno)

theorem Grows.write {w : Word} (h : PtEntry pt s.mem va lvl pte) (hw : pteTable w = false) :
    Grows pt used s used (s.write pte w) where
  subset := subset_rfl
  frames := by
    rintro f ⟨va', lvl', q, hq, rfl⟩
    exact .inl (PtTree.entry_of_write hw hq).mem_tableFrames
  keeps a _ hno := s.write_of_ne (fun heq : a = pte => hno (heq ▸ h.mem_tableFrames)) w

theorem Grows.split (tree : PtTree pt s.mem) (hrv : pt.Rv64) (h : PtEntry pt s.mem va lvl pte)
    (hl : lvl + 1 < 3) (split : PtTree.Split pt s.mem s₁.mem pte base)
    (hfresh : base / pageSize ∉ used) :
    Grows pt used s (insert (base / pageSize) used) s₁ where
  subset := Set.subset_insert _ _
  frames f hf := by
    rcases tableFrames_split tree hrv h hl split hf with rfl | hold
    · exact .inr ⟨Set.mem_insert _ _, hfresh⟩
    · exact .inl hold
  keeps a ha hno := split.other a (fun heq : a = pte => hno (heq ▸ h.mem_tableFrames))
    fun heq => hfresh (heq ▸ ha)

end Grows

/-- A later state of an address space. -/
def AsReach (clr : Colors) (as : AddrSpace) (rel : Bool) (used : Set Nat) (s s' : MemState) :
    Prop := ∃ used', AsState clr as rel used' s' ∧ Grows as.pt used s used' s'

section Alloc

variable {clr : Colors} {as : AddrSpace} {rel : Bool} {used : Set Nat} {s : MemState}
  {va lvl pte : Nat}

theorem AsState.reach (hs : AsState clr as rel used s) : AsReach clr as rel used s s :=
  ⟨used, hs, .refl _ _ _⟩

theorem AsState.allocPt (hs : AsState clr as rel used s) (h : PtEntry as.pt s.mem va lvl pte)
    (hl : lvl + 1 < 3) (hinv : pteValid (s.mem pte) = false) :
    memAllocPt clr as pte lvl va s = .error .noTable ∨
      ∃ base s', memAllocPt clr as pte lvl va s = .ok (base, s') ∧
        AsState clr as rel (insert (base / pageSize) used) s' ∧
        Grows as.pt used s (insert (base / pageSize) used) s' ∧
        PtTree.NewPt as.pt s.mem s'.mem pte base := by
  obtain herr | ⟨r, s', hreq, hsize, hok, -, hmem⟩ :=
    memAllocPt_eq (s := s) clr hs.rv64 h hl (pteTable_of_invalid hinv) fun r m hr hsize => by
      obtain ⟨⟨hpage, -, htop, -⟩, -⟩ := hs.fresh.request (by omega) hr hsize
      exact ⟨hpage, htop⟩
  · exact .inl herr
  obtain ⟨hfresh, hrest⟩ := hs.fresh.request (by omega) hreq hsize
  have new := newPt_of_mem_eq hmem hfresh.page hfresh.top
    (fun hq heq => hfresh.fresh (heq ▸ hs.frames hq.mem_tableFrames)) h hinv
  exact .inr ⟨r.base, s', hok, ⟨hs.rv64, PtTree.newPt hs.tree hs.rv64 h hl new hfresh.pos,
    (tableFrames_split hs.tree hs.rv64 h hl new.split).trans (Set.insert_subset_insert hs.frames),
    hrest⟩, .split hs.tree hs.rv64 h hl new.split hfresh.fresh, new⟩

theorem AsState.write {w : Word} (hs : AsState clr as rel used s) (hw : pteTable w = false) :
    AsState clr as rel used (s.write pte w) where
  rv64 := hs.rv64
  tree := hs.tree.write hw
  frames := by
    rintro f ⟨va', lvl', q, hq, rfl⟩
    exact hs.frames (PtTree.entry_of_write hw hq).mem_tableFrames
  fresh := hs.fresh

end Alloc

/-! ## A small machine -/

/-- A guest with an empty root table. -/
def emptyGuest : AddrSpace := ⟨⟨sv39x4PtDscr, 0x40000000, 0x80000000⟩, vmSecs, .vm, 0⟩

/-- One pool of 16 free pages, and memory that is clear. -/
def clearState : MemState where
  pools := ⟨fun _ => false, [⟨⟨0x80100000, 16, 0⟩, 16, 0⟩]⟩
  mem := fun _ => 0
  hyp := []

theorem clearState_framesWf : FramesWf [⟨0x80100000, 16, 0⟩] :=
  ⟨⟨by decide, by decide, by decide⟩, by decide, by decide⟩

theorem clearState_asState {clr : Colors} {as : AddrSpace} {m : PoolMem} (hrv : as.pt.Rv64)
    (hpa : as.pt.rootPa = 0x80000000) (hclr : allClrs clr as.colors = true)
    (hgeoms : geoms m.pools = [⟨0x80100000, 16, 0⟩]) :
    AsState clr as false (tableFrames as.pt clearState.mem) { clearState with pools := m } := by
  have hroot : ∀ i < ptNentries as.pt 0, pteTable (clearState.mem (as.pt.rootPa + 8 * i)) = false :=
    fun _ _ => show pteTable 0 = false by decide
  refine ⟨hrv, .of_root hrv (by omega) hroot, subset_rfl,
    .of_pools clearState_framesWf hclr hgeoms (by decide) fun g hg k hk _ => ?_⟩
  obtain rfl := List.mem_singleton.mp hg
  rintro ⟨va, lvl, pte, hentry, hpage⟩
  have hindex := hrv.index_lt (show 0 < 3 by decide) va
  have hsize : ptNentries as.pt 0 ≤ 2048 := by
    rcases hrv.nentries_zero with h | h <;> omega
  rw [(hentry.eq_root hrv hroot).2, hpa] at hpage
  simp only [PoolGeom.frame, pageSize] at hpage
  omega

theorem clearState_as :
    AsState {} emptyGuest false (tableFrames emptyGuest.pt clearState.mem) clearState :=
  clearState_asState (.inr rfl) rfl (by decide) rfl

end Bao
