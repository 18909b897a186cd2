import Bao.Core.MemOwner

/-!
# Mapping keeps pages apart

`mem_map` on the address space of a guest keeps the invariant of page owners, for pages that belong
to the guest and for pages allocated on the way. In the second case a superpage is the one place
where an entry may cover pages that were not allocated: the entry stands for the block that contains
its address, and `pp_alloc` returns the beginning of a block only from pools that begin at a
multiple of half a block.
-/

namespace Bao

open Foundation

variable {G : List PoolGeom} {own own' : PageOwners} {s s' : MemState} {clr : Colors}
  {as : AddrSpace} {vm lvl va pte a left pa n rounds : Nat} {given done : Bool} {c : MapPos}

theorem PteOk.leaf (hblock : lvlPages lvl ∣ a / pageSize) (hpage : a % pageSize = 0)
    (htop : a < 2 ^ 56) (hown : ∀ f ∈ frames a (lvlPages lvl), own f = some (.guest vm)) :
    PteOk own vm lvl (pteSet a ptPteType pteVmFlags) := by
  intro _
  refine .inr ⟨pteTable_pteSet_page a, fun i hi => hown _ ?_⟩
  rw [pteAddr_pteSet htop hpage (by decide), Nat.mul_comm (lvlPages lvl), ← Nat.div_div_eq_div_mul,
    Nat.div_mul_cancel hblock]
  exact ⟨Nat.le_add_right _ _, Nat.add_lt_add_left hi _⟩

theorem OwnerInv.entry_write (inv : OwnerInv G own s) (has : VmAs own vm as)
    (hslot : Slot own vm lvl pte) (w : Word) {q : Nat} (hq : PtEntry as.pt s.mem a lvl q) :
    PtEntry as.pt (s.write pte w).mem a lvl q := by
  refine hq.congr_mem fun j hj p hp _ => s.write_of_ne ?_ w
  rintro rfl
  have hsame := (inv.slot has hp).frame
  rw [hslot.frame, Option.some.injEq, Owner.table.injEq] at hsame
  omega

/-! ## The way down -/

/-- The loop of `mem_map` over the levels ends at an entry that may map the next block. -/
theorem OwnerInv.mapFind (wf : FramesWf G) (inv : OwnerInv G own s) (has : VmAs own vm as)
    {vaddr paddr down l q : Nat} (h : PtEntry as.pt s.mem vaddr lvl pte)
    (hok : memMapFind clr as left vaddr paddr down lvl s = .ok (l, q, s')) :
    ∃ own', own.Le own' ∧ OwnerInv G own' s' ∧ PtEntry as.pt s'.mem vaddr l q ∧
      ptPteMappable as (s'.mem q) l left vaddr paddr = true := by
  induction down generalizing lvl s own pte with
  | zero => cases hok
  | succ down ih =>
    simp only [memMapFind, h.getPte, has.rv64.lvlTerminal (inv.slot has h).lvl_lt, if_true] at hok
    split at hok
    · rename_i hmap
      cases hok
      exact ⟨own, .refl own, inv, h, hmap⟩
    · split at hok
      · rename_i hinvalid
        simp only [Bool.not_eq_true'] at hinvalid
        split at hok
        · cases hok
        · rename_i t s₁ halloc
          obtain ⟨-, own₁, base, hle, hinv, new⟩ := inv.allocPt wf has h hinvalid halloc
          obtain ⟨own', hle', hrest⟩ := ih hinv (has.mono hle) ((new.entry h).next new.table) hok
          exact ⟨own', hle.trans hle', hrest⟩
      · split at hok
        · cases hok
        · rename_i htab
          simp only [Bool.not_eq_true', Bool.not_eq_false] at htab
          exact ih inv has (h.next htab) hok

/-! ## The entries -/

/-- When `n` pages are enough for a block of a level above the last, every pool that can hold such a
block begins at a multiple of half of it. -/
def SuperpageSafe (G : List PoolGeom) (n : Nat) : Prop :=
  ∀ lvl < 2, lvlPages lvl ≤ n →
    ∀ g ∈ G, lvlPages lvl ≤ g.size → lvlPages lvl ∣ 2 * (g.base / pageSize)

/-- What `mem_map` may be asked for: `n` pages from `va` on in the addresses of the guest, to be
mapped to given pages of the guest from `pa` on, or to new ones. -/
structure MapReq (G : List PoolGeom) (own : PageOwners) (vm va pa n : Nat) (given : Bool) :
    Prop where
  page : va % pageSize = 0
  stop : va + n * pageSize ≤ 2 ^ 41
  pages : given = true → pa % pageSize = 0 ∧ pa + n * pageSize ≤ 2 ^ 56 ∧
    ∀ f ∈ frames pa n, own f = some (.guest vm)
  blocks : given = false → SuperpageSafe G n

theorem MapReq.mono (hle : own.Le own') (req : MapReq G own vm va pa n given) :
    MapReq G own' vm va pa n given :=
  { req with pages := fun h =>
      let ⟨hpage, htop, hown⟩ := req.pages h
      ⟨hpage, htop, fun f hf => hle (hown f hf)⟩ }

/-- The position of `mem_map` after `count` pages. -/
structure MapPos.Ok (c : MapPos) (va pa n : Nat) (given : Bool) : Prop where
  le : c.count ≤ n
  vaddr : c.vaddr = va + c.count * pageSize
  paddr : given = true → c.paddr = pa + c.count * pageSize

theorem MapPos.Ok.next (hrv : as.pt.Rv64) (hl : lvl < 3) (hc : c.Ok va pa n given)
    (hroom : lvlPages lvl ≤ n - c.count) (hlt : c.count < n) (ha : given = true → a = c.paddr) :
    (c.next a (ptLvlsize as.pt lvl)).Ok va pa n given := by
  refine ⟨?_, ?_, fun h => ?_⟩ <;> simp only [MapPos.next, hrv.lvlsize_div hl]
  · omega
  · rw [hrv.lvlsize_eq hl, hc.vaddr, Nat.add_mul, Nat.add_assoc]
  · rw [hrv.lvlsize_eq hl, ha h, hc.paddr h, Nat.add_mul, Nat.add_assoc]

/-- The next entry of a table while there is a block to map. Below the root the table has as many
entries as the loop counts; in the root the addresses of a guest end before the table does, even
where the loop counts from another index. -/
theorem MapReq.index_lt (has : VmAs own vm as) (hl : lvl < 3) (req : MapReq G own vm va pa n given)
    (hc : c.Ok va pa n given) (hroom : c.count + 2 * lvlPages lvl ≤ n)
    (hidx : 0 < lvl → ptGetpteindexByVa as.pt c.vaddr lvl + (left + 1) ≤ 512) (hleft : 0 < left) :
    ptGetpteindexByVa as.pt c.vaddr lvl + 1 < ptNentries as.pt lvl := by
  rcases Nat.eq_zero_or_pos lvl with rfl | h0
  · rw [has.rv64.index hl, has.nentries_zero, has.rv64.lvlsize hl]
    have hstop := req.stop
    have hv := hc.vaddr
    simp only [lvlPages, pageSize] at *
    omega
  · rw [has.rv64.nentries h0 hl]
    omega

theorem OwnerInv.freshLeaf (inv : OwnerInv G own s) {bits : Bitmap} {pages : Ppages}
    {pools : PoolMem} (hgeoms : geoms pools.pools = G)
    (grant : Grant G own bits (lvlPages lvl) true pages) (hbits : pools.bits = bits)
    (hslot : Slot own vm lvl pte) (hblock : lvlPages lvl ∣ pages.base / pageSize) :
    ∃ own', own.Le own' ∧
      OwnerInv G own' (MemState.write { s with pools } pte
        (pteSet pages.base ptPteType pteVmFlags)) := by
  have hle := grant.le_give fun _ => .guest vm
  have hinv : OwnerInv G (own.give (frames pages.base (lvlPages lvl)) fun _ => .guest vm)
      { s with pools } := by
    refine inv.extend hle hgeoms (by rw [hbits]; exact grant.marked _) ?_ fun r hr => .inl hr
    intro vm' lvl' f hf i _
    by_cases hmem : f ∈ frames pages.base (lvlPages lvl)
    · rw [Owners.give_of_mem hmem] at hf; cases hf
    · rw [Owners.give_of_notMem hmem] at hf
      exact .inl ⟨hf, rfl⟩
  exact ⟨_, hle, hinv.write (hslot.mono hle)
    (.leaf hblock grant.page grant.base_lt fun f hf => Owners.give_of_mem hf)⟩

theorem MapReq.dvd_of_grant {bits : Bitmap} {pages : Ppages} (hl : lvl < 3)
    (req : MapReq G own vm va pa n false) (hroom : lvlPages lvl ≤ n - c.count)
    (grant : Grant G own' bits (lvlPages lvl) true pages) :
    lvlPages lvl ∣ pages.base / pageSize := by
  by_cases hlast : lvl = 2
  · rw [hlast]; exact Nat.one_dvd _
  · exact grant.natural rfl (req.blocks rfl lvl (by omega) (by omega))

theorem MapReq.leaf (hrv : as.pt.Rv64) (hl : lvl < 3) (req : MapReq G own vm va pa n true)
    (hc : c.Ok va pa n true) (hal : c.paddr % ptLvlsize as.pt lvl = 0)
    (hroom : lvlPages lvl ≤ n - c.count) (hlt : c.count < n) :
    PteOk own vm lvl (pteSet c.paddr ptPteType pteVmFlags) := by
  obtain ⟨hpage, htop, hown⟩ := req.pages rfl
  have hp := hc.paddr rfl
  have hdiv : c.paddr / pageSize = pa / pageSize + c.count := by
    rw [hp]; exact Nat.add_mul_div_right _ _ (by decide)
  refine .leaf ?_ ?_ ?_ fun f hf => hown f ?_
  · rw [hrv.lvlsize_eq hl] at hal
    obtain ⟨i, hi⟩ := Nat.dvd_of_mod_eq_zero hal
    exact ⟨i, by rw [hi, Nat.mul_right_comm, Nat.mul_div_cancel _ (by decide)]⟩
  · rw [hp, Nat.add_mul_mod_self_right, hpage]
  · simp only [pageSize] at *; omega
  · simp only [frames, Set.mem_Ico, hdiv] at hf ⊢
    omega

theorem OwnerInv.mapFill (wf : FramesWf G) (inv : OwnerInv G own s) (has : VmAs own vm as)
    (hl : lvl < 3) (req : MapReq G own vm va pa n given) {c' : MapPos} (hc : c.Ok va pa n given)
    (hpal : given = true → c.paddr % ptLvlsize as.pt lvl = 0)
    (hidx : 0 < lvl → 0 < left → ptGetpteindexByVa as.pt c.vaddr lvl + left ≤ 512)
    (hat : 0 < left → c.count < n → lvlPages lvl ≤ n - c.count →
      PtEntry as.pt s.mem c.vaddr lvl pte)
    (h : memMapFill clr as given n pteVmFlags lvl left pte c s = .ok (c', s')) :
    ∃ own', own.Le own' ∧ OwnerInv G own' s' ∧ c'.Ok va pa n given := by
  induction left generalizing own s c pte with
  | zero => cases h; exact ⟨own, .refl own, inv, hc⟩
  | succ left ih =>
    simp only [memMapFill, has.rv64.lvlsize_div hl, memAllocPpagesClr_eq (.inr rfl)] at h
    split at h
    swap
    · cases h; exact ⟨own, .refl own, inv, hc⟩
    rename_i hcond
    obtain ⟨hlt, hroom⟩ := hcond
    have hpte := hat (by omega) hlt hroom
    have hslot := inv.slot has hpte
    -- What is left to do once the entry is stored.
    have hrest : ∀ {own₁ : PageOwners} {s₁ : MemState} {a : Nat} {w : Word}, own.Le own₁ →
        OwnerInv G own₁ s₁ → s₁.mem = (s.write pte w).mem → (given = true → a = c.paddr) →
        memMapFill clr as given n pteVmFlags lvl left (pte + 8) (c.next a (ptLvlsize as.pt lvl))
          s₁ = .ok (c', s') →
        ∃ own', own.Le own' ∧ OwnerInv G own' s' ∧ c'.Ok va pa n given := by
      intro own₁ s₁ a w hle inv₁ hmem ha hrec
      have hidx' : 0 < lvl → 0 < left → ptGetpteindexByVa as.pt
          (c.next a (ptLvlsize as.pt lvl)).vaddr lvl + left ≤ 512 := by
        intro h0 hleft
        rw [MapPos.next, has.rv64.index_next hl (by rw [has.rv64.nentries h0 hl]; omega)]
        omega
      obtain ⟨own', hle', hinv'⟩ := ih inv₁ (has.mono hle) (req.mono hle)
        (hc.next has.rv64 hl hroom hlt ha)
        (fun hg => by simpa [MapPos.next, ha hg] using hpal hg) hidx' (by
          intro hleft hlt' hroom'
          simp only [MapPos.next, has.rv64.lvlsize_div hl] at hlt' hroom' ⊢
          rw [hmem]
          exact inv.entry_write has hslot w (hpte.next_block has.rv64 hl (req.index_lt has hl hc
            (by omega) (fun h0 => hidx h0 (by omega)) hleft))) hrec
      exact ⟨own', hle.trans hle', hinv'⟩
    split at h
    · rename_i hgiven
      subst hgiven
      exact hrest (.refl own)
        (inv.write hslot (req.leaf has.rv64 hl hc (hpal rfl) hroom hlt)) rfl (fun _ => rfl) h
    · rename_i hgiven
      rw [Bool.not_eq_true] at hgiven
      subst hgiven
      rcases inv.allocPpages wf (lvlPages lvl) true with ⟨hzero, inv₁⟩ | ⟨hgeoms, grant⟩
      · simp only [MemState.allocPpages] at hzero inv₁
        rw [if_pos (by rw [hzero]; exact lvlPages_pos lvl)] at h
        split at h
        · cases h
        simp only [hpte.getPte] at h
        split at h
        · rename_i hinvalid
          simp only [Bool.not_eq_true'] at hinvalid
          generalize halloc : memAllocPt clr as pte lvl c.vaddr _ = res at h
          cases res with
          | error e => cases h
          | ok r =>
            cases h
            obtain ⟨-, own', -, hle, hinv, -⟩ := inv₁.allocPt wf has hpte hinvalid halloc
            exact ⟨own', hle, hinv, hc⟩
        · cases h; exact ⟨own, .refl own, inv₁, hc⟩
      · simp only [MemState.allocPpages] at hgeoms grant
        rw [if_neg (by rw [grant.size]; exact lt_irrefl _)] at h
        obtain ⟨own₁, hle, inv₁⟩ := inv.freshLeaf hgeoms grant rfl hslot
          (req.dvd_of_grant hl hroom grant)
        exact hrest hle inv₁ rfl (by simp) h

theorem OwnerInv.mapLoop (wf : FramesWf G) (inv : OwnerInv G own s) (has : VmAs own vm as)
    (req : MapReq G own vm va pa n given) (hc : c.Ok va pa n given)
    (h : memMapLoop clr as given n pteVmFlags rounds c s = .ok s') :
    ∃ own', own.Le own' ∧ OwnerInv G own' s' := by
  induction rounds generalizing own s c with
  | zero => cases h
  | succ rounds ih =>
    simp only [memMapLoop, has.rv64.lvls] at h
    split at h
    swap
    · cases h; exact ⟨own, .refl own, inv⟩
    split at h
    · cases h
    rename_i lvl pte s₁ hfind
    obtain ⟨own₁, hle₁, inv₁, hpte, hmap⟩ := inv.mapFind wf has .root hfind
    simp only [ptPteMappable, Bool.and_eq_true, decide_eq_true_eq] at hmap
    obtain ⟨-, hpal⟩ := hmap
    split at h
    · cases h
    rename_i c₁ s₂ hfill
    have has₁ := has.mono hle₁
    have hl := (inv₁.slot has₁ hpte).lvl_lt
    obtain ⟨own₂, hle₂, inv₂, hc₁⟩ := inv₁.mapFill wf has₁ hl (req.mono hle₁) hc
      (fun hg => by simpa only [hg, if_true] using hpal)
      (fun h0 _ => hpte.index_add_left has.rv64 hl h0) (fun _ _ _ => hpte) hfill
    obtain ⟨own', hle', inv'⟩ := ih inv₂ (has₁.mono hle₂) ((req.mono hle₁).mono hle₂) hc₁ h
    exact ⟨own', (hle₁.trans hle₂).trans hle', inv'⟩

theorem pageOf_of_mod (h : a % pageSize = 0) : pageOf a = a := by
  simp only [pageOf, pageSize] at *; omega

section

variable (wf : FramesWf G) (inv : OwnerInv G own s) (has : VmAs own vm as)

include wf inv has

theorem OwnerInv.map {ppages : Option Ppages} (hclr : ∀ r ∈ ppages, allClrs clr r.colors = true)
    (req : MapReq G own vm va ((ppages.map Ppages.base).getD 0) n ppages.isSome)
    (h : memMap clr as va ppages n pteVmFlags rounds s = .ok (done, s')) :
    ∃ own', own.Le own' ∧ OwnerInv G own' s' := by
  have hpages : memMapPages clr as va ppages n pteVmFlags rounds s =
      memMapLoop clr as ppages.isSome n pteVmFlags rounds
        ⟨va, (ppages.map Ppages.base).getD 0, 0⟩ s := by
    cases ppages with
    | none => simp [memMapPages, has.allClrs clr]
    | some r => simp [memMapPages, hclr r rfl]
  simp only [memMap, pageOf_of_mod req.page, hpages] at h
  split at h
  · cases h; exact ⟨own, .refl own, inv⟩
  · generalize hloop : memMapLoop clr as _ n pteVmFlags rounds _ s = res at h
    cases res with
    | error e => cases h
    | ok s₁ =>
      cases h
      exact inv.mapLoop wf has req ⟨Nat.zero_le n, by simp, fun _ => by simp⟩ hloop

theorem OwnerInv.mapGiven {r : Ppages} (hclr : allClrs clr r.colors = true)
    (hpage : va % pageSize = 0) (hstop : va + n * pageSize ≤ 2 ^ 41)
    (hr : r.base % pageSize = 0 ∧ r.base + n * pageSize ≤ 2 ^ 56 ∧
      ∀ f ∈ frames r.base n, own f = some (.guest vm))
    (h : memMap clr as va (some r) n pteVmFlags rounds s = .ok (done, s')) :
    ∃ own', own.Le own' ∧ OwnerInv G own' s' := by
  have req : MapReq G own vm va r.base n true := ⟨hpage, hstop, fun _ => hr, by simp⟩
  exact inv.map wf has (by simpa using hclr) req h

theorem OwnerInv.mapFresh (hpage : va % pageSize = 0) (hstop : va + n * pageSize ≤ 2 ^ 41)
    (hsafe : SuperpageSafe G n) (h : memMap clr as va none n pteVmFlags rounds s = .ok (done, s')) :
    ∃ own', own.Le own' ∧ OwnerInv G own' s' := by
  have req : MapReq G own vm va 0 n false := ⟨hpage, hstop, by simp, fun _ => hsafe⟩
  exact inv.map wf has (by simp) req h

end

end Bao
