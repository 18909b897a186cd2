import Bao.Core.MemMap
import Bao.Core.VpageFresh

/-!
# Reserving virtual pages

`mem_alloc_vpage` on the address space of a guest, at a given address, keeps the invariant of page
owners. Its first loop creates tables on the way and fails at the first page that is mapped or
reserved; its second loop goes through the same addresses again without looking for mappings, and
is safe because the first one has seen that none of them is mapped.
-/

namespace Bao

open Foundation

variable {G : List PoolGeom} {own own' : PageOwners} {s s' : MemState} {clr : Colors}
  {as : AddrSpace} {vm lvl va pte : Nat}

/-- The way of `va` ends at an entry that is not valid. -/
def Unmapped (pt : PageTable) (mem : PhysMem) (va : Nat) : Prop :=
  ∃ lvl pte, PtEntry pt mem va lvl pte ∧ pteValid (mem pte) = false

theorem Unmapped.write {w : Word} {a : Nat} (hold : pteValid (s.mem pte) = false)
    (hnew : pteValid w = false) (h : Unmapped as.pt s.mem a) :
    Unmapped as.pt (s.write pte w).mem a := by
  obtain ⟨l, q, hq, hinvalid⟩ := h
  refine ⟨l, q, PtTree.entry_write_of_leaf (pteTable_of_invalid hold) hq, ?_⟩
  by_cases heq : q = pte
  · subst heq
    rw [s.write_self, hnew]
  · rw [s.write_of_ne heq, hinvalid]

/-- An address whose way ended at the entry for the new table is led into that, and ends there. -/
theorem Unmapped.newPt {mem mem' : PhysMem} {base a : Nat} (hrv : as.pt.Rv64)
    (new : PtTree.NewPt as.pt mem mem' pte base)
    (hlvl : ∀ {b l q}, PtEntry as.pt mem' b l q → l < 3) (h : Unmapped as.pt mem a) :
    Unmapped as.pt mem' a := by
  obtain ⟨l, q, hq, hinvalid⟩ := h
  by_cases heq : q = pte
  · subst heq
    have hnext := (new.entry hq).next new.table
    have hl := hlvl hnext
    rw [new.addr] at hnext
    refine ⟨l + 1, _, hnext, ?_⟩
    rw [new.empty _ (hrv.entry_of_table hl new.page a).1, pteValid_zero]
  · exact ⟨l, q, new.entry hq, by rw [new.split.mem_eq hq heq, hinvalid]⟩

/-! ## The search -/

/-- The search for `n` pages at `at_` has come to `c.addr` and has met nothing that is mapped. -/
structure VpageScan.Ok (c : VpageScan) (as : AddrSpace) (mem : PhysMem) (at_ n : Nat) : Prop where
  going : c.failed = false
  le : c.count ≤ n
  addr : c.addr = at_ + c.count * pageSize
  vpage : c.vpage = if c.count = 0 then 0 else at_
  unmapped : ∀ a, at_ ≤ a → a < c.addr → Unmapped as.pt mem a

theorem VpageScan.Ok.vpage_cases {c : VpageScan} {mem : PhysMem} {at_ n : Nat}
    (hc : c.Ok as mem at_ n) : c.vpage = 0 ∨ c.vpage = at_ := by
  rw [hc.vpage]
  split
  · exact .inl rfl
  · exact .inr rfl

theorem VpageScan.Ok.start {c : VpageScan} {mem : PhysMem} {at_ n : Nat}
    (hc : c.Ok as mem at_ n) : c.start = at_ := by
  rw [VpageScan.start, hc.vpage, hc.addr]
  split
  · rename_i h0
    rw [h0, Nat.zero_mul, Nat.add_zero]
  · rfl

section Search

variable {at_ n : Nat} {c c' : VpageScan} (wf : FramesWf G) (inv : OwnerInv G own s)
  (has : VmAs own vm as) (hat : at_ ≠ 0) (hpage : at_ % pageSize = 0)
  (hstop : at_ + n * pageSize ≤ 2 ^ 41)
include wf inv has hat hpage hstop

theorem OwnerInv.entryStep (hlt : c.count < n) (hc : c.Ok as s.mem at_ n)
    (h : PtEntry as.pt s.mem c.addr c.lvl pte) (step : EntryStep clr as at_ n pte c s c' s') :
    ∃ own', own.Le own' ∧ OwnerInv G own' s' ∧ c'.Ok as s'.mem at_ n := by
  have hrv := has.rv64
  have hl := (inv.slot has h).lvl_lt
  have haddr := hc.addr
  cases step with
  | restart h0 => exact absurd h0 hat
  | restartTable h0 => exact absurd h0 hat
  | count free invalid allocable =>
    have hpos := lvlPages_pos c.lvl
    obtain ⟨hfits, hal⟩ := pteAllocable_fits hrv hl (by omega)
      (by rw [haddr, Nat.add_mul_mod_self_right, hpage]) allocable
    have hnext : c.addr + ptLvlsize as.pt c.lvl = at_ + (c.count + lvlPages c.lvl) * pageSize := by
      rw [hrv.lvlsize_eq hl, haddr, Nat.add_mul, Nat.add_assoc]
    have hle := Nat.mul_le_mul_right pageSize (show c.count + lvlPages c.lvl ≤ n by omega)
    have hwrap : u64 (c.addr + ptLvlsize as.pt c.lvl) = c.addr + ptLvlsize as.pt c.lvl :=
      u64_of_lt (by omega)
    refine ⟨own, .refl own, inv, hc.going, by simp only [VpageScan.behind]; omega,
      hwrap.trans hnext, ?_, fun a hlo hhi => ?_⟩
    · simp only [VpageScan.behind, hc.start]
      exact (if_neg (by omega)).symm
    · simp only [VpageScan.behind, hwrap] at hhi
      by_cases hold : a < c.addr
      · exact hc.unmapped a hlo hold
      · exact ⟨_, _, h.of_block hrv hl hal (by omega) hhi, invalid⟩
  | newTable free invalid lvl_lt large alloc =>
    obtain ⟨-, own', base, hle, inv', new⟩ := inv.allocPt wf has h invalid alloc
    have hlvl : ∀ {b l q}, PtEntry as.pt s'.mem b l q → l < 3 := fun hq =>
      (inv'.slot (has.mono hle) hq).lvl_lt
    exact ⟨own', hle, inv', { hc with
      unmapped := fun a hlo hhi => (hc.unmapped a hlo hhi).newPt hrv new hlvl }⟩
  | table free table => exact ⟨own, .refl own, inv, { hc with }⟩

/-- The inner loop fails, or comes to an entry with nothing mapped on its way. -/
theorem OwnerInv.vpageTable {left : Nat} (hc : c.Ok as s.mem at_ n)
    (hidx : 0 < c.lvl → ptGetpteindexByVa as.pt c.addr c.lvl + (left + 1) ≤ 512)
    (hpte : c.count < n → PtEntry as.pt s.mem c.addr c.lvl pte)
    (h : vpageTable clr as at_ n (left + 1) pte c s = .ok (c', s')) :
    ∃ own', own.Le own' ∧ OwnerInv G own' s' ∧ (c'.failed = true ∧ c'.vpage = 0 ∨
      c'.Ok as s'.mem at_ n ∧ (c'.count < n → ∃ q, PtEntry as.pt s'.mem c'.addr c'.lvl q)) := by
  induction left using Nat.strong_induction_on generalizing own s c pte with
  | _ left ih =>
  by_cases hlt : c.count < n
  swap
  · rw [Bao.vpageTable, if_neg hlt] at h
    cases h
    exact ⟨own, .refl own, inv, .inr ⟨hc, fun h => absurd h hlt⟩⟩
  have hrv := has.rv64
  have hentry := hpte hlt
  have hl := (inv.slot has hentry).lvl_lt
  obtain ⟨-, -, e, -, herr⟩ | ⟨-, c₁, hok, hfailed⟩ | ⟨c₁, s₁, q, hstep, hgo, hlvl, hq, hok⟩ |
    ⟨c₁, hstep, hgo, haddr, hlvl, hcount, hok⟩ :=
      vpageTable_succ clr hrv hl at_ left hc.going hlt hentry fun _ hinv _ _ hok => by
        obtain ⟨-, _, _, -, -, new⟩ := inv.allocPt wf has hentry hinv hok
        exact ⟨new.entry hentry, new.table⟩
  · cases herr.symm.trans h
  · cases hok.symm.trans h
    exact ⟨own, .refl own, inv, .inl hfailed⟩
  · cases hok.symm.trans h
    obtain ⟨own', hle, inv', hc'⟩ := inv.entryStep wf has hat hpage hstop hlt hc hentry hstep
    exact ⟨own', hle, inv', .inr ⟨hc', fun _ => ⟨q, hq⟩⟩⟩
  obtain ⟨own', hle, inv', hc'⟩ := inv.entryStep wf has hat hpage hstop hlt hc hentry hstep
  obtain ⟨lvl', addr', count, vpage, failed⟩ := c₁
  dsimp only at haddr hlvl hgo hcount hok
  subst haddr hlvl hgo
  rw [hok] at h
  cases left with
  | zero =>
    cases h
    exact ⟨own', hle, inv', .inr ⟨⟨rfl, hc'.le, hc'.addr, hc'.vpage, hc'.unmapped⟩,
      fun _ => ⟨_, .root⟩⟩⟩
  | succ left =>
    rw [if_neg (Nat.succ_ne_zero left)] at h
    -- The next entry belongs to the next block as long as there are pages to look for.
    have hin : count < n ∨ 0 < c.lvl →
        ptGetpteindexByVa as.pt c.addr c.lvl + 1 < ptNentries as.pt c.lvl := by
      intro hmore
      rcases Nat.eq_zero_or_pos c.lvl with h0 | h0
      · have haddr := hc.addr
        rw [hrv.index hl, h0, has.nentries_zero, hrv.lvlsize (by decide)]
        simp only [h0, lvlPages, pageSize] at *
        omega
      · rw [hrv.nentries h0 hl]
        omega
    obtain ⟨own₂, hle₂, hrest⟩ := ih left (Nat.lt_succ_self left) inv' (has.mono hle)
      (c := ⟨c.lvl, u64 (c.addr + ptLvlsize as.pt c.lvl), count, vpage, false⟩)
      ⟨rfl, hc'.le, hc'.addr, hc'.vpage, hc'.unmapped⟩
      (fun h0 => by
        have := hidx h0
        rw [(Scan.entry_behind hrv hl hentry (hin (.inr h0))).2]
        omega)
      (fun hlt' => (Scan.entry_behind hrv hl hentry (hin (.inl hlt'))).1) h
    exact ⟨own₂, hle.trans hle₂, hrest⟩

/-- The search ends without success, or has seen that none of the `n` pages is mapped. -/
theorem OwnerInv.vpageSearch {sec : Section} {rounds : Nat} (hc : c.Ok as s.mem at_ n)
    (hentry : c.count < n → ∃ q, PtEntry as.pt s.mem c.addr c.lvl q)
    (h : vpageSearch clr as sec at_ n rounds c s = .ok (c', s')) :
    ∃ own', own.Le own' ∧ OwnerInv G own' s' ∧
      (c'.failed = true ∧ c'.vpage = 0 ∨ c'.Ok as s'.mem at_ n ∧ n ≤ c'.count) := by
  induction rounds generalizing own s c with
  | zero => cases h
  | succ rounds ih =>
    simp only [Bao.vpageSearch] at h
    split at h
    swap
    · rename_i hdone
      cases h
      refine ⟨own, .refl own, inv, .inr ⟨hc, Nat.le_of_not_lt fun hlt => hdone ⟨hlt, ?_⟩⟩⟩
      rw [hc.going]; rfl
    rename_i hgo
    split at h
    · cases h
      exact ⟨own, .refl own, inv, .inl ⟨rfl, rfl⟩⟩
    split at h
    · cases h
    obtain ⟨pte, hpte⟩ := hentry hgo.1
    have hl := (inv.slot has hpte).lvl_lt
    have hindex := has.rv64.getpteindex_lt hl pte
    obtain ⟨left, hleft⟩ := Nat.exists_eq_succ_of_ne_zero
      (show ptNentries as.pt c.lvl - ptGetpteindex as.pt pte c.lvl ≠ 0 by omega)
    simp only [hpte.getPte, hleft] at h
    split at h
    · cases h
    rename_i c₁ s₁ htable
    obtain ⟨own₁, hle, inv₁, hfailed | ⟨hc₁, hentry₁⟩⟩ := inv.vpageTable wf has hat hpage hstop hc
      (fun h0 => by
        rw [← Nat.succ_eq_add_one, ← hleft]
        exact hpte.index_add_left has.rv64 hl h0) (fun _ => hpte) htable
    · -- Nothing more happens after a failure.
      refine ⟨own₁, hle, ?_⟩
      cases rounds with
      | zero => cases h
      | succ rounds =>
        simp only [Bao.vpageSearch, hfailed.1, Bool.not_true, Bool.false_eq_true, and_false,
          if_false] at h
        cases h
        exact ⟨inv₁, .inl hfailed⟩
    · obtain ⟨own', hle', hrest⟩ := ih inv₁ (has.mono hle) hc₁ hentry₁ h
      exact ⟨own', hle.trans hle', hrest⟩

end Search

/-! ## The reservation -/

theorem OwnerInv.vpageReserve (inv : OwnerInv G own s) (has : VmAs own vm as)
    {at_ n left addr count : Nat} (haddr : addr = at_ + count * pageSize)
    (hunmapped : ∀ a, at_ ≤ a → a < at_ + n * pageSize → Unmapped as.pt s.mem a)
    (h : vpageReserve as n left addr count s = some s') : OwnerInv G own s' := by
  induction left generalizing s addr count with
  | zero => cases h; exact inv
  | succ left ih =>
    rw [Bao.vpageReserve, has.rv64.lvls] at h
    split at h
    swap
    · cases h; exact inv
    rename_i hlt
    have hmul := Nat.mul_lt_mul_of_pos_right hlt (show 0 < pageSize by decide)
    obtain ⟨lvl, pte, hentry, hinvalid⟩ := hunmapped addr (by omega) (by omega)
    have hslot := inv.slot has hentry
    have hl := hslot.lvl_lt
    rw [hentry.firstInvalid hinvalid (Nat.zero_le lvl) (by omega)] at h
    have hnew : pteValid (pteSetRsw (s.mem pte) pteRswRsrv) = false := by
      rw [pteValid_pteSetRsw, hinvalid]
    refine ih (inv.write hslot (.of_invalid hnew)) ?_
      (fun a hlo hhi => (hunmapped a hlo hhi).write hinvalid hnew) h
    rw [has.rv64.lvlsize_div hl, has.rv64.lvlsize_eq hl, haddr, Nat.add_mul, Nat.add_assoc]

/-- `mem_alloc_vpage` at an address of a guest keeps the invariant, and returns null or that
address. -/
theorem OwnerInv.allocVpage (wf : FramesWf G) (inv : OwnerInv G own s) (has : VmAs own vm as)
    {at_ n rounds : Nat} (hpage : at_ % pageSize = 0) (hstop : at_ + n * pageSize ≤ 2 ^ 41)
    (h : memAllocVpage clr as 0 at_ n rounds s = .ok (va, s')) :
    (∃ own', own.Le own' ∧ OwnerInv G own' s') ∧ (va = 0 ∨ va = at_) := by
  simp only [memAllocVpage, has.secs, vmSecs, List.getElem?_cons_zero] at h
  split at h
  · cases h; exact ⟨⟨own, .refl own, inv⟩, .inl rfl⟩
  split at h
  · cases h
  rename_i c s₁ hsearch
  by_cases hat : at_ = 0
  · -- The address 0 is no wish: the whole address space is too short by its own measure.
    subst hat
    have hfail : s₁ = s ∧ c.vpage = 0 := by
      cases rounds with
      | zero => cases hsearch
      | succ rounds =>
        simp only [Bao.vpageSearch, ne_eq, not_true_eq_false, if_false] at hsearch
        split at hsearch
        · rename_i hgo
          rw [if_pos (by simpa [pageOf, u64] using hgo.1)] at hsearch
          cases hsearch
          exact ⟨rfl, rfl⟩
        · cases hsearch
          exact ⟨rfl, rfl⟩
    obtain ⟨rfl, hzero⟩ := hfail
    rw [if_neg (by simp [hzero])] at h
    cases h
    exact ⟨⟨own, .refl own, inv⟩, .inl hzero⟩
  rw [if_pos hat, pageOf_of_mod hpage] at hsearch
  have hstart : VpageScan.Ok { addr := at_ } as s.mem at_ n :=
    ⟨rfl, Nat.zero_le n, by simp, rfl, fun a hlo hhi => absurd hhi (Nat.not_lt.mpr hlo)⟩
  obtain ⟨own₁, hle, inv₁, hres⟩ :=
    inv.vpageSearch wf has hat hpage hstop hstart (fun _ => ⟨_, .root⟩) hsearch
  split at h
  · rename_i hfound
    split at h
    · cases h
    rename_i s₂ hreserve
    cases h
    rcases hres with hfailed | ⟨hok, hcount⟩
    · exact absurd hfailed.2 hfound.1
    have hvpage := hok.vpage_cases.resolve_left hfound.1
    have hcn : c.count = n := Nat.le_antisymm hok.le hcount
    refine ⟨⟨own₁, hle, inv₁.vpageReserve (has.mono hle) (by rw [hvpage]; simp)
      (fun a hlo hhi => hok.unmapped a hlo (by rw [hok.addr, hcn]; exact hhi)) hreserve⟩,
      .inr hvpage⟩
  · cases h
    exact ⟨⟨own₁, hle, inv₁⟩, hres.elim (fun h => .inl h.2) fun h => h.1.vpage_cases⟩

end Bao
