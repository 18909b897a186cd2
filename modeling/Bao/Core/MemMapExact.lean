import Bao.Core.AsState

/-!
# What `mem_map` maps

`mem_map` for given pages without colours, from the state before to the state after: it returns
unless there are no pages for a table, the pages of the range are translated to the given ones, and
no other translation changes. The loops are followed with the translation as a whole, which the
search for the level to map at does not change and which each leaf extends by one block.

The range is taken modulo the range of the root table, in which `mem_translate` does not tell
addresses apart that differ by a multiple of it.
-/

namespace Bao

/-! ## The level to map at -/

/-- What the search of `mem_map` returns: an entry at a level whose blocks fit the addresses and the
length, in a tree with the same translation. -/
structure Found (clr : Colors) (as : AddrSpace) (rel : Bool) (used : Set Nat) (s : MemState)
    (left vaddr paddr lvl pte : Nat) (s' : MemState) : Prop where
  reach : AsReach clr as rel used s s'
  trans : ∀ a, memTranslate as.pt s'.mem a = memTranslate as.pt s.mem a
  entry : PtEntry as.pt s'.mem vaddr lvl pte
  fits : ptLvlsize as.pt lvl ≤ left * pageSize
  vaddr_mod : vaddr % ptLvlsize as.pt lvl = 0
  paddr_mod : paddr % ptLvlsize as.pt lvl = 0

/-- The search goes down to the last level at most, and only tables can be missing, when the address
is not mapped and a page of the range is left. -/
structure Searchable (pt : PageTable) (mem : PhysMem) (left vaddr paddr : Nat) : Prop where
  unmapped : memTranslate pt mem vaddr = none
  left : 0 < left
  vaddr : vaddr % pageSize = 0
  paddr : paddr % pageSize = 0

section Find

variable {clr : Colors} {as : AddrSpace} {rel : Bool} {used : Set Nat} {s : MemState}
  {left vaddr paddr lvl pte : Nat}

theorem Searchable.lvl_lt (h : Searchable as.pt s.mem left vaddr paddr) (hrv : as.pt.Rv64)
    (hl : lvl < 3) (hinv : pteValid (s.mem pte) = false)
    (hmap : ¬ ptPteMappable as (s.mem pte) lvl left vaddr paddr = true) : lvl + 1 < 3 := by
  -- A page can always be mapped.
  by_contra hlast
  obtain rfl : lvl = 2 := by omega
  have hleft := h.left
  have hvaddr := h.vaddr
  have hpaddr := h.paddr
  refine hmap ?_
  simp only [ptPteMappable, hinv, hrv.lvlsize (show 2 < 3 by decide)]
  simp only [pageSize] at hvaddr hpaddr ⊢
  simp [hvaddr, hpaddr]
  omega

theorem AsState.mapFind (left paddr down : Nat) (hs : AsState clr as rel used s)
    (h : PtEntry as.pt s.mem vaddr lvl pte) :
    (∃ lvl' pte' s', memMapFind clr as left vaddr paddr down lvl s = .ok (lvl', pte', s') ∧
      Found clr as rel used s left vaddr paddr lvl' pte' s') ∨
    ∃ e, memMapFind clr as left vaddr paddr down lvl s = .error e ∧
      (lvl + down = 3 → Searchable as.pt s.mem left vaddr paddr → e = .noTable) := by
  induction down generalizing lvl pte s used with
  | zero => exact .inr ⟨_, rfl, fun hlvl _ => absurd (hs.tree.lvl_lt h) (by omega)⟩
  | succ down ih =>
    have hl := hs.tree.lvl_lt h
    simp only [memMapFind, h.getPte, hs.rv64.lvlTerminal hl, if_true]
    by_cases hmap : ptPteMappable as (s.mem pte) lvl left vaddr paddr = true
    · rw [if_pos hmap]
      simp only [ptPteMappable, Bool.and_eq_true, Bool.not_eq_true', decide_eq_true_eq] at hmap
      obtain ⟨⟨⟨-, hfits⟩, hv⟩, hp⟩ := hmap
      exact .inl ⟨lvl, pte, s, rfl, hs.reach, fun _ => rfl, h, hfits, hv, hp⟩
    rw [if_neg hmap]
    by_cases hinv : pteValid (s.mem pte) = false
    · rw [if_pos (by simp [hinv])]
      by_cases hl1 : lvl + 1 < 3
      swap
      · rw [memAllocPt, hs.rv64.lvls, if_pos (by omega)]
        exact .inr ⟨_, rfl, fun _ hsearch => absurd (hsearch.lvl_lt hs.rv64 hl hinv hmap) hl1⟩
      obtain herr | ⟨base, s₁, halloc, hs₁, hgrows, new⟩ := hs.allocPt h hl1 hinv
      · rw [herr]
        exact .inr ⟨_, rfl, fun _ _ => rfl⟩
      rw [halloc]
      have htrans := PtTree.translate_newPt hs.tree hs.rv64 h hl1 new
      obtain ⟨lvl', pte', s', hfind, hfound⟩ | ⟨e, herr, he⟩ :=
        ih hs₁ ((new.entry h).next new.table)
      · obtain ⟨used', hs', hgrows'⟩ := hfound.reach
        exact .inl ⟨lvl', pte', s', hfind, { hfound with
          reach := ⟨used', hs', hgrows.comp hgrows'⟩
          trans := fun a => (hfound.trans a).trans (htrans a) }⟩
      · exact .inr ⟨e, herr, fun hlvl hsearch => he (by omega)
          { hsearch with unmapped := (htrans _).trans hsearch.unmapped }⟩
    · rw [if_neg (by simpa using hinv)]
      cases htable : pteTable (s.mem pte) with
      | false =>
        exact .inr ⟨_, rfl, fun _ hsearch =>
          absurd (hs.tree.invalid_of_unmapped hs.rv64 h htable hsearch.unmapped) hinv⟩
      | true =>
        obtain hok | ⟨e, herr, he⟩ := ih hs (h.next htable)
        · exact .inl hok
        · exact .inr ⟨e, herr, fun hlvl hsearch => he (by omega) hsearch⟩

end Find

/-! ## Leaves -/

/-- A request to `mem_map` that its entries can express: page-aligned, with the valid flag, within
the range of the root table and within the memory that an entry can address. -/
structure MapRequest (pt : PageTable) (va base n : Nat) (flags : Word) : Prop where
  rv64 : pt.Rv64
  va_page : va % pageSize = 0
  base_page : base % pageSize = 0
  window : va % ptSpan pt + n * pageSize ≤ ptSpan pt
  top : base + n * pageSize ≤ 2 ^ 56
  valid : pteValid flags = true

/-- The translation `f` with the first `count` pages of the range mapped. -/
def mappedTo (pt : PageTable) (va base count : Nat) (f : Nat → Option Nat) (a : Nat) : Option Nat :=
  if va % ptSpan pt ≤ a % ptSpan pt ∧ a % ptSpan pt < va % ptSpan pt + count * pageSize then
    some (base + (a % ptSpan pt - va % ptSpan pt))
  else f a

/-- The state of `mem_map` with `count` pages mapped. -/
structure Mapping (pt : PageTable) (va base n : Nat) (f : Nat → Option Nat)
    (c : MapPos) (s : MemState) : Prop where
  tree : PtTree pt s.mem
  count_le : c.count ≤ n
  vaddr : c.vaddr = va + c.count * pageSize
  paddr : c.paddr = base + c.count * pageSize
  trans : ∀ a, memTranslate pt s.mem a = mappedTo pt va base c.count f a

section Fill

variable {as : AddrSpace} {va base n : Nat} {flags : Word}
  {f : Nat → Option Nat} {c : MapPos} {s : MemState} {lvl pte : Nat}

section

variable (req : MapRequest as.pt va base n flags) (m : Mapping as.pt va base n f c s)

include req m

theorem Mapping.vaddr_mod (hc : c.count < n) :
    c.vaddr % ptSpan as.pt = va % ptSpan as.pt + c.count * pageSize := by
  have hwindow := req.window
  rw [m.vaddr, ← Nat.mod_add_mod, Nat.mod_eq_of_lt]
  simp only [pageSize] at *
  omega

theorem Mapping.leaf (h : PtEntry as.pt s.mem c.vaddr lvl pte) (hfits : lvlPages lvl ≤ n - c.count)
    (hvaddr : c.vaddr % ptLvlsize as.pt lvl = 0) (hpaddr : c.paddr % ptLvlsize as.pt lvl = 0) :
    Mapping as.pt va base n f (c.next c.paddr (ptLvlsize as.pt lvl))
      (s.write pte (pteSet c.paddr ptPteType flags)) := by
  have hrv := req.rv64
  have hl := m.tree.lvl_lt h
  have hpos := lvlPages_pos lvl
  have hsize := hrv.lvlsize_eq hl
  have hcount : (c.next c.paddr (ptLvlsize as.pt lvl)).count = c.count + lvlPages lvl := by
    rw [MapPos.next, hrv.lvlsize_div hl]
  have hleaf := pteTable_pteSet_leaf c.paddr flags
  refine ⟨m.tree.write hleaf, ?_, ?_, ?_, fun a => ?_⟩
  · omega
  · rw [hcount, Nat.add_mul, ← hsize, ← Nat.add_assoc, ← m.vaddr]; rfl
  · rw [hcount, Nat.add_mul, ← hsize, ← Nat.add_assoc, ← m.paddr]; rfl
  · have hv := m.vaddr_mod req (by omega)
    have hblock := blockOf_eq_iff hrv hl hvaddr a
    have hbytes : (c.count + lvlPages lvl) * pageSize =
        c.count * pageSize + ptLvlsize as.pt lvl := by
      rw [Nat.add_mul, hsize]
    by_cases hin : blockOf as.pt a lvl = blockOf as.pt c.vaddr lvl
    · obtain ⟨hlo, hhi⟩ := hblock.mp hin
      have htop : c.paddr < 2 ^ 56 := by
        have := req.top
        rw [m.paddr]
        simp only [pageSize] at *
        omega
      have hpage : c.paddr % pageSize = 0 := by
        rw [m.paddr, Nat.add_mul_mod_self_right, req.base_page]
      have hmapped := m.tree.translate_write h hleaf hrv hin
        (pteValid_pteSet_leaf c.paddr req.valid)
      rw [MemState.write, hmapped, pteAddr_pteSet_leaf flags htop hpage,
        Nat.div_mul_cancel (Nat.dvd_of_mod_eq_zero hpaddr),
        mod_lvlsize_of_block hrv hl hvaddr hlo hhi, mappedTo, hcount, hbytes, if_pos (by omega), hv,
        m.paddr]
      congr 1
      omega
    · rw [MemState.write, m.tree.translate_write_of_ne h hrv hin, m.trans, mappedTo, mappedTo,
        hcount, hbytes]
      refine if_congr ?_ rfl rfl
      rw [hblock] at hin
      omega

/-- While there are pages for another block, the next entry is in the same table: below the root the
loop counts the entries of the table, and in the root the range ends before the table does. -/
theorem Mapping.index_lt (hl : lvl < 3) (hcount : c.count + 2 * lvlPages lvl ≤ n)
    (hleft : 0 < lvl → ptGetpteindexByVa as.pt c.vaddr lvl + 1 < 512) :
    ptGetpteindexByVa as.pt c.vaddr lvl + 1 < ptNentries as.pt lvl := by
  have hrv := req.rv64
  rcases Nat.eq_zero_or_pos lvl with rfl | hpos
  · have hpages := lvlPages_pos 0
    have hv := m.vaddr_mod req (by omega)
    have hwindow := req.window
    have hsize := hrv.lvlsize_eq (show 0 < 3 by decide)
    have hmul := Nat.mul_le_mul_right pageSize hcount
    rw [Nat.add_mul, Nat.mul_assoc, ← hsize] at hmul
    have := hrv.lvlsize_pos (show 0 < 3 by decide)
    exact index_lt_of_room hrv (by omega)
  · rw [hrv.nentries hpos hl]
    exact hleft hpos

end

/-- What the inner loop of `mem_map` does: it maps blocks of the level, at least one if there are
pages for it, and keeps the ways down to the level. It makes no new ways, and writes to entries
only. -/
structure Filled (pt : PageTable) (va base n : Nat) (f : Nat → Option Nat)
    (lvl : Nat) (c : MapPos) (s : MemState) (c' : MapPos) (s' : MemState) : Prop where
  mapping : Mapping pt va base n f c' s'
  count_le : c.count ≤ c'.count
  pools : s'.pools = s.pools
  entries : ∀ {a j q}, j ≤ lvl → PtEntry pt s.mem a j q → PtEntry pt s'.mem a j q
  old : ∀ {a j q}, PtEntry pt s'.mem a j q → PtEntry pt s.mem a j q
  other : ∀ b, (∀ {a j q}, PtEntry pt s.mem a j q → b ≠ q) → s'.mem b = s.mem b

theorem memMapFill_filled (clr : Colors) {left : Nat} (req : MapRequest as.pt va base n flags)
    (m : Mapping as.pt va base n f c s) (hl : lvl < 3)
    (hentry : 0 < left → lvlPages lvl ≤ n - c.count → PtEntry as.pt s.mem c.vaddr lvl pte)
    (hvaddr : c.vaddr % ptLvlsize as.pt lvl = 0) (hpaddr : c.paddr % ptLvlsize as.pt lvl = 0)
    (hleft : 0 < lvl → ptGetpteindexByVa as.pt c.vaddr lvl + left ≤ 512) :
    ∃ c' s', memMapFill clr as true n flags lvl left pte c s = .ok (c', s') ∧
      Filled as.pt va base n f lvl c s c' s' ∧
      (0 < left → lvlPages lvl ≤ n - c.count → c.count < c'.count) := by
  have hrv := req.rv64
  have hpos := lvlPages_pos lvl
  induction left generalizing c s pte with
  | zero =>
    exact ⟨c, s, rfl, ⟨m, le_rfl, rfl, fun _ h => h, fun h => h, fun _ _ => rfl⟩,
      fun h => absurd h (by omega)⟩
  | succ left ih =>
    simp only [memMapFill, hrv.lvlsize_div hl, if_true]
    by_cases hcond : c.count < n ∧ lvlPages lvl ≤ n - c.count
    · rw [if_pos hcond]
      have h := hentry (by omega) hcond.2
      have m₁ := m.leaf req h hcond.2 hvaddr hpaddr
      have hcount : (c.next c.paddr (ptLvlsize as.pt lvl)).count = c.count + lvlPages lvl := by
        rw [MapPos.next, hrv.lvlsize_div hl]
      have hentry₁ : 0 < left →
          lvlPages lvl ≤ n - (c.next c.paddr (ptLvlsize as.pt lvl)).count →
          PtEntry as.pt (s.write pte (pteSet c.paddr ptPteType flags)).mem
            (c.next c.paddr (ptLvlsize as.pt lvl)).vaddr lvl (pte + 8) := by
        intro hmore hfits
        have hnext := h.next_block hrv hl (m.index_lt req hl (by omega) fun h0 => by
          omega)
        exact m.tree.entry_write h le_rfl hnext
      have hleft₁ : 0 < lvl →
          ptGetpteindexByVa as.pt (c.vaddr + ptLvlsize as.pt lvl) lvl + left ≤ 512 := by
        intro h0
        have hle := hleft h0
        have hnent := hrv.nentries h0 hl
        rcases Nat.eq_zero_or_pos left with rfl | hmore
        · have := hrv.index_lt hl (c.vaddr + ptLvlsize as.pt lvl)
          omega
        · rw [hrv.index_next hl (by omega)]
          omega
      obtain ⟨c', s', hfill, hfilled, -⟩ := ih m₁ hentry₁
        ((Nat.add_mod_right _ _).trans hvaddr) ((Nat.add_mod_right _ _).trans hpaddr) hleft₁
      have hle := hfilled.count_le
      have hleaf := pteTable_pteSet_leaf c.paddr flags
      refine ⟨c', s', hfill, ⟨hfilled.mapping, by omega, hfilled.pools, fun hj hq =>
        hfilled.entries hj (m.tree.entry_write h hj hq), fun hq =>
        PtTree.entry_of_write hleaf (hfilled.old hq), fun b hb => ?_⟩, fun _ _ => by omega⟩
      rw [hfilled.other b fun hq => hb (PtTree.entry_of_write hleaf hq), s.write_of_ne (hb h)]
    · rw [if_neg hcond]
      exact ⟨c, s, rfl, ⟨m, le_rfl, rfl, fun _ h => h, fun h => h, fun _ _ => rfl⟩,
        fun _ hfits => absurd ⟨by omega, hfits⟩ hcond⟩

end Fill

/-! ## The whole range -/

section Loop

variable {clr : Colors} {as : AddrSpace} {rel : Bool} {used : Set Nat} {va base n : Nat}
  {flags : Word} {f : Nat → Option Nat} {c c' : MapPos} {s s' : MemState} {lvl : Nat}

theorem Filled.grows {pt : PageTable} (filled : Filled pt va base n f lvl c s c' s') :
    Grows pt used s used s' where
  subset := subset_rfl
  frames := by
    rintro g ⟨a, j, q, hq, rfl⟩
    exact .inl (filled.old hq).mem_tableFrames
  keeps b _ hno := filled.other b fun hq heq => hno (heq ▸ PtEntry.mem_tableFrames hq)

theorem Filled.asState (filled : Filled as.pt va base n f lvl c s c' s')
    (hs : AsState clr as rel used s) : AsState clr as rel used s' where
  rv64 := hs.rv64
  tree := filled.mapping.tree
  frames := by
    rintro g ⟨a, j, q, hq, rfl⟩
    exact hs.frames (filled.old hq).mem_tableFrames
  fresh := filled.pools ▸ hs.fresh

theorem Mapping.start (tree : PtTree as.pt s.mem) (va base n : Nat) :
    Mapping as.pt va base n (memTranslate as.pt s.mem) ⟨va, base, 0⟩ s :=
  ⟨tree, Nat.zero_le n, by simp, by simp, fun a => by
    rw [mappedTo, if_neg]
    dsimp only
    omega⟩

theorem Mapping.searchable (req : MapRequest as.pt va base n flags)
    (hnone : ∀ a, va % ptSpan as.pt ≤ a % ptSpan as.pt →
      a % ptSpan as.pt < va % ptSpan as.pt + n * pageSize → f a = none)
    (m : Mapping as.pt va base n f c s) (hc : c.count < n) :
    Searchable as.pt s.mem (n - c.count) c.vaddr c.paddr := by
  have hv := m.vaddr_mod req hc
  refine ⟨?_, by omega, ?_, ?_⟩
  · rw [m.trans, mappedTo, if_neg (by omega), hnone _ (by omega)]
    simp only [pageSize] at *
    omega
  · rw [m.vaddr, Nat.add_mul_mod_self_right, req.va_page]
  · rw [m.paddr, Nat.add_mul_mod_self_right, req.base_page]

/-- The loop of `mem_map` for given pages maps the rest of the range, a block or more in each
round. -/
theorem AsState.mapLoop (rounds : Nat) (req : MapRequest as.pt va base n flags)
    (hs : AsState clr as rel used s) (m : Mapping as.pt va base n f c s) :
    (∃ s', memMapLoop clr as true n flags rounds c s = .ok s' ∧ AsReach clr as rel used s s' ∧
      ∀ a, memTranslate as.pt s'.mem a = mappedTo as.pt va base n f a) ∨
    ∃ e, memMapLoop clr as true n flags rounds c s = .error e ∧
      ((∀ a, va % ptSpan as.pt ≤ a % ptSpan as.pt →
        a % ptSpan as.pt < va % ptSpan as.pt + n * pageSize → f a = none) →
        n - c.count < rounds → e = .noTable) := by
  have hrv := req.rv64
  induction rounds generalizing c s used with
  | zero => exact .inr ⟨_, rfl, fun _ h => absurd h (by omega)⟩
  | succ rounds ih =>
    rw [memMapLoop]
    by_cases hc : c.count < n
    swap
    · rw [if_neg hc]
      have hcount : c.count = n := Nat.le_antisymm m.count_le (by omega)
      exact .inl ⟨s, rfl, hs.reach, fun a => hcount ▸ m.trans a⟩
    rw [if_pos hc, hrv.lvls]
    obtain ⟨lvl, pte, s₁, hfind, found⟩ | ⟨e, herr, he⟩ := hs.mapFind (n - c.count) c.paddr 3
      (show PtEntry as.pt s.mem c.vaddr 0 _ from .root)
    swap
    · simp only [if_true, herr]
      exact .inr ⟨e, rfl, fun hnone _ => he rfl (m.searchable req hnone hc)⟩
    obtain ⟨used₁, hs₁, hgrows⟩ := found.reach
    have hl := hs₁.tree.lvl_lt found.entry
    have m₁ : Mapping as.pt va base n f c s₁ :=
      { m with tree := hs₁.tree, trans := fun a => (found.trans a).trans (m.trans a) }
    have hfits : lvlPages lvl ≤ n - c.count := by
      have hfits := found.fits
      rw [hrv.lvlsize_eq hl] at hfits
      exact Nat.le_of_mul_le_mul_right hfits (by decide)
    have hleft : 0 < ptNentries as.pt lvl - ptGetpteindex as.pt pte lvl := by
      have := hrv.getpteindex_lt hl pte
      omega
    obtain ⟨c', s₂, hfill, filled, hprogress⟩ := memMapFill_filled clr req m₁ hl
      (fun _ _ => found.entry) found.vaddr_mod found.paddr_mod (found.entry.index_add_left hrv hl)
    simp only [if_true, hfind, hfill]
    obtain ⟨s', hok, ⟨used', hs', hgrows'⟩, htrans⟩ | ⟨e, herr, he⟩ :=
      ih (filled.asState hs₁) filled.mapping
    · exact .inl ⟨s', hok, ⟨used', hs', hgrows.comp (filled.grows.comp hgrows')⟩, htrans⟩
    · exact .inr ⟨e, herr, fun hnone hrounds => he hnone (by omega)⟩

/-- `mem_map` of given pages without colours maps the range to the pages, and changes no other
translation. -/
theorem AsState.mapGiven {rounds size : Nat} {ok : Bool} (hs : AsState clr as rel used s)
    (req : MapRequest as.pt va base n flags)
    (hok : memMap clr as va (some ⟨base, size, 0⟩) n flags rounds s = .ok (ok, s')) :
    ok = false ∧ s' = s ∨ AsReach clr as rel used s s' ∧
      ∀ a, memTranslate as.pt s'.mem a =
        mappedTo as.pt va base n (memTranslate as.pt s.mem) a := by
  have hpage : pageOf va = va := Nat.div_mul_cancel (Nat.dvd_of_mod_eq_zero req.va_page)
  simp only [memMap, hpage] at hok
  split at hok
  · cases hok
    exact .inl ⟨rfl, rfl⟩
  obtain ⟨s₁, hloop, heq⟩ := map_eq_ok.mp hok
  cases heq
  obtain ⟨s₂, hok₂, hreach⟩ | ⟨e, herr, -⟩ := hs.mapLoop rounds req (.start hs.tree ..)
  · cases hok₂.symm.trans hloop
    exact .inr hreach
  · cases herr.symm.trans hloop

theorem memMap_true {pp : Option Ppages} {rounds i : Nat} {ok : Bool} (hva : va % pageSize = 0)
    (hfirst : memFindSec as va = some i)
    (hlast : memFindSec as (u64 (va + n * pageSize + (2 ^ 64 - 1))) = some i)
    (hok : memMap clr as va pp n flags rounds s = .ok (ok, s')) : ok = true := by
  have hpage : pageOf va = va := Nat.div_mul_cancel (Nat.dvd_of_mod_eq_zero hva)
  simp only [memMap, hpage, hfirst, hlast, reduceCtorEq, ne_eq, not_true_eq_false, or_self,
    if_false] at hok
  cases hpages : memMapPages clr as va pp n flags rounds s <;> rw [hpages] at hok <;> cases hok
  rfl

end Loop

/-- `mem_map` of given pages without colours, for a range of which nothing is mapped, in an address
space whose tables form a tree, with pools that give fresh pages for tables: unless they have none
for a table, `mem_map` returns 0, the range is mapped to the pages, and the translation of every
address outside the range, taken modulo the range of the root table, is what it was. -/
theorem memMap_exact {clr : Colors} {as : AddrSpace} {rel : Bool} {used : Set Nat} {s : MemState}
    {va base n size : Nat} {flags : Word} (hs : AsState clr as rel used s)
    (req : MapRequest as.pt va base n flags) (hn : 1 ≤ n) (h64 : va + n * pageSize ≤ 2 ^ 64)
    (hsec : ∃ i, memFindSec as va = some i ∧ memFindSec as (va + n * pageSize - 1) = some i)
    (hunmapped : ∀ k < n * pageSize, memTranslate as.pt s.mem (va + k) = none) {rounds : Nat}
    (hrounds : n < rounds)
    (hroom : memMap clr as va (some ⟨base, size, 0⟩) n flags rounds s ≠ .error .noTable) :
    ∃ s', memMap clr as va (some ⟨base, size, 0⟩) n flags rounds s = .ok (true, s') ∧
      (∀ k < n * pageSize, memTranslate as.pt s'.mem (va + k) = some (base + k)) ∧
      ∀ a, (∀ k < n * pageSize, a % ptSpan as.pt ≠ (va + k) % ptSpan as.pt) →
        memTranslate as.pt s'.mem a = memTranslate as.pt s.mem a := by
  have hwindow := req.window
  have hpage : pageOf va = va := Nat.div_mul_cancel (Nat.dvd_of_mod_eq_zero req.va_page)
  -- The range modulo the range of the root table is one interval.
  have hmod : ∀ k < n * pageSize, (va + k) % ptSpan as.pt = va % ptSpan as.pt + k := fun k hk => by
    rw [← Nat.mod_add_mod, Nat.mod_eq_of_lt (by omega)]
  have hnone : ∀ a, va % ptSpan as.pt ≤ a % ptSpan as.pt →
      a % ptSpan as.pt < va % ptSpan as.pt + n * pageSize → memTranslate as.pt s.mem a = none := by
    intro a hlo hhi
    have hk : a % ptSpan as.pt - va % ptSpan as.pt < n * pageSize := by omega
    rw [← hunmapped _ hk]
    exact hs.tree.translate_mod req.rv64 (by rw [hmod _ hk]; omega)
  obtain ⟨i, hfirst, hlast⟩ := hsec
  have hend : u64 (va + n * pageSize + (2 ^ 64 - 1)) = va + n * pageSize - 1 := by
    unfold u64
    simp only [pageSize] at *
    omega
  have hmap : memMap clr as va (some ⟨base, size, 0⟩) n flags rounds s =
      (memMapLoop clr as true n flags rounds ⟨va, base, 0⟩ s).map fun s => (true, s) := by
    simp only [memMap, hpage, hend, hfirst, hlast, ne_eq, not_true_eq_false, reduceCtorEq, or_self,
      if_false]
    rfl
  rw [hmap] at hroom ⊢
  obtain ⟨s', hok, -, htrans⟩ | ⟨e, herr, he⟩ :=
    hs.mapLoop rounds req (.start hs.tree va base n)
  swap
  · rw [herr, he hnone (by omega)] at hroom
    exact absurd rfl hroom
  refine ⟨s', by rw [hok]; rfl, fun k hk => ?_, fun a ha => ?_⟩
  · rw [htrans, mappedTo, hmod k hk, if_pos (by omega), Nat.add_sub_cancel_left]
  · rw [htrans, mappedTo, if_neg]
    rintro ⟨hlo, hhi⟩
    refine ha (a % ptSpan as.pt - va % ptSpan as.pt) (by omega) ?_
    rw [hmod _ (by omega)]
    omega

/-- With one page mapped for a guest, three more that lie behind it: the first in the last entry of
the table that is there, the others in a table of their own. The page before keeps its
translation. -/
theorem memMap_exact_behind_page :
    ∃ s₁ s', memMap {} emptyGuest 0x401fe000 (some ⟨0x90000000, 1, 0⟩) 1 pteVmFlags 2 clearState =
        .ok (true, s₁) ∧
      memMap {} emptyGuest 0x401ff000 (some ⟨0xa0000000, 3, 0⟩) 3 pteVmFlags 4 s₁ =
        .ok (true, s') ∧
      memTranslate emptyGuest.pt s'.mem 0x401ff123 = some 0xa0000123 ∧
      memTranslate emptyGuest.pt s'.mem 0x40201fff = some 0xa0002fff ∧
      memTranslate emptyGuest.pt s'.mem 0x401fe000 = some 0x90000000 := by
  have hrv : emptyGuest.pt.Rv64 := .inr rfl
  have hspan : ptSpan emptyGuest.pt = 2 ^ 41 := by decide
  have hclear : ∀ a, memTranslate emptyGuest.pt clearState.mem a = none := fun a => by
    rw [PtEntry.root.translate hrv (by decide) (show pteTable 0 = false by decide)]
    exact if_neg fun h => absurd h.2 (show ¬ pteValid 0 = true by decide)
  have hrun : ((memMap {} emptyGuest 0x401fe000 (some ⟨0x90000000, 1, 0⟩) 1 pteVmFlags 2
      clearState).toOption.map fun r => (r.1, (memMap {} emptyGuest 0x401ff000
        (some ⟨0xa0000000, 3, 0⟩) 3 pteVmFlags 4 r.2).isOk)) = some (true, true) := by
    decide +kernel
  obtain ⟨⟨ok, s₁⟩, hfirst, heq⟩ := Option.map_eq_some_iff.mp hrun
  obtain ⟨rfl, hsecond⟩ := Prod.mk.inj heq
  rw [toOption_eq_some] at hfirst
  have req : MapRequest emptyGuest.pt 0x401fe000 0x90000000 1 pteVmFlags :=
    ⟨hrv, by decide, by decide, by decide, by decide, by decide⟩
  obtain ⟨hfalse, -⟩ | ⟨⟨used, hs, -⟩, htrans⟩ := clearState_as.mapGiven req hfirst
  · cases hfalse
  obtain ⟨s', hmap, hin, hout⟩ := memMap_exact hs
    (⟨hrv, by decide, by decide, by decide, by decide, by decide⟩ :
      MapRequest emptyGuest.pt 0x401ff000 0xa0000000 3 pteVmFlags)
    (by decide) (by decide) ⟨0, by decide, by decide⟩
    (fun k hk => by
      rw [htrans, mappedTo, if_neg, hclear]
      rw [hspan]
      simp only [pageSize] at *
      omega)
    (show 3 < 4 by decide) (ne_error_of_isOk hsecond)
  refine ⟨s₁, s', hfirst, hmap, hin 0x123 (by decide), hin 0x2fff (by decide), ?_⟩
  rw [hout 0x401fe000 fun k hk => ?_, htrans]
  · decide
  · rw [hspan]
    simp only [pageSize] at hk
    omega

/-- The address one range of the root table above the mapped page gets the translation of the page,
although it lies outside the range that is mapped. -/
theorem memMap_maps_alias :
    memTranslate emptyGuest.pt clearState.mem (0x40000000 + 2 ^ 41) = none ∧
      (memMap {} emptyGuest 0x40000000 (some ⟨0x90000000, 1, 0⟩) 1 pteVmFlags 2
        clearState).toOption.map
          (fun r => (r.1, memTranslate emptyGuest.pt r.2.mem (0x40000000 + 2 ^ 41))) =
        some (true, some 0x90000000) := by
  decide +kernel

end Bao
