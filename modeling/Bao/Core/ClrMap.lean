import Bao.Core.Mem
import Bao.Core.PageFree

/-!
# Coloured pages in an address space

`pp_alloc_clr` marks pages in the order of a walk from the base of the pool, and `mem_map` maps
pages in the order of a walk from the base of the pages it is given, which need not have one of
their colours. The two walks meet the same pages. -/

namespace Bao

/-- Pages are mapped one after the other: the entry of each virtual page from `vaddr` on gets the
next physical address. -/
inductive MapsPages (as : AddrSpace) (flags : Word) :
    (vaddr : Nat) → (paddrs : List Nat) → MemState → MemState → Prop
  | nil (vaddr : Nat) (s : MemState) : MapsPages as flags vaddr [] s s
  | cons {vaddr paddr pte : Nat} {paddrs : List Nat} {s s' : MemState}
      (entry : ptGetPte as.pt s.mem (as.pt.dscr.lvls - 1) vaddr = some pte)
      (rest : MapsPages as flags (vaddr + pageSize) paddrs
        (s.write pte (pteSet paddr pteTypePage flags)) s') :
      MapsPages as flags vaddr (paddr :: paddrs) s s'

variable {clr : Colors} {n colors : Nat} {bits : Bitmap}

theorem mapClrLoop_iff {as : AddrSpace} {pp : Ppages} {flags : Word} {left vaddr index : Nat}
    {s s' : MemState} :
    mapClrLoop clr as pp flags left vaddr index s = .ok s' ↔
      ∃ os, clrIndices (ppNextClr clr pp.base pp.colors) left index = some os ∧
        MapsPages as flags vaddr (os.map fun o => pp.base + o * pageSize) s s' := by
  induction left generalizing vaddr index s with
  | zero =>
    rw [mapClrLoop]
    constructor
    · rintro ⟨⟩
      exact ⟨[], rfl, .nil _ _⟩
    · rintro ⟨os, hos, hmaps⟩
      cases hos
      cases hmaps
      rfl
  | succ left ih =>
    rw [mapClrLoop]
    constructor
    · intro h
      split at h
      · rename_i pte o hpte ho
        obtain ⟨os, hos, hmaps⟩ := ih.mp h
        exact ⟨o :: os, by rw [clrIndices, ho, Option.bind_some, hos]; rfl, .cons hpte hmaps⟩
      · cases h
      · cases h
    · rintro ⟨os, hos, hmaps⟩
      obtain ⟨o, rest, ho, hrest, rfl⟩ := clrIndices_succ hos
      cases hmaps with
      | cons hpte hmaps =>
        simp only [hpte, ho]
        exact ih.mpr ⟨rest, hrest, hmaps⟩

/-- The walk of another base that was moved to an index of this one, as far as the indices fit the
`int`. -/
theorem clrIndices_unshift {next next' : Nat → Option Nat} {p : Nat → Prop} {k i : Nat}
    {pages : List Nat} (H : FirstFrom next p) (H' : FirstFrom next' fun o => p (k + o))
    (hi : k + i < 2 ^ 31) (h : clrIndices next n (k + i) = some pages)
    (hsmall : ∀ j ∈ pages.dropLast, j + 1 < 2 ^ 31) :
    ∃ os, clrIndices next' n i = some os ∧ pages = os.map (k + ·) := by
  induction n generalizing i pages with
  | zero =>
    cases h
    exact ⟨[], rfl, rfl⟩
  | succ n ih =>
    obtain ⟨j, rest, hj, hrest, rfl⟩ := clrIndices_succ h
    rw [H.shift H' hi] at hj
    obtain ⟨o, ho, rfl⟩ := Option.map_eq_some_iff.mp hj
    cases n with
    | zero =>
      cases hrest
      exact ⟨[o], by simp [clrIndices, ho], rfl⟩
    | succ n =>
      have hne : rest ≠ [] := List.ne_nil_of_length_eq_add_one (clrIndices_length hrest)
      rw [List.dropLast_cons_of_ne_nil hne, List.forall_mem_cons] at hsmall
      rw [Nat.add_assoc] at hrest
      obtain ⟨os, hos, rfl⟩ := ih hsmall.1 hrest hsmall.2
      exact ⟨o :: os, by rw [clrIndices, ho, Option.bind_some, hos]; rfl, rfl⟩

/-- The indices that `pp_alloc_clr` marks, in the order in which it marks them. -/
def ppAllocClrMarks (clr : Colors) (bits : Bitmap) (pool : PagePool) (n colors : Nat) :
    Option (List Nat) :=
  let next := ppNextClr clr pool.base colors
  (clrSearch (pool.map bits) next pool n).bind fun (allocated, firstIndex) =>
    if allocated = n then clrIndices next n firstIndex else none

theorem ppAllocClr_request {pool : PagePool} {res : Ppages × Bitmap × PagePool}
    (h : ppAllocClr clr bits pool n colors = some (some res)) :
    res.1.size = n ∧ res.1.colors = colors := by
  obtain ⟨⟨allocated, firstIndex⟩, -, h⟩ := Option.bind_eq_some_iff.mp h
  dsimp only at h
  split at h
  · obtain ⟨⟨bits', last⟩, -, h⟩ := Option.map_eq_some_iff.mp h
    cases h
    exact ⟨rfl, rfl⟩
  · cases h

theorem memAllocPpagesClr_request {pools : List PagePool} {r : Ppages} {m : PoolMem}
    (hclr : allClrs clr colors = false) (hn : 0 < n)
    (h : memAllocPpagesClr clr bits colors n false pools = some (r, m)) (hsize : n ≤ r.size) :
    r.size = n ∧ r.colors = colors := by
  induction pools generalizing m with
  | nil =>
    cases h
    exact absurd hsize (by simpa using hn.ne')
  | cons pool pools ih =>
    simp only [memAllocPpagesClr, hclr, Bool.not_false, Bool.and_true, if_true] at h
    obtain ⟨res, hres, h⟩ := Option.bind_eq_some_iff.mp h
    cases res with
    | none =>
      obtain ⟨⟨r', m'⟩, hr, h⟩ := Option.map_eq_some_iff.mp h
      cases h
      exact ih (m := m') hr
    | some res =>
      obtain ⟨pages, bits', pool'⟩ := res
      cases h
      exact ppAllocClr_request hres

theorem ppAllocClr_offsets {pool : PagePool} {firstIndex : Nat} {marked : List Nat}
    (hclr : clr.num * clr.size ≤ 2 ^ 52) (hsize : pool.size < 2 ^ 31) (hlast : pool.last < 2 ^ 31)
    (hsearch : clrSearch (pool.map bits) (ppNextClr clr pool.base colors) pool n =
      some (n, firstIndex))
    (hmarked : clrIndices (ppNextClr clr pool.base colors) n firstIndex = some marked) :
    ∃ os, clrIndices (ppNextClr clr (pool.base + firstIndex * pageSize) colors) n 0 = some os ∧
      marked = os.map (firstIndex + ·) := by
  cases n with
  | zero =>
    cases hmarked
    exact ⟨[], rfl, rfl⟩
  | succ m =>
    obtain ⟨j, -, hj, -, -⟩ := clrIndices_succ hmarked
    have H := firstFrom_of_ppNextClr hclr hj pool.base
    have H' : FirstFrom (ppNextClr clr (pool.base + firstIndex * pageSize) colors) fun o =>
        HasClr clr pool.base colors (firstIndex + o) := by
      have hmoved := firstFrom_of_ppNextClr hclr hj (pool.toPoolGeom.page firstIndex)
      simp only [FirstFrom, hasClr_page] at hmoved
      exact hmoved
    obtain ⟨init, last, hwalk, hinit, -, hfirst⟩ := clrSearch_marked H
      (show 2 ^ 31 - 1 < 2 ^ 31 by decide)
      (by omega) (by omega) hsearch
    obtain rfl : marked = init ++ [last] := Option.some.inj (hmarked.symm.trans hwalk)
    refine clrIndices_unshift H H' (by omega) hmarked fun k hk => ?_
    rw [List.dropLast_concat] at hk
    have := (hinit k hk).1
    omega

/-- The pages that the coloured branch of `mem_map` maps for the result of `pp_alloc_clr` are the
pages of the indices that `pp_alloc_clr` has marked, in the same order. -/
theorem ppAllocClr_mapped (dscr : Cache) {bits bits' : Bitmap} {pool pool' : PagePool}
    {n colors : Nat} {pp : Ppages} (hsize : pool.size < 2 ^ 31) (hlast : pool.last < 2 ^ 31)
    (h : ppAllocClr (cacheEnumerate dscr) bits pool n colors = some (some (pp, bits', pool'))) :
    ∃ marked paddrs, ppAllocClrMarks (cacheEnumerate dscr) bits pool n colors = some marked ∧
      marked.length = n ∧ (∀ b, bits' b = if b ∈ marked.map pool.bit then true else bits b) ∧
      paddrs.map (· / pageSize) = marked.map (pool.base / pageSize + ·) ∧
      ∀ (as : AddrSpace) vaddr flags rounds s s',
        memMapColoured (cacheEnumerate dscr) as vaddr pp n flags rounds s = .ok s' ↔
          ∃ s₁, memInflatePt (cacheEnumerate dscr) as vaddr (n * pageSize) rounds s = .ok s₁ ∧
            MapsPages as flags vaddr paddrs s₁ s' := by
  obtain ⟨firstIndex, marked, hsearch, hmarked, hbits, hbase, -⟩ := ppAllocClr_some h
  obtain ⟨hpages, hcolors⟩ := ppAllocClr_request h
  dsimp only at hbase hpages hcolors
  obtain ⟨os, hos, rfl⟩ := ppAllocClr_offsets (cacheEnumerate_period_le dscr) hsize hlast hsearch
    hmarked
  refine ⟨_, os.map fun o => pp.base + o * pageSize, ?_, clrIndices_length hmarked, hbits, ?_,
    fun as vaddr flags rounds s s' => ?_⟩
  · simp only [ppAllocClrMarks, hsearch, Option.bind_some, if_true, hmarked]
  · rw [List.map_map, List.map_map]
    refine List.map_congr_left fun o _ => ?_
    simp only [Function.comp, hbase]
    rw [Nat.add_assoc, ← Nat.add_mul, Nat.add_mul_div_right _ _ (by decide)]
  · rw [memMapColoured]
    cases hinflate : memInflatePt (cacheEnumerate dscr) as vaddr (n * pageSize) rounds s with
    | error e => simp
    | ok s₁ => simp [mapClrLoop_iff, hpages, hcolors, hbase, hos]

/-- Pages 2 and 6 are taken, and the pages of the even colour that `pp_alloc_clr` marks are 4 and 6,
although the base that it returns is page 3. The pages that are mapped are 4 and 6, too. -/
theorem ppAllocClr_mapped_two :
    let bits : Bitmap := fun b => b = 2 ∨ b = 6
    let pool : PagePool := ⟨⟨0x80000000, 8, 0⟩, 6, 0⟩
    ∃ pp bits' pool', ppAllocClr (cacheEnumerate (twoLevels 64 128)) bits pool 2 1 =
        some (some (pp, bits', pool')) ∧
      ∃ marked paddrs, ppAllocClrMarks (cacheEnumerate (twoLevels 64 128)) bits pool 2 1 =
          some marked ∧ marked = [4, 6] ∧
        paddrs.map (· / pageSize) = marked.map (0x80000000 / pageSize + ·) ∧
        ∀ (as : AddrSpace) vaddr flags rounds s s',
          memMapColoured (cacheEnumerate (twoLevels 64 128)) as vaddr pp 2 flags rounds s = .ok s' ↔
            ∃ s₁, memInflatePt (cacheEnumerate (twoLevels 64 128)) as vaddr (2 * pageSize) rounds
              s = .ok s₁ ∧ MapsPages as flags vaddr paddrs s₁ s' := by
  intro bits pool
  obtain ⟨_, h, ⟨pp, bits', pool'⟩, rfl, -⟩ : ∃ r ∈ ppAllocClr
      (cacheEnumerate (twoLevels 64 128)) bits pool 2 1, ∃ p ∈ r, True := by decide +kernel
  obtain ⟨marked, paddrs, hmarks, -, -, hpages, hmap⟩ :=
    ppAllocClr_mapped (twoLevels 64 128) (by decide) (by decide) h
  refine ⟨pp, bits', pool', h, marked, paddrs, hmarks, ?_, hpages, hmap⟩
  have hfour : ppAllocClrMarks (cacheEnumerate (twoLevels 64 128)) bits pool 2 1 = some [4, 6] := by
    decide +kernel
  exact Option.some.inj (hmarks.symm.trans hfour)

end Bao
