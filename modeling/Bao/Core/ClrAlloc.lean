import Mathlib.Data.List.Nodup
import Bao.Core.PagePoolClr

/-!
# What a coloured allocation takes

`pp_alloc_clr` counts free pages and marks pages in two separate walks. The first page it counts may
have a colour nobody asked for: after a run that was too short the search goes on at the next index
whatever its colour, and its second pass starts at index 0. The marking walk then leaves that page
out and takes one more page at the end, which nobody looked at.

The main result says when the pages it marks were free pages of the pool all the same.
-/

namespace Bao

namespace FirstFrom

variable {next : Nat → Option Nat} {p : Nat → Prop} {i j : Nat}

theorem up (H : FirstFrom next p) (hi : i < 2 ^ 31) (h : next i = some j) :
    i ≤ j ∧ p j ∧ ∀ k, i ≤ k → k < j → ¬ p k := by
  obtain ⟨j', hj', hspec⟩ := H i hi
  obtain rfl : j = j' := Option.some.inj (h.symm.trans hj')
  exact hspec

theorem self (H : FirstFrom next p) (hi : i < 2 ^ 31) (hp : p i) : next i = some i := by
  obtain ⟨j, hj, hle, -, hskip⟩ := H i hi
  rcases Nat.eq_or_lt_of_le hle with rfl | hlt
  · exact hj
  · exact absurd hp (hskip i le_rfl hlt)

/-- From an index that does not satisfy `p`, the walk goes where it goes from the next one. -/
theorem skip (H : FirstFrom next p) (hi : i + 1 < 2 ^ 31) (hp : ¬ p i) : next i = next (i + 1) := by
  obtain ⟨j, hj, hle, hpj, hskip⟩ := H i (by omega)
  obtain ⟨k, hk, hle', hpk, hskip'⟩ := H (i + 1) hi
  have hne : i ≠ j := fun h => hp (h ▸ hpj)
  rw [hj, hk]
  rcases Nat.lt_trichotomy j k with h | h | h
  · exact absurd hpj (hskip' j (by omega) h)
  · rw [h]
  · exact absurd hpk (hskip k (by omega) h)

theorem shift {next' : Nat → Option Nat} {k : Nat} (H : FirstFrom next p)
    (H' : FirstFrom next' fun o => p (k + o)) (hi : k + i < 2 ^ 31) :
    next (k + i) = (next' i).map (k + ·) := by
  obtain ⟨o, ho, hle, hpo, hskip⟩ := H' i (by omega)
  obtain ⟨j, hj, hle', hpj, hskip'⟩ := H (k + i) hi
  rw [hj, ho, Option.map_some, Option.some.injEq]
  rcases Nat.lt_trichotomy j (k + o) with hlt | heq | hlt
  · have hno : ¬ p (k + (j - k)) := hskip (j - k) (by omega) (by omega)
    rw [Nat.add_sub_cancel' (by omega)] at hno
    exact absurd hpj hno
  · exact heq
  · exact absurd hpo (hskip' (k + o) (by omega) hlt)

end FirstFrom

section Search

variable {map : Bitmap} {next : Nat → Option Nat} {p : Nat → Prop}
variable {top n m rounds bound index allocated firstIndex : Nat}

/-! ## The search returns -/

theorem skipTaken_exists (map : Bitmap) (H : FirstFrom next p) (htop : top < 2 ^ 31)
    (hrounds : top - index < rounds) :
    ∃ j, skipTaken map next top rounds index = some j ∧ index ≤ j := by
  induction rounds generalizing index with
  | zero => omega
  | succ rounds ih =>
    rw [skipTaken]
    split
    · rename_i hmore
      obtain ⟨j, hj, hle, -⟩ := H (index + 1) (by omega)
      obtain ⟨k, hk, hjk⟩ := ih (show top - j < rounds by omega)
      exact ⟨k, by rw [hj, Option.bind_some, hk], by omega⟩
    · exact ⟨index, rfl, le_rfl⟩

theorem countFree_exists (map : Bitmap) (n allocated : Nat) (H : FirstFrom next p)
    (htop : top < 2 ^ 31) (hrounds : top - index < rounds) :
    ∃ res, countFree map next top n rounds index allocated = some res ∧ index ≤ res.1 := by
  induction rounds generalizing index allocated with
  | zero => omega
  | succ rounds ih =>
    rw [countFree]
    split
    · rename_i hmore
      obtain ⟨j, hj, hle, -⟩ := H (index + 1) (by omega)
      obtain ⟨res, hres, hjr⟩ := ih (allocated + 1) (show top - j < rounds by omega)
      exact ⟨res, by rw [hj, Option.bind_some, hres], by omega⟩
    · exact ⟨_, rfl, le_rfl⟩

theorem clrPass_exists (map : Bitmap) (n allocated firstIndex : Nat) (H : FirstFrom next p)
    (htop : top < 2 ^ 31) (hbound : top < bound) (hrounds : top - index < rounds) :
    ∃ res, clrPass map next top n bound rounds index allocated firstIndex = some res := by
  induction rounds generalizing index allocated firstIndex with
  | zero => omega
  | succ rounds ih =>
    rw [clrPass]
    split
    · obtain ⟨first, hskip, hle⟩ := skipTaken_exists map H htop
        (show top - index < bound by omega)
      obtain ⟨res, hcount, hle'⟩ := countFree_exists map n 0 H htop
        (show top - first < bound by omega)
      simp only [hskip, hcount, Option.bind_eq_bind, Option.bind_some]
      exact ih _ _ (show top - (res.1 + 1) < rounds by omega)
    · exact ⟨_, rfl⟩

theorem clrSearch_exists (map : Bitmap) {pool : PagePool} (n : Nat) (H : FirstFrom next p)
    (hsize : pool.size < 2 ^ 31) (hlast : pool.last ≤ pool.size) :
    ∃ found, clrSearch map next pool n = some found := by
  obtain ⟨index, hindex, -⟩ := H pool.last (by omega)
  obtain ⟨first, hfirst⟩ := clrPass_exists map n 0 0 H hsize
    (show pool.size < pool.size + n + 1 by omega)
    (show pool.size - index < pool.size + n + 1 by omega)
  simp only [clrSearch, hindex, hfirst, Option.bind_some]
  split
  · exact ⟨_, rfl⟩
  · exact clrPass_exists map n first.1 first.2 H (by omega) (by omega) (by omega)

/-! ## The pages that are counted -/

/-- Counting that gets to `n` has met the page where it started and the pages of the colours behind
it, all of them free. -/
theorem countFree_counted {res : Nat × Nat} (hm : allocated + m + 1 = n)
    (h : countFree map next top n rounds index allocated = some res) (hres : res.2 = n) :
    ∃ counted, clrIndices next m (index + 1) = some counted ∧
      ∀ k ∈ index :: counted, k < top ∧ map k = false := by
  induction rounds generalizing index allocated m with
  | zero => cases h
  | succ rounds ih =>
    rw [countFree] at h
    split at h
    · rename_i hmore
      obtain ⟨j, hj, h⟩ := Option.bind_eq_some_iff.mp h
      cases m with
      | zero => exact ⟨[], rfl, by simpa using ⟨hmore.1, hmore.2.1⟩⟩
      | succ m =>
        obtain ⟨counted, hcounted, hfree⟩ := ih (show allocated + 1 + m + 1 = n by omega) h
        refine ⟨j :: counted, by simp [clrIndices, hj, hcounted], fun k hk => ?_⟩
        rcases List.mem_cons.mp hk with rfl | hk
        · exact ⟨hmore.1, hmore.2.1⟩
        · exact hfree k hk
    · cases h
      dsimp only at hres
      omega

/-- A pass that finds `m + 1` pages has counted them from `first_index` on. -/
theorem clrPass_counted {res : Nat × Nat} (hstart : allocated ≠ m + 1)
    (h : clrPass map next top (m + 1) bound rounds index allocated firstIndex = some res)
    (hres : res.1 = m + 1) :
    ∃ counted, clrIndices next m (res.2 + 1) = some counted ∧
      ∀ k ∈ res.2 :: counted, k < top ∧ map k = false := by
  induction rounds generalizing index allocated firstIndex with
  | zero => cases h
  | succ rounds ih =>
    rw [clrPass] at h
    split at h
    · obtain ⟨first, -, h⟩ := Option.bind_eq_some_iff.mp h
      obtain ⟨⟨index', allocated'⟩, hcount, h⟩ := Option.bind_eq_some_iff.mp h
      dsimp only at h
      by_cases hfull : allocated' = m + 1
      · obtain rfl : res = (allocated', first) := by
          cases rounds with
          | zero => cases h
          | succ rounds =>
            rw [clrPass, if_neg (by omega)] at h
            exact (Option.some.inj h).symm
        exact countFree_counted (by omega) hcount hfull
      · exact ih hfull h
    · cases h
      exact absurd hres hstart

theorem clrSearch_counted {pool : PagePool} (hsize : pool.size ≤ top) (hlast : pool.last ≤ top)
    (h : clrSearch map next pool (m + 1) = some (m + 1, firstIndex)) :
    ∃ counted, clrIndices next m (firstIndex + 1) = some counted ∧
      ∀ k ∈ firstIndex :: counted, k < top ∧ map k = false := by
  obtain ⟨index, -, h⟩ := Option.bind_eq_some_iff.mp h
  obtain ⟨first, hfirst, h⟩ := Option.bind_eq_some_iff.mp h
  split at h
  · rename_i hfound
    cases h
    obtain ⟨counted, hcounted, hfree⟩ := clrPass_counted (by omega) hfirst rfl
    exact ⟨counted, hcounted, fun k hk => ⟨(hfree k hk).1.trans_le hsize, (hfree k hk).2⟩⟩
  · rename_i hmissed
    obtain ⟨counted, hcounted, hfree⟩ := clrPass_counted hmissed h rfl
    exact ⟨counted, hcounted, fun k hk => ⟨(hfree k hk).1.trans_le hlast, (hfree k hk).2⟩⟩

end Search

/-! ## The pages that are marked -/

section Marked

variable {next : Nat → Option Nat} {p : Nat → Prop} {n m i : Nat} {pages : List Nat}

/-- A walk whose indices fit the `int` can be continued. -/
theorem clrIndices_extend (H : FirstFrom next p) (hi : i < 2 ^ 31)
    (h : clrIndices next n i = some pages) (hsmall : ∀ k ∈ pages, k + 1 < 2 ^ 31) :
    ∃ last, clrIndices next (n + 1) i = some (pages ++ [last]) := by
  induction n generalizing i pages with
  | zero =>
    cases h
    obtain ⟨j, hj, -⟩ := H i hi
    exact ⟨j, by simp [clrIndices, hj]⟩
  | succ n ih =>
    obtain ⟨j, rest, hj, hrest, rfl⟩ := clrIndices_succ h
    obtain ⟨hj31, hsmall⟩ := List.forall_mem_cons.mp hsmall
    obtain ⟨last, hlast⟩ := ih hj31 hrest hsmall
    exact ⟨last, by rw [clrIndices, hj, Option.bind_some, hlast]; rfl⟩

/-- The marking walk from the first counted page. It marks the counted pages when that page has one
of the colours, and otherwise the counted pages without it and one page more. -/
theorem clrIndices_marked {counted : List Nat} (H : FirstFrom next p)
    (hcounted : clrIndices next m (i + 1) = some counted)
    (hsmall : ∀ k ∈ i :: counted, k + 1 < 2 ^ 31) :
    ∃ init last, clrIndices next (m + 1) i = some (init ++ [last]) ∧
      (∀ k ∈ init, k ∈ i :: counted) ∧ (p i → last ∈ i :: counted) := by
  obtain ⟨hi, hsmall⟩ := List.forall_mem_cons.mp hsmall
  by_cases hp : p i
  · refine ⟨(i :: counted).dropLast, (i :: counted).getLast (by simp), ?_,
      fun k hk => List.mem_of_mem_dropLast hk, fun _ => List.getLast_mem _⟩
    rw [List.dropLast_append_getLast, clrIndices, H.self (by omega) hp, Option.bind_some, hcounted]
    rfl
  · obtain ⟨last, hlast⟩ := clrIndices_extend H hi hcounted hsmall
    refine ⟨counted, last, ?_, fun k hk => List.mem_cons_of_mem _ hk, fun h => absurd h hp⟩
    rw [← hlast, clrIndices, clrIndices, H.skip hi hp]

theorem writeClr_exists (v : Bool) (g : PoolGeom) (bits : Bitmap)
    (h : clrIndices next n i = some pages) : ∃ res, writeClr v next g n bits i = some res := by
  induction n generalizing i bits pages with
  | zero => exact ⟨_, rfl⟩
  | succ n ih =>
    obtain ⟨j, rest, hj, hrest, rfl⟩ := clrIndices_succ h
    rw [writeClr, hj, Option.bind_some]
    exact ih _ hrest

theorem clrIndices_all (H : FirstFrom next p) (hi : i < 2 ^ 31)
    (h : clrIndices next n i = some pages)
    (hsmall : ∀ k ∈ pages.dropLast, k + 1 < 2 ^ 31) : ∀ k ∈ pages, p k := by
  induction n generalizing i pages with
  | zero => cases h; simp
  | succ n ih =>
    obtain ⟨j, rest, hj, hrest, rfl⟩ := clrIndices_succ h
    have hpj := (H.up hi hj).2.1
    cases rest with
    | nil => simpa using hpj
    | cons k rest =>
      rw [List.dropLast_cons_cons, List.forall_mem_cons] at hsmall
      exact List.forall_mem_cons.mpr ⟨hpj, ih hsmall.1 hrest hsmall.2⟩

end Marked

/-- The request took `n` free pages of the colours: the bits that it has set are those of `n`
different pages of the pool that were free and have one of the colours. -/
def TookClr (clr : Colors) (colors : Nat) (pool : PoolGeom) (n : Nat) (bits bits' : Bitmap) :
    Prop :=
  ∃ pages : List Nat, pages.length = n ∧ pages.Nodup ∧
    (∀ k ∈ pages, k < pool.size ∧ bits (pool.bit k) = false ∧ HasClr clr pool.base colors k) ∧
    ∀ b, bits' b = if b ∈ pages.map pool.bit then true else bits b

theorem PoolGeom.mem_map_bit {pool : PoolGeom} {pages : List Nat} {k : Nat} :
    pool.bit k ∈ pages.map pool.bit ↔ k ∈ pages := by
  rw [List.mem_map]
  constructor
  · rintro ⟨j, hj, heq⟩
    obtain rfl : j = k := by simpa [PoolGeom.bit] using heq
    exact hj
  · exact fun hk => ⟨k, hk, rfl⟩

/-- No other pages than the marked ones can be the pages that were taken, because each of those has
its bit set anew. -/
theorem tookClr_iff {clr : Colors} {colors : Nat} {pool : PoolGeom} {bits bits' : Bitmap}
    {pages : List Nat} (hbits : ∀ b, bits' b = if b ∈ pages.map pool.bit then true else bits b)
    (hgood : (∀ k ∈ pages, k < pool.size) →
      pages.Nodup ∧ ∀ k ∈ pages, HasClr clr pool.base colors k) :
    TookClr clr colors pool pages.length bits bits' ↔
      ∀ k ∈ pages, k < pool.size ∧ bits (pool.bit k) = false := by
  constructor
  · rintro ⟨taken, hlen, hnodup, htaken, hbits'⟩
    have hsub : taken ⊆ pages := by
      intro k hk
      have hset := hbits (pool.bit k)
      rw [hbits', if_pos (PoolGeom.mem_map_bit.mpr hk), (htaken k hk).2.1] at hset
      by_contra hout
      rw [if_neg (mt PoolGeom.mem_map_bit.mp hout)] at hset
      cases hset
    have hperm := (hnodup.subperm hsub).perm_of_length_le hlen.ge
    intro k hk
    obtain ⟨hin, hfree, -⟩ := htaken k (hperm.mem_iff.mpr hk)
    exact ⟨hin, hfree⟩
  · intro hfree
    obtain ⟨hnodup, hclr⟩ := hgood fun k hk => (hfree k hk).1
    exact ⟨pages, rfl, hnodup, fun k hk => ⟨(hfree k hk).1, (hfree k hk).2, hclr k hk⟩, hbits⟩

section Took

variable {clr : Colors} {bits bits' : Bitmap} {pool pool' : PagePool} {n m colors : Nat}
  {pages : Ppages}

/-- The marking walk after a successful search: all its pages but the last one are free pages below
the top of the search, and that one is when the walk begins at a page of the colours. -/
theorem clrSearch_marked {map : Bitmap} {next : Nat → Option Nat} {p : Nat → Prop}
    {firstIndex top : Nat} (H : FirstFrom next p) (htop : top < 2 ^ 31) (hsize : pool.size ≤ top)
    (hlast : pool.last ≤ top) (h : clrSearch map next pool (m + 1) = some (m + 1, firstIndex)) :
    ∃ init last, clrIndices next (m + 1) firstIndex = some (init ++ [last]) ∧
      (∀ k ∈ init, k < top ∧ map k = false) ∧
      (p firstIndex → last < top ∧ map last = false) ∧ firstIndex < top := by
  obtain ⟨counted, hcounted, hfree⟩ := clrSearch_counted hsize hlast h
  obtain ⟨init, last, hpages, hinit, hend⟩ := clrIndices_marked H hcounted
    fun k hk => by have := (hfree k hk).1; omega
  exact ⟨init, last, hpages, fun k hk => hfree k (hinit k hk), fun hp => hfree last (hend hp),
    (hfree firstIndex (by simp)).1⟩

theorem ppAllocClr_exists (bits : Bitmap) (n : Nat)
    (H : FirstFrom (ppNextClr clr pool.base colors) (HasClr clr pool.base colors))
    (hsize : pool.size < 2 ^ 31 - 1) (hlast : pool.last ≤ pool.size) :
    ∃ r, ppAllocClr clr bits pool n colors = some r := by
  obtain ⟨⟨allocated, firstIndex⟩, hsearch⟩ :=
    clrSearch_exists (pool.map bits) n H (by omega) hlast
  rw [ppAllocClr, hsearch, Option.bind_some]
  dsimp only
  split
  · rename_i hfound
    subst hfound
    obtain ⟨marked, hmarked⟩ : ∃ marked,
        clrIndices (ppNextClr clr pool.base colors) allocated firstIndex = some marked := by
      cases allocated with
      | zero => exact ⟨[], rfl⟩
      | succ m =>
        obtain ⟨init, last, hmarked, -⟩ := clrSearch_marked H (by omega) le_rfl hlast hsearch
        exact ⟨_, hmarked⟩
    obtain ⟨res, hres⟩ := writeClr_exists true pool.toPoolGeom bits hmarked
    exact ⟨_, by rw [hres]; rfl⟩
  · exact ⟨none, rfl⟩

/-- What a successful request has taken: the pages of the marking walk, so that it took free pages
of the colours exactly when the last one is free. -/
theorem ppAllocClr_took_iff_last (hclr : clr.num * clr.size ≤ 2 ^ 52)
    (H : FirstFrom (ppNextClr clr pool.base colors) (HasClr clr pool.base colors))
    (hsize : pool.size < 2 ^ 31 - 1) (hlast : pool.last ≤ pool.size)
    (h : ppAllocClr clr bits pool (m + 1) colors = some (some (pages, bits', pool'))) :
    ∃ firstIndex init last,
      clrSearch (pool.map bits) (ppNextClr clr pool.base colors) pool (m + 1) =
        some (m + 1, firstIndex) ∧
      clrIndices (ppNextClr clr pool.base colors) (m + 1) firstIndex = some (init ++ [last]) ∧
      (HasClr clr pool.base colors firstIndex → last < pool.size ∧ pool.map bits last = false) ∧
      firstIndex < pool.size ∧ pool'.last = last + 1 ∧
      (TookClr clr colors pool.toPoolGeom (m + 1) bits bits' ↔
        last < pool.size ∧ pool.map bits last = false) := by
  obtain ⟨firstIndex, marked, hsearch, hmarked, hbits, hbase, hpool⟩ := ppAllocClr_some h
  obtain ⟨init, last, hwalk, hinit, hend, hfirst⟩ :=
    clrSearch_marked H (by omega) le_rfl hlast hsearch
  obtain rfl : marked = init ++ [last] := Option.some.inj (hmarked.symm.trans hwalk)
  dsimp only at hbits hpool
  have hlen : (init ++ [last]).length = m + 1 := clrIndices_length hwalk
  have hgood : (∀ k ∈ init ++ [last], k < pool.size) →
      (init ++ [last]).Nodup ∧ ∀ k ∈ init ++ [last], HasClr clr pool.base colors k := by
    intro hin
    have hsmall : ∀ k ∈ init ++ [last], k + 1 < 2 ^ 31 := fun k hk => by
      have := hin k hk
      omega
    have hsorted := (clrIndices_sorted (fun i j hi hj => le_of_ppNextClr hclr hi hj) hwalk hsmall).1
    exact ⟨hsorted.imp Nat.ne_of_lt, clrIndices_all H (by omega) hwalk fun k hk =>
      hsmall k (List.mem_of_mem_dropLast hk)⟩
  have hsplit : (∀ k ∈ init ++ [last], k < pool.size ∧ bits (pool.bit k) = false) ↔
      last < pool.size ∧ pool.map bits last = false := by
    refine ⟨fun hall => hall last (by simp), fun hend k hk => ?_⟩
    rcases List.mem_append.mp hk with hk | hk
    · exact hinit k hk
    · rwa [List.mem_singleton.mp hk]
  have hiff := tookClr_iff hbits hgood
  rw [hlen, hsplit] at hiff
  exact ⟨firstIndex, init, last, hsearch, hwalk, hend, hfirst, by simp [hpool], hiff⟩

end Took

/-! ## Where the search comes to -/

section Scan

variable (map : Bitmap) (next : Nat → Option Nat) (p : Nat → Prop) (top n s : Nat)

/-- `f` is the first free page on the way from `i` over the pages of the colours. -/
inductive FirstFree : (i f : Nat) → Prop
  | here {i : Nat} (free : map i = false) : FirstFree i i
  | skip {i j f : Nat} (below : i < top) (taken : map i = true) (step : next (i + 1) = some j)
    (rest : FirstFree j f) : FirstFree i f

/-- The page `f` and the next `k` pages of the colours are free pages below `top`, and `e` is the
page of the colours behind them. -/
def ClrRun (f k e : Nat) : Prop :=
  ∃ pages, clrIndices next (k + 1) (f + 1) = some (pages ++ [e]) ∧
    ∀ j ∈ f :: pages, j < top ∧ map j = false

/-- Where a pass of `pp_alloc_clr` from `s` to `top` begins to look for `n` free pages: at `s`, and
behind each taken page that ends a run of free pages which is too short. -/
inductive RunStart : Nat → Prop
  | start : RunStart s
  | behind {i f k e : Nat} (before : RunStart i) (first : FirstFree map next top i f)
    (run : ClrRun map next top f k e) (short : k + 1 < n) (below : e < top)
    (taken : map e = true) : RunStart (e + 1)

/-- The pass comes to a run of `n` free pages that begins at `f`. -/
def RunFound (f : Nat) : Prop :=
  ∃ i k e, RunStart map next top n s i ∧ FirstFree map next top i f ∧
    ClrRun map next top f k e ∧ k + 1 = n

/-- Wherever the pass comes to a run of `n` free pages that begins with a page of another colour,
the page of the colours behind the run is a free page of the pool. -/
def PassOk (size : Nat) : Prop :=
  ∀ i k e, RunStart map next top n s i → ¬ p i → ClrRun map next top i k e → k + 1 = n →
    e < size ∧ map e = false

end Scan

/-- What the bitmap has to be like for a coloured request: the first pass goes from `pp_next_clr` of
`last` to the end of the pool, and if it finds no run, the second one from 0 to `last`. -/
def ClrRunsOk (clr : Colors) (bits : Bitmap) (pool : PagePool) (n colors : Nat) : Prop :=
  let next := ppNextClr clr pool.base colors
  let p := HasClr clr pool.base colors
  ∀ s, next pool.last = some s →
    PassOk (pool.map bits) next p pool.size n s pool.size ∧
      ((¬ ∃ f, RunFound (pool.map bits) next pool.size n s f) →
        PassOk (pool.map bits) next p pool.last n 0 pool.size)

section Scan

variable {map : Bitmap} {next : Nat → Option Nat} {p : Nat → Prop}
variable {top n m s rounds bound index allocated firstIndex i f k e : Nat} {res : Nat × Nat}

theorem FirstFree.eq_or (H : FirstFrom next p) (htop : top < 2 ^ 31 - 1)
    (h : FirstFree map next top i f) : f = i ∨ p f := by
  induction h with
  | here => exact .inl rfl
  | skip below _ step _ ih =>
    rcases ih with rfl | hp
    · exact .inr (H.up (by omega) step).2.1
    · exact .inr hp

theorem FirstFree.le (H : FirstFrom next p) (htop : top < 2 ^ 31 - 1)
    (h : FirstFree map next top i f) : i ≤ f := by
  induction h with
  | here => exact le_rfl
  | skip below _ step _ ih =>
    have := (H.up (by omega) step).1
    omega

theorem FirstFree.skipTaken_eq (h : FirstFree map next top i f) {j : Nat}
    (hskip : skipTaken map next top rounds i = some j) : j = f := by
  induction h generalizing rounds with
  | here free =>
    cases rounds with
    | zero => cases hskip
    | succ rounds =>
      rw [skipTaken, if_neg (by simp [free])] at hskip
      exact (Option.some.inj hskip).symm
  | skip below taken step _ ih =>
    cases rounds with
    | zero => cases hskip
    | succ rounds =>
      rw [skipTaken, if_pos ⟨below, taken⟩, step] at hskip
      exact ih hskip

theorem firstFree_of_skipTaken (h : skipTaken map next top rounds i = some f) (hf : f < top) :
    FirstFree map next top i f := by
  induction rounds generalizing i with
  | zero => cases h
  | succ rounds ih =>
    rw [skipTaken] at h
    split at h
    · rename_i hmore
      obtain ⟨j, hj, h⟩ := Option.bind_eq_some_iff.mp h
      exact .skip hmore.1 hmore.2 hj (ih h)
    · rename_i hdone
      cases h
      exact .here (Bool.eq_false_of_not_eq_true fun htaken => hdone ⟨hf, htaken⟩)

theorem ClrRun.cons {j : Nat} (hf : f < top ∧ map f = false) (hj : next (f + 1) = some j)
    (h : ClrRun map next top j k e) : ClrRun map next top f (k + 1) e := by
  obtain ⟨pages, hpages, hfree⟩ := h
  exact ⟨j :: pages, by rw [clrIndices, hj, Option.bind_some, hpages]; rfl,
    List.forall_mem_cons.mpr ⟨hf, hfree⟩⟩

theorem ClrRun.lt (h : ClrRun map next top f k e) : f < top := by
  obtain ⟨pages, -, hfree⟩ := h
  exact (hfree f (by simp)).1

/-- A run of free pages is counted to its end, when there are not more than asked for and the page
behind it is not counted too. -/
theorem ClrRun.countFree_eq (h : ClrRun map next top f k e) (hle : allocated + k + 1 ≤ n)
    (hend : allocated + k + 1 = n ∨ map e = true)
    (hcount : countFree map next top n rounds f allocated = some res) :
    res = (e, allocated + k + 1) := by
  induction k generalizing f allocated rounds with
  | zero =>
    obtain ⟨pages, hpages, hfree⟩ := h
    obtain ⟨j, rest, hj, hrest, hcons⟩ := clrIndices_succ hpages
    cases hrest
    obtain ⟨rfl, rfl⟩ : pages = [] ∧ e = j := by
      cases pages with
      | nil => exact ⟨rfl, (List.cons.inj hcons).1⟩
      | cons a pages => simp at hcons
    cases rounds with
    | zero => cases hcount
    | succ rounds =>
      obtain ⟨hlt, hf⟩ := hfree f (by simp)
      rw [countFree, if_pos ⟨hlt, hf, by omega⟩, hj, Option.bind_some] at hcount
      cases rounds with
      | zero => cases hcount
      | succ rounds =>
        rw [countFree, if_neg] at hcount
        · exact (Option.some.inj hcount).symm
        · rintro ⟨-, he, hmore⟩
          rcases hend with hfull | htaken
          · omega
          · rw [he] at htaken
            cases htaken
  | succ k ih =>
    obtain ⟨pages, hpages, hfree⟩ := h
    obtain ⟨j, rest, hj, hrest, hcons⟩ := clrIndices_succ hpages
    cases pages with
    | nil =>
      rw [← (List.cons.inj hcons).2] at hrest
      exact absurd (clrIndices_length hrest) (by simp)
    | cons a pages =>
      obtain ⟨rfl, rfl⟩ := List.cons.inj hcons
      cases rounds with
      | zero => cases hcount
      | succ rounds =>
        obtain ⟨⟨hlt, hf⟩, hfree⟩ := List.forall_mem_cons.mp hfree
        rw [countFree, if_pos ⟨hlt, hf, by omega⟩, hj, Option.bind_some] at hcount
        rw [ih ⟨pages, hrest, hfree⟩ (by omega) (hend.imp_left (by omega)) hcount]
        simp only [Prod.mk.injEq, true_and]
        omega

/-- What counting from a free page has met: a run that is long enough, one that ends at a taken
page, or the end of the pass. -/
theorem freeRun_of_countFree (hf : f < top ∧ map f = false) (hlt : allocated < n)
    (hcount : countFree map next top n rounds f allocated = some res) :
    ∃ k, ClrRun map next top f k res.1 ∧ res.2 = allocated + k + 1 ∧ res.2 ≤ n ∧
      (res.2 = n ∨ top ≤ res.1 ∨ map res.1 = true) := by
  induction rounds generalizing f allocated with
  | zero => cases hcount
  | succ rounds ih =>
    rw [countFree, if_pos ⟨hf.1, hf.2, hlt⟩] at hcount
    obtain ⟨j, hj, hcount⟩ := Option.bind_eq_some_iff.mp hcount
    by_cases hmore : j < top ∧ map j = false ∧ allocated + 1 < n
    · obtain ⟨k, hrun, hres, hrest⟩ := ih ⟨hmore.1, hmore.2.1⟩ hmore.2.2 hcount
      exact ⟨k + 1, hrun.cons hf hj, by omega, hrest⟩
    · cases rounds with
      | zero => cases hcount
      | succ rounds =>
        rw [countFree, if_neg hmore] at hcount
        cases hcount
        refine ⟨0, ⟨[], by simp [clrIndices, hj], by simpa using hf⟩, rfl, hlt, ?_⟩
        dsimp only
        by_cases hj : j < top
        · cases hmap : map j with
          | true => exact .inr (.inr rfl)
          | false =>
            have hmore := not_and.mp (not_and.mp hmore hj) hmap
            exact .inl (by omega)
        · exact .inr (.inl (by omega))

theorem RunStart.clrPass_eq (H : FirstFrom next p) (htop : top < 2 ^ 31 - 1)
    (h : RunStart map next top n s i) (hlt : allocated < n)
    (hpass : clrPass map next top n bound rounds s allocated firstIndex = some res) :
    ∃ rounds' allocated' firstIndex', allocated' < n ∧
      clrPass map next top n bound rounds' i allocated' firstIndex' = some res := by
  induction h with
  | start => exact ⟨rounds, allocated, firstIndex, hlt, hpass⟩
  | @behind i f k e _ first run short below taken ih =>
    obtain ⟨rounds', allocated', firstIndex', hlt', hpass'⟩ := ih
    have hle := first.le H htop
    have hf := run.lt
    cases rounds' with
    | zero => cases hpass'
    | succ rounds' =>
      rw [clrPass, if_pos ⟨hlt', by omega⟩] at hpass'
      obtain ⟨j, hskip, hpass'⟩ := Option.bind_eq_some_iff.mp hpass'
      obtain ⟨r, hcount, hpass'⟩ := Option.bind_eq_some_iff.mp hpass'
      rw [first.skipTaken_eq hskip] at hcount hpass'
      rw [run.countFree_eq (by omega) (.inr taken) hcount] at hpass'
      exact ⟨rounds', _, _, by omega, hpass'⟩

theorem RunFound.clrPass_eq (H : FirstFrom next p) (htop : top < 2 ^ 31 - 1)
    (h : RunFound map next top n s f) (hlt : allocated < n)
    (hpass : clrPass map next top n bound rounds s allocated firstIndex = some res) :
    res = (n, f) := by
  obtain ⟨i, k, e, hstart, first, run, hk⟩ := h
  obtain ⟨rounds', allocated', firstIndex', hlt', hpass'⟩ := hstart.clrPass_eq H htop hlt hpass
  have hle := first.le H htop
  have hf := run.lt
  cases rounds' with
  | zero => cases hpass'
  | succ rounds' =>
    rw [clrPass, if_pos ⟨hlt', by omega⟩] at hpass'
    obtain ⟨j, hskip, hpass'⟩ := Option.bind_eq_some_iff.mp hpass'
    obtain ⟨r, hcount, hpass'⟩ := Option.bind_eq_some_iff.mp hpass'
    rw [first.skipTaken_eq hskip] at hcount hpass'
    rw [run.countFree_eq (by omega) (.inl (by omega)) hcount] at hpass'
    dsimp only at hpass'
    cases rounds' with
    | zero => cases hpass'
    | succ rounds' =>
      rw [clrPass, if_neg (by omega)] at hpass'
      rw [← Option.some.inj hpass', ← hk, Nat.zero_add]

theorem FirstFree.free (h : FirstFree map next top i f) : map f = false := by
  induction h with
  | here free => exact free
  | skip _ _ _ _ ih => exact ih

theorem runFound_of_clrPass (hstart : RunStart map next top n s index) (hne : allocated ≠ n)
    (hpass : clrPass map next top n bound rounds index allocated firstIndex = some res)
    (hres : res.1 = n) : RunFound map next top n s res.2 := by
  induction rounds generalizing index allocated firstIndex with
  | zero => cases hpass
  | succ rounds ih =>
    rw [clrPass] at hpass
    split at hpass
    swap
    · cases hpass
      exact absurd hres hne
    rename_i hmore
    obtain ⟨j, hskip, hpass⟩ := Option.bind_eq_some_iff.mp hpass
    obtain ⟨⟨e, k⟩, hcount, hpass⟩ := Option.bind_eq_some_iff.mp hpass
    dsimp only at hpass
    by_cases hj : j < top
    swap
    · -- There is no free page left, and nothing is counted.
      have hk : (e, k) = (j, 0) := by
        cases bound with
        | zero => cases hcount
        | succ bound =>
          rw [countFree, if_neg fun h => hj h.1] at hcount
          exact (Option.some.inj hcount).symm
      obtain ⟨rfl, rfl⟩ := Prod.mk.inj hk
      cases rounds with
      | zero => cases hpass
      | succ rounds =>
        rw [clrPass, if_neg (by omega)] at hpass
        cases hpass
        dsimp only at hres
        omega
    have first := firstFree_of_skipTaken hskip hj
    obtain ⟨k', run, hk, hle, hend⟩ :=
      freeRun_of_countFree ⟨hj, first.free⟩ (by omega) hcount
    dsimp only at run hk hle hend
    by_cases hfull : k = n
    · cases rounds with
      | zero => cases hpass
      | succ rounds =>
        rw [clrPass, if_neg (by omega)] at hpass
        cases hpass
        exact ⟨index, k', e, hstart, first, run, by omega⟩
    · by_cases he : e < top
      · have taken := (hend.resolve_left hfull).resolve_left (by omega)
        exact ih (hstart.behind first run (by omega) he taken) hfull hpass
      · cases rounds with
        | zero => cases hpass
        | succ rounds =>
          rw [clrPass, if_neg (by omega)] at hpass
          cases hpass
          exact absurd hres hfull

section

variable (H : FirstFrom next p) (htop : top < 2 ^ 31 - 1) (hne : allocated < n)
  (hpass : clrPass map next top n bound rounds s allocated firstIndex = some res)

include H htop hne hpass

/-- The marking walk from the run that a pass has found takes free pages of the pool exactly when
the pass is as it should be. -/
theorem passOk_iff (size : Nat) :
    PassOk map next p top n s size ↔
      (res.1 = n → ¬ p res.2 → ∀ pages last,
        clrIndices next n (res.2 + 1) = some (pages ++ [last]) →
          last < size ∧ map last = false) := by
  constructor
  · intro hok hfull hp pages last hpages
    obtain ⟨i, k, e, hstart, first, run, hk⟩ :=
      runFound_of_clrPass .start hne.ne hpass hfull
    rcases first.eq_or H htop with heq | hp'
    · have hrun := run
      obtain ⟨pages', hpages', -⟩ := hrun
      rw [hk, hpages] at hpages'
      obtain ⟨-, heq'⟩ := List.append_inj' (Option.some.inj hpages') rfl
      cases heq'
      exact hok i k last hstart (heq ▸ hp) (heq ▸ run) hk
    · exact absurd hp' hp
  · intro hres i k e hstart hp run hk
    obtain ⟨pages, hpages, hfree⟩ := run
    have hi := hfree i (by simp)
    have hfound : RunFound map next top n s i :=
      ⟨i, k, e, hstart, .here hi.2, ⟨pages, hpages, hfree⟩, hk⟩
    obtain rfl := hfound.clrPass_eq H htop hne hpass
    exact hres rfl hp pages e (hk ▸ hpages)

theorem runFound_iff : (∃ f, RunFound map next top n s f) ↔ res.1 = n := by
  constructor
  · rintro ⟨f, hf⟩
    rw [hf.clrPass_eq H htop hne hpass]
  · intro hfull
    exact ⟨res.2, runFound_of_clrPass .start hne.ne hpass hfull⟩

end

theorem countFree_allocated_le (hle : allocated ≤ n)
    (h : countFree map next top n rounds index allocated = some res) : res.2 ≤ n := by
  induction rounds generalizing index allocated with
  | zero => cases h
  | succ rounds ih =>
    rw [countFree] at h
    split at h
    · obtain ⟨j, -, h⟩ := Option.bind_eq_some_iff.mp h
      exact ih (by omega) h
    · cases h
      exact hle

theorem clrPass_allocated_le (hle : allocated ≤ n)
    (h : clrPass map next top n bound rounds index allocated firstIndex = some res) :
    res.1 ≤ n := by
  induction rounds generalizing index allocated firstIndex with
  | zero => cases h
  | succ rounds ih =>
    rw [clrPass] at h
    split at h
    · obtain ⟨j, -, h⟩ := Option.bind_eq_some_iff.mp h
      obtain ⟨r, hcount, h⟩ := Option.bind_eq_some_iff.mp h
      exact ih (countFree_allocated_le (Nat.zero_le n) hcount) h
    · cases h
      exact hle

end Scan

section Took

variable {clr : Colors} {bits bits' : Bitmap} {pool pool' : PagePool} {n m colors : Nat}
  {pages : Ppages}

theorem clrRunsOk_iff {found : Nat × Nat}
    (H : FirstFrom (ppNextClr clr pool.base colors) (HasClr clr pool.base colors)) (hn : 0 < n)
    (hsize : pool.size < 2 ^ 31 - 1) (hlast : pool.last ≤ pool.size)
    (h : clrSearch (pool.map bits) (ppNextClr clr pool.base colors) pool n = some found) :
    ClrRunsOk clr bits pool n colors ↔ (found.1 = n → ¬ HasClr clr pool.base colors found.2 →
      ∀ pages last, clrIndices (ppNextClr clr pool.base colors) n (found.2 + 1) =
        some (pages ++ [last]) → last < pool.size ∧ pool.map bits last = false) := by
  obtain ⟨s, hs, h⟩ := Option.bind_eq_some_iff.mp h
  obtain ⟨first, hfirst, h⟩ := Option.bind_eq_some_iff.mp h
  have hok₁ := passOk_iff H hsize hn hfirst pool.size
  have hfound := runFound_iff H hsize hn hfirst
  have hruns : ClrRunsOk clr bits pool n colors ↔
      PassOk (pool.map bits) (ppNextClr clr pool.base colors) (HasClr clr pool.base colors)
          pool.size n s pool.size ∧
        (first.1 ≠ n → PassOk (pool.map bits) (ppNextClr clr pool.base colors)
          (HasClr clr pool.base colors) pool.last n 0 pool.size) := by
    simp only [ClrRunsOk, hs, Option.some.injEq, forall_eq', hfound, ne_eq]
  rw [hruns]
  split at h
  · rename_i hfull
    cases h
    rw [hok₁]
    exact and_iff_left fun hne => absurd hfull hne
  · rename_i hmissed
    have hle := clrPass_allocated_le (Nat.zero_le n) hfirst
    rw [← passOk_iff H (by omega) (by omega) h pool.size]
    exact ⟨fun hok => hok.2 hmissed, fun hok => ⟨hok₁.mpr fun hfull => absurd hfull hmissed,
      fun _ => hok⟩⟩

end Took

end Bao
