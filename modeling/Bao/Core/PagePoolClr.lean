import Bao.Core.Cache
import Bao.Core.PagePool

/-!
# Coloured pages

`mem_alloc_ppages` and `mem_free_ppages` in full, with the pages of a pool that have one of the
asked colours. `pp_alloc_clr` walks over the pool with `pp_next_clr`, but steps to the next index
whatever its colour when a run of free pages was too short, and starts its second pass at index 0.
The page it then begins to count with may have another colour; what it marks afterwards are the next
pages of the right colours, free or not.

The loops have a bound on their rounds; `none` says that the function does not return.
-/

namespace Bao

/-- `all_clrs`. The shift of `1ULL` takes its count modulo 64. -/
def allClrs (clr : Colors) (colors : Nat) : Bool :=
  colors = 0 || colors &&& (2 ^ (clr.num % 64) - 1) = 2 ^ (clr.num % 64) - 1

/-- `pp_next_clr` takes its index as an `int` and turns it back into a `uint64_t`. -/
def intIndex (i : Nat) : Nat :=
  if i % 2 ^ 32 < 2 ^ 31 then i % 2 ^ 32 else 2 ^ 64 - 2 ^ 32 + i % 2 ^ 32

def nextClrLoop (clr : Colors) (base colors : Nat) : (rounds index : Nat) → Option Nat
  | 0, _ => none
  | rounds + 1, index =>
    if colors.testBit (ppNextClrColor clr base index) then some index
    else nextClrLoop clr base colors rounds (u64 (index + 1))

/-- `pp_next_clr`. All colours come up in a period of them, and in another one should the index wrap
around. -/
def ppNextClr (clr : Colors) (base colors i : Nat) : Option Nat :=
  nextClrLoop clr base colors (2 * (clr.num * clr.size)) (intIndex i)

section Search

/-! ## Allocation

`next` is `pp_next_clr` for the pool and the colours of the request. -/

variable (map : Bitmap) (next : Nat → Option Nat) (top n : Nat)

/-- The loop to the first free page. -/
def skipTaken : (rounds index : Nat) → Option Nat
  | 0, _ => none
  | rounds + 1, index =>
    if index < top ∧ map index = true then (next (index + 1)).bind (skipTaken rounds)
    else some index

/-- The loop that counts free pages: the index where it ends, and `allocated`. -/
def countFree : (rounds index allocated : Nat) → Option (Nat × Nat)
  | 0, _, _ => none
  | rounds + 1, index, allocated =>
    if index < top ∧ map index = false ∧ allocated < n then
      (next (index + 1)).bind fun index => countFree rounds index (allocated + 1)
    else some (index, allocated)

/-- One pass of the search: `allocated` and `first_index` at its end. -/
def clrPass (bound : Nat) : (rounds index allocated firstIndex : Nat) → Option (Nat × Nat)
  | 0, _, _, _ => none
  | rounds + 1, index, allocated, firstIndex =>
    if allocated < n ∧ index < top then do
      let firstIndex ← skipTaken map next top bound index
      let (index, allocated) ← countFree map next top n bound firstIndex 0
      clrPass bound rounds (index + 1) allocated firstIndex
    else some (allocated, firstIndex)

end Search

/-- The `n` indices that `pp_next_clr` gives one after the other, from `i` on. -/
def clrIndices (next : Nat → Option Nat) : (n i : Nat) → Option (List Nat)
  | 0, _ => some []
  | n + 1, i => (next i).bind fun i => (clrIndices next n (i + 1)).map (i :: ·)

/-- The loop that sets or clears the bits of `n` coloured pages: the bits, and the index behind the
last one. -/
def writeClr (v : Bool) (next : Nat → Option Nat) (g : PoolGeom) :
    (n : Nat) → Bitmap → (index : Nat) → Option (Bitmap × Nat)
  | 0, bits, index => some (bits, index)
  | n + 1, bits, index =>
    (next index).bind fun index =>
      writeClr v next g n (bitmapWrite v bits (g.bit index)) (index + 1)

/-- The two passes of `pp_alloc_clr`, from `last` to the top of the pool and from the bottom to
`last`: `allocated` and `first_index` at the end. -/
def clrSearch (map : Bitmap) (next : Nat → Option Nat) (pool : PagePool) (n : Nat) :
    Option (Nat × Nat) :=
  let bound := pool.size + n + 1
  (next pool.last).bind fun index =>
    (clrPass map next pool.size n bound bound index 0 0).bind fun first =>
      if first.1 = n then some first
      else clrPass map next pool.last n bound bound 0 first.1 first.2

/-- `pp_alloc_clr`: the pages with the updated bitmap memory and pool, or `some none` for the result
`false`. -/
def ppAllocClr (clr : Colors) (bits : Bitmap) (pool : PagePool) (n colors : Nat) :
    Option (Option (Ppages × Bitmap × PagePool)) :=
  let next := ppNextClr clr pool.base colors
  (clrSearch (pool.map bits) next pool n).bind fun (allocated, firstIndex) =>
    if allocated = n then
      (writeClr true next pool.toPoolGeom n bits firstIndex).map fun (bits, last) =>
        some ({ base := pool.base + firstIndex * pageSize, size := n, colors }, bits,
          { pool with free := u64 (pool.free + (2 ^ 64 - n)), last })
    else some none

/-- `mem_alloc_ppages`. -/
def memAllocPpagesClr (clr : Colors) (bits : Bitmap) (colors n : Nat) (aligned : Bool) :
    List PagePool → Option (Ppages × PoolMem)
  | [] => some (⟨0, 0, 0⟩, ⟨bits, []⟩)
  | pool :: pools =>
    let ok := if !allClrs clr colors && !aligned then ppAllocClr clr bits pool n colors
      else some (ppAlloc bits pool n aligned)
    ok.bind fun
      | some (pages, bits, pool) => some (pages, ⟨bits, pool :: pools⟩)
      | none =>
        (memAllocPpagesClr clr bits colors n aligned pools).map fun r =>
          (r.1, ⟨r.2.bits, pool :: r.2.pools⟩)

/-! ## Release -/

/-- `mem_free_ppages` on one pool. For coloured pages it starts at index 0, whatever their base. -/
def freeInPoolClr (clr : Colors) (ppages : Ppages) (bits : Bitmap) (pool : PoolGeom) :
    Option Bitmap :=
  if inRange ppages.base pool.base (pool.size * pageSize) then
    if !allClrs clr ppages.colors then
      (writeClr false (ppNextClr clr pool.base ppages.colors) pool ppages.size bits 0).map Prod.fst
    else some (freeInPool ppages bits pool)
  else some bits

/-- `mem_free_ppages`. -/
def memFreePpagesClr (clr : Colors) (ppages : Ppages) (m : PoolMem) : Option PoolMem :=
  (m.pools.foldlM (fun bits pool => freeInPoolClr clr ppages bits pool.toPoolGeom) m.bits).map
    fun bits => { m with bits }

/-! ## Requests without colours -/

variable {clr : Colors} {colors : Nat}

/-- With all colours, or for an aligned segment, the pages are those of the search without
colours. -/
theorem memAllocPpagesClr_eq {bits : Bitmap} {n : Nat} {aligned : Bool}
    (h : allClrs clr colors = true ∨ aligned = true) (pools : List PagePool) :
    memAllocPpagesClr clr bits colors n aligned pools =
      some (memAllocPpages bits n aligned pools) := by
  have hplain : (!allClrs clr colors && !aligned) = false := by
    rcases h with h | h <;> simp [h]
  induction pools with
  | nil => rfl
  | cons pool pools ih =>
    simp only [memAllocPpagesClr, memAllocPpages, hplain, Bool.false_eq_true, if_false,
      Option.bind_some, ih]
    cases ppAlloc bits pool n aligned <;> rfl

theorem freeInPoolClr_eq {r : Ppages} (h : allClrs clr r.colors = true) (bits : Bitmap)
    (pool : PoolGeom) : freeInPoolClr clr r bits pool = some (freeInPool r bits pool) := by
  unfold freeInPoolClr
  split
  · simp [h]
  · rename_i hrange
    rw [freeInPool, if_neg hrange]

theorem memFreePpagesClr_eq {r : Ppages} (h : allClrs clr r.colors = true) (m : PoolMem) :
    memFreePpagesClr clr r m = some (memFreePpages r m) := by
  simp only [memFreePpagesClr, memFreePpages, freeInPoolClr_eq h]
  have hfold : ∀ (pools : List PagePool) (bits : Bitmap),
      pools.foldlM (fun bits pool => some (freeInPool r bits pool.toPoolGeom)) bits =
        some (pools.foldl (fun bits pool => freeInPool r bits pool.toPoolGeom) bits) := by
    intro pools
    induction pools with
    | nil => exact fun _ => rfl
    | cons pool pools ih => exact fun _ => ih _
  rw [hfold]
  rfl

/-! ## What `pp_next_clr` gives -/

theorem intIndex_of_lt {i : Nat} (h : i < 2 ^ 31) : intIndex i = i := by
  have hmod : i % 2 ^ 32 = i := Nat.mod_eq_of_lt (by omega)
  rw [intIndex, hmod, if_pos h]

section NextClr

variable {clr : Colors} {base colors rounds index i j : Nat}

theorem nextClrLoop_spec (h : nextClrLoop clr base colors rounds index = some j) :
    0 < rounds ∧ colors.testBit (ppNextClrColor clr base j) = true ∧
      (index + rounds ≤ 2 ^ 64 → index ≤ j ∧ j < index + rounds ∧
        ∀ k, index ≤ k → k < j → colors.testBit (ppNextClrColor clr base k) = false) := by
  induction rounds generalizing index with
  | zero => cases h
  | succ rounds ih =>
    rw [nextClrLoop] at h
    split at h
    · rename_i hbit
      cases h
      exact ⟨by omega, hbit, fun _ => ⟨le_rfl, by omega, by omega⟩⟩
    · rename_i hbit
      obtain ⟨hpos, hj, hleast⟩ := ih h
      refine ⟨by omega, hj, fun hbound => ?_⟩
      rw [u64_of_lt (by omega)] at hleast
      obtain ⟨hle, hlt, hskip⟩ := hleast (by omega)
      refine ⟨by omega, by omega, fun k hk hkj => ?_⟩
      rcases Nat.eq_or_lt_of_le hk with rfl | hk
      · exact Bool.eq_false_of_not_eq_true hbit
      · exact hskip k hk hkj

theorem le_of_ppNextClr (hclr : clr.num * clr.size ≤ 2 ^ 52) (hi : i < 2 ^ 31)
    (h : ppNextClr clr base colors i = some j) : i ≤ j := by
  rw [ppNextClr, intIndex_of_lt hi] at h
  exact ((nextClrLoop_spec h).2.2 (by omega)).1

theorem ppNextClr_self (h : ppNextClr clr base colors i = some j) (hj : j < 2 ^ 31) :
    ppNextClr clr base colors j = some j := by
  obtain ⟨hpos, hbit, -⟩ := nextClrLoop_spec h
  obtain ⟨rounds, hr⟩ := Nat.exists_eq_succ_of_ne_zero (Nat.pos_iff_ne_zero.mp hpos)
  rw [ppNextClr, intIndex_of_lt hj, hr, nextClrLoop, if_pos hbit]

theorem nextClrLoop_exists {t : Nat} (ht : t < rounds) (hbound : index + rounds ≤ 2 ^ 64)
    (hbit : colors.testBit (ppNextClrColor clr base (index + t)) = true) :
    ∃ j, nextClrLoop clr base colors rounds index = some j := by
  induction rounds generalizing index t with
  | zero => exact absurd ht (Nat.not_lt_zero t)
  | succ rounds ih =>
    rw [nextClrLoop]
    split
    · exact ⟨index, rfl⟩
    · rename_i hno
      obtain _ | t := t
      · exact absurd hbit hno
      · rw [u64_of_lt (by omega)]
        exact ih (t := t) (by omega) (by omega) (by rwa [Nat.add_right_comm])

/-- The page `k` of a pool at `base` has one of the colours. -/
def HasClr (clr : Colors) (base colors k : Nat) : Prop :=
  colors.testBit (clr.ofPage (base / pageSize + k)) = true

instance (clr : Colors) (base colors k : Nat) : Decidable (HasClr clr base colors k) :=
  inferInstanceAs (Decidable (_ = true))

theorem ppNextClrColor_of_lt (hpos : 0 < clr.num * clr.size) (hclr : clr.num * clr.size ≤ 2 ^ 52)
    (hi : i < 2 ^ 63) : ppNextClrColor clr base i = clr.ofPage (base / pageSize + i) := by
  have hmod (x : Nat) : x / clr.size % clr.num = x % (clr.num * clr.size) / clr.size := by
    rw [Nat.mul_comm, Nat.mod_mul_right_div_self]
  have hlt := Nat.mod_lt (base / pageSize) hpos
  rw [ppNextClrColor, Colors.ofPage, u64_of_lt (by omega), hmod, hmod, Nat.add_mod_mod,
    Nat.add_comm]

theorem exists_ofPage_eq (hpos : 0 < clr.num * clr.size) {c : Nat} (hc : c < clr.num) (x : Nat) :
    ∃ t < clr.num * clr.size, clr.ofPage (x + t) = c := by
  generalize hp : clr.num * clr.size = p at hpos
  have hsize : 0 < clr.size := Nat.pos_of_ne_zero fun h => by simp [h] at hp; omega
  have hx := Nat.mod_lt x hpos
  refine ⟨(c * clr.size + (p - x % p)) % p, Nat.mod_lt _ hpos, ?_⟩
  have hpage : (x + (c * clr.size + (p - x % p)) % p) % p = c * clr.size := by
    have hcp : c * clr.size < p := hp ▸ Nat.mul_lt_mul_of_pos_right hc hsize
    have hsum : x % p + (c * clr.size + (p - x % p)) = c * clr.size + p := by omega
    rw [Nat.add_mod_mod, Nat.add_mod, ← Nat.add_mod, ← Nat.mod_add_mod, hsum, Nat.add_mod_right,
      Nat.mod_eq_of_lt hcp]
  have hmod (y : Nat) : clr.ofPage y = y % p / clr.size := by
    rw [Colors.ofPage, ← hp, Nat.mul_comm, Nat.mod_mul_right_div_self]
  rw [hmod, hpage, Nat.mul_div_cancel _ hsize]

end NextClr

/-- The colours of `cache_enumerate` have a period that fits the address space. -/
theorem cacheEnumerate_period_le (dscr : Cache) :
    (cacheEnumerate dscr).num * (cacheEnumerate dscr).size ≤ 2 ^ 52 := by
  unfold cacheEnumerate cacheCalcColors
  split
  · decide
  · dsimp only
    split
    · decide
    · have hway : dscr.llcWaySize < 2 ^ 64 := u64_lt _
      calc dscr.llcWaySize / pageSize / (dscr.flcWaySize / pageSize) * (dscr.flcWaySize / pageSize)
          ≤ dscr.llcWaySize / pageSize := Nat.div_mul_le_self _ _
        _ ≤ 2 ^ 52 := by simp only [pageSize]; omega

theorem cacheEnumerate_size_pos {dscr : Cache} (h : 0 < (cacheEnumerate dscr).num) :
    0 < (cacheEnumerate dscr).size := by
  unfold cacheEnumerate cacheCalcColors at h ⊢
  split at h
  · rename_i hlvls
    simp [hlvls]
  · dsimp only at h
    split at h
    · rename_i hlvls htype
      simp [hlvls, htype]
    · rename_i hlvls htype
      rw [if_neg hlvls, if_neg htype]
      refine Nat.pos_of_ne_zero fun hzero => ?_
      dsimp only at h hzero
      simp [hzero] at h

/-- `next` returns, for every index that fits the `int`, the first index from there on that
satisfies `p`. -/
def FirstFrom (next : Nat → Option Nat) (p : Nat → Prop) : Prop :=
  ∀ i < 2 ^ 31, ∃ j, next i = some j ∧ i ≤ j ∧ p j ∧ ∀ k, i ≤ k → k < j → ¬ p k

/-- `pp_next_clr` finds the next page of the colours when the mask has a bit of one. -/
theorem ppNextClr_firstFrom {base c : Nat} (hsize : 0 < clr.size)
    (hclr : clr.num * clr.size ≤ 2 ^ 52) (hc : c < clr.num) (hbit : colors.testBit c = true) :
    FirstFrom (ppNextClr clr base colors) (HasClr clr base colors) := by
  intro i hi
  have hpos : 0 < clr.num * clr.size := Nat.mul_pos (by omega) hsize
  obtain ⟨t, ht, hcolour⟩ := exists_ofPage_eq hpos hc (base / pageSize + i)
  have hfound : colors.testBit (ppNextClrColor clr base (i + t)) = true := by
    rw [ppNextClrColor_of_lt hpos hclr (by omega), ← Nat.add_assoc, hcolour, hbit]
  obtain ⟨j, hj⟩ : ∃ j, nextClrLoop clr base colors (2 * (clr.num * clr.size)) i = some j :=
    nextClrLoop_exists (by omega) (by omega) hfound
  obtain ⟨-, hjbit, hleast⟩ := nextClrLoop_spec hj
  obtain ⟨hle, hlt, hskip⟩ := hleast (by omega)
  refine ⟨j, by rw [ppNextClr, intIndex_of_lt hi, hj], hle, ?_, fun k hk hkj hclrk => ?_⟩
  · rwa [ppNextClrColor_of_lt hpos hclr (by omega)] at hjbit
  · have hno := hskip k hk hkj
    rw [ppNextClrColor_of_lt hpos hclr (by omega)] at hno
    rw [HasClr, hno] at hclrk
    cases hclrk

/-! ## Walks over coloured pages -/

section Walk

variable {map : Bitmap} {next : Nat → Option Nat} {top n m rounds bound index i k : Nat}
variable {pages : List Nat}

theorem clrIndices_succ (h : clrIndices next (n + 1) i = some pages) :
    ∃ j rest, next i = some j ∧ clrIndices next n (j + 1) = some rest ∧ pages = j :: rest := by
  obtain ⟨j, hj, hrest⟩ := Option.bind_eq_some_iff.mp h
  obtain ⟨rest, hind, rfl⟩ := Option.map_eq_some_iff.mp hrest
  exact ⟨j, rest, hj, hind, rfl⟩

theorem clrIndices_length (h : clrIndices next n i = some pages) : pages.length = n := by
  induction n generalizing i pages with
  | zero => cases h; rfl
  | succ n ih =>
    obtain ⟨j, rest, -, hrest, rfl⟩ := clrIndices_succ h
    rw [List.length_cons, ih hrest]

theorem clrIndices_sorted (hup : ∀ i j, i < 2 ^ 31 → next i = some j → i ≤ j)
    (h : clrIndices next n i = some pages) (hsmall : ∀ k ∈ pages, k + 1 < 2 ^ 31) :
    pages.Pairwise (· < ·) ∧ (i < 2 ^ 31 → ∀ k ∈ pages, i ≤ k) := by
  induction n generalizing i pages with
  | zero => cases h; simp
  | succ n ih =>
    obtain ⟨j, rest, hj, hrest, rfl⟩ := clrIndices_succ h
    have hj31 := hsmall j (by simp)
    obtain ⟨hsorted, hle⟩ := ih hrest fun k hk => hsmall k (List.mem_cons_of_mem _ hk)
    have hlt : ∀ k ∈ rest, j < k := fun k hk => hle hj31 k hk
    refine ⟨List.pairwise_cons.mpr ⟨hlt, hsorted⟩, fun hi k hk => ?_⟩
    have hij := hup i j hi hj
    rcases List.mem_cons.mp hk with rfl | hk
    · exact hij
    · exact hij.trans (hlt k hk).le

theorem writeClr_eq {v : Bool} {g : PoolGeom} {bits bits' : Bitmap} {last : Nat}
    (h : writeClr v next g n bits i = some (bits', last)) :
    ∃ pages, clrIndices next n i = some pages ∧
      (∀ b, bits' b = if b ∈ pages.map g.bit then v else bits b) ∧
      last = (pages.getLast?.map (· + 1)).getD i := by
  induction n generalizing bits i with
  | zero => cases h; exact ⟨[], rfl, by simp, rfl⟩
  | succ n ih =>
    obtain ⟨j, hj, hrest⟩ := Option.bind_eq_some_iff.mp h
    obtain ⟨rest, hind, hbits, hlast⟩ := ih hrest
    refine ⟨j :: rest, by simp [clrIndices, hj, hind], fun b => ?_, ?_⟩
    · rw [hbits, bitmapWrite, Function.update_apply, List.map_cons]
      by_cases hb : b ∈ rest.map g.bit
      · rw [if_pos hb, if_pos (List.mem_cons_of_mem _ hb)]
      · simp [hb]
    · rw [hlast, List.getLast?_cons]
      cases rest.getLast? <;> rfl

variable {allocated : Nat} {res : Nat × Nat}

theorem countFree_full (hi : next i = some index) (hpages : clrIndices next m i = some pages)
    (hfree : ∀ k ∈ pages, k < top ∧ map k = false) (hn : allocated + m = n)
    (h : countFree map next top n rounds index allocated = some res) : res.2 = n := by
  induction m generalizing i index allocated pages rounds with
  | zero =>
    cases rounds with
    | zero => cases h
    | succ rounds =>
      rw [countFree, if_neg (by omega)] at h
      cases h
      exact hn
  | succ m ih =>
    obtain ⟨j, rest, hj, hrest, rfl⟩ := clrIndices_succ hpages
    obtain rfl : index = j := Option.some.inj (hi.symm.trans hj)
    obtain ⟨htop, hclear⟩ := hfree index (by simp)
    cases rounds with
    | zero => cases h
    | succ rounds =>
      rw [countFree, if_pos ⟨htop, hclear, by omega⟩] at h
      obtain ⟨index', hnext, h⟩ := Option.bind_eq_some_iff.mp h
      exact ih hnext hrest (fun k hk => hfree k (List.mem_cons_of_mem _ hk)) (by omega) h

theorem clrPass_full {firstIndex : Nat} (hi : next i = some index)
    (hpages : clrIndices next n i = some pages) (hfree : ∀ k ∈ pages, k < top ∧ map k = false)
    (hn : 0 < n) (hstart : allocated < n)
    (h : clrPass map next top n bound rounds index allocated firstIndex = some res) :
    res = (n, index) := by
  obtain ⟨m, rfl⟩ := Nat.exists_eq_succ_of_ne_zero (Nat.pos_iff_ne_zero.mp hn)
  obtain ⟨j, rest, hj, -, rfl⟩ := clrIndices_succ hpages
  obtain rfl : index = j := Option.some.inj (hi.symm.trans hj)
  obtain ⟨htop, hclear⟩ := hfree index (by simp)
  cases rounds with
  | zero => cases h
  | succ rounds =>
    rw [clrPass, if_pos ⟨hstart, htop⟩] at h
    obtain ⟨first, hskip, h⟩ := Option.bind_eq_some_iff.mp h
    obtain ⟨⟨index', allocated'⟩, hcount, h⟩ := Option.bind_eq_some_iff.mp h
    obtain rfl : index = first := by
      cases bound with
      | zero => cases hskip
      | succ bound =>
        rw [skipTaken, if_neg (by simp [hclear])] at hskip
        exact Option.some.inj hskip
    have hfull := countFree_full hi hpages hfree (Nat.zero_add _) hcount
    dsimp only at hfull h
    cases rounds with
    | zero => cases h
    | succ rounds =>
      rw [clrPass, if_neg (by omega), hfull] at h
      exact (Option.some.inj h).symm

/-- Counting adds at most the free pages that are left below `top`. -/
theorem countFree_le (htop : top < 2 ^ 31) (hup : ∀ i j, i < 2 ^ 31 → next i = some j → i ≤ j)
    (h : countFree map next top n rounds index allocated = some res) :
    res.2 ≤ allocated + (Nat.count (map · = false) top - Nat.count (map · = false) index) := by
  induction rounds generalizing index allocated with
  | zero => cases h
  | succ rounds ih =>
    rw [countFree] at h
    split at h
    · rename_i hmore
      obtain ⟨index', hnext, h⟩ := Option.bind_eq_some_iff.mp h
      have hle := hup _ _ (show index + 1 < 2 ^ 31 by omega) hnext
      have hrest := ih h
      have hsucc : Nat.count (map · = false) (index + 1) = Nat.count (map · = false) index + 1 := by
        rw [Nat.count_succ, if_pos hmore.2.1]
      have hmono := Nat.count_monotone (map · = false) hle
      have htop' := Nat.count_monotone (map · = false) (show index + 1 ≤ top by omega)
      omega
    · cases h
      exact Nat.le_add_right _ _

/-- A pass ends with the count it was given or with at most the free pages below `top`. -/
theorem clrPass_le {firstIndex : Nat} (htop : top < 2 ^ 31)
    (hup : ∀ i j, i < 2 ^ 31 → next i = some j → i ≤ j)
    (h : clrPass map next top n bound rounds index allocated firstIndex = some res) :
    res.1 = allocated ∨ res.1 ≤ Nat.count (map · = false) top := by
  induction rounds generalizing index allocated firstIndex with
  | zero => cases h
  | succ rounds ih =>
    rw [clrPass] at h
    split at h
    · obtain ⟨first, -, h⟩ := Option.bind_eq_some_iff.mp h
      obtain ⟨⟨index', allocated'⟩, hcount, h⟩ := Option.bind_eq_some_iff.mp h
      have hle := countFree_le htop hup hcount
      have hrest := ih h
      dsimp only at hle hrest
      omega
    · cases h
      exact .inl rfl

end Walk

/-- What `pp_alloc_clr` has done when it succeeds: the search counted `n` pages, and the pages from
there on are marked. -/
theorem ppAllocClr_some {bits : Bitmap} {pool : PagePool} {n : Nat}
    {res : Ppages × Bitmap × PagePool} (h : ppAllocClr clr bits pool n colors = some (some res)) :
    let next := ppNextClr clr pool.base colors
    ∃ firstIndex pages, clrSearch (pool.map bits) next pool n = some (n, firstIndex) ∧
      clrIndices next n firstIndex = some pages ∧
      (∀ b, res.2.1 b = if b ∈ pages.map pool.bit then true else bits b) ∧
      res.1.base = pool.base + firstIndex * pageSize ∧
      res.2.2 = { pool with
        free := u64 (pool.free + (2 ^ 64 - n))
        last := (pages.getLast?.map (· + 1)).getD firstIndex } := by
  intro next
  simp only [ppAllocClr] at h
  obtain ⟨⟨allocated, firstIndex⟩, hsearch, h⟩ := Option.bind_eq_some_iff.mp h
  dsimp only at h
  split at h
  · rename_i hfound
    obtain ⟨⟨bits', last⟩, hwrite, h⟩ := Option.map_eq_some_iff.mp h
    obtain ⟨pages, hpages, hbits, rfl⟩ := writeClr_eq hwrite
    cases h
    exact ⟨firstIndex, pages, by rw [hsearch, hfound], hpages, hbits, rfl, rfl⟩
  · cases h

end Bao
