import Mathlib.Data.Finset.Max
import Bao.Core.ClrAlloc

/-!
# What a release clears

`mem_free_ppages` derives the bits to clear from the base and the colours of the pages, once for
each pool that its range test accepts. For coloured pages it starts at index 0 of the pool instead
of at the base, and the range test also accepts a pool that ends where the pages begin.

The main result says for which pages, and next to which pools, the bits are those of the pages that
`mem_map` maps.
-/

namespace Bao

/-- The pages that `mem_map` maps, as offsets from the base. -/
def Ppages.offsets (clr : Colors) (r : Ppages) : Option (List Nat) :=
  if !allClrs clr r.colors then clrIndices (ppNextClr clr r.base r.colors) r.size 0
  else some (List.range r.size)

/-- The bits that a release clears for one pool. -/
def clearedIn (clr : Colors) (r : Ppages) (g : PoolGeom) : Option (List Nat) :=
  if inRange r.base g.base (g.size * pageSize) then
    if !allClrs clr r.colors then
      (clrIndices (ppNextClr clr g.base r.colors) r.size 0).map (List.map g.bit)
    else some ((List.range r.size).map fun j => g.bit ((r.base - g.base) / pageSize + j))
  else some []

/-- The release returns, and clears the bits of the list and no other bit. -/
def FreesExactly (clr : Colors) (r : Ppages) (m : PoolMem) (cleared : List Nat) : Prop :=
  ∃ m', memFreePpagesClr clr r m = some m' ∧
    ∀ b, m'.bits b = if b ∈ cleared then false else m.bits b

section Cleared

variable {clr : Colors} {r : Ppages} {g : PoolGeom} {k : Nat} {os : List Nat}

theorem freeInPoolClr_eq_clearedIn (bits : Bitmap) (g : PoolGeom) :
    freeInPoolClr clr r bits g =
      (clearedIn clr r g).map fun cleared b => if b ∈ cleared then false else bits b := by
  unfold freeInPoolClr clearedIn
  split
  · split
    · cases hind : clrIndices (ppNextClr clr g.base r.colors) r.size 0 with
      | none =>
        cases hwrite : writeClr false (ppNextClr clr g.base r.colors) g r.size bits 0 with
        | none => rfl
        | some res =>
          obtain ⟨pages, hpages, -⟩ := writeClr_eq hwrite
          rw [hind] at hpages
          cases hpages
      | some pages =>
        obtain ⟨⟨bits', last⟩, hwrite⟩ := writeClr_exists false g bits hind
        obtain ⟨pages', hpages, hbits, -⟩ := writeClr_eq hwrite
        obtain rfl : pages = pages' := Option.some.inj (hind.symm.trans hpages)
        rw [hwrite]
        exact congrArg some (funext hbits)
    · rename_i hrange _
      rw [freeInPool, if_pos hrange]
      refine congrArg some (funext fun b => ?_)
      rw [bitmapClearConsecutive_apply]
      refine if_congr ?_ rfl rfl
      simp only [List.mem_map, List.mem_range, PoolGeom.bit]
      constructor
      · intro hb
        exact ⟨b - (g.bitmap + (r.base - g.base) / pageSize), by omega, by omega⟩
      · rintro ⟨j, hj, rfl⟩
        omega
  · simp

variable {pools : List PagePool} {next : Nat → Option Nat} {p : Nat → Prop} {n : Nat}

theorem foldlM_freeInPoolClr_some {bits bits' : Bitmap}
    (h : pools.foldlM (fun bits pool => freeInPoolClr clr r bits pool.toPoolGeom) bits =
      some bits') :
    (∀ g ∈ geoms pools, ∃ cleared, clearedIn clr r g = some cleared) ∧
      ∀ b, bits' b = true ↔ bits b = true ∧
        ∀ g ∈ geoms pools, ∀ cleared, clearedIn clr r g = some cleared → b ∉ cleared := by
  induction pools generalizing bits with
  | nil =>
    cases h
    simp [geoms]
  | cons pool pools ih =>
    rw [List.foldlM_cons, freeInPoolClr_eq_clearedIn] at h
    obtain ⟨next, hnext, h⟩ := Option.bind_eq_some_iff.mp h
    obtain ⟨cleared, hcleared, rfl⟩ := Option.map_eq_some_iff.mp hnext
    obtain ⟨hall, hbits⟩ := ih h
    simp only [geoms, List.map_cons, List.forall_mem_cons] at hall hbits ⊢
    refine ⟨⟨⟨cleared, hcleared⟩, hall⟩, fun b => ?_⟩
    rw [hbits, hcleared]
    simp only [Option.some.injEq, forall_eq']
    by_cases hb : b ∈ cleared <;> simp [hb]

theorem foldlM_freeInPoolClr_exists (bits : Bitmap)
    (h : ∀ g ∈ geoms pools, ∃ cleared, clearedIn clr r g = some cleared) :
    ∃ bits', pools.foldlM (fun bits pool => freeInPoolClr clr r bits pool.toPoolGeom) bits =
      some bits' := by
  induction pools generalizing bits with
  | nil => exact ⟨bits, rfl⟩
  | cons pool pools ih =>
    simp only [geoms, List.map_cons, List.forall_mem_cons] at h
    obtain ⟨⟨cleared, hcleared⟩, hrest⟩ := h
    rw [List.foldlM_cons, freeInPoolClr_eq_clearedIn, hcleared]
    exact ih _ hrest

/-! ## The bits of one pool -/

variable {i : Nat}

theorem clrIndices_shift {next' : Nat → Option Nat} (H : FirstFrom next p)
    (H' : FirstFrom next' fun o => p (k + o)) (hi : k + i < 2 ^ 31)
    (h : clrIndices next' n i = some os) (hsmall : ∀ o ∈ os, k + o + 1 < 2 ^ 31) :
    clrIndices next n (k + i) = some (os.map (k + ·)) := by
  induction n generalizing i os with
  | zero => cases h; rfl
  | succ n ih =>
    obtain ⟨o, rest, ho, hrest, rfl⟩ := clrIndices_succ h
    obtain ⟨ho31, hsmall⟩ := List.forall_mem_cons.mp hsmall
    rw [clrIndices, H.shift H' hi, ho, Option.map_some, Option.bind_some, Nat.add_assoc,
      ih ho31 hrest hsmall]
    rfl

theorem clrIndices_skip (H : FirstFrom next p) (hk : k < 2 ^ 31) (hno : ∀ i < k, ¬ p i) :
    clrIndices next n 0 = clrIndices next n k := by
  have hnext : next 0 = next k := by
    induction k with
    | zero => rfl
    | succ k ih =>
      rw [ih (by omega) fun i hi => hno i (by omega), H.skip hk (hno k (by omega))]
  cases n with
  | zero => rfl
  | succ n => rw [clrIndices, clrIndices, hnext]

theorem hasClr_page (clr : Colors) (g : PoolGeom) (colors k o : Nat) :
    HasClr clr (g.page k) colors o ↔ HasClr clr g.base colors (k + o) := by
  rw [HasClr, HasClr, PoolGeom.page, Nat.add_mul_div_right _ _ (by decide), Nat.add_assoc]

theorem firstFrom_of_ppNextClr {base colors j : Nat} (hclr : clr.num * clr.size ≤ 2 ^ 52)
    (h : ppNextClr clr base colors i = some j) (base' : Nat) :
    FirstFrom (ppNextClr clr base' colors) (HasClr clr base' colors) := by
  obtain ⟨hpos, hbit, -⟩ := nextClrLoop_spec h
  have hperiod : 0 < clr.num * clr.size := by omega
  exact ppNextClr_firstFrom (Nat.pos_of_mul_pos_left hperiod) hclr
    (Nat.mod_lt _ (Nat.pos_of_mul_pos_right hperiod)) hbit

/-- In a pool with no page of the colours in front of the base, a release clears the bits of the
pages. -/
theorem clearedIn_eq (hclr : clr.num * clr.size ≤ 2 ^ 52) (hbase : r.base = g.page k)
    (hrange : inRange r.base g.base (g.size * pageSize) = true)
    (hos : r.offsets clr = some os) (hk : k < 2 ^ 31) (hsmall : ∀ o ∈ os, k + o + 1 < 2 ^ 31)
    (hno : allClrs clr r.colors = false → ∀ i < k, ¬ HasClr clr g.base r.colors i) :
    clearedIn clr r g = some (os.map fun o => g.bit (k + o)) := by
  rw [clearedIn, if_pos hrange]
  unfold Ppages.offsets at hos
  split at hos
  · rename_i hcoloured
    rw [if_pos hcoloured]
    cases hn : r.size with
    | zero =>
      rw [hn] at hos
      cases hos
      rfl
    | succ n =>
      rw [hn] at hos
      obtain ⟨o, -, ho, -⟩ := clrIndices_succ hos
      have H := firstFrom_of_ppNextClr hclr ho g.base
      have H' : FirstFrom (ppNextClr clr r.base r.colors) fun o =>
          HasClr clr g.base r.colors (k + o) := by
        simpa only [FirstFrom, hbase, hasClr_page] using firstFrom_of_ppNextClr hclr ho r.base
      rw [clrIndices_skip H hk (hno (by simpa using hcoloured)),
        ← Nat.add_zero k, clrIndices_shift H H' hk hos hsmall]
      simp
  · rename_i hplain
    cases hos
    have hindex : (r.base - g.base) / pageSize = k := by
      rw [hbase, PoolGeom.page, Nat.add_sub_cancel_left, Nat.mul_div_cancel _ (by decide)]
    rw [if_neg hplain, hindex]

theorem clearedIn_head {cleared : List Nat} (hclr : clr.num * clr.size ≤ 2 ^ 52)
    (hrange : inRange r.base g.base (g.size * pageSize) = true)
    (hcoloured : allClrs clr r.colors = false) (hn : 0 < r.size) (hi : HasClr clr g.base r.colors i)
    (h : clearedIn clr r g = some cleared) : ∃ j ≤ i, g.bit j ∈ cleared := by
  rw [clearedIn, if_pos hrange, if_pos (by simp [hcoloured])] at h
  obtain ⟨pages, hpages, rfl⟩ := Option.map_eq_some_iff.mp h
  obtain ⟨n, hn⟩ := Nat.exists_eq_succ_of_ne_zero (Nat.pos_iff_ne_zero.mp hn)
  rw [hn] at hpages
  obtain ⟨j, rest, hj, -, rfl⟩ := clrIndices_succ hpages
  obtain ⟨-, -, hskip⟩ := (firstFrom_of_ppNextClr hclr hj g.base).up (by decide) hj
  refine ⟨j, ?_, List.mem_map.mpr ⟨j, by simp, rfl⟩⟩
  by_contra hlt
  exact hskip i (Nat.zero_le i) (by omega) hi

end Cleared

variable {os cleared : List Nat} {pools : List PagePool} {p g : PoolGeom}

theorem eq_of_offsets_subset {a b : Nat} (hne : os ≠ []) (h : ∀ o ∈ os, ∃ o' ∈ os, a + o = b + o') :
    a = b := by
  have hne : os.toFinset.Nonempty := (List.toFinset_nonempty_iff os).mpr hne
  obtain ⟨top, htop, hmax⟩ := Finset.exists_max_image os.toFinset id hne
  obtain ⟨bot, hbot, hmin⟩ := Finset.exists_min_image os.toFinset id hne
  simp only [List.mem_toFinset, id] at htop hmax hbot hmin
  obtain ⟨o, ho, hle⟩ := h top htop
  obtain ⟨o', ho', hge⟩ := h bot hbot
  have := hmax o ho
  have := hmin o' ho'
  omega

variable {clr : Colors} {r : Ppages}

theorem Ppages.length_offsets (h : r.offsets clr = some os) : os.length = r.size := by
  unfold Ppages.offsets at h
  split at h
  · exact clrIndices_length h
  · cases h
    exact List.length_range

theorem freesExactly_of_clearedIn (bits : Bitmap) (hp : p ∈ geoms pools)
    (hcleared : clearedIn clr r p = some cleared)
    (h : ∀ g ∈ geoms pools, clearedIn clr r g = some cleared ∨ clearedIn clr r g = some []) :
    FreesExactly clr r ⟨bits, pools⟩ cleared := by
  obtain ⟨bits', hbits'⟩ := foldlM_freeInPoolClr_exists bits fun g hg =>
    (h g hg).elim (fun h => ⟨_, h⟩) fun h => ⟨_, h⟩
  refine ⟨⟨bits', pools⟩, by rw [memFreePpagesClr, hbits']; rfl, fun b => ?_⟩
  have hiff := (foldlM_freeInPoolClr_some hbits').2 b
  split
  · rename_i hb
    refine Bool.eq_false_of_not_eq_true fun hset => ?_
    exact (hiff.mp hset).2 p hp cleared hcleared hb
  · rename_i hb
    rw [Bool.eq_iff_iff, hiff]
    refine and_iff_left fun g hg L hL => ?_
    rcases h g hg with hg | hg <;> rw [hg] at hL <;> cases hL
    · exact hb
    · exact List.not_mem_nil

theorem FreesExactly.clearedIn_subset (h : FreesExactly clr r ⟨fun _ => true, pools⟩ cleared)
    (hg : g ∈ geoms pools) : ∃ L, clearedIn clr r g = some L ∧ L ⊆ cleared := by
  obtain ⟨m', hm', hbits⟩ := h
  obtain ⟨bits', hfold, rfl⟩ := Option.map_eq_some_iff.mp hm'
  obtain ⟨hall, hiff⟩ := foldlM_freeInPoolClr_some hfold
  obtain ⟨L, hL⟩ := hall g hg
  refine ⟨L, hL, fun b hb => ?_⟩
  by_contra hout
  have hset := hbits b
  rw [if_neg hout] at hset
  exact ((hiff b).mp hset).2 g hg L hL hb

/-- For the address of a page, the range test accepts the pools that have it as the address of a
page or as their end. -/
theorem PoolsWf.inRange_iff_exists_page {G : List PoolGeom} (wf : PoolsWf G) {k : Nat} (hp : p ∈ G)
    (hk : k < p.size) (hg : g ∈ G) :
    inRange (p.page k) g.base (g.size * pageSize) = true ↔ ∃ j ≤ g.size, p.page k = g.page j := by
  have hstart := PoolGeom.page_lt_stop hk
  have htop := wf.bound p hp
  rw [wf.inRange_iff hg (by omega)]
  constructor
  · intro hin
    by_cases hgp : g = p
    · exact ⟨k, by rw [hgp]; omega, by rw [hgp]⟩
    · refine ⟨g.size, le_rfl, ?_⟩
      have hapart := wf.apart_of_ne hg hp hgp
      simp only [PoolGeom.page, PoolGeom.stop] at hin hstart hapart ⊢
      omega
  · rintro ⟨j, hj, hj'⟩
    rw [hj']
    simp only [PoolGeom.stop, PoolGeom.page, pageSize]
    omega

theorem clearedIn_of_size_eq_zero (clr : Colors) (h : r.size = 0) (g : PoolGeom) :
    clearedIn clr r g = some [] := by
  unfold clearedIn
  simp [h, clrIndices]

end Bao
