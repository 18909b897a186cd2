import Mathlib.Data.List.Pairwise
import Mathlib.Data.Nat.ModEq
import Bao.Foundation.Run
import Bao.Lib.Util
import Bao.Lib.Bitmap

/-!
# Page pools

Allocation and release of uncoloured physical pages. A pool covers `size` pages from `base` and
keeps one bit for each of them in memory, from the bit address `bitmap` on. The bitmaps of all pools
are ranges of one memory, because `mem_free_ppages` does not stay inside the bitmap it means: its
range test accepts an address that is the end of a pool, and then clears bits that lie behind that
pool's bitmap.

The last theorem is about whole runs of allocations and releases. Its restriction says that the bits
behind such a bitmap are nobody's.
-/

namespace Bao

open Foundation

/-- `ppages_t`. -/
structure Ppages where
  base : Nat
  size : Nat
  colors : Nat := 0
  deriving DecidableEq, Repr

/-- What never changes in a pool. -/
structure PoolGeom where
  base : Nat
  size : Nat
  bitmap : Nat
  deriving DecidableEq, Repr

/-- `page_pool_t`; the lock is the atomicity of an allocation on the pool. -/
structure PagePool extends PoolGeom where
  free : Nat
  last : Nat
  deriving DecidableEq, Repr

/-- The pool list and the memory that holds the bitmaps. -/
structure PoolMem where
  bits : Bitmap
  pools : List PagePool

/-- The address of page `k`. -/
def PoolGeom.page (g : PoolGeom) (k : Nat) : Nat := g.base + k * pageSize

/-- The address just behind the pool. -/
def PoolGeom.stop (g : PoolGeom) : Nat := g.page g.size

/-- The bit of page `k`. -/
def PoolGeom.bit (g : PoolGeom) (k : Nat) : Nat := g.bitmap + k

/-- The bitmap of a pool as the search functions read it. -/
def PoolGeom.map (g : PoolGeom) (bits : Bitmap) : Bitmap := fun k => bits (g.bit k)

/-! ## Allocation -/

/-- The inner loop of `pp_alloc`: the index of the run it settles on, or `none` when the search
fails. `left` bounds the bits from `curr` on, and each round that goes on moves `curr`. -/
def ppAllocLoop (bits : Bitmap) (pool : PoolGeom) (n : Nat) (aligned : Bool) (start : Nat) :
    (left curr : Nat) → Option Nat
  | 0, _ => none
  | left + 1, curr =>
    match bitmapFindConsec (pool.map bits) pool.size curr n false with
    | none => none
    | some bit =>
      if aligned ∧ (bit + start) % n ≠ 0 then
        ppAllocLoop bits pool n aligned start left (bit + (bit + start) % n)
      else some bit

/-- The two searches of `pp_alloc`, from the last known free index and from the bottom. -/
def ppAllocSearch (bits : Bitmap) (pool : PagePool) (n : Nat) (aligned : Bool) : Option Nat :=
  let start := if aligned then n - pool.base / pageSize % n else 0
  let curr := u64 (pool.last + u64 (pool.last + start) % n)
  if pool.free = 0 then none
  else
    match ppAllocLoop bits pool.toPoolGeom n aligned start (pool.size + 1) curr with
    | some bit => some bit
    | none =>
      let curr := if aligned then (n - pool.base / pageSize % n) % n else 0
      ppAllocLoop bits pool.toPoolGeom n aligned start (pool.size + 1) curr

/-- `pp_alloc`: the pages with the updated bitmap memory and pool, or `none` for the result
`false`. -/
def ppAlloc (bits : Bitmap) (pool : PagePool) (n : Nat) (aligned : Bool) :
    Option (Ppages × Bitmap × PagePool) :=
  if n = 0 then none
  else
    (ppAllocSearch bits pool n aligned).map fun bit =>
      ({ base := pool.base + bit * pageSize, size := n },
        bitmapSetConsecutive bits (pool.bit bit) n,
        { pool with free := u64 (pool.free + (2 ^ 64 - n)), last := bit + n })

/-- `mem_alloc_ppages` without colours: the first pool that can serve the request does. -/
def memAllocPpages (bits : Bitmap) (n : Nat) (aligned : Bool) :
    List PagePool → Ppages × PoolMem
  | [] => (⟨0, 0, 0⟩, ⟨bits, []⟩)
  | pool :: pools =>
    match ppAlloc bits pool n aligned with
    | some (pages, bits, pool) => (pages, ⟨bits, pool :: pools⟩)
    | none =>
      let r := memAllocPpages bits n aligned pools
      (r.1, ⟨r.2.bits, pool :: r.2.pools⟩)

/-! ## Release -/

/-- `mem_free_ppages` on one pool, for pages without colours. -/
def freeInPool (ppages : Ppages) (bits : Bitmap) (pool : PoolGeom) : Bitmap :=
  if inRange ppages.base pool.base (pool.size * pageSize) then
    let index := (ppages.base - pool.base) / pageSize
    bitmapClearConsecutive bits (pool.bit index) ppages.size
  else bits

/-- `mem_free_ppages`. It leaves `free` and `last` as they are. -/
def memFreePpages (ppages : Ppages) (m : PoolMem) : PoolMem :=
  { m with bits := m.pools.foldl (fun bits pool => freeInPool ppages bits pool.toPoolGeom) m.bits }

/-! ## What an allocation returns -/

variable {bits : Bitmap} {n : Nat} {aligned : Bool} {pool : PagePool}

theorem ppAllocLoop_aligned {pool : PoolGeom} {start left curr bit : Nat}
    (h : ppAllocLoop bits pool n true start left curr = some bit) : (bit + start) % n = 0 := by
  induction left generalizing curr with
  | zero => cases h
  | succ left ih =>
    simp only [ppAllocLoop] at h
    split at h
    · cases h
    · split at h
      · exact ih h
      · rename_i hal
        cases h
        exact by_contra fun hne => hal ⟨trivial, hne⟩

theorem ppAllocLoop_sound {pool : PoolGeom} {start left curr bit : Nat} (hn : 0 < n)
    (hsize : pool.size < 2 ^ 64 - 1)
    (h : ppAllocLoop bits pool n aligned start left curr = some bit) :
    bit + n ≤ pool.size ∧ ∀ j < n, bits (pool.bit (bit + j)) = false := by
  induction left generalizing curr with
  | zero => cases h
  | succ left ih =>
    simp only [ppAllocLoop] at h
    split at h
    · cases h
    · rename_i found hfound
      split at h
      · exact ih h
      · cases h
        exact (bitmapFindConsec_sound hn hsize hfound).2

theorem ppAllocSearch_loop {bit : Nat} (h : ppAllocSearch bits pool n aligned = some bit) :
    ∃ left curr,
      ppAllocLoop bits pool.toPoolGeom n aligned
        (if aligned then n - pool.base / pageSize % n else 0) left curr = some bit := by
  unfold ppAllocSearch at h
  simp only at h
  split at h
  · cases h
  · split at h
    · rename_i found hfound
      cases h
      exact ⟨_, _, hfound⟩
    · exact ⟨_, _, h⟩

theorem ppAllocSearch_aligned {bit : Nat} (h : ppAllocSearch bits pool n true = some bit) :
    (bit + (n - pool.base / pageSize % n)) % n = 0 := by
  obtain ⟨left, curr, hloop⟩ := ppAllocSearch_loop h
  exact ppAllocLoop_aligned hloop

theorem ppAllocSearch_sound {bit : Nat} (hn : 0 < n) (hsize : pool.size < 2 ^ 64 - 1)
    (h : ppAllocSearch bits pool n aligned = some bit) :
    bit + n ≤ pool.size ∧ (∀ j < n, bits (pool.bit (bit + j)) = false) ∧
      (aligned = true → (bit + (n - pool.base / pageSize % n)) % n = 0) := by
  obtain ⟨left, curr, hloop⟩ := ppAllocSearch_loop h
  obtain ⟨hin, hfree⟩ := ppAllocLoop_sound hn hsize hloop
  exact ⟨hin, hfree, fun hal => ppAllocSearch_aligned (hal ▸ h)⟩

/-- `n` pages of a pool, from page `k` on, with the effect their allocation has on the bitmap. When
the request was for an aligned segment, `k` passed the alignment test of `pp_alloc`. -/
structure Taken (geoms : List PoolGeom) (bits : Bitmap) (n : Nat) (aligned : Bool) (pages : Ppages)
    (bits' : Bitmap) (g : PoolGeom) (k : Nat) : Prop where
  mem : g ∈ geoms
  base : pages.base = g.page k
  size : pages.size = n
  pos : 0 < n
  inside : k + n ≤ g.size
  free : ∀ j < n, bits (g.bit (k + j)) = false
  bits_eq : bits' = bitmapSetConsecutive bits (g.bit k) n
  align : aligned = true → (k + (n - g.base / pageSize % n)) % n = 0

/-- The geometry of the pools in a list. -/
def geoms (pools : List PagePool) : List PoolGeom := pools.map (·.toPoolGeom)

theorem memAllocPpages_spec (bits : Bitmap) (n : Nat) (aligned : Bool) (pools : List PagePool)
    (hsize : ∀ g ∈ geoms pools, g.size < 2 ^ 64 - 1) :
    let r := memAllocPpages bits n aligned pools
    geoms r.2.pools = geoms pools ∧
      ((r.1.size = 0 ∧ r.2.bits = bits) ∨
        ∃ g k, Taken (geoms pools) bits n aligned r.1 r.2.bits g k) := by
  induction pools with
  | nil => exact ⟨rfl, .inl ⟨rfl, rfl⟩⟩
  | cons pool pools ih =>
    have hpool := hsize pool.toPoolGeom (by simp [geoms])
    simp only [memAllocPpages]
    cases halloc : ppAlloc bits pool n aligned with
    | some res =>
      unfold ppAlloc at halloc
      split at halloc
      · cases halloc
      · rename_i hn
        obtain ⟨bit, hbit, rfl⟩ := Option.map_eq_some_iff.mp halloc
        obtain ⟨hin, hfree, hal⟩ := ppAllocSearch_sound (Nat.pos_of_ne_zero hn) hpool hbit
        exact ⟨by simp [geoms], .inr ⟨pool.toPoolGeom, bit,
          ⟨by simp [geoms], rfl, rfl, Nat.pos_of_ne_zero hn, hin, hfree, rfl, hal⟩⟩⟩
    | none =>
      obtain ⟨hgeoms, hres⟩ := ih fun g hg => hsize g (List.mem_cons_of_mem _ hg)
      refine ⟨by simpa [geoms] using hgeoms, hres.imp id ?_⟩
      rintro ⟨g, k, h⟩
      exact ⟨g, k, { h with mem := List.mem_cons_of_mem _ h.mem }⟩

/-! ## Alignment of what an allocation returns -/

/-- The alignment test compares the index with the page number of the pool instead of adding the
two, so that an accepted page has twice that number modulo `n`. -/
theorem add_mod_of_accepted {b bit : Nat} (hn : 0 < n) (h : (bit + (n - b % n)) % n = 0) :
    (b + bit) % n = 2 * b % n := by
  have hlt := Nat.mod_lt b hn
  have hzero : bit + (n - b % n) ≡ 0 [MOD n] := h
  have hbit : bit ≡ b [MOD n] := calc
    bit ≡ bit + n [MOD n] := (Nat.add_mod_right bit n).symm
    _ = bit + (n - b % n) + b % n := by omega
    _ ≡ 0 + b [MOD n] := hzero.add (Nat.mod_modEq b n)
    _ = b := Nat.zero_add b
  rw [two_mul]
  exact hbit.add_left b

/-- An aligned request that a pool serves returns `n` pages from an address which is a multiple of
their size exactly when `n` divides twice the page number of the pool's base. -/
theorem ppAlloc_aligned_iff {bits bits' : Bitmap} {pool pool' : PagePool} {n : Nat} {pages : Ppages}
    (hbase : pool.base % pageSize = 0)
    (h : ppAlloc bits pool n true = some (pages, bits', pool')) :
    pages.size = n ∧
      (pages.base % (n * pageSize) = 0 ↔ 2 * (pool.base / pageSize) % n = 0) := by
  unfold ppAlloc at h
  split at h
  · cases h
  · rename_i hn
    obtain ⟨bit, hbit, heq⟩ := Option.map_eq_some_iff.mp h
    cases heq
    refine ⟨rfl, ?_⟩
    have hpage : pool.base + bit * pageSize = (pool.base / pageSize + bit) * pageSize := by
      rw [Nat.add_mul, Nat.div_mul_cancel (Nat.dvd_of_mod_eq_zero hbase)]
    rw [hpage, Nat.mul_mod_mul_right,
      add_mod_of_accepted (Nat.pos_of_ne_zero hn) (ppAllocSearch_aligned hbit),
      Nat.mul_eq_zero, or_iff_left (by decide)]

/-- Four pages from a pool whose base is a multiple of their size. -/
theorem ppAlloc_aligned_four : ∃ bits' pool',
    ppAlloc (fun b => b = 1) ⟨⟨0x80000000, 16, 0⟩, 15, 0⟩ 4 true =
      some (⟨0x80004000, 4, 0⟩, bits', pool') ∧ 0x80004000 % (4 * pageSize) = 0 := by
  refine ⟨?bits, ?pool, ?h, (ppAlloc_aligned_iff (by decide) ?h).2.mpr (by decide)⟩
  case h => rfl

/-- The pool begins at a page with an odd number: the four pages begin at an even one that is no
multiple of four. -/
theorem ppAlloc_misaligned : ∃ bits' pool',
    ppAlloc (fun _ => false) ⟨⟨0x80001000, 16, 0⟩, 16, 0⟩ 4 true =
      some (⟨0x80006000, 4, 0⟩, bits', pool') ∧ 0x80006000 % (4 * pageSize) ≠ 0 :=
  ⟨_, _, rfl, by decide⟩

/-! ## What a release clears -/

theorem foldl_freeInPool_apply (ppages : Ppages) (pools : List PagePool) (bits : Bitmap) (b : Nat) :
    pools.foldl (fun bits pool => freeInPool ppages bits pool.toPoolGeom) bits b = true ↔
      bits b = true ∧ ∀ g ∈ geoms pools, inRange ppages.base g.base (g.size * pageSize) = true →
        ¬ (g.bit ((ppages.base - g.base) / pageSize) ≤ b ∧
          b < g.bit ((ppages.base - g.base) / pageSize) + ppages.size) := by
  induction pools generalizing bits with
  | nil => simp [geoms]
  | cons pool pools ih =>
    rw [List.foldl_cons, ih]
    simp only [geoms, List.map_cons, List.forall_mem_cons]
    rw [← and_assoc]
    refine and_congr_left fun _ => ?_
    unfold freeInPool
    by_cases hr : inRange ppages.base pool.base (pool.size * pageSize) = true
    · simp only [hr, if_true, bitmapClearConsecutive_apply, forall_const]
      split
      · rename_i hin; simp [hin]
      · rename_i hin; simp only [hin, not_false_eq_true, and_true]
    · simp [hr]

/-! ## Runs of allocations and releases -/

/-- The pools do not overlap, neither with their pages nor with their bitmaps, and end below the top
of the address space. -/
structure PoolsWf (G : List PoolGeom) : Prop where
  bound : ∀ g ∈ G, g.stop < 2 ^ 64
  apart : G.Pairwise fun g h => g.stop ≤ h.base ∨ h.stop ≤ g.base
  bitmaps : G.Pairwise fun g h => g.bit g.size ≤ h.bitmap ∨ h.bit h.size ≤ g.bitmap

/-- The page at `a` is one of the pages. -/
def Ppages.Has (r : Ppages) (a : Nat) : Prop := ∃ j < r.size, a = r.base + j * pageSize

/-- The pages are the pages `k`, `k + 1`, ... of the pool. -/
def PoolGeom.Holds (g : PoolGeom) (r : Ppages) (k : Nat) : Prop :=
  r.base = g.page k ∧ k + r.size ≤ g.size

theorem PoolGeom.page_add (g : PoolGeom) (k j : Nat) :
    g.page (k + j) = g.page k + j * pageSize := by
  simp only [PoolGeom.page, Nat.add_mul, Nat.add_assoc]

theorem PoolGeom.page_lt_stop {g : PoolGeom} {k : Nat} (h : k < g.size) : g.page k < g.stop := by
  simp only [PoolGeom.stop, PoolGeom.page, pageSize]; omega

theorem PoolGeom.Holds.has_iff {g : PoolGeom} {r : Ppages} {k a : Nat} (h : g.Holds r k) :
    r.Has a ↔ ∃ j < r.size, a = g.page (k + j) := by
  simp only [Ppages.Has, h.1, PoolGeom.page_add]

namespace PoolsWf

variable {G : List PoolGeom} {g h : PoolGeom} {k l : Nat}

section

variable (wf : PoolsWf G) (hg : g ∈ G)

include wf hg

theorem size_lt : g.size < 2 ^ 64 - 1 := by
  have := wf.bound g hg
  simp only [PoolGeom.stop, PoolGeom.page, pageSize] at this
  omega

theorem apart_of_ne (hh : h ∈ G) (hne : g ≠ h) : g.stop ≤ h.base ∨ h.stop ≤ g.base := by
  have : Std.Symm fun g h : PoolGeom => g.stop ≤ h.base ∨ h.stop ≤ g.base := ⟨fun _ _ => Or.symm⟩
  exact wf.apart.forall hg hh hne

theorem page_inj (hh : h ∈ G) (hk : k < g.size) (hl : l < h.size) (heq : g.page k = h.page l) :
    g = h ∧ k = l := by
  have hgh : g = h := by
    by_contra hne
    have hkg := PoolGeom.page_lt_stop hk
    have hlh := PoolGeom.page_lt_stop hl
    have := wf.apart_of_ne hg hh hne
    simp only [PoolGeom.page] at hkg hlh heq
    omega
  subst hgh
  simp only [PoolGeom.page, pageSize] at heq
  exact ⟨rfl, by omega⟩

theorem bit_inj (hh : h ∈ G) (hk : k < g.size) (hl : l < h.size) (heq : g.bit k = h.bit l) :
    g = h ∧ k = l := by
  have hgh : g = h := by
    by_contra hne
    have : Std.Symm fun g h : PoolGeom => g.bit g.size ≤ h.bitmap ∨ h.bit h.size ≤ g.bitmap :=
      ⟨fun _ _ => Or.symm⟩
    have := wf.bitmaps.forall hg hh hne
    simp only [PoolGeom.bit] at this heq
    omega
  subst hgh
  simp only [PoolGeom.bit] at heq
  exact ⟨rfl, by omega⟩

theorem inRange_iff {a : Nat} (ha : a < 2 ^ 64) :
    inRange a g.base (g.size * pageSize) = true ↔ g.base ≤ a ∧ a ≤ g.stop := by
  have := wf.bound g hg
  simp only [inRange, rangeInRange, Nat.add_zero, u64_of_lt ha, Bool.and_eq_true, decide_eq_true_eq]
  rw [u64_of_lt (by simpa [PoolGeom.stop, PoolGeom.page] using this)]
  rfl

end

end PoolsWf

/-- `live` is history: the results that have not been released. -/
structure AllocState where
  m : PoolMem
  live : List Ppages

inductive AllocAction where
  | alloc (n : Nat) (aligned : Bool)
  | free (r : Ppages)

namespace AllocState

def step (s : AllocState) : AllocAction → Option AllocState
  | .alloc n aligned =>
    let r := memAllocPpages s.m.bits n aligned s.m.pools
    some ⟨r.2, if r.1.size = 0 then s.live else s.live ++ [r.1]⟩
  | .free r => if r ∈ s.live then some ⟨memFreePpages r s.m, s.live.erase r⟩ else none

/-- When pages are released that begin where a pool ends, the bits behind that pool's bitmap belong
to no reserved page and to no page of another live result. -/
def FreeSafe (reserved : Bitmap) (s : AllocState) : AllocAction → Prop
  | .alloc _ _ => True
  | .free r => ∀ g ∈ geoms s.m.pools, r.base = g.stop →
      ∀ h ∈ geoms s.m.pools, ∀ l < h.size,
        g.bit g.size ≤ h.bit l → h.bit l < g.bit g.size + r.size →
          reserved (h.bit l) = false ∧ ∀ r' ∈ s.live.erase r, ¬ r'.Has (h.page l)

/-- Reserved pages and the pages of live results are marked, and no page has two owners. -/
structure Inv (G : List PoolGeom) (reserved : Bitmap) (s : AllocState) : Prop where
  geoms_eq : geoms s.m.pools = G
  inside : ∀ r ∈ s.live, 0 < r.size ∧ ∃ g ∈ G, ∃ k, g.Holds r k ∧
    ∀ j < r.size, s.m.bits (g.bit (k + j)) = true
  apart : s.live.Pairwise fun r r' => ∀ a, r.Has a → ¬ r'.Has a
  reserved : ∀ g ∈ G, ∀ k < g.size, reserved (g.bit k) = true →
    s.m.bits (g.bit k) = true ∧ ∀ r ∈ s.live, ¬ r.Has (g.page k)

variable {G : List PoolGeom} {reserved : Bitmap} {s t : AllocState} {r : Ppages}

section

variable (wf : PoolsWf G) (inv : s.Inv G reserved)

include wf inv

theorem Inv.marked (hr : r ∈ s.live) {g : PoolGeom} (hg : g ∈ G) {k : Nat} (hk : k < g.size)
    (hhas : r.Has (g.page k)) : s.m.bits (g.bit k) = true := by
  obtain ⟨-, g', hg', k', hholds, hbits⟩ := inv.inside r hr
  obtain ⟨j, hj, heq⟩ := hholds.has_iff.mp hhas
  have := hholds.2
  obtain ⟨rfl, rfl⟩ := wf.page_inj hg hg' hk (by omega) heq
  exact hbits j hj

theorem Inv.alloc {k : Nat} {pages : Ppages} {m : PoolMem} {g : PoolGeom}
    (hgeoms : geoms m.pools = G) (taken : Taken G s.m.bits n aligned pages m.bits g k) :
    Inv G reserved ⟨m, s.live ++ [pages]⟩ := by
  obtain ⟨hg, hbase, hsize, hpos, hin, hfree, hbits, -⟩ := taken
  have hholds : g.Holds pages k := ⟨hbase, by omega⟩
  have hgrow : ∀ b, s.m.bits b = true → m.bits b = true := by
    intro b hb
    rw [hbits, bitmapSetConsecutive_apply, hb, ite_self]
  -- A page that was marked before is none of the new pages.
  have hnew : ∀ h ∈ G, ∀ l < h.size, s.m.bits (h.bit l) = true → ¬ pages.Has (h.page l) := by
    intro h hh l hl hmark hhas
    obtain ⟨j, hj, heq⟩ := hholds.has_iff.mp hhas
    obtain ⟨rfl, rfl⟩ := wf.page_inj hh hg hl (by omega) heq
    rw [hfree j (by omega)] at hmark
    cases hmark
  refine ⟨hgeoms, ?_, ?_, ?_⟩
  · intro r hr
    rcases List.mem_append.mp hr with hr | hr
    · obtain ⟨hpos, g', hg', k', hh, hb⟩ := inv.inside r hr
      exact ⟨hpos, g', hg', k', hh, fun j hj => hgrow _ (hb j hj)⟩
    · obtain rfl := List.mem_singleton.mp hr
      refine ⟨by omega, g, hg, k, hholds, fun j hj => ?_⟩
      rw [hbits, bitmapSetConsecutive_apply, if_pos (by simp only [PoolGeom.bit]; omega)]
  · rw [List.pairwise_append]
    refine ⟨inv.apart, List.pairwise_singleton _ _, ?_⟩
    intro r hr r' hr' a hra hra'
    obtain rfl := List.mem_singleton.mp hr'
    obtain ⟨j, hj, rfl⟩ := hholds.has_iff.mp hra'
    have hmark := inv.marked wf hr hg (show k + j < g.size by omega) hra
    rw [hfree j (by omega)] at hmark
    cases hmark
  · intro h hh l hl hres
    obtain ⟨hmark, hlive⟩ := inv.reserved h hh l hl hres
    refine ⟨hgrow _ hmark, fun r hr => ?_⟩
    rcases List.mem_append.mp hr with hr | hr
    · exact hlive r hr
    · obtain rfl := List.mem_singleton.mp hr
      exact hnew h hh l hl hmark

/-- A release keeps the mark of every page that is not released and whose bit is not just behind the
bitmap of a pool that ends where the released pages begin. -/
theorem Inv.free_keeps (hr : r ∈ s.live) {h : PoolGeom} (hh : h ∈ G) {l : Nat} (hl : l < h.size)
    (hmark : s.m.bits (h.bit l) = true) (hout : ¬ r.Has (h.page l))
    (hbehind : ∀ g ∈ G, r.base = g.stop →
      ¬ (g.bit g.size ≤ h.bit l ∧ h.bit l < g.bit g.size + r.size)) :
    (memFreePpages r s.m).bits (h.bit l) = true := by
  obtain ⟨hpos, g₀, hg₀, k₀, hholds, -⟩ := inv.inside r hr
  have hstart := PoolGeom.page_lt_stop (g := g₀) (k := k₀) (by have := hholds.2; omega)
  have htop := wf.bound g₀ hg₀
  rw [memFreePpages, foldl_freeInPool_apply, inv.geoms_eq]
  refine ⟨hmark, fun g hg hrange => ?_⟩
  rw [wf.inRange_iff hg (by rw [hholds.1]; omega)] at hrange
  by_cases hgg : g = g₀
  · subst hgg
    have hindex : (r.base - g.base) / pageSize = k₀ := by
      rw [hholds.1]; simp [PoolGeom.page, pageSize]
    rw [hindex]
    rintro ⟨hlo, hhi⟩
    have hin := hholds.2
    obtain ⟨rfl, hkl⟩ := wf.bit_inj hh hg₀ hl
      (show k₀ + (h.bit l - g.bit k₀) < g.size by omega)
      (by simp only [PoolGeom.bit] at hlo ⊢; omega)
    exact hout (hholds.has_iff.mpr ⟨h.bit l - h.bit k₀, by omega, by rw [← hkl]⟩)
  · have hend : r.base = g.stop := by
      have := wf.apart_of_ne hg hg₀ hgg
      rw [hholds.1] at hrange ⊢
      simp only [PoolGeom.page] at hrange hstart ⊢
      omega
    have hindex : (r.base - g.base) / pageSize = g.size := by
      rw [hend]; simp [PoolGeom.stop, PoolGeom.page, pageSize]
    rw [hindex]
    exact hbehind g hg hend

theorem Inv.free (hr : r ∈ s.live) (hsafe : s.FreeSafe reserved (.free r)) :
    Inv G reserved ⟨memFreePpages r s.m, s.live.erase r⟩ := by
  simp only [FreeSafe, inv.geoms_eq] at hsafe
  have hsymm : ∀ {r r' : Ppages}, (∀ a, r.Has a → ¬ r'.Has a) → ∀ a, r'.Has a → ¬ r.Has a :=
    fun h a ha ha' => h a ha' ha
  have hpair := (List.perm_cons_erase hr).pairwise_iff hsymm |>.mp inv.apart
  rw [List.pairwise_cons] at hpair
  refine ⟨inv.geoms_eq, ?_, hpair.2, ?_⟩
  · intro r' hr'
    obtain ⟨hpos, g, hg, k, hholds, hbits⟩ := inv.inside r' (List.mem_of_mem_erase hr')
    refine ⟨hpos, g, hg, k, hholds, fun j hj => ?_⟩
    have hin := hholds.2
    have hhas : r'.Has (g.page (k + j)) := hholds.has_iff.mpr ⟨j, hj, rfl⟩
    refine inv.free_keeps wf hr hg (by omega) (hbits j hj) (fun h => hpair.1 r' hr' _ h hhas) ?_
    rintro g' hg' hend ⟨hlo, hhi⟩
    exact (hsafe g' hg' hend g hg (k + j) (by omega) hlo hhi).2 r' hr' hhas
  · intro g hg k hk hres
    obtain ⟨hmark, hlive⟩ := inv.reserved g hg k hk hres
    refine ⟨inv.free_keeps wf hr hg hk hmark (hlive r hr) ?_,
      fun r' hr' => hlive r' (List.mem_of_mem_erase hr')⟩
    rintro g' hg' hend ⟨hlo, hhi⟩
    rw [(hsafe g' hg' hend g hg k hk hlo hhi).1] at hres
    cases hres

theorem Inv.step {a : AllocAction} (hsafe : s.FreeSafe reserved a) (ht : s.step a = some t) :
    t.Inv G reserved := by
  cases a with
  | alloc n aligned =>
    have hspec := memAllocPpages_spec s.m.bits n aligned s.m.pools
      fun g hg => wf.size_lt (inv.geoms_eq ▸ hg)
    cases ht
    obtain ⟨hgeoms, ⟨hzero, hbits⟩ | ⟨g, k, taken⟩⟩ := hspec
    · rw [if_pos hzero]
      exact ⟨hgeoms.trans inv.geoms_eq, by simpa only [hbits] using inv.inside, inv.apart,
        by simpa only [hbits] using inv.reserved⟩
    · rw [if_neg (by rw [taken.size]; exact Nat.pos_iff_ne_zero.mp taken.pos)]
      rw [inv.geoms_eq] at taken
      exact inv.alloc wf (hgeoms.trans inv.geoms_eq) taken
  | free r =>
    simp only [AllocState.step] at ht
    split at ht
    · rename_i hr
      cases ht
      exact inv.free wf hr hsafe
    · cases ht

end

/-- In every run whose releases are safe: each live result lies inside exactly one pool with all its
pages marked, no page belongs to two live results, and no page that was marked at the start belongs
to one. -/
theorem memAllocPpages_disjoint {m : PoolMem} {as : List AllocAction} {s : AllocState}
    (wf : PoolsWf (geoms m.pools)) (hsafe : Along AllocState.step (FreeSafe m.bits) ⟨m, []⟩ as)
    (h : run AllocState.step ⟨m, []⟩ as = some s) :
    (∀ r ∈ s.live, ∃ g ∈ geoms m.pools, ∃ k, g.Holds r k ∧
      (∀ j < r.size, s.m.bits (g.bit (k + j)) = true) ∧
      ∀ g' ∈ geoms m.pools, ∀ k', g'.Holds r k' → g' = g) ∧
    (s.live.Pairwise fun r r' => ∀ a, r.Has a → ¬ r'.Has a) ∧
    (∀ g ∈ geoms m.pools, ∀ k < g.size, m.bits (g.bit k) = true →
      ∀ r ∈ s.live, ¬ r.Has (g.page k)) := by
  have inv : s.Inv (geoms m.pools) m.bits :=
    hsafe.run_invariant (fun s a t hs hp ht => hs.step wf hp ht)
      ⟨rfl, by simp, List.Pairwise.nil, fun g _ k _ hb => ⟨hb, by simp⟩⟩ h
  refine ⟨fun r hr => ?_, inv.apart, fun g hg k hk hb => (inv.reserved g hg k hk hb).2⟩
  obtain ⟨hpos, g, hg, k, hholds, hbits⟩ := inv.inside r hr
  refine ⟨g, hg, k, hholds, hbits, fun g' hg' k' hholds' => ?_⟩
  exact (wf.page_inj hg' hg (by have := hholds'.2; omega) (by have := hholds.2; omega)
    (hholds'.1.symm.trans hholds.1)).1

/-- Two pools whose bitmaps lie in pages of their own. -/
def twoPools : PoolMem where
  bits := fun b => b = 1
  pools := [⟨⟨0x80000000, 4, 0⟩, 3, 0⟩, ⟨⟨0x90000000, 8, 32768⟩, 8, 0⟩]

/-- Three requests and a release on `twoPools`, whose first pool has its second page reserved. -/
theorem memAllocPpages_disjoint_twoPools : ∃ s : AllocState,
    run AllocState.step ⟨twoPools, []⟩ [.alloc 2 false, .alloc 4 true, .free ⟨0x80002000, 2, 0⟩,
      .alloc 1 false] = some s ∧
    s.live = [⟨0x90000000, 4, 0⟩, ⟨0x80000000, 1, 0⟩] ∧
    s.live.Pairwise fun r r' => ∀ a, r.Has a → ¬ r'.Has a := by
  refine exists_some_of (by decide +kernel) fun s h hlive =>
    ⟨hlive, (memAllocPpages_disjoint ⟨by decide, by decide, by decide⟩ ?_ h).2.1⟩
  refine .cons trivial rfl (.cons trivial rfl (.cons ?_ rfl (.cons trivial rfl trivial)))
  intro g hg hend
  simp only [geoms, twoPools] at hg
  rcases hg with _ | ⟨_, _ | ⟨_, ⟨⟩⟩⟩ <;> exact absurd hend (by decide)

/-- The pool `A` ends where `B` begins, and its bitmap fills the page before the one of `C`. -/
def adjacentPools : PoolMem where
  bits := fun _ => false
  pools := [⟨⟨0x88000000, 1, 65536⟩, 1, 0⟩, ⟨⟨0x90000000, 4, 32768⟩, 4, 0⟩,
    ⟨⟨0x80000000, 32768, 0⟩, 32768, 0⟩]

/-- Releasing the only page of `B` also clears the first bit of `C`, whose page is live and is then
given away a second time. -/
theorem memFreePpages_clears_live_page : PoolsWf (geoms adjacentPools.pools) ∧ ∃ s : AllocState,
    run AllocState.step ⟨adjacentPools, []⟩ [.alloc 1 false, .alloc 1 false, .alloc 2 false,
      .free ⟨0x88000000, 1, 0⟩, .alloc 1 false] = some s ∧
    s.live = [⟨0x90000000, 1, 0⟩, ⟨0x90002000, 2, 0⟩, ⟨0x90000000, 1, 0⟩] :=
  ⟨⟨by decide, by decide, by decide⟩, _, rfl, by decide⟩

end AllocState

end Bao
