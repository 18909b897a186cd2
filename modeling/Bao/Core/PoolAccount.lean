import Mathlib.Data.Nat.Count
import Mathlib.Data.Finset.Card
import Bao.Core.MemInit
import Bao.Core.PagePoolClr

/-!
# The free count of a page pool

A pool counts its free pages in `free` beside the bitmap that marks the used ones. Reservations and
allocations lower the count by the pages they mark. Releases clear bits and leave the count alone,
and `pp_init` starts with a clear bitmap but leaves the pages of the bitmap out of the count.

Runs start without a pool. `Safe` restricts them to steps that keep the difference between the count
and the bitmap: nothing is released, reservations stay inside the pool, and coloured requests find
their pages right behind `last` or find too few. In such runs the count is right for the root pool,
and never for a pool of `pp_init`.
-/

namespace Bao

open Foundation

/-! ## Counting -/

variable {n : Nat} {bits : Bitmap}

theorem count_false_add_length {map map' : Bitmap} {pages : List Nat} (hnodup : pages.Nodup)
    (hin : ∀ k ∈ pages, k < n ∧ map k = false)
    (hmap : ∀ k < n, map' k = if k ∈ pages then true else map k) :
    Nat.count (map' · = false) n + pages.length = Nat.count (map · = false) n := by
  rw [Nat.count_eq_card_filter_range, Nat.count_eq_card_filter_range,
    ← List.toFinset_card_of_nodup hnodup]
  have hsub : pages.toFinset ⊆ {k ∈ Finset.range n | map k = false} := by
    intro k hk
    simpa using hin k (List.mem_toFinset.mp hk)
  have hdiff : {k ∈ Finset.range n | map' k = false} =
      {k ∈ Finset.range n | map k = false} \ pages.toFinset := by
    ext k
    simp only [Finset.mem_filter, Finset.mem_range, Finset.mem_sdiff, List.mem_toFinset]
    constructor
    · rintro ⟨hk, hclear⟩
      rw [hmap k hk] at hclear
      split at hclear
      · cases hclear
      · exact ⟨⟨hk, hclear⟩, ‹_›⟩
    · rintro ⟨⟨hk, hclear⟩, hnot⟩
      exact ⟨hk, by rw [hmap k hk, if_neg hnot, hclear]⟩
  rw [hdiff, Finset.card_sdiff_add_card_eq_card hsub]

/-- The number of clear bits of a pool. -/
def PoolGeom.clearBits (g : PoolGeom) (bits : Bitmap) : Nat :=
  Nat.count (g.map bits · = false) g.size

theorem PoolGeom.clearBits_le (g : PoolGeom) (bits : Bitmap) : g.clearBits bits ≤ g.size :=
  Nat.count_le _

theorem PoolGeom.clearBits_congr {g : PoolGeom} {bits' : Bitmap}
    (h : ∀ k < g.size, bits' (g.bit k) = bits (g.bit k)) :
    g.clearBits bits' = g.clearBits bits := by
  have hmap : ∀ k < g.size, g.map bits' k = if k ∈ [] then true else g.map bits k :=
    fun k hk => by simpa [PoolGeom.map] using h k hk
  exact count_false_add_length List.nodup_nil (by simp) hmap

/-- The free count of a pool is right. -/
def PagePool.Accounted (pool : PagePool) (bits : Bitmap) : Prop := pool.free = pool.clearBits bits

instance (pool : PagePool) (bits : Bitmap) : Decidable (pool.Accounted bits) :=
  inferInstanceAs (Decidable (_ = _))

/-- `pages` were free pages of `pool`; in `pool'` they are marked and off the count. -/
structure Took (bits bits' : Bitmap) (pool pool' : PagePool) (pages : List Nat) : Prop where
  geom : pool'.toPoolGeom = pool.toPoolGeom
  free : pool'.free = u64 (pool.free + (2 ^ 64 - pages.length))
  nodup : pages.Nodup
  clear : ∀ k ∈ pages, k < pool.size ∧ bits (pool.bit k) = false
  bits_eq : ∀ b, bits' b = if b ∈ pages.map pool.bit then true else bits b

namespace Took

variable {bits bits' : Bitmap} {pool pool' : PagePool} {pages : List Nat}

theorem clearBits (h : Took bits bits' pool pool' pages) :
    pool.clearBits bits' + pages.length = pool.clearBits bits := by
  refine count_false_add_length h.nodup h.clear fun k _ => ?_
  have hmem : pool.bit k ∈ pages.map pool.bit ↔ k ∈ pages := by
    simp [PoolGeom.bit]
  simp only [PoolGeom.map, h.bits_eq, hmem]

theorem clearBits_other (h : Took bits bits' pool pool' pages) {g : PoolGeom}
    (hg : g.bit g.size ≤ pool.bitmap ∨ pool.bit pool.size ≤ g.bitmap) :
    g.clearBits bits' = g.clearBits bits := by
  refine PoolGeom.clearBits_congr fun k hk => ?_
  rw [h.bits_eq, if_neg]
  intro hmem
  obtain ⟨j, hj, heq⟩ := List.mem_map.mp hmem
  have := (h.clear j hj).1
  simp only [PoolGeom.bit] at hg heq
  omega

theorem consecutive {k : Nat} (last : Nat) (hin : k + n ≤ pool.size)
    (hfree : ∀ j < n, bits (pool.bit (k + j)) = false) :
    Took bits (bitmapSetConsecutive bits (pool.bit k) n) pool
      { pool with free := u64 (pool.free + (2 ^ 64 - n)), last } (List.range' k n) where
  geom := rfl
  free := by rw [List.length_range']
  nodup := List.nodup_range'
  clear := by
    intro i hi
    rw [List.mem_range'_1] at hi
    refine ⟨by omega, ?_⟩
    rw [← hfree (i - k) (by omega), Nat.add_sub_cancel' hi.1]
  bits_eq := by
    intro b
    have hmem : b ∈ (List.range' k n).map pool.bit ↔ pool.bit k ≤ b ∧ b < pool.bit k + n := by
      simp only [List.mem_map, List.mem_range'_1, PoolGeom.bit]
      constructor
      · rintro ⟨i, hi, rfl⟩
        omega
      · rintro ⟨hlo, hhi⟩
        exact ⟨b - pool.bitmap, by omega, by omega⟩
    simp only [bitmapSetConsecutive_apply, hmem]

end Took

/-! ## What the functions take -/

variable {pool : PagePool} {aligned : Bool}

theorem ppAlloc_took {res : Ppages × Bitmap × PagePool} (hsize : pool.size < 2 ^ 64 - 1)
    (h : ppAlloc bits pool n aligned = some res) :
    ∃ pages, Took bits res.2.1 pool res.2.2 pages := by
  unfold ppAlloc at h
  split at h
  · cases h
  · rename_i hn
    obtain ⟨bit, hbit, rfl⟩ := Option.map_eq_some_iff.mp h
    obtain ⟨hin, hfree, -⟩ := ppAllocSearch_sound (Nat.pos_of_ne_zero hn) hsize hbit
    exact ⟨_, Took.consecutive _ hin hfree⟩

/-- The next `n` pages of the colours from `last` on are free, or the pool has less than `n` free
pages at all. -/
def ClrSafe (clr : Colors) (bits : Bitmap) (pool : PagePool) (n colors : Nat) : Prop :=
  pool.last ≤ pool.size ∧ pool.size < 2 ^ 31 - 1 ∧
    (pool.clearBits bits < n ∨
      ∃ pages ∈ clrIndices (ppNextClr clr pool.base colors) n pool.last,
        ∀ k ∈ pages, k < pool.size ∧ pool.map bits k = false)

instance (clr : Colors) (bits : Bitmap) (pool : PagePool) (n colors : Nat) :
    Decidable (ClrSafe clr bits pool n colors) := inferInstanceAs (Decidable (_ ∧ _))

section Coloured

variable {clr : Colors} {bits map : Bitmap} {pool : PagePool} {n colors : Nat}
  {res : Ppages × Bitmap × PagePool} {next : Nat → Option Nat} {found : Nat × Nat}

theorem clrSearch_ahead {ahead : List Nat} (hn : 0 < n)
    (hahead : clrIndices next n pool.last = some ahead)
    (hclear : ∀ k ∈ ahead, k < pool.size ∧ map k = false)
    (h : clrSearch map next pool n = some found) : found.1 = n ∧ next pool.last = some found.2 := by
  obtain ⟨index, hindex, h⟩ := Option.bind_eq_some_iff.mp h
  obtain ⟨first, hfirst, h⟩ := Option.bind_eq_some_iff.mp h
  rw [clrPass_full hindex hahead hclear hn hn hfirst, if_pos rfl] at h
  cases h
  exact ⟨rfl, hindex⟩

theorem clrSearch_few (hup : ∀ i j, i < 2 ^ 31 → next i = some j → i ≤ j)
    (hlast : pool.last ≤ pool.size) (hsize : pool.size < 2 ^ 31)
    (hfew : Nat.count (map · = false) pool.size < n) (h : clrSearch map next pool n = some found) :
    found.1 ≠ n := by
  obtain ⟨index, hindex, h⟩ := Option.bind_eq_some_iff.mp h
  obtain ⟨first, hfirst, h⟩ := Option.bind_eq_some_iff.mp h
  have htop : Nat.count (map · = false) pool.last ≤ Nat.count (map · = false) pool.size :=
    Nat.count_monotone _ hlast
  have hle := clrPass_le hsize hup hfirst
  rw [if_neg (by omega)] at h
  have hle' := clrPass_le (hlast.trans_lt hsize) hup h
  omega

/-- A coloured request that is safe for the pool takes the pages behind `last`, or nothing. -/
theorem ppAllocClr_took (hclr : clr.num * clr.size ≤ 2 ^ 52)
    (hsafe : ClrSafe clr bits pool n colors)
    (h : ppAllocClr clr bits pool n colors = some (some res)) :
    ∃ pages, Took bits res.2.1 pool res.2.2 pages := by
  obtain ⟨hlast, hsize, hcases⟩ := hsafe
  obtain ⟨firstIndex, pages, hsearch, hpages, hbits, -, hpool⟩ := ppAllocClr_some h
  have hup : ∀ i j, i < 2 ^ 31 → ppNextClr clr pool.base colors i = some j → i ≤ j :=
    fun i j hi hj => le_of_ppNextClr hclr hi hj
  have hclear : ∀ k ∈ pages, k < pool.size ∧ pool.map bits k = false := by
    rcases Nat.eq_zero_or_pos n with rfl | hn
    · cases hpages
      simp
    · rcases hcases with hfew | ⟨ahead, hahead, hclear⟩
      · have hfew : Nat.count (pool.map bits · = false) pool.size < n := hfew
        have hne : (n, firstIndex).1 ≠ n := clrSearch_few hup hlast (by omega) hfew hsearch
        exact absurd rfl hne
      · have hfirst := (clrSearch_ahead hn hahead hclear hsearch).2
        -- The first page of the walk is where the marking starts, so both walks agree.
        obtain ⟨m, rfl⟩ := Nat.exists_eq_succ_of_ne_zero (Nat.pos_iff_ne_zero.mp hn)
        obtain ⟨j, rest, hj, hrest, rfl⟩ := clrIndices_succ hahead
        obtain rfl : firstIndex = j := Option.some.inj (hfirst.symm.trans hj)
        have hself := ppNextClr_self hfirst (by have := (hclear firstIndex (by simp)).1; omega)
        obtain ⟨j, rest', hj', hrest', rfl⟩ := clrIndices_succ hpages
        obtain rfl : firstIndex = j := Option.some.inj (hself.symm.trans hj')
        rwa [← Option.some.inj (hrest.symm.trans hrest')]
  have hsorted := (clrIndices_sorted hup hpages fun k hk => by have := (hclear k hk).1; omega).1
  refine ⟨pages, ⟨by rw [hpool], ?_, hsorted.imp Nat.ne_of_lt, hclear, hbits⟩⟩
  rw [hpool, clrIndices_length hpages]

end Coloured

/-- When a request is safe: it is served without regard to colours, or safe for every pool. -/
def AllocSafe (clr : Colors) (m : PoolMem) (colors n : Nat) (aligned : Bool) : Prop :=
  (allClrs clr colors = true ∨ aligned = true) ∨ ∀ pool ∈ m.pools, ClrSafe clr m.bits pool n colors

instance (clr : Colors) (m : PoolMem) (colors n : Nat) (aligned : Bool) :
    Decidable (AllocSafe clr m colors n aligned) := inferInstanceAs (Decidable (_ ∨ _))

theorem memAllocPpagesClr_took {clr : Colors} {colors : Nat} {pools : List PagePool}
    {res : Ppages × PoolMem} (hclr : clr.num * clr.size ≤ 2 ^ 52)
    (hsize : ∀ pool ∈ pools, pool.size < 2 ^ 64 - 1)
    (hsafe : AllocSafe clr ⟨bits, pools⟩ colors n aligned)
    (h : memAllocPpagesClr clr bits colors n aligned pools = some res) :
    res.2 = ⟨bits, pools⟩ ∨ ∃ k pool pool' pages, pools[k]? = some pool ∧
      res.2.pools = pools.set k pool' ∧ Took bits res.2.bits pool pool' pages := by
  induction pools generalizing res with
  | nil => cases h; exact .inl rfl
  | cons pool pools ih =>
    simp only [memAllocPpagesClr] at h
    obtain ⟨ok, hok, h⟩ := Option.bind_eq_some_iff.mp h
    cases ok with
    | some served =>
      have htook : ∃ pages, Took bits served.2.1 pool served.2.2 pages := by
        split at hok
        · rename_i hcoloured
          refine ppAllocClr_took hclr (hsafe.resolve_left ?_ pool (by simp)) hok
          simpa [not_or] using hcoloured
        · exact ppAlloc_took (hsize pool (by simp)) (Option.some.inj hok)
      obtain ⟨pages, htook⟩ := htook
      cases h
      exact .inr ⟨0, pool, served.2.2, pages, rfl, rfl, htook⟩
    | none =>
      obtain ⟨r, hr, rfl⟩ := Option.map_eq_some_iff.mp h
      have hsafe' : AllocSafe clr ⟨bits, pools⟩ colors n aligned :=
        hsafe.imp_right fun hall q hq => hall q (List.mem_cons_of_mem _ hq)
      obtain hsame | ⟨k, q, q', pages, hk, hpools, htook⟩ :=
        ih (fun q hq => hsize q (List.mem_cons_of_mem _ hq)) hsafe' hr
      · exact .inl (by rw [hsame])
      · exact .inr ⟨k + 1, q, q', pages, by simpa using hk, by simp [hpools], htook⟩

/-! ## Reservations -/

/-- The pages that a reservation marks when the range lies in the pool. -/
def FreeRange (bits : Bitmap) (g : PoolGeom) (r : Ppages) : Prop :=
  ∀ j < r.size, g.map bits (numPages (r.base - g.base) + j) = false

instance (bits : Bitmap) (g : PoolGeom) (r : Ppages) : Decidable (FreeRange bits g r) :=
  inferInstanceAs (Decidable (∀ _, _))

/-- A range that passes the test of a reservation does not reach beyond the pool when its base is
rounded up to a page. -/
def ReserveInside (g : PoolGeom) (r : Ppages) : Prop :=
  rangeInRange r.base (r.size * pageSize) g.base (g.size * pageSize) = true →
    numPages (r.base - g.base) + r.size ≤ g.size

instance (g : PoolGeom) (r : Ppages) : Decidable (ReserveInside g r) :=
  inferInstanceAs (Decidable (_ → _))

theorem memReservePpoolPpages_took {r : Ppages} (hfree : FreeRange bits pool.toPoolGeom r)
    (hin : ReserveInside pool.toPoolGeom r) :
    (memReservePpoolPpages bits pool r).2 = (bits, pool) ∨
      ∃ pages, Took bits (memReservePpoolPpages bits pool r).2.1 pool
        (memReservePpoolPpages bits pool r).2.2 pages := by
  unfold memReservePpoolPpages
  split
  · rename_i hrange
    exact .inr ⟨_, Took.consecutive _ (hin hrange) hfree⟩
  · exact .inl rfl

/-! ## Runs -/

/-- The function that set up a pool. -/
inductive PoolSetup where
  | root
  | init
  deriving DecidableEq, Repr

/-- The pages that the setup leaves out of the free count of a pool of `size` pages. -/
def PoolSetup.lag (size : Nat) : PoolSetup → Nat
  | .root => 0
  | .init => bitmapPages size

/-- `setups` and `live` are history: how the pools of the list were set up, and the ranges that were
allocated or reserved and not released since. -/
structure PoolSys where
  s : MemState
  setups : List PoolSetup
  live : List Ppages

inductive PoolAction where
  | root (cfg : BootConfig) (i : Nat) (region : MemRegion)
  | init (i : Nat) (region : MemRegion) (work : PoolWork)
  | reserve (k : Nat) (r : Ppages)
  | alloc (colors n : Nat) (aligned : Bool)
  | free (r : Ppages)

namespace PoolSys

def initial (bits : Bitmap) (mem : PhysMem) : PoolSys := ⟨⟨⟨bits, []⟩, mem, []⟩, [], []⟩

/-- The root pool comes first. A pool for which `pp_init` gives up has no bitmap, and is left out.
Reserved ranges are free before. -/
def step (clr : Colors) (s : PoolSys) : PoolAction → Option PoolSys
  | .root cfg i region =>
    if s.s.pools.pools = [] then
      (ppRootInit cfg s.s.pools.bits i region).map fun (p, hyp) =>
        { s with s := ⟨⟨p.bits, [p.pool]⟩, s.s.mem, hyp⟩, setups := [.root] }
    else none
  | .init i region work =>
    let (p, m) := ppInit i region work s.s
    if p.mapped then
      some { s with
        s := { m with pools := ⟨p.bits, m.pools.pools ++ [p.pool]⟩ }
        setups := s.setups ++ [.init] }
    else none
  | .reserve k r =>
    match s.s.pools.pools[k]? with
    | some pool =>
      if FreeRange s.s.pools.bits pool.toPoolGeom r then
        let (_, bits, pool) := memReservePpoolPpages s.s.pools.bits pool r
        some { s with
          s := { s.s with pools := ⟨bits, s.s.pools.pools.set k pool⟩ }
          live := s.live ++ [r] }
      else none
    | none => none
  | .alloc colors n aligned =>
    (memAllocPpagesClr clr s.s.pools.bits colors n aligned s.s.pools.pools).map
      fun (pages, pools) =>
      { s with
        s := { s.s with pools }
        live := if pages.size = 0 then s.live else s.live ++ [pages] }
  | .free r =>
    if r ∈ s.live then
      (memFreePpagesClr clr r s.s.pools).map fun pools =>
        { s with s := { s.s with pools }, live := s.live.erase r }
    else none

/-- The steps that keep the difference between count and bitmap. The bitmap of a new pool is memory
of its own. -/
def Safe (clr : Colors) (s : PoolSys) : PoolAction → Prop
  | .root cfg i region => region.size < 2 ^ 64 ∧
    ∀ r ∈ rootPpages cfg (region.size / pageSize),
      ReserveInside ⟨align region.base pageSize, region.size / pageSize, i * 2 ^ 64⟩ r
  | .init i region _ => ∀ pool ∈ s.s.pools.pools, pool.bit pool.size ≤ i * 2 ^ 64 ∨
    i * 2 ^ 64 + bitmapPages (numPages region.size) * pageSize * 8 ≤ pool.bitmap
  | .reserve k r => ∀ pool ∈ s.s.pools.pools[k]?, ReserveInside pool.toPoolGeom r
  | .alloc colors n aligned => AllocSafe clr s.s.pools colors n aligned
  | .free r => r.size = 0

instance (clr : Colors) (s : PoolSys) : (a : PoolAction) → Decidable (Safe clr s a)
  | .root .. => inferInstanceAs (Decidable (_ ∧ _))
  | .init .. => inferInstanceAs (Decidable (∀ _ ∈ _, _))
  | .reserve .. => inferInstanceAs (Decidable (∀ _ ∈ _, _))
  | .alloc .. => inferInstanceAs (Decidable (AllocSafe ..))
  | .free .. => inferInstanceAs (Decidable (_ = _))

end PoolSys

/-- The bitmaps of the pools are apart, and each free count is behind the clear bits by what the
setup of the pool left out. The difference is taken as `uint64_t`, because a count that is too low
may be decremented past 0. -/
structure PoolMem.Inv (m : PoolMem) (setups : List PoolSetup) : Prop where
  length : setups.length = m.pools.length
  size : ∀ pool ∈ m.pools, pool.size < 2 ^ 64 - 1
  bitmaps : (geoms m.pools).Pairwise fun g h =>
    g.bit g.size ≤ h.bitmap ∨ h.bit h.size ≤ g.bitmap
  accounts : ∀ (k : Nat) (pool : PagePool) (setup : PoolSetup),
    m.pools[k]? = some pool → setups[k]? = some setup →
      pool.free < 2 ^ 64 ∧ u64 (pool.free + setup.lag pool.size) = pool.clearBits m.bits

namespace PoolMem.Inv

variable {m m' : PoolMem} {setups : List PoolSetup} {clr : Colors} {s t : MemState}

theorem empty (bits : Bitmap) : Inv ⟨bits, []⟩ [] :=
  ⟨rfl, by simp, List.Pairwise.nil, by simp⟩

variable {k i : Nat} {r : Ppages} {region : MemRegion} {p p' : NewPool}

theorem apart (inv : m.Inv setups) {j : Nat} {p q : PagePool} (hj : m.pools[j]? = some p)
    (hk : m.pools[k]? = some q) (hne : j ≠ k) :
    p.bit p.size ≤ q.bitmap ∨ q.bit q.size ≤ p.bitmap := by
  have hpair := inv.bitmaps
  rw [geoms, List.pairwise_map, List.pairwise_iff_getElem] at hpair
  obtain ⟨hj', rfl⟩ := List.getElem?_eq_some_iff.mp hj
  obtain ⟨hk', rfl⟩ := List.getElem?_eq_some_iff.mp hk
  rcases Nat.lt_or_gt_of_ne hne with hlt | hlt
  · exact hpair j k hj' hk' hlt
  · exact (hpair k j hk' hj' hlt).symm

theorem took (inv : m.Inv setups) {pool' : PagePool} {bits' : Bitmap} {pages : List Nat}
    (hk : m.pools[k]? = some pool) (htook : Took m.bits bits' pool pool' pages) :
    Inv ⟨bits', m.pools.set k pool'⟩ setups := by
  obtain ⟨hklt, hget⟩ := List.getElem?_eq_some_iff.mp hk
  have hgeoms : geoms (m.pools.set k pool') = geoms m.pools := by
    refine List.ext_getElem? fun j => ?_
    by_cases hj : j = k
    · subst hj
      simp [geoms, hklt, hget, htook.geom]
    · simp [geoms, List.getElem?_set_ne (Ne.symm hj)]
  refine ⟨by simpa using inv.length, ?_, by rw [hgeoms]; exact inv.bitmaps, ?_⟩
  · intro q hq
    rcases List.mem_or_eq_of_mem_set hq with hq | rfl
    · exact inv.size q hq
    · rw [htook.geom]
      exact inv.size pool (List.mem_of_getElem? hk)
  · intro j q setup hj hsetup
    by_cases hne : j = k
    · subst hne
      rw [List.getElem?_set_self hklt] at hj
      cases hj
      obtain ⟨hlt, hfree⟩ := inv.accounts j pool setup hk hsetup
      have hcount := htook.clearBits
      rw [htook.geom, htook.free]
      refine ⟨u64_lt _, ?_⟩
      simp only [u64] at *
      omega
    · rw [List.getElem?_set_ne (Ne.symm hne)] at hj
      rw [htook.clearBits_other (inv.apart hj hk hne)]
      exact inv.accounts j q setup hj hsetup

theorem alloc (inv : m.Inv setups) (hclr : clr.num * clr.size ≤ 2 ^ 52) {colors : Nat}
    {res : Ppages × PoolMem} (hsafe : AllocSafe clr m colors n aligned)
    (h : memAllocPpagesClr clr m.bits colors n aligned m.pools = some res) : res.2.Inv setups := by
  obtain hsame | ⟨k, pool, pool', pages, hk, hpools, htook⟩ :=
    memAllocPpagesClr_took hclr inv.size hsafe h
  · rw [hsame]
    exact inv
  · have := inv.took hk htook
    rwa [← hpools] at this

theorem allocHyp (inv : s.pools.Inv setups) (n : Nat) (aligned : Bool) :
    (s.allocHyp n aligned).2.pools.Inv setups ∧
      geoms (s.allocHyp n aligned).2.pools.pools = geoms s.pools.pools := by
  have hplain : allClrs {} 0 = true := rfl
  have heq : memAllocPpagesClr {} s.pools.bits 0 n aligned s.pools.pools = some _ :=
    memAllocPpagesClr_eq (.inl hplain) s.pools.pools
  have hinv := inv.alloc (by decide) (.inl (.inl hplain)) heq
  have hgeoms := (memAllocPpages_spec s.pools.bits n aligned s.pools.pools
    (List.forall_mem_map.mpr inv.size)).1
  unfold MemState.allocHyp
  dsimp only
  split <;> exact ⟨hinv, hgeoms⟩

theorem hypWork (inv : s.pools.Inv setups) (requests : List (Nat × Bool)) :
    (s.hypWork requests).pools.Inv setups ∧
      geoms (s.hypWork requests).pools.pools = geoms s.pools.pools := by
  induction requests generalizing s with
  | nil => exact ⟨inv, rfl⟩
  | cons r requests ih =>
    obtain ⟨hinv, hgeoms⟩ := inv.allocHyp r.1 r.2
    obtain ⟨hinv', hgeoms'⟩ := ih hinv
    exact ⟨hinv', hgeoms'.trans hgeoms⟩

theorem free (inv : m.Inv setups) (hr : r.size = 0) (h : memFreePpagesClr clr r m = some m') :
    m'.Inv setups := by
  have hpool : ∀ bits g bits', freeInPoolClr clr r bits g = some bits' → bits' = bits := by
    intro bits g bits' hfree
    simp only [freeInPoolClr, freeInPool, hr, writeClr, bitmapClearConsecutive,
      bitmapWriteConsecutive, Option.map_some, ite_self] at hfree
    exact (Option.some.inj hfree).symm
  obtain ⟨bits, hbits, rfl⟩ := Option.map_eq_some_iff.mp h
  have hsame : bits = m.bits := by
    generalize m.pools = pools at hbits
    generalize m.bits = old at hbits
    induction pools generalizing old with
    | nil => exact (Option.some.inj hbits).symm
    | cons pool pools ih =>
      rw [List.foldlM_cons] at hbits
      obtain ⟨mid, hmid, hrest⟩ := Option.bind_eq_some_iff.mp hbits
      exact (ih _ hrest).trans (hpool _ _ _ hmid)
  rw [hsame]
  exact inv

/-! ### New pools -/

theorem size_le_bitmapPages (size : Nat) : size ≤ bitmapPages size * pageSize * 8 := by
  unfold bitmapPages
  split <;> simp only [pageSize] at * <;> omega

theorem clearBits_clearBitmap (bits : Bitmap) (g : PoolGeom) :
    g.clearBits (clearBitmap bits g) = g.size := by
  refine Nat.count_iff_forall.mpr fun k hk => ?_
  have := size_le_bitmapPages g.size
  rw [PoolGeom.map, clearBitmap, if_pos]
  simp only [PoolGeom.bit]
  omega

theorem append (inv : m.Inv setups) (pool : PagePool) (setup : PoolSetup)
    (hsize : pool.size < 2 ^ 64 - 1) (hfree : pool.free + setup.lag pool.size = pool.size)
    (hown : ∀ g ∈ geoms m.pools, g.bit g.size ≤ pool.bitmap ∨
      pool.bitmap + bitmapPages pool.size * pageSize * 8 ≤ g.bitmap) :
    Inv ⟨clearBitmap m.bits pool.toPoolGeom, m.pools ++ [pool]⟩ (setups ++ [setup]) := by
  have hbits := size_le_bitmapPages pool.size
  refine ⟨by simp [inv.length], ?_, ?_, ?_⟩
  · simp only [List.forall_mem_append, List.forall_mem_singleton]
    exact ⟨inv.size, hsize⟩
  · simp only [geoms, List.map_append, List.map_singleton]
    refine List.pairwise_append.mpr ⟨inv.bitmaps, List.pairwise_singleton _ _, ?_⟩
    intro g hg h hh
    rw [List.mem_singleton.mp hh]
    refine (hown g hg).imp_right fun hle => ?_
    simp only [PoolGeom.bit]
    omega
  · intro k q setup' hk hsetup
    by_cases hlt : k < m.pools.length
    · rw [List.getElem?_append_left hlt] at hk
      rw [List.getElem?_append_left (by rw [inv.length]; exact hlt)] at hsetup
      have hsame : q.clearBits (clearBitmap m.bits pool.toPoolGeom) = q.clearBits m.bits := by
        refine PoolGeom.clearBits_congr fun j hj => ?_
        rw [clearBitmap, if_neg]
        have := hown q.toPoolGeom (List.mem_map_of_mem (List.mem_of_getElem? hk))
        simp only [PoolGeom.bit] at *
        omega
      rw [hsame]
      exact inv.accounts k q setup' hk hsetup
    · have hkl : k = m.pools.length := by
        have hlen := (List.getElem?_eq_some_iff.mp hk).1
        simp only [List.length_append, List.length_singleton] at hlen
        omega
      subst hkl
      rw [← inv.length, List.getElem?_concat_length] at hsetup
      rw [List.getElem?_concat_length] at hk
      cases hk
      cases hsetup
      rw [clearBits_clearBitmap, hfree, u64_of_lt (by omega)]
      exact ⟨by omega, rfl⟩

theorem bitmapPages_le_size (size : Nat) : bitmapPages size ≤ size := by
  unfold bitmapPages
  split <;> simp only [pageSize] at * <;> omega

theorem numPages_lt (size : Nat) : numPages size < 2 ^ 64 - 1 := by
  have hlt : align size pageSize < 2 ^ 64 := u64_lt _
  simp only [numPages, pageSize] at *
  omega

theorem init (inv : s.pools.Inv setups) {work : PoolWork}
    (hmapped : (ppInit i region work s).1.mapped = true)
    (hown : ∀ g ∈ geoms s.pools.pools, g.bit g.size ≤ i * 2 ^ 64 ∨
      i * 2 ^ 64 + bitmapPages (numPages region.size) * pageSize * 8 ≤ g.bitmap) :
    let r := ppInit i region work s
    Inv ⟨r.1.bits, r.2.pools.pools ++ [r.1.pool]⟩ (setups ++ [.init]) := by
  obtain ⟨inv₁, hgeoms₁⟩ := inv.allocHyp (bitmapPages (numPages region.size)) false
  obtain ⟨inv₂, hgeoms₂⟩ := inv₁.hypWork work.vpage
  obtain ⟨inv₃, hgeoms₃⟩ := inv₂.hypWork work.map
  simp only [ppInit] at hmapped ⊢
  split
  · simp_all
  · rw [if_neg ‹_›] at hmapped
    split
    · simp_all
    · rw [if_neg ‹_›] at hmapped
      split
      · simp_all
      · exact inv₃.append
          ⟨⟨align region.base pageSize, numPages region.size, i * 2 ^ 64⟩, _, 0⟩ .init
          (numPages_lt _) (Nat.sub_add_cancel (bitmapPages_le_size _))
          (by rw [hgeoms₃, hgeoms₂, hgeoms₁]; exact hown)

theorem reserve (inv : Inv ⟨p.bits, [p.pool]⟩ setups) (hin : ReserveInside p.pool.toPoolGeom r)
    (h : p.reserve r = some p') :
    Inv ⟨p'.bits, [p'.pool]⟩ setups ∧ p'.pool.toPoolGeom = p.pool.toPoolGeom := by
  simp only [NewPool.reserve] at h
  split at h
  · cases h
  split at h
  swap
  · cases h
  rename_i hok
  cases h
  simp only [memReservePpoolPpages] at hok ⊢
  split
  · rename_i hrange
    rw [if_pos hrange, Bool.not_eq_true'] at hok
    have htook := Took.consecutive p.pool.last (hin hrange)
      (map_eq_false_of_not_reserved hrange hok)
    exact ⟨inv.took (k := 0) rfl htook, rfl⟩
  · exact ⟨inv, rfl⟩

theorem reserveAll {rs : List Ppages} (inv : Inv ⟨p.bits, [p.pool]⟩ setups)
    (hin : ∀ r ∈ rs, ReserveInside p.pool.toPoolGeom r)
    (h : rs.foldlM NewPool.reserve p = some p') : Inv ⟨p'.bits, [p'.pool]⟩ setups := by
  induction rs generalizing p with
  | nil => cases h; exact inv
  | cons r rs ih =>
    rw [List.foldlM_cons] at h
    obtain ⟨mid, hmid, hrest⟩ := Option.bind_eq_some_iff.mp h
    obtain ⟨hinv, hgeom⟩ := inv.reserve (hin r (by simp)) hmid
    refine ih hinv (fun r' hr' => ?_) hrest
    rw [hgeom]
    exact hin r' (List.mem_cons_of_mem _ hr')

theorem root {cfg : BootConfig} {res : NewPool × List Ppages} (hsize : region.size < 2 ^ 64)
    (hin : ∀ r ∈ rootPpages cfg (region.size / pageSize),
      ReserveInside ⟨align region.base pageSize, region.size / pageSize, i * 2 ^ 64⟩ r)
    (h : ppRootInit cfg bits i region = some res) : Inv ⟨res.1.bits, [res.1.pool]⟩ [.root] := by
  simp only [ppRootInit] at h
  split at h
  · cases h
  · obtain ⟨p, hp, rfl⟩ := Option.map_eq_some_iff.mp h
    have hstart := (empty bits).append
      ⟨⟨align region.base pageSize, region.size / pageSize, i * 2 ^ 64⟩, region.size / pageSize, 0⟩
      .root (by simp only [pageSize]; omega) rfl (by simp [geoms])
    exact reserveAll hstart hin hp

end PoolMem.Inv

namespace PoolSys

variable {clr : Colors} {s t : PoolSys}

theorem Inv.step (hclr : clr.num * clr.size ≤ 2 ^ 52) (s : PoolSys) (a : PoolAction) (t : PoolSys)
    (inv : s.s.pools.Inv s.setups) (hsafe : Safe clr s a) (h : step clr s a = some t) :
    t.s.pools.Inv t.setups := by
  cases a with
  | root cfg i region =>
    simp only [PoolSys.step, Option.ite_none_right_eq_some] at h
    obtain ⟨-, h⟩ := h
    obtain ⟨res, hres, rfl⟩ := Option.map_eq_some_iff.mp h
    exact .root hsafe.1 hsafe.2 hres
  | init i region work =>
    simp only [PoolSys.step, Option.ite_none_right_eq_some, Option.some.injEq] at h
    obtain ⟨hmapped, rfl⟩ := h
    exact inv.init hmapped (List.forall_mem_map.mpr hsafe)
  | reserve k r =>
    simp only [PoolSys.step] at h
    split at h
    · rename_i pool hk
      simp only [Option.ite_none_right_eq_some, Option.some.injEq] at h
      obtain ⟨hfree, rfl⟩ := h
      obtain hsame | ⟨pages, htook⟩ := memReservePpoolPpages_took hfree (hsafe pool hk)
      · obtain ⟨hlt, rfl⟩ := List.getElem?_eq_some_iff.mp hk
        simpa [hsame] using inv
      · exact inv.took hk htook
    · cases h
  | alloc colors n aligned =>
    obtain ⟨res, hres, rfl⟩ := Option.map_eq_some_iff.mp h
    exact inv.alloc hclr hsafe hres
  | free r =>
    simp only [PoolSys.step, Option.ite_none_right_eq_some] at h
    obtain ⟨-, h⟩ := h
    obtain ⟨m, hm, rfl⟩ := Option.map_eq_some_iff.mp h
    exact inv.free hsafe hm

/-- A region of 16 pages with the image, the area of one cpu and the bitmap in its first five. -/
def smallRegion : MemRegion := ⟨0x80000000, 0x10000, false, 0⟩

@[inherit_doc smallRegion]
def smallBoot : BootConfig where
  regions := [smallRegion]
  cpuNum := 1
  cpuStructSize := pageSize
  imagePages := 1
  configPages := 0
  loadAddr := 0x80000000
  configSize := 0
  vmlist := []

/-- Two colours, in blocks of one page. -/
def twoColors : Cache := twoLevels 64 128

end PoolSys

end Bao
