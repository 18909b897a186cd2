import Mathlib.Data.List.GetD
import Bao.Core.Config
import Bao.Core.MemOwner

/-!
# Setting up the page pools

`mem_init` on the master cpu, without colours: the root pool with the pages of the hypervisor, the
reservation of what the configuration places in physical memory, and a pool for every other memory
region of the platform. The allocations that the hypervisor makes for its own address space on the
way are arbitrary requests here. The result `none` stands for an `ERROR`, or for an access through
the null bitmap of a pool that `pp_init` could not set up.

A bitmap has a place of its own in the memory of bits; pool `i` begins at bit `i * 2 ^ 64`.
-/

namespace Bao

open Foundation

/-- What booting depends on: `platform`, the sizes that the linker script fixes in pages, the load
addresses, and the configuration. -/
structure BootConfig where
  regions : List MemRegion
  cpuNum : Nat
  cpuStructSize : Nat
  imagePages : Nat
  configPages : Nat
  configIsBuiltin : Bool := false
  loadAddr : Nat
  configArg : Nat := 0
  configSize : Nat
  vmlist : List VmConfig
  shmemlist : List Shmem := []

namespace BootConfig

def imageSize (cfg : BootConfig) : Nat := cfg.imagePages * pageSize

/-- `cpu_boot_alloc_size`. -/
def cpuBootAllocSize (cfg : BootConfig) : Nat :=
  align cfg.cpuStructSize pageSize +
    ((List.range' 1 (sv39PtDscr.lvls - 1)).map (ptSize ⟨sv39PtDscr, 0, 0⟩)).sum

def cpuSize (cfg : BootConfig) : Nat := cfg.cpuNum * cfg.cpuBootAllocSize

/-- `cpu_base_addr`: the areas of the cpus lie behind the image and a built-in configuration. -/
def cpuBaseAddr (cfg : BootConfig) : Nat :=
  cfg.loadAddr + cfg.imageSize + cfg.configPages * pageSize

/-- `config_addr`; a built-in configuration follows the image. -/
def configAddr (cfg : BootConfig) : Nat :=
  if cfg.configIsBuiltin then cfg.imageSize + cfg.loadAddr else cfg.configArg

/-- The ranges that `mem_reserve_vm_cfg` reserves for the VMs, with the number of the VM. -/
def vmPpages (cfg : BootConfig) : List (Nat × Ppages) :=
  cfg.vmlist.zipIdx.flatMap fun (vm, i) =>
    (vm.regions.filter (·.placePhys)).map fun reg => (i, ⟨reg.phys, numPages reg.size, 0⟩)

/-- The ranges that `mem_reserve_vm_cfg` reserves for shared memory. -/
def shmemPpages (cfg : BootConfig) : List Ppages :=
  (cfg.shmemlist.filter (·.placePhys)).map fun shmem => ⟨shmem.phys, numPages shmem.size, 0⟩

end BootConfig

/-! ## Reservation -/

def memArePpagesReservedInPool (bits : Bitmap) (pool : PoolGeom) (ppages : Ppages) : Bool :=
  if rangeInRange ppages.base (ppages.size * pageSize) pool.base (pool.size * pageSize) then
    let pageoff := numPages (ppages.base - pool.base)
    pool.map bits pageoff ||
      bitmapCountConsecutive (pool.map bits) pool.size pageoff ppages.size < ppages.size
  else false

/-- `mem_reserve_ppool_ppages`. -/
def memReservePpoolPpages (bits : Bitmap) (pool : PagePool) (ppages : Ppages) :
    Bool × Bitmap × PagePool :=
  if rangeInRange ppages.base (ppages.size * pageSize) pool.base (pool.size * pageSize) then
    let pageoff := numPages (ppages.base - pool.base)
    (!memArePpagesReservedInPool bits pool.toPoolGeom ppages,
      bitmapSetConsecutive bits (pool.bit pageoff) ppages.size,
      { pool with free := u64 (pool.free + (2 ^ 64 - ppages.size)) })
  else (true, bits, pool)

/-- A pool that is being set up. `mapped` says whether it has a bitmap. -/
structure NewPool where
  bits : Bitmap
  pool : PagePool
  mapped : Bool

/-- A reservation whose failure ends in `ERROR`. -/
def NewPool.reserve (p : NewPool) (ppages : Ppages) : Option NewPool :=
  let r := memReservePpoolPpages p.bits p.pool ppages
  if rangeInRange ppages.base (ppages.size * pageSize) p.pool.base (p.pool.size * pageSize) &&
      !p.mapped then none
  else if r.1 then some { p with bits := r.2.1, pool := r.2.2 }
  else none

/-- `mem_reserve_vm_cfg`. -/
def memReserveVmCfg (cfg : BootConfig) (p : NewPool) : Option NewPool :=
  (cfg.vmPpages.map Prod.snd ++ cfg.shmemPpages).foldlM NewPool.reserve p

/-- `mem_reserve_config`, with the new value of `config_found`. -/
def memReserveConfig (cfg : BootConfig) (found : Bool) (p : NewPool) : Option (Bool × NewPool) :=
  if found then some (true, p)
  else if rangeInRange cfg.configAddr cfg.configSize p.pool.base (p.pool.size * pageSize) then
    (p.reserve ⟨cfg.configAddr, numPages cfg.configSize, 0⟩).map fun p => (true, p)
  else some (false, p)

/-- `mem_reserve_physical_memory`. -/
def memReservePhysicalMemory (cfg : BootConfig) (found : Bool) (p : NewPool) :
    Option (Bool × NewPool) :=
  (memReserveVmCfg cfg p).bind (memReserveConfig cfg found)

/-! ## Pools -/

/-- Requests that the hypervisor makes for itself. -/
def MemState.hypWork (s : MemState) (requests : List (Nat × Bool)) : MemState :=
  requests.foldl (fun s r => (s.allocHyp r.1 r.2).2) s

/-- `bitmap_size`, in pages. -/
def bitmapPages (size : Nat) : Nat :=
  size / (8 * pageSize) + if size % (8 * pageSize) ≠ 0 then 1 else 0

/-- The memory of bits after `memset` on a bitmap. -/
def clearBitmap (bits : Bitmap) (pool : PoolGeom) : Bitmap := fun b =>
  if pool.bit 0 ≤ b ∧ b < pool.bit 0 + bitmapPages pool.size * pageSize * 8 then false else bits b

/-- The pages of the hypervisor that a reservation in the root pool marks. -/
def marksInPool (pool : PoolGeom) (ppages : Ppages) : List Ppages :=
  if rangeInRange ppages.base (ppages.size * pageSize) pool.base (pool.size * pageSize) then
    [⟨pool.page (numPages (ppages.base - pool.base)), ppages.size, 0⟩]
  else []

/-- `mem_find_root_region`, as an index. -/
def memFindRootRegion (cfg : BootConfig) : Option Nat :=
  cfg.regions.findIdx? fun region =>
    rangeInRange cfg.loadAddr cfg.imageSize region.base region.size

/-- The ranges that `pp_root_init` reserves: bitmap, image and cpu areas. -/
def rootPpages (cfg : BootConfig) (size : Nat) : List Ppages :=
  [⟨cfg.cpuBaseAddr + cfg.cpuSize, bitmapPages size, 0⟩,
    ⟨cfg.loadAddr, numPages cfg.imageSize, 0⟩, ⟨cfg.cpuBaseAddr, numPages cfg.cpuSize, 0⟩]

/-- `pp_root_init`, for the region with index `i`: the pool and the pages marked in it. -/
def ppRootInit (cfg : BootConfig) (bits : Bitmap) (i : Nat) (region : MemRegion) :
    Option (NewPool × List Ppages) :=
  let size := region.size / pageSize
  let pool : PagePool := ⟨⟨align region.base pageSize, size, i * 2 ^ 64⟩, size, 0⟩
  if size ≤ bitmapPages size then none
  else
    ((rootPpages cfg size).foldlM NewPool.reserve
        ⟨clearBitmap bits pool.toPoolGeom, pool, true⟩).map
      fun p => (p, (rootPpages cfg size).flatMap (marksInPool pool.toPoolGeom))

/-- What the hypervisor's own bookkeeping does while a pool is set up: the requests of
`objcache_alloc`, `mem_alloc_vpage` and `mem_map`, and whether the first two succeed. -/
structure PoolWork where
  cache : List (Nat × Bool) := []
  gotPool : Bool := true
  vpage : List (Nat × Bool) := []
  gotVpage : Bool := true
  map : List (Nat × Bool) := []

/-- `pp_init`. The pool that it leaves behind when it gives up has no free page. -/
def ppInit (i : Nat) (region : MemRegion) (work : PoolWork) (s : MemState) :
    NewPool × MemState :=
  let pool : PagePool := ⟨⟨align region.base pageSize, numPages region.size, i * 2 ^ 64⟩, 0, 0⟩
  let bitmapSize := bitmapPages pool.size
  if region.size ≤ bitmapSize then (⟨s.pools.bits, pool, false⟩, s)
  else
    let (pages, s) := s.allocHyp bitmapSize false
    if pages.size ≠ bitmapSize then (⟨s.pools.bits, pool, false⟩, s)
    else
      let s := s.hypWork work.vpage
      if !work.gotVpage then (⟨s.pools.bits, pool, false⟩, s)
      else
        let s := s.hypWork work.map
        (⟨clearBitmap s.pools.bits pool.toPoolGeom, { pool with free := pool.size - bitmapSize },
          true⟩, s)

/-- The state of `mem_init`, with `config_found`. -/
structure BootState where
  s : MemState
  found : Bool

/-- A pool with its reservations goes to the end of the list. -/
def BootState.push (cfg : BootConfig) (b : BootState) (p : NewPool) : Option BootState :=
  (memReservePhysicalMemory cfg b.found p).map fun (found, p) =>
    ⟨{ b.s with pools := ⟨p.bits, b.s.pools.pools ++ [p.pool]⟩ }, found⟩

/-- The loop body of `mem_create_ppools`. -/
def memCreatePpool (cfg : BootConfig) (work : Nat → PoolWork) (b : BootState)
    (r : MemRegion × Nat) : Option BootState :=
  let s := b.s.hypWork (work r.2).cache
  if (work r.2).gotPool then
    let (p, s) := ppInit r.2 r.1 (work r.2) s
    BootState.push cfg { b with s } p
  else some { b with s }

/-- `mem_create_ppools`. `objcache_init` primes the cache for the pools with a slab, which is a page
and what `prime` requests to map it. -/
def memCreatePpools (cfg : BootConfig) (prime : List (Nat × Bool)) (work : Nat → PoolWork)
    (root : Nat) (b : BootState) : Option BootState :=
  (cfg.regions.zipIdx.filter (·.2 ≠ root)).foldlM (memCreatePpool cfg work)
    { b with s := b.s.hypWork ((1, false) :: prime) }

/-- `mem_init`. `mapConfig` are the requests of `mem_map_vm_config`, after which the root pool gets
its reservations. -/
def memInit (cfg : BootConfig) (mapConfig prime : List (Nat × Bool)) (work : Nat → PoolWork)
    (bits : Bitmap) (mem : PhysMem) : Option MemState := do
  let root ← memFindRootRegion cfg
  let (p, hyp) ← ppRootInit cfg bits root (cfg.regions.getD root ⟨0, 0, false, 0⟩)
  let s := MemState.hypWork ⟨⟨p.bits, [p.pool]⟩, mem, hyp⟩ mapConfig
  let pool ← s.pools.pools.head?
  let b ← BootState.push cfg ⟨{ s with pools := ⟨s.pools.bits, []⟩ }, false⟩
    ⟨s.pools.bits, pool, true⟩
  let b ← memCreatePpools cfg prime work root b
  if b.found then some b.s else none

/-! ## What a reservation does -/

/-- The pages lie in the pool. -/
def PoolGeom.Inside (g : PoolGeom) (r : Ppages) : Prop :=
  g.base ≤ r.base ∧ r.base + r.size * pageSize ≤ g.stop

/-- Page-aligned pages that do not wrap around. -/
def Ppages.Sane (r : Ppages) : Prop := r.base % pageSize = 0 ∧ r.base + r.size * pageSize < 2 ^ 64

instance (g : PoolGeom) (r : Ppages) : Decidable (g.Inside r) := inferInstanceAs (Decidable (_ ∧ _))

instance (r : Ppages) : Decidable r.Sane := inferInstanceAs (Decidable (_ ∧ _))

section Reserve

variable {G : List PoolGeom} {own own' : PageOwners} {p p' : NewPool} {g : PoolGeom} {r : Ppages}

theorem FramesWf.inRange_iff (wf : FramesWf G) (hg : g ∈ G) (hr : r.Sane) :
    rangeInRange r.base (r.size * pageSize) g.base (g.size * pageSize) = true ↔ g.Inside r :=
  rangeInRange_iff hr.2 (wf.bound g hg)

theorem PoolGeom.Inside.holds (wf : FramesWf G) (hg : g ∈ G) (hr : r.Sane) (hin : g.Inside r) :
    ∃ k, numPages (r.base - g.base) = k ∧ g.Holds r k ∧ r.base / pageSize = g.frame k := by
  have hgal := wf.aligned g hg
  have hbound := wf.bound g hg
  obtain ⟨hral, -⟩ := hr
  obtain ⟨hlo, hhi⟩ := hin
  have hdiff : (r.base - g.base) % pageSize = 0 := by simp only [pageSize] at *; omega
  refine ⟨(r.base - g.base) / pageSize, numPages_of_mod ?_ hdiff, ⟨?_, ?_⟩, ?_⟩ <;>
    simp only [PoolGeom.stop, PoolGeom.page, PoolGeom.frame, pageSize] at * <;> omega

theorem map_eq_false_of_not_reserved {bits : Bitmap}
    (hrange : rangeInRange r.base (r.size * pageSize) g.base (g.size * pageSize) = true)
    (hfree : memArePpagesReservedInPool bits g r = false) :
    ∀ j < r.size, g.map bits (numPages (r.base - g.base) + j) = false := by
  intro j hj
  simp only [memArePpagesReservedInPool, hrange, if_true, Bool.or_eq_false_iff,
    decide_eq_false_iff_not] at hfree
  obtain ⟨hfirst, hcount⟩ := hfree
  obtain ⟨-, -, -, hall, -⟩ := bitmapCountConsecutive_spec (g.map bits) g.size
    (numPages (r.base - g.base)) r.size (by omega)
  exact (hall j (by omega)).trans hfirst

theorem free_of_not_reserved {bits : Bitmap} {k : Nat} (wf : FramesWf G) (hg : g ∈ G)
    (hr : r.Sane) (hin : g.Inside r) (hk : numPages (r.base - g.base) = k)
    (hfree : memArePpagesReservedInPool bits g r = false) :
    ∀ j < r.size, bits (g.bit (k + j)) = false := by
  subst hk
  exact map_eq_false_of_not_reserved ((wf.inRange_iff hg hr).mpr hin) hfree

theorem NewPool.reserve_spec (wf : FramesWf G) (hg : p.pool.toPoolGeom ∈ G)
    (hm : Marked G own p.bits) (hr : r.Sane) (h : p.reserve r = some p') :
    p'.pool.toPoolGeom = p.pool.toPoolGeom ∧ p'.mapped = p.mapped ∧
    (¬ p.pool.Inside r ∧ p'.bits = p.bits ∨
      p.pool.Inside r ∧ (∀ f ∈ frames r.base r.size, own f = none) ∧
        ∀ o, Marked G (own.give (frames r.base r.size) o) p'.bits) := by
  simp only [NewPool.reserve] at h
  split at h
  · cases h
  split at h
  swap
  · cases h
  rename_i hok
  cases h
  by_cases hin : p.pool.Inside r
  · have hrange := (wf.inRange_iff hg hr).mpr hin
    simp only [memReservePpoolPpages, hrange, if_true, Bool.not_eq_true'] at hok ⊢
    obtain ⟨k, hk, hholds, hframe⟩ := hin.holds wf hg hr
    have hfree := free_of_not_reserved wf hg hr hin hk hok
    refine ⟨trivial, trivial, .inr ⟨hin, fun f hf => ?_, fun o => ?_⟩⟩
    · simp only [frames, Set.mem_Ico, hframe] at hf
      have hsize := hholds.2
      have hnone := hm.none_of_free wf hg (k := k + (f - p.pool.frame k)) (by omega)
        (hfree _ (by omega))
      rwa [show p.pool.frame (k + (f - p.pool.frame k)) = f by
        simp only [PoolGeom.frame] at *; omega] at hnone
    · rw [hk]
      simp only [frames, hframe]
      exact hm.give hg hholds.2 o
  · have hrange : ¬ rangeInRange r.base (r.size * pageSize) p.pool.base
        (p.pool.size * pageSize) = true := fun h => hin ((wf.inRange_iff hg hr).mp h)
    simp only [memReservePpoolPpages, hrange, Bool.false_eq_true, if_false]
    exact ⟨trivial, trivial, .inl ⟨hin, trivial⟩⟩

/-- Reservations for the owners that `l` names. Those inside the pool give their pages away. -/
theorem NewPool.reserveAll_spec (wf : FramesWf G) (hg : p.pool.toPoolGeom ∈ G)
    (hm : Marked G own p.bits) (l : List ((Nat → Owner) × Ppages)) (hl : ∀ x ∈ l, x.2.Sane)
    (h : (l.map Prod.snd).foldlM NewPool.reserve p = some p') :
    p'.pool.toPoolGeom = p.pool.toPoolGeom ∧ p'.mapped = p.mapped ∧ ∃ own', own.Le own' ∧
      Marked G own' p'.bits ∧
      (∀ f a, own' f = some a → own f = some a ∨ ∃ x ∈ l, a = x.1 f) ∧
      ∀ x ∈ l, p.pool.Inside x.2 → ∀ f ∈ frames x.2.base x.2.size, own' f = some (x.1 f) := by
  induction l generalizing p own with
  | nil =>
    cases h
    exact ⟨rfl, rfl, own, .refl own, hm, fun f a hf => .inl hf, by simp⟩
  | cons x l ih =>
    rw [List.map_cons, List.foldlM_cons] at h
    obtain ⟨p₁, hp₁, hrest⟩ := Option.bind_eq_some_iff.mp h
    obtain ⟨hgeom, hmapped, hcases⟩ := p.reserve_spec wf hg hm (hl x (by simp)) hp₁
    have hl' : ∀ y ∈ l, y.2.Sane := fun y hy => hl y (List.mem_cons_of_mem x hy)
    rcases hcases with ⟨hout, hbits⟩ | ⟨hin, hnone, hgive⟩
    · obtain ⟨hgeom', hmapped', own', hle, hm', hnew, hall⟩ :=
        ih (hgeom ▸ hg) (hbits ▸ hm) hl' hrest
      refine ⟨hgeom'.trans hgeom, hmapped'.trans hmapped, own', hle, hm', fun f a hf => ?_, ?_⟩
      · exact (hnew f a hf).imp_right fun ⟨y, hy, ha⟩ => ⟨y, List.mem_cons_of_mem x hy, ha⟩
      · intro y hy hin
        rcases List.mem_cons.mp hy with rfl | hy
        · exact absurd hin hout
        · exact hall y hy (hgeom ▸ hin)
    · obtain ⟨hgeom', hmapped', own', hle, hm', hnew, hall⟩ :=
        ih (hgeom ▸ hg) (hgive x.1) hl' hrest
      have hle₁ : own.Le (own.give (frames x.2.base x.2.size) x.1) := Owners.le_give hnone
      refine ⟨hgeom'.trans hgeom, hmapped'.trans hmapped, own', hle₁.trans hle, hm',
        fun f a hf => ?_, ?_⟩
      · rcases hnew f a hf with hf | ⟨y, hy, ha⟩
        · by_cases hmem : f ∈ frames x.2.base x.2.size
          · rw [Owners.give_of_mem hmem, Option.some.injEq] at hf
            exact .inr ⟨x, by simp, hf.symm⟩
          · rw [Owners.give_of_notMem hmem] at hf
            exact .inl hf
        · exact .inr ⟨y, List.mem_cons_of_mem x hy, ha⟩
      · intro y hy hin'
        rcases List.mem_cons.mp hy with rfl | hy
        · exact fun f hf => hle (Owners.give_of_mem hf)
        · exact hall y hy (hgeom ▸ hin')

end Reserve

/-! ## Pools and regions -/

/-- The pool covers only addresses of the region. -/
def PoolGeom.Within (g : PoolGeom) (region : MemRegion) : Prop :=
  ∀ a, g.base ≤ a → a < g.stop → region.base ≤ a ∧ a < region.base + region.size

theorem PoolGeom.within_iff {g : PoolGeom} {region : MemRegion} (hsize : 0 < g.size) :
    g.Within region ↔ region.base ≤ g.base ∧ g.stop ≤ region.base + region.size := by
  have hstop : g.base < g.stop := PoolGeom.page_lt_stop (k := 0) hsize |>.trans_eq' (by
    simp [PoolGeom.page])
  refine ⟨fun h => ⟨(h g.base le_rfl hstop).1, ?_⟩, fun h a hlo hhi => by omega⟩
  have := (h (g.stop - 1) (by omega) (by omega)).2
  omega

theorem NewPool.reserve_geom {p p' : NewPool} {r : Ppages} (h : p.reserve r = some p') :
    p'.pool.toPoolGeom = p.pool.toPoolGeom := by
  simp only [NewPool.reserve] at h
  split at h
  · cases h
  split at h
  swap
  · cases h
  cases h
  simp only [memReservePpoolPpages]
  split <;> rfl

theorem NewPool.reserveAll_geom {rs : List Ppages} {p p' : NewPool}
    (h : rs.foldlM NewPool.reserve p = some p') : p'.pool.toPoolGeom = p.pool.toPoolGeom := by
  induction rs generalizing p with
  | nil => cases h; rfl
  | cons r rs ih =>
    rw [List.foldlM_cons] at h
    obtain ⟨mid, hmid, hrest⟩ := Option.bind_eq_some_iff.mp h
    exact (ih hrest).trans (NewPool.reserve_geom hmid)

theorem ppRootInit_geom {cfg : BootConfig} {bits : Bitmap} {i : Nat} {region : MemRegion}
    {res : NewPool × List Ppages} (h : ppRootInit cfg bits i region = some res) :
    res.1.pool.toPoolGeom = ⟨align region.base pageSize, region.size / pageSize, i * 2 ^ 64⟩ ∧
      0 < region.size / pageSize := by
  simp only [ppRootInit] at h
  split at h
  · cases h
  · obtain ⟨p, hp, rfl⟩ := Option.map_eq_some_iff.mp h
    exact ⟨NewPool.reserveAll_geom hp, by omega⟩

theorem ppInit_geom (i : Nat) (region : MemRegion) (work : PoolWork) (s : MemState) :
    (ppInit i region work s).1.pool.toPoolGeom =
      ⟨align region.base pageSize, numPages region.size, i * 2 ^ 64⟩ := by
  simp only [ppInit]
  split
  · rfl
  · split
    · rfl
    · split <;> rfl

/-- Rounding up leaves an address alone or goes to the end of its page, which for the last page of
the address space is 0. -/
theorem align_cases {val : Nat} (h : val < 2 ^ 64) :
    align val pageSize = val ∧ val % pageSize = 0 ∨
      align val pageSize = val - val % pageSize + pageSize ∧ val % pageSize ≠ 0 ∧
        val + pageSize ≤ 2 ^ 64 ∨
      align val pageSize = 0 ∧ val % pageSize ≠ 0 ∧ 2 ^ 64 < val + pageSize := by
  simp only [align, u64, pageSize]
  omega

/-- The root pool stays inside its region exactly when the bytes that rounding the base up skips are
not more than those that rounding the size down drops. Another pool does so exactly when its region
consists of whole pages, or the pool has none. -/
theorem pools_within_iff (region : MemRegion) (hbase : region.base < 2 ^ 64)
    (hsize : region.size < 2 ^ 64) (hwrap : region.base + region.size ≤ 2 ^ 64) :
    (∀ cfg bits i res, ppRootInit cfg bits i region = some res →
      (res.1.pool.Within region ↔
        align region.base pageSize ≤ region.base + region.size % pageSize)) ∧
    ∀ i work s, (ppInit i region work s).1.pool.Within region ↔
      region.base % pageSize = 0 ∧ region.size % pageSize = 0 ∨ numPages region.size = 0 := by
  have hstart := align_cases hbase
  constructor
  · intro cfg bits i res h
    obtain ⟨hgeom, hpos⟩ := ppRootInit_geom h
    rw [hgeom, PoolGeom.within_iff hpos]
    simp only [PoolGeom.stop, PoolGeom.page, pageSize] at *
    omega
  · intro i work s
    rw [ppInit_geom]
    by_cases hpages : numPages region.size = 0
    · simp only [hpages, or_true, iff_true]
      intro a hlo hhi
      simp only [PoolGeom.stop, PoolGeom.page] at hlo hhi
      omega
    · have hnum : numPages region.size * pageSize = align region.size pageSize :=
        Nat.div_mul_cancel (Nat.dvd_of_mod_eq_zero (align_mod _))
      have hend := align_cases hsize
      rw [PoolGeom.within_iff (Nat.pos_of_ne_zero hpages), or_iff_left hpages]
      simp only [PoolGeom.stop, PoolGeom.page, hnum]
      simp only [pageSize] at *
      omega

/-- One cpu and an image of one page, loaded at page `0x80001`. -/
def onePageBoot (region : MemRegion) : BootConfig where
  regions := [region]
  cpuNum := 1
  cpuStructSize := pageSize
  imagePages := 1
  configPages := 0
  loadAddr := 0x80001000
  configSize := 0
  vmlist := []

/-- The region begins in the middle of a page and ends half a page behind its last whole one. -/
theorem pools_within_half_page :
    ∃ res, ppRootInit (onePageBoot ⟨0x80000800, 0x10800, false, 0⟩) (fun _ => false) 0
        ⟨0x80000800, 0x10800, false, 0⟩ = some res ∧
      res.1.pool.Within ⟨0x80000800, 0x10800, false, 0⟩ := by
  refine exists_some_of (P := fun _ => True) (by decide +kernel) fun res hres _ => ?_
  exact ((pools_within_iff _ (by decide) (by decide) (by decide)).1 _ _ _ _ hres).mpr (by decide)

/-- A region that begins in the middle of a page gives a root pool that ends half a page behind it,
and a region of one and a half pages another pool that ends half a page behind it. -/
theorem pools_past_region :
    (∃ res, ppRootInit (onePageBoot ⟨0x80000800, 0x10000, false, 0⟩) (fun _ => false) 0
        ⟨0x80000800, 0x10000, false, 0⟩ = some res ∧
      ¬ res.1.pool.Within ⟨0x80000800, 0x10000, false, 0⟩) ∧
    ∀ work s, ¬ (ppInit 1 ⟨0x80000000, 0x1800, false, 0⟩ work s).1.pool.Within
      ⟨0x80000000, 0x1800, false, 0⟩ := by
  refine ⟨exists_some_of (P := fun _ => True) (by decide +kernel) fun res hres _ => ?_,
    fun work s => ?_⟩
  · obtain ⟨hgeom, hpos⟩ := ppRootInit_geom hres
    rw [hgeom, PoolGeom.within_iff hpos]
    decide
  · rw [ppInit_geom, PoolGeom.within_iff (by decide)]
    decide

end Bao
