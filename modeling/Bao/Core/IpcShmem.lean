import Bao.Core.AsInit
import Bao.Core.Ipc
import Bao.Core.MapClr

/-!
# Shared memory in the windows of VMs

`ipc_alloc_shmem` allocates the pages of a shared memory with the colours of the object, and keeps
their base only. `vm_init_ipc` maps a window of a VM to the pages that follow the base, one after
the other, whatever their colours.

The main result says when the window shows no other pages than those that were allocated.
-/

namespace Bao

/-! ## The functions -/

/-- `ipc_alloc_shmem`, on the table of shared memories. -/
def ipcAllocShmem (clr : Colors) : List Shmem → PoolMem → Except MemError (List Shmem × PoolMem)
  | [], m => .ok ([], m)
  | shmem :: table, m =>
    if !shmem.placePhys then
      let nPg := numPages shmem.size
      match memAllocPpagesClr clr m.bits shmem.colors nPg false m.pools with
      | none => .error .rounds
      | some (ppages, m) =>
        if ppages.size < nPg then .error .error
        else (ipcAllocShmem clr table m).map fun r =>
          ({ shmem with phys := ppages.base } :: r.1, r.2)
    else (ipcAllocShmem clr table m).map fun r => (shmem :: r.1, r.2)

/-- The region that `vm_init_ipc` maps for an ipc object. -/
def ipcRegion (ipc : Ipc) (shmem : Shmem) : MemRegion where
  base := ipc.base
  size := if ipc.size > shmem.size then shmem.size else ipc.size
  placePhys := true
  phys := shmem.phys

/-- `vm_init_ipc`. -/
def vmInitIpc (clr : Colors) (env : IpcEnv) (as : AddrSpace) (rounds : Nat) :
    List Ipc → MemState → Except MemError MemState
  | [], s => .ok s
  | ipc :: ipcs, s =>
    match ipcGetShmem env ipc.shmemId with
    | none => vmInitIpc clr env as rounds ipcs s
    | some shmem =>
      match vmMapMemRegion clr as (ipcRegion ipc shmem) rounds s with
      | .error e => .error e
      | .ok s => vmInitIpc clr env as rounds ipcs s

/-! ## The pages of a shared memory -/

/-- The pool that serves a request, and the indices of the pages that get marked in it. -/
def memAllocMarks (clr : Colors) (bits : Bitmap) (colors n : Nat) :
    List PagePool → Option (PoolGeom × List Nat)
  | [] => none
  | pool :: pools =>
    if !allClrs clr colors then
      (ppAllocClr clr bits pool n colors).bind fun
        | some _ => (ppAllocClrMarks clr bits pool n colors).map (pool.toPoolGeom, ·)
        | none => memAllocMarks clr bits colors n pools
    else
      match ppAlloc bits pool n false with
      | some (pages, _) => some (pool.toPoolGeom,
          (List.range n).map ((pages.base - pool.base) / pageSize + ·))
      | none => memAllocMarks clr bits colors n pools

/-- A walk meets the first indices one after the other exactly if all of them satisfy `p`. -/
theorem clrIndices_run_iff {next : Nat → Option Nat} {p : Nat → Prop} {n i j : Nat}
    {pages : List Nat} (H : FirstFrom next p) (hi : i < 2 ^ 31)
    (h : clrIndices next n i = some pages) (hsmall : ∀ k ∈ pages.dropLast, k + 1 < 2 ^ 31)
    (hj : j ≤ n) : (∀ k < j, i + k ∈ pages) ↔ ∀ k < j, p (i + k) := by
  refine ⟨fun hmem k hk => clrIndices_all H hi h hsmall _ (hmem k hk), fun hp => ?_⟩
  induction n generalizing i j pages with
  | zero => omega
  | succ n ih =>
    obtain ⟨o, rest, ho, hrest, rfl⟩ := clrIndices_succ h
    intro k hk
    obtain rfl : o = i := by
      have := H.self hi (hp 0 (by omega))
      exact Option.some.inj (ho.symm.trans this)
    cases k with
    | zero => exact List.mem_cons_self
    | succ k =>
      have hne : rest ≠ [] := by
        rintro rfl
        have := clrIndices_length hrest
        simp only [List.length_nil] at this
        omega
      rw [List.dropLast_cons_of_ne_nil hne, List.forall_mem_cons] at hsmall
      have hmem := ih hsmall.1 hrest hsmall.2 (j := j - 1) (by omega)
        (fun l hl => by
          have := hp (l + 1) (by omega)
          rwa [Nat.add_left_comm, Nat.add_comm] at this)
        k (by omega)
      rw [← Nat.add_assoc, Nat.add_right_comm]
      exact List.mem_cons_of_mem _ hmem

/-- The bits of a request that was served, and when its pages begin with a run of `j` pages from the
base on. -/
structure MarkedRun (clr : Colors) (bits : Bitmap) (colors n : Nat) (pages : Ppages)
    (bits' : Bitmap)
    (g : PoolGeom) (ks : List Nat) : Prop where
  bits_eq : ∀ b, bits' b = if b ∈ ks.map g.bit then true else bits b
  run : ∀ j ≤ n, (∀ k < j, pages.base / pageSize + k ∈ ks.map g.frame) ↔
    allClrs clr colors = true ∨ ∀ k < j, HasClr clr pages.base colors k

section Marks

variable {clr : Colors} {bits bits' : Bitmap} {colors n : Nat} {pages : Ppages}
  {pool pool' : PagePool}

theorem PoolGeom.mem_map_frame {g : PoolGeom} {ks : List Nat} {k o : Nat} :
    g.page k / pageSize + o ∈ ks.map g.frame ↔ k + o ∈ ks := by
  have hframe : g.page k / pageSize + o = g.frame (k + o) := by
    rw [PoolGeom.page, PoolGeom.frame, Nat.add_mul_div_right _ _ (by decide), Nat.add_assoc]
  have hinj : Function.Injective g.frame := fun a b h => Nat.add_left_cancel h
  rw [hframe, List.mem_map_of_injective hinj]

theorem ppAlloc_marked (hclr : allClrs clr colors = true)
    (h : ppAlloc bits pool n false = some (pages, bits', pool')) :
    MarkedRun clr bits colors n pages bits' pool.toPoolGeom
      ((List.range n).map ((pages.base - pool.base) / pageSize + ·)) := by
  unfold ppAlloc at h
  split at h
  · cases h
  obtain ⟨bit, -, h⟩ := Option.map_eq_some_iff.mp h
  cases h
  have hbit : (pool.base + bit * pageSize - pool.base) / pageSize = bit := by
    rw [Nat.add_sub_cancel_left, Nat.mul_div_cancel _ (by decide)]
  refine ⟨fun b => ?_, fun j hj => iff_of_true (fun k hk => ?_) (.inl hclr)⟩
  · rw [bitmapSetConsecutive_apply, hbit, List.map_map]
    refine if_congr ?_ rfl rfl
    simp only [List.mem_map, List.mem_range, Function.comp, PoolGeom.bit]
    constructor
    · rintro ⟨hlo, hhi⟩
      exact ⟨b - (pool.bitmap + bit), by omega, by omega⟩
    · rintro ⟨k, hk, rfl⟩
      omega
  · rw [hbit]
    refine PoolGeom.mem_map_frame.mpr (List.mem_map.mpr ⟨k, ?_, rfl⟩)
    exact List.mem_range.mpr (by omega)

theorem ppAllocClr_marked (hperiod : clr.num * clr.size ≤ 2 ^ 52)
    (hclr : allClrs clr colors = false) (hn : 0 < n) (hsize : pool.size < 2 ^ 31)
    (hlast : pool.last < 2 ^ 31)
    (h : ppAllocClr clr bits pool n colors = some (some (pages, bits', pool'))) :
    ∃ ks, ppAllocClrMarks clr bits pool n colors = some ks ∧
      MarkedRun clr bits colors n pages bits' pool.toPoolGeom ks := by
  obtain ⟨m, rfl⟩ := Nat.exists_eq_succ_of_ne_zero hn.ne'
  obtain ⟨firstIndex, ks, hsearch, hks, hbits, hbase, -⟩ := ppAllocClr_some h
  dsimp only at hbits hbase
  have hmarks : ppAllocClrMarks clr bits pool (m + 1) colors = some ks := by
    simp only [ppAllocClrMarks, hsearch, Option.bind_some, if_true, hks]
  refine ⟨ks, hmarks, hbits, fun j hj => ?_⟩
  obtain ⟨o, -, ho, -⟩ := clrIndices_succ hks
  have H := firstFrom_of_ppNextClr hperiod ho pool.base
  obtain ⟨init, last, hwalk, hinit, -, hfirst⟩ := clrSearch_marked H
    (show 2 ^ 31 - 1 < 2 ^ 31 by decide) (by omega) (by omega) hsearch
  obtain rfl : ks = init ++ [last] := Option.some.inj (hks.symm.trans hwalk)
  have hsmall : ∀ k ∈ (init ++ [last]).dropLast, k + 1 < 2 ^ 31 := by
    intro k hk
    rw [List.dropLast_concat] at hk
    have := (hinit k hk).1
    omega
  have hrun := clrIndices_run_iff H (by omega) hks hsmall hj
  rw [show pages.base = pool.toPoolGeom.page firstIndex from hbase]
  simp only [PoolGeom.mem_map_frame, hasClr_page, hclr, Bool.false_eq_true, false_or]
  exact hrun

/-- A request that was served by one of the pools has marked the pages of `memAllocMarks`. -/
theorem memAllocPpagesClr_marked {pools : List PagePool} {m : PoolMem}
    (hperiod : clr.num * clr.size ≤ 2 ^ 52) (hn : 0 < n)
    (hpools : ∀ pool ∈ pools, pool.size < 2 ^ 31 ∧ pool.last < 2 ^ 31)
    (h : memAllocPpagesClr clr bits colors n false pools = some (pages, m))
    (hsize : n ≤ pages.size) :
    ∃ g ks, memAllocMarks clr bits colors n pools = some (g, ks) ∧
      MarkedRun clr bits colors n pages m.bits g ks := by
  induction pools generalizing m with
  | nil =>
    cases h
    exact absurd hsize (by simpa using hn.ne')
  | cons pool pools ih =>
    obtain ⟨hpool, hpools⟩ := List.forall_mem_cons.mp hpools
    simp only [memAllocPpagesClr, Bool.not_false, Bool.and_true] at h
    obtain ⟨res, hres, h⟩ := Option.bind_eq_some_iff.mp h
    rw [memAllocMarks]
    -- Behind a pool that cannot serve the request, the others see the same bitmap.
    have hnext (hnone : res = none) :
        ∃ g ks, memAllocMarks clr bits colors n pools = some (g, ks) ∧
          MarkedRun clr bits colors n pages m.bits g ks := by
      subst hnone
      obtain ⟨⟨pages₁, m₁⟩, hr, h⟩ := Option.map_eq_some_iff.mp h
      cases h
      exact ih (m := m₁) hpools hr
    cases hclr : allClrs clr colors with
    | false =>
      rw [hclr] at hres
      simp only [Bool.not_false, if_true] at hres ⊢
      rw [hres, Option.bind_some]
      cases res with
      | none => exact hnext rfl
      | some r =>
        obtain ⟨pages₁, bits₁, pool₁⟩ := r
        cases h
        obtain ⟨ks, hks, hmarked⟩ := ppAllocClr_marked hperiod hclr hn hpool.1 hpool.2 hres
        exact ⟨_, ks, by rw [hks]; rfl, hmarked⟩
    | true =>
      rw [hclr] at hres
      simp only [Bool.not_true, Bool.false_eq_true, if_false] at hres ⊢
      rw [Option.some.inj hres]
      cases res with
      | none => exact hnext rfl
      | some r =>
        obtain ⟨pages₁, bits₁, pool₁⟩ := r
        cases h
        exact ⟨_, _, rfl, ppAlloc_marked hclr (Option.some.inj hres)⟩

end Marks

theorem ipcAllocShmem_append {clr : Colors} {before table table' : List Shmem} {m m' : PoolMem}
    (h : ipcAllocShmem clr (before ++ table) m = .ok (table', m')) :
    ∃ done mᵢ rest, ipcAllocShmem clr before m = .ok (done, mᵢ) ∧
      ipcAllocShmem clr table mᵢ = .ok (rest, m') ∧ table' = done ++ rest ∧
      done.length = before.length := by
  induction before generalizing m table' with
  | nil => exact ⟨[], m, table', rfl, h, rfl, rfl⟩
  | cons shmem before ih =>
    -- The rest of the table after the object at hand, in either branch.
    have hrest {m₁ : PoolMem} {x : Shmem}
        (h : (ipcAllocShmem clr (before ++ table) m₁).map (fun r => (x :: r.1, r.2)) =
          .ok (table', m')) :
        ∃ done mᵢ rest, (ipcAllocShmem clr before m₁).map (fun r => (x :: r.1, r.2)) =
            .ok (done, mᵢ) ∧ ipcAllocShmem clr table mᵢ = .ok (rest, m') ∧
          table' = done ++ rest ∧ done.length = before.length + 1 := by
      cases hall : ipcAllocShmem clr (before ++ table) m₁ with
      | error e =>
        rw [hall] at h
        cases h
      | ok r =>
        rw [hall] at h
        cases h
        obtain ⟨done, mᵢ, rest, hdone, htable, heq, hlen⟩ := ih hall
        refine ⟨x :: done, mᵢ, rest, by rw [hdone]; rfl, htable, ?_, by simp [hlen]⟩
        rw [heq]
        rfl
    simp only [List.cons_append, ipcAllocShmem] at h ⊢
    split at h
    · rename_i hplace
      rw [if_pos hplace]
      split at h
      · cases h
      · rename_i pages m₁ halloc
        split at h
        · cases h
        · rename_i hsize
          simp only [if_neg hsize]
          exact hrest h
    · rename_i hplace
      rw [if_neg hplace]
      exact hrest h

/-! ## Windows -/

section Windows

variable {clr : Colors} {as : AddrSpace} {rel : Bool} {used : Set Nat} {s s' : MemState}
  {rounds : Nat}

/-- A region that lies in the range of the root table, and whose pages an entry can address. -/
structure MemRegion.Fits (pt : PageTable) (reg : MemRegion) : Prop where
  base : reg.base ≠ 0
  window : reg.base % ptSpan pt + numPages reg.size * pageSize ≤ ptSpan pt
  phys : reg.phys % pageSize = 0
  top : reg.phys + numPages reg.size * pageSize ≤ 2 ^ 56

/-- The region has pages, and they are mapped to the physical pages, one after the other. -/
def MemRegion.MappedIn (reg : MemRegion) (pt : PageTable) (s : MemState) : Prop :=
  0 < numPages reg.size ∧ ∀ k < numPages reg.size * pageSize,
    memTranslate pt s.mem (reg.base + k) = some (reg.phys + k)

theorem memFindSec_vmSecs {as : AddrSpace} {va : Nat} (hsecs : as.secs = vmSecs)
    (hva : va < 2 ^ 64) : memFindSec as va = some 0 := by
  have hin : decide (va ≤ 2 ^ 64 - 1) = true := decide_eq_true (by omega)
  simp only [memFindSec, hsecs, vmSecs, List.findIdx?_cons, Nat.zero_le, decide_true,
    Bool.true_and, hin, if_true]

/-- The hint that `mem_alloc_vpage` returns was for some pages, and is in the section. -/
theorem memAllocVpage_asked {section_ at_ n : Nat}
    (hok : memAllocVpage clr as section_ at_ n rounds s = .ok (at_, s')) (hat : at_ ≠ 0) :
    1 ≤ n ∧ memFindSec as at_ = some section_ := by
  simp only [memAllocVpage] at hok
  split at hok
  · cases hok
  split at hok
  · cases hok
    exact absurd rfl hat
  rename_i hsec
  refine ⟨Nat.pos_of_ne_zero fun hn => ?_, by_contra fun hne => hsec ⟨hat, hne⟩⟩
  subst hn
  cases rounds with
  | zero => cases hok
  | succ rounds =>
    simp [vpageSearch] at hok
    exact hat hok.1.symm

/-- What `vm_map_mem_region` does with a region at a given place: it maps the region and keeps every
other translation. -/
theorem AsState.mapMemRegion {reg : MemRegion} (hs : AsState clr as rel used s)
    (hsecs : as.secs = vmSecs) (hplace : reg.placePhys = true) (hreg : reg.Fits as.pt)
    (hok : vmMapMemRegion clr as reg rounds s = .ok s') :
    AsReach clr as rel used s s' ∧
      (∀ a pa, memTranslate as.pt s.mem a = some pa → memTranslate as.pt s'.mem a = some pa) ∧
      reg.MappedIn as.pt s' := by
  obtain ⟨hbase, hwindow, hphys, htop⟩ := hreg
  simp only [vmMapMemRegion, hplace, if_true] at hok
  split at hok
  · cases hok
  rename_i va s₁ halloc
  split at hok
  · cases hok
  rename_i hva
  obtain rfl : va = reg.base := by simpa using hva
  obtain ⟨hn, hsec⟩ := memAllocVpage_asked halloc hbase
  have hpage : pageOf reg.base = reg.base :=
    Nat.div_mul_cancel (Nat.dvd_of_mod_eq_zero (memAllocVpage_page hs.rv64 halloc))
  have taken := hs.allocVpage hn (by omega) (.inr ⟨hbase, by rwa [hpage]⟩) halloc hbase
  obtain ⟨⟨ok, s₂⟩, hmap, rfl⟩ := map_eq_ok.mp hok
  obtain rfl := memMap_true taken.page hsec (memFindSec_vmSecs hsecs (u64_lt _)) hmap
  obtain ⟨hs', hkeep, hmapped⟩ :=
    taken.mapGiven hs ⟨hs.rv64, taken.page, hphys, hwindow, htop, by decide⟩ hmap
  exact ⟨hs', hkeep, hn, hmapped⟩

theorem AsState.initIpc {env : IpcEnv} {ipcs : List Ipc} (hs : AsState clr as rel used s)
    (hsecs : as.secs = vmSecs)
    (hfits : ∀ ipc ∈ ipcs, ∀ shmem, ipcGetShmem env ipc.shmemId = some shmem →
      (ipcRegion ipc shmem).Fits as.pt)
    (hok : vmInitIpc clr env as rounds ipcs s = .ok s') :
    (∀ a pa, memTranslate as.pt s.mem a = some pa → memTranslate as.pt s'.mem a = some pa) ∧
      ∀ ipc ∈ ipcs, ∀ shmem, ipcGetShmem env ipc.shmemId = some shmem →
        (ipcRegion ipc shmem).MappedIn as.pt s' := by
  induction ipcs generalizing s used with
  | nil =>
    cases hok
    exact ⟨fun _ _ h => h, fun ipc h => absurd h List.not_mem_nil⟩
  | cons ipc ipcs ih =>
    obtain ⟨hfit, hfits⟩ := List.forall_mem_cons.mp hfits
    rw [vmInitIpc] at hok
    split at hok
    · rename_i hnone
      obtain ⟨hkeep, hmapped⟩ := ih hs hfits hok
      refine ⟨hkeep, List.forall_mem_cons.mpr ⟨fun shmem hshmem => ?_, hmapped⟩⟩
      rw [hnone] at hshmem
      cases hshmem
    · rename_i shmem hshmem
      split at hok
      · cases hok
      rename_i s₁ hmap
      obtain ⟨⟨used₁, hs₁, -⟩, hkeep₁, hmapped₁⟩ :=
        hs.mapMemRegion hsecs rfl (hfit shmem hshmem) hmap
      obtain ⟨hkeep, hmapped⟩ := ih hs₁ hfits hok
      refine ⟨fun a pa ha => hkeep a pa (hkeep₁ a pa ha), List.forall_mem_cons.mpr
        ⟨fun shmem' hshmem' => ?_, hmapped⟩⟩
      obtain rfl : shmem = shmem' := Option.some.inj (hshmem.symm.trans hshmem')
      exact ⟨hmapped₁.1, fun k hk => hkeep _ _ (hmapped₁.2 k hk)⟩

end Windows

/-! ## What a window shows -/

theorem numPages_le {sz sz' : Nat} (hle : sz ≤ sz') (h : sz' + pageSize ≤ 2 ^ 64) :
    numPages sz ≤ numPages sz' := by
  rw [numPages, numPages, align_eq h, align_eq (by omega)]
  simp only [pageSize] at *
  omega

/-- The shared memories as `vm_init_ipc` reads them, which does not look at their masters. -/
def shmemPlaces (table : List Shmem) : List (Nat × Nat) :=
  table.map fun shmem => (shmem.size, shmem.phys)

theorem ipcAllocShmem_placed {clr : Colors} {before after table' done : List Shmem} {shmem : Shmem}
    {m m' mᵢ : PoolMem}
    (htable : ipcAllocShmem clr (before ++ shmem :: after) m = .ok (table', m'))
    (hbefore : ipcAllocShmem clr before m = .ok (done, mᵢ)) (hplace : shmem.placePhys = false) :
    ∃ pages mᵢ', memAllocPpagesClr clr mᵢ.bits shmem.colors (numPages shmem.size) false mᵢ.pools =
        some (pages, mᵢ') ∧ numPages shmem.size ≤ pages.size ∧
      (shmemPlaces table')[before.length]? = some (shmem.size, pages.base) := by
  obtain ⟨done₁, m₁, rest, hbefore₁, hrest, rfl, hlen⟩ := ipcAllocShmem_append htable
  cases hbefore.symm.trans hbefore₁
  simp only [ipcAllocShmem, hplace, Bool.not_false, if_true] at hrest
  split at hrest
  · cases hrest
  rename_i pages mᵢ' halloc
  split at hrest
  · cases hrest
  rename_i henough
  refine ⟨pages, mᵢ', halloc, by omega, ?_⟩
  cases hall : ipcAllocShmem clr after mᵢ' with
  | error e =>
    rw [hall] at hrest
    cases hrest
  | ok r =>
    rw [hall] at hrest
    cases hrest
    rw [shmemPlaces, List.map_append, ← hlen, List.getElem?_append_right (by simp)]
    simp

/-- A window of two pages on the first shared memory. -/
def twoPageIpc : Ipc := { shmemId := 0, interrupts := [], base := 0x40000000, size := 0x2000 }

/-- A shared memory of two pages, at the beginning of the pool if it is placed there. -/
def twoPageShmem (colors phys : Nat) : Shmem := { size := 0x2000, colors, phys }

end Bao
