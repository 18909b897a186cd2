import Bao.Core.ObjcacheSystem

/-!
# Where object caches give up

Two things that the users of object caches rely on, for every state that a run can reach. The first
is that `objcache_alloc` fails for lack of pages only: it does so as long as a slot of the first
slab is free, since `last_free` is never cleared and no second slab is made. The second is that
freeing an object twice does nothing: the only sign that a slot is free is a link that is not null,
and the last slot of the free list has none.
-/

namespace Bao

open Foundation

theorem slotNum_pos {osize : Nat} (h : Fits osize) : 0 < slotNum osize := by
  obtain ⟨-, hpos, hle⟩ := slotSize_spec h
  exact Nat.div_pos hle (by omega)

namespace IsSlab

variable {m : Memory} {oc osize slab x : Nat} {free live : List Nat}

theorem release_rejected (hlink : m x ≠ 0) : (slabFree m slab (x + 8)).2 = m := by
  rw [slabFree, if_neg]
  rintro ⟨-, -, -, hnull⟩
  exact hlink (by simpa using hnull)

theorem release_last (h : IsSlab m oc osize slab free live) (hslab : slab ≠ 0) (hx : x ∈ free)
    (hlink : m x = 0) (hpage : slab / pageSize = x / pageSize)
    (hplace : u64 (x % pageSize + (2 ^ 64 - 64)) % m (slab + 32) = 0) :
    (slabFree m slab (x + 8)).2 (slab + 48) = free.length + 1 := by
  have hslot := h.free_slot hx
  have hbounds := slot_bounds hslot
  have hset : ∀ y ∈ free, memset m x (m (slab + 32)) y = m y := by
    intro y hy
    rw [memset, h.objsize]
    split
    · rename_i hin
      by_cases hne : y = x
      · rw [hne, hlink]
      · have := slots_apart (h.free_slot hy) hslot hne
        omega
    · rfl
  have hlow : ∀ a, a < slab + 64 → memset m x (m (slab + 32)) a = m a := by
    intro a ha
    rw [memset, if_neg (by omega)]
  have hlist : IsList (memset m x (m (slab + 32))) (slab + 8) free :=
    h.list.frame (hlow _ (by omega)) (hlow _ (by omega)) hset
  have hcount : slab + 48 ∉ free := fun hin => by have := slot_bounds (h.free_slot hin); omega
  have hlen := h.length_add
  have hnum : slotNum osize ≤ pageSize := (Nat.div_le_self _ _).trans (by decide)
  simp only [slabFree, Nat.add_sub_cancel, hslab, ne_eq, not_false_eq_true, hpage, hplace, hlink,
    and_self, if_true, Function.update_self]
  rw [hlist.push_frame (by omega) (by omega) (by omega) (by omega) (by omega) (by omega) hcount,
    hlow _ (by omega), h.objcount]
  exact u64_of_lt (by simp only [pageSize] at hnum; omega)

/-- Freeing an object whose slot is free does nothing unless the slot is the last of the list. -/
theorem release_again_iff (h : IsSlab m oc osize slab free live) (hfits : Fits osize)
    (hsize : 0 < osize) (hoc : oc ≠ 0) (hslab : slab ≠ 0) (haligned : slab % pageSize = 0)
    (hx : x ∈ free) : (objcacheFree m oc (x + 8)).2 = m ↔ free.getLast? ≠ some x := by
  have hslot := h.free_slot hx
  have hin : x + 8 < slab + pageSize := by
    have := slot_bounds hslot
    have := (slotSize_spec hfits).2.1
    omega
  obtain ⟨hfree, hpage, hplace⟩ := h.slot_tests hfits hoc hslab haligned hslot hin
  rw [hfree, ne_eq, ← h.list.chain.link_eq_zero_iff hx]
  refine ⟨fun hsame hlink => ?_, release_rejected⟩
  have hcount := h.release_last hslab hx hlink hpage hplace
  rw [hsame, h.objcount] at hcount
  omega

end IsSlab

namespace CacheState

variable {n : Nat}

/-- An allocation fails for no other reason than that `mem_alloc_page`, called by it, failed: this
holds as long as the cache has less live objects than a slab has slots, and only so long. A new slab
is made only when no slab has a free slot. -/
theorem objcacheAlloc_null_iff (L : CacheLayout n) (hsize : ∀ c, 0 < L.osize c) (m : Memory)
    (as : List (CacheAction n)) (s : CacheState n) (h : run (step L) (initial m) as = some s)
    (c : Fin n) (hready : s.ready c = true) (page : Nat) (hpage : FreshPage L s page) :
    (((objcacheAlloc s.m (L.oc c) page).1 = 0 → s.m (L.oc c + 32) = 0 ∧ page = 0) ↔
      (s.live c).length < slotNum (L.osize c)) ∧
    (IsCache.slabsAfter s.m (L.oc c) page (s.slabs c) ≠ s.slabs c →
      ∀ slab ∈ s.slabs c, IsList s.m (slab + 8) []) := by
  have hinv := run_invariant (Inv.step hsize) (Inv.initial L m) h
  have hcache := hinv.cache c hready
  have hpages : PagesOk (L.oc c) (IsCache.slabsAfter s.m (L.oc c) page (s.slabs c)) := by
    simpa using (hinv.apart.alloc (c := c) hpage).pages c c
  have hnull := (hcache.alloc page (L.fits c) (L.oc_ne c) hpages).2.1
  rw [hnull]
  obtain ⟨hslabs, hlive, hlast⟩ | ⟨slab, free, hslabs, hlast, hslab⟩ := hcache.slab
  · have hroom := slotNum_pos (L.fits c)
    simp only [hslabs, hlive, hlast, IsCache.slabsAfter, List.length_nil, true_and]
    refine ⟨iff_of_true ?_ hroom, by simp⟩
    rintro (hnone | hfull)
    · by_contra hne
      simp [hne] at hnone
    · omega
  · have hne : slab ≠ 0 := by
      rintro rfl
      exact hcache.list.chain.ne_zero (by simp [hslabs]) rfl
    have hlen := hslab.length_add
    simp only [hslabs, hlast, IsCache.slabsAfter, hne, false_and, if_false]
    refine ⟨?_, by simp⟩
    simp only [List.cons_ne_self, false_or, imp_false]
    omega

/-- One of two objects of 2000 bytes is in use, so the next allocation does not fail. -/
theorem objcacheAlloc_null_one_left :
    ∃ s, run (step (oneCache 2000 (by decide))) (initial fun _ => 0)
        [.init 0 false 0, .alloc 0 0x1000] = some s ∧
      (objcacheAlloc s.m 0x100 0x5000).1 ≠ 0 := by
  refine exists_some_of (P := fun s => s.ready 0 = true ∧ s.live 0 = [0x1048] ∧
    FreshPage (oneCache 2000 (by decide)) s 0x5000) (by decide +kernel) fun s hs h hnull => ?_
  obtain ⟨hready, hlive, hfresh⟩ := h
  have hiff := (objcacheAlloc_null_iff _ (by decide) _ _ s hs 0 hready 0x5000 hfresh).1
  exact absurd (hiff.mpr (by rw [hlive]; decide) hnull).2 (by decide)

/-- Two objects of 2000 bytes fill the slab, and a third allocation fails without asking for a page,
though one could be had. -/
theorem objcacheAlloc_full :
    ∃ s, run (step (oneCache 2000 (by decide))) (initial fun _ => 0)
        [.init 0 false 0, .alloc 0 0x1000, .alloc 0 0] = some s ∧
      FreshPage (oneCache 2000 (by decide)) s 0x5000 ∧
      (objcacheAlloc s.m 0x100 0x5000).1 = 0 ∧ s.m (0x100 + 32) = 0x1000 :=
  exists_some_of (by decide +kernel) fun _ _ h => h

/-- Freeing an object whose slot is free changes nothing exactly when the slot is not the last one
of its free list. -/
theorem objcacheFree_again_iff (L : CacheLayout n) (hsize : ∀ c, 0 < L.osize c) (m : Memory)
    (as : List (CacheAction n)) (s : CacheState n) (h : run (step L) (initial m) as = some s)
    (c : Fin n) (slab : Nat) (hslab : slab ∈ s.slabs c) :
    ∃ free, IsList s.m (slab + 8) free ∧ ∀ x ∈ free,
      ((objcacheFree s.m (L.oc c) (x + 8)).2 = s.m ↔ free.getLast? ≠ some x) := by
  have hinv := run_invariant (Inv.step hsize) (Inv.initial L m) h
  obtain ⟨free, hfree⟩ := hinv.slab hslab
  obtain ⟨hne, haligned, -⟩ := hinv.apart.pages c c slab hslab
  refine ⟨free, hfree.list, fun x hx => ?_⟩
  exact hfree.release_again_iff (L.fits c) (hsize c) (L.oc_ne c) hne haligned hx

/-- The first of two free objects of 2000 bytes is freed again, without effect. -/
theorem objcacheFree_again_first :
    ∃ s, run (step (oneCache 2000 (by decide))) (initial fun _ => 0) [.init 0 true 0x1000] =
        some s ∧ (objcacheFree s.m 0x100 0x1048).2 = s.m := by
  refine exists_some_of (P := fun s => s.slabs 0 = [0x1000] ∧ s.m 0x1008 = 0x1040 ∧
    s.m 0x1040 = 0x1818 ∧ s.m 0x1818 = 0) (by decide +kernel) fun s hs h => ?_
  obtain ⟨hslabs, hhead, hnext, hlast⟩ := h
  obtain ⟨free, hlist, hiff⟩ := objcacheFree_again_iff _ (by decide) _ _ s hs 0 0x1000
    (by simp [hslabs])
  have hchain : Chain s.m (s.m 0x1008) [0x1040, 0x1818] :=
    ⟨hhead, by decide, hnext, by decide, hlast⟩
  obtain rfl := hlist.chain.unique hchain
  exact (hiff 0x1040 (by decide)).mpr (by decide)

/-- The last of two free objects is freed again: the free list becomes a cycle, and the slab counts
three free objects. -/
theorem objcacheFree_again_last :
    ∃ s, run (step (oneCache 2000 (by decide))) (initial fun _ => 0) [.init 0 true 0x1000] =
        some s ∧ IsList s.m 0x1008 [0x1040, 0x1818] ∧ s.m 0x1030 = 2 ∧
      (objcacheFree s.m 0x100 0x1820).2 0x1818 = 0x1818 ∧
      (objcacheFree s.m 0x100 0x1820).2 0x1030 = 3 := by
  refine exists_some_of (P := fun s => s.m 0x1008 = 0x1040 ∧ s.m 0x1010 = 0x1818 ∧
    s.m 0x1040 = 0x1818 ∧ s.m 0x1818 = 0 ∧ s.m 0x1030 = 2 ∧
    (objcacheFree s.m 0x100 0x1820).2 0x1818 = 0x1818 ∧
    (objcacheFree s.m 0x100 0x1820).2 0x1030 = 3) (by decide +kernel) fun s _ h => ?_
  obtain ⟨hhead, htail, hnext, hlast, hafter⟩ := h
  exact ⟨⟨by decide, ⟨hhead, by decide, hnext, by decide, hlast⟩, htail, by decide, by decide⟩,
    hafter⟩

end CacheState

end Bao
