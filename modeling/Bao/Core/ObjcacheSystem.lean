import Mathlib.Data.List.Perm.Basic
import Bao.Foundation.Run
import Bao.Core.Objcache

/-!
# Object caches in use

Several object caches share one memory with everything else that runs. `IsSlab` says what a slab
looks like in memory when `free` are the slots on its free list and `live` the objects in use:
together they are the slots of the page, each once. Allocating moves a slot from one to the other,
freeing moves it back, and neither changes a word outside the cache and its page.

The invariant then speaks about every run: of `objcache_init`, `objcache_alloc` and `objcache_free`
on any of the caches, and of stores by the users of live objects and of the rest of the memory.
-/

namespace Bao

open Foundation

/-- The size of a slot: an object behind its link word. -/
def slotSize (osize : Nat) : Nat := align (8 + osize) 8

/-- The number of slots of a slab. -/
def slotNum (osize : Nat) : Nat := (pageSize - 64) / slotSize osize

/-- The slots of the slab at `slab`. -/
def slabSlots (osize slab : Nat) : List Nat := slots slab (slotSize osize) (slotNum osize)

/-- One object fits behind the header and its link word. -/
def Fits (osize : Nat) : Prop := 64 + 8 + osize ≤ pageSize

instance (osize : Nat) : Decidable (Fits osize) := inferInstanceAs (Decidable (_ ≤ _))

section Slots

variable {osize slab x y : Nat}

theorem slotSize_spec (h : Fits osize) :
    slotSize osize % 8 = 0 ∧ 8 + osize ≤ slotSize osize ∧ slotSize osize ≤ pageSize - 64 := by
  simp only [Fits, pageSize] at h
  rw [slotSize, align_eq (by omega)]
  simp only [pageSize]
  omega

theorem mem_slabSlots : x ∈ slabSlots osize slab ↔
    ∃ i < slotNum osize, x = slab + 64 + slotSize osize * i := by
  simp only [slabSlots, slots, List.mem_map, List.mem_range, eq_comm]

theorem slabSlots_length : (slabSlots osize slab).length = slotNum osize := by
  simp [slabSlots, slots]

theorem slabSlots_nodup (h : Fits osize) : (slabSlots osize slab).Nodup := by
  have hpos := (slotSize_spec h).2.1
  refine List.Nodup.map (fun i j hij => ?_) List.nodup_range
  have heq : slotSize osize * i = slotSize osize * j := by simpa using hij
  exact Nat.eq_of_mul_eq_mul_left (by omega) heq

theorem slot_bounds (hx : x ∈ slabSlots osize slab) :
    slab + 64 ≤ x ∧ x + slotSize osize ≤ slab + pageSize := by
  obtain ⟨i, hi, rfl⟩ := mem_slabSlots.mp hx
  have hnext : slotSize osize * (i + 1) ≤ slotSize osize * slotNum osize := Nat.mul_le_mul_left _ hi
  have hall : slotSize osize * slotNum osize ≤ pageSize - 64 := Nat.mul_div_le _ _
  rw [Nat.mul_add] at hnext
  simp only [pageSize] at *
  omega

theorem slots_apart (hx : x ∈ slabSlots osize slab) (hy : y ∈ slabSlots osize slab) (hne : x ≠ y) :
    x + slotSize osize ≤ y ∨ y + slotSize osize ≤ x := by
  obtain ⟨i, -, rfl⟩ := mem_slabSlots.mp hx
  obtain ⟨j, -, rfl⟩ := mem_slabSlots.mp hy
  rcases Nat.lt_trichotomy i j with hij | rfl | hij
  · have := Nat.mul_le_mul_left (slotSize osize) hij
    rw [Nat.mul_succ] at this
    omega
  · exact absurd rfl hne
  · have := Nat.mul_le_mul_left (slotSize osize) hij
    rw [Nat.mul_succ] at this
    omega

end Slots

/-! ## A slab in memory -/

/-- The slab at `slab` belongs to the cache `oc`, has the slots `free` on its free list and has
handed out the objects `live`. -/
structure IsSlab (m : Memory) (oc osize slab : Nat) (free live : List Nat) : Prop where
  objsize : m (slab + 32) = slotSize osize
  objcount : m (slab + 48) = free.length
  cache : m (slab + 56) = oc
  list : IsList m (slab + 8) free
  links : ∀ obj ∈ live, m (obj - 8) = 0
  partition : (free.map (· + 8) ++ live).Perm ((slabSlots osize slab).map (· + 8))

namespace IsSlab

variable {m m' : Memory} {oc osize slab x obj a : Nat} {free live : List Nat}

section

variable (h : IsSlab m oc osize slab free live)

include h

theorem free_slot (hx : x ∈ free) : x ∈ slabSlots osize slab := by
  have hmem := h.partition.subset (List.mem_append_left _ (List.mem_map_of_mem hx))
  obtain ⟨y, hy, heq⟩ := List.mem_map.mp hmem
  rwa [← Nat.add_right_cancel heq]

theorem live_slot (hobj : obj ∈ live) : ∃ y ∈ slabSlots osize slab, obj = y + 8 := by
  obtain ⟨y, hy, heq⟩ := List.mem_map.mp (h.partition.subset (List.mem_append_right _ hobj))
  exact ⟨y, hy, heq.symm⟩

theorem nodup (hfits : Fits osize) : (free.map (· + 8) ++ live).Nodup :=
  h.partition.nodup_iff.mpr ((slabSlots_nodup hfits).map fun _ _ => Nat.add_right_cancel)

theorem notMem_free (hfits : Fits osize) (hobj : x + 8 ∈ live) : x ∉ free := fun hx =>
  (List.nodup_append.mp (h.nodup hfits)).2.2 _ (List.mem_map_of_mem hx) _ hobj rfl

theorem mem_or_mem (hx : x ∈ slabSlots osize slab) : x ∈ free ∨ x + 8 ∈ live := by
  have hmem := h.partition.symm.subset (List.mem_map_of_mem hx)
  rcases List.mem_append.mp hmem with hfree | hlive
  · obtain ⟨y, hy, heq⟩ := List.mem_map.mp hfree
    exact .inl (Nat.add_right_cancel heq ▸ hy)
  · exact .inr hlive

theorem object_apart (hfits : Fits osize) (hobj : obj ∈ live) (hx : x ∈ slabSlots osize slab)
    (hne : obj ≠ x + 8) (hlo : obj ≤ a) (hhi : a < obj + osize) :
    slab + 64 ≤ a ∧ (a < x ∨ x + slotSize osize ≤ a) := by
  obtain ⟨y, hy, rfl⟩ := h.live_slot hobj
  have hbounds := slot_bounds hy
  have hlarge := (slotSize_spec hfits).2.1
  have hapart := slots_apart hy hx (by rintro rfl; exact hne rfl)
  omega

theorem length_add : free.length + live.length = slotNum osize := by
  simpa [slabSlots_length] using h.partition.length_eq

theorem frame (header : ∀ a, slab + 8 ≤ a → a < slab + 64 → m' a = m a)
    (words : ∀ x ∈ slabSlots osize slab, m' x = m x) : IsSlab m' oc osize slab free live where
  objsize := (header _ (by omega) (by omega)).trans h.objsize
  objcount := (header _ (by omega) (by omega)).trans h.objcount
  cache := (header _ (by omega) (by omega)).trans h.cache
  list := h.list.frame (header _ (by omega) (by omega)) (header _ (by omega) (by omega))
    fun x hx => words x (h.free_slot hx)
  links := by
    intro obj hobj
    obtain ⟨y, hy, rfl⟩ := h.live_slot hobj
    rw [Nat.add_sub_cancel, words y hy]
    simpa using h.links _ hobj
  partition := h.partition

end

theorem create (hfits : Fits osize) (hoc : oc ≠ 0) (hslab : slab ≠ 0)
    (hout : oc < slab ∨ slab + pageSize ≤ oc) (hosize : m oc = osize) :
    (slabCreate m oc slab).1 = slab ∧
      IsSlab (slabCreate m oc slab).2 oc osize slab (slabSlots osize slab) [] ∧
      ∀ a, a < slab ∨ slab + pageSize ≤ a → (slabCreate m oc slab).2 a = m a := by
  have hpos : 0 < slotSize osize := by have := (slotSize_spec hfits).2.1; omega
  obtain ⟨hr, hsize, hcache, hcount, hlist, hframe⟩ :=
    slabCreate_spec hoc hslab hout
      (show align (8 + m oc) 8 = slotSize osize by rw [hosize]; rfl) hpos
  refine ⟨hr, ⟨hsize, ?_, hcache, hlist, by simp, by simp⟩, hframe⟩
  rw [hcount, slabSlots_length]
  rfl

theorem alloc (h : IsSlab m oc osize slab (x :: free) live) (hfits : Fits osize)
    (hslab : slab ≠ 0) :
    (slabAlloc m slab).1 = x + 8 ∧
      IsSlab (slabAlloc m slab).2 oc osize slab free ((x + 8) :: live) ∧
      ∀ a, a ≤ slab ∨ slab + 64 ≤ a → a ≠ x → (slabAlloc m slab).2 a = m a := by
  have hx := slot_bounds (h.free_slot List.mem_cons_self)
  have hcount : slab + 48 ∉ free := fun hin => by
    have := slot_bounds (h.free_slot (List.mem_cons_of_mem _ hin))
    omega
  obtain ⟨hr, hlist, hlink, hobjcount, hframe⟩ := slabAlloc_cons hslab h.list (by omega) hcount
  refine ⟨hr, ⟨?_, ?_, ?_, hlist, ?_, ?_⟩, fun a ha =>
    hframe a (by omega) (by omega) (by omega)⟩
  · rw [hframe _ (by omega) (by omega) (by omega) (by omega), h.objsize]
  · have hlen := h.length_add
    have hnum : slotNum osize ≤ pageSize := (Nat.div_le_self _ _).trans (by decide)
    rw [hobjcount, h.objcount]
    simp only [List.length_cons, u64, pageSize] at *
    omega
  · rw [hframe _ (by omega) (by omega) (by omega) (by omega), h.cache]
  · intro obj hobj
    rcases List.mem_cons.mp hobj with rfl | hobj
    · simpa using hlink
    · obtain ⟨y, hy, rfl⟩ := h.live_slot hobj
      have hne : y ≠ x := fun heq =>
        h.notMem_free hfits hobj (heq ▸ List.mem_cons_self)
      have := slot_bounds hy
      rw [Nat.add_sub_cancel, hframe y (by omega) (by omega) (by omega) hne]
      simpa using h.links _ hobj
  · exact List.perm_middle.trans h.partition

/-- `objcache_free` finds the slab of an object that starts inside the page, and its slot passes the
tests of `slab_free` for the page and the place in it. -/
theorem slot_tests (h : IsSlab m oc osize slab free live) (hfits : Fits osize) (hoc : oc ≠ 0)
    (hslab : slab ≠ 0) (haligned : slab % pageSize = 0) (hx : x ∈ slabSlots osize slab)
    (hin : x + 8 < slab + pageSize) :
    (objcacheFree m oc (x + 8)).2 = (slabFree m slab (x + 8)).2 ∧
      slab / pageSize = x / pageSize ∧ u64 (x % pageSize + (2 ^ 64 - 64)) % m (slab + 32) = 0 := by
  have hbounds := slot_bounds hx
  obtain ⟨-, hlarge, hsmall⟩ := slotSize_spec hfits
  have hpage : (x + 8) / pageSize * pageSize = slab := by simp only [pageSize] at *; omega
  refine ⟨?_, by simp only [pageSize] at *; omega, ?_⟩
  · simp only [objcacheFree, hpage, h.cache, hoc, hslab, ne_eq, not_false_eq_true, and_self,
      if_true]
  · obtain ⟨i, -, rfl⟩ := mem_slabSlots.mp hx
    have hoff : u64 ((slab + 64 + slotSize osize * i) % pageSize + (2 ^ 64 - 64)) =
        slotSize osize * i := by
      simp only [u64, pageSize] at *
      omega
    rw [h.objsize, hoff, Nat.mul_mod_right]

/-- `objcache_free` puts the slot of a live object at the end of the free list. The object must
start inside the page, because the slab is found from its address. -/
theorem release (h : IsSlab m oc osize slab free live) (hfits : Fits osize) (hoc : oc ≠ 0)
    (hslab : slab ≠ 0) (haligned : slab % pageSize = 0) (hobj : obj ∈ live)
    (hin : obj < slab + pageSize) :
    IsSlab (objcacheFree m oc obj).2 oc osize slab (free ++ [obj - 8]) (live.erase obj) ∧
      ∀ a, a ≤ slab ∨ slab + 64 ≤ a → a ∉ free →
        a < obj - 8 ∨ obj - 8 + slotSize osize ≤ a → (objcacheFree m oc obj).2 a = m a := by
  obtain ⟨x, hx, rfl⟩ := h.live_slot hobj
  have hbounds := slot_bounds hx
  obtain ⟨-, hlarge, hsmall⟩ := slotSize_spec hfits
  obtain ⟨hfree, hpage, hplace⟩ := h.slot_tests hfits hoc hslab haligned hx hin
  have hnull : m x = 0 := by simpa using h.links _ hobj
  have hnew := h.notMem_free hfits hobj
  obtain ⟨hlist, hcount, hframe⟩ := slabFree_spec (x + 8) hslab h.list hpage hplace
    (by simpa using hnull) (by simp only [Nat.add_sub_cancel]; omega) (by simpa using hnew)
    (by
      intro y hy
      have hy' := h.free_slot hy
      have hne : y ≠ x := fun heq => hnew (heq ▸ hy)
      have hapart := slots_apart hy' hx hne
      rw [h.objsize, Nat.add_sub_cancel]
      exact ⟨(slot_bounds hy').1, by omega⟩)
  rw [Nat.add_sub_cancel, h.objsize] at hframe
  rw [Nat.add_sub_cancel] at hlist
  rw [hfree, Nat.add_sub_cancel]
  -- The header below the objects stays, apart from the list and the count.
  have hheader : ∀ a, slab + 16 < a → a < slab + 64 → a ≠ slab + 48 →
      (slabFree m slab (x + 8)).2 a = m a := by
    intro a h1 h2 h3
    have hnot : a ∉ free := fun hin => by have := slot_bounds (h.free_slot hin); omega
    exact hframe a (by omega) (by omega) h3 hnot (.inl (by omega)) (by omega)
  refine ⟨⟨?_, ?_, ?_, hlist, ?_, ?_⟩, fun a ha hnot hout =>
    hframe a (by omega) (by omega) (by omega) hnot hout (by omega)⟩
  · rw [hheader _ (by omega) (by omega) (by omega), h.objsize]
  · have hlen := h.length_add
    have hnum : slotNum osize ≤ pageSize := (Nat.div_le_self _ _).trans (by decide)
    rw [hcount, h.objcount, List.length_append, List.length_singleton]
    exact u64_of_lt (by simp only [pageSize] at hnum; omega)
  · rw [hheader _ (by omega) (by omega) (by omega), h.cache]
  · intro obj' hobj'
    have hlive := List.mem_of_mem_erase hobj'
    obtain ⟨y, hy, rfl⟩ := h.live_slot hlive
    have hnodup := (List.nodup_append.mp (h.nodup hfits)).2.1
    have hne : y ≠ x := fun heq => hnodup.not_mem_erase (heq ▸ hobj')
    have hapart := slots_apart hy hx hne
    have := slot_bounds hy
    rw [Nat.add_sub_cancel, hframe y (by omega) (by omega) (by omega) (h.notMem_free hfits hlive)
      (by omega) hne]
    simpa using h.links _ hlive
  · refine List.Perm.trans ?_ h.partition
    rw [List.map_append, List.append_assoc]
    exact ((List.perm_cons_erase hobj).symm).append_left _

end IsSlab

/-! ## A cache in memory -/

/-- What `objcache_init` with `prime` and an `objcache_alloc` without `last_free` have in common: a
new slab becomes a slab of the cache and its `last_free`. A null slab is not pushed, because the
link is its first word. -/
def objcacheGrow (m : Memory) (oc page : Nat) : Nat × Memory :=
  let r := slabCreate m oc page
  let m := listPush r.2 (oc + 8) r.1
  (r.1, Function.update m (oc + 32) r.1)

theorem objcacheAlloc_eq {m : Memory} {oc : Nat} (hoc : oc ≠ 0) (page : Nat) :
    objcacheAlloc m oc page =
      if m (oc + 32) = 0 then
        let r := objcacheGrow m oc page
        if r.1 ≠ 0 then slabAlloc r.2 r.1 else (0, r.2)
      else slabAlloc m (m (oc + 32)) := by
  rw [objcacheAlloc, if_pos hoc]
  rfl

/-- The cache at `oc` has the slabs `slabs` and has handed out the objects `live`. It never has a
second slab, since `last_free` stays at the first one. -/
structure IsCache (m : Memory) (oc osize : Nat) (slabs live : List Nat) : Prop where
  size : m oc = osize
  list : IsList m (oc + 8) slabs
  slab : (slabs = [] ∧ live = [] ∧ m (oc + 32) = 0) ∨
    ∃ slab free, slabs = [slab] ∧ m (oc + 32) = slab ∧ IsSlab m oc osize slab free live

/-- The pages of a cache are aligned and apart from its own structure of 48 bytes. -/
def PagesOk (oc : Nat) (slabs : List Nat) : Prop :=
  ∀ p ∈ slabs, p ≠ 0 ∧ p % pageSize = 0 ∧ (oc + 48 ≤ p ∨ p + pageSize ≤ oc)

/-- The address lies in the structure or in a slab of a cache. -/
def InCache (oc : Nat) (slabs : List Nat) (a : Nat) : Prop :=
  (oc ≤ a ∧ a < oc + 48) ∨ ∃ p ∈ slabs, p ≤ a ∧ a < p + pageSize

instance (oc : Nat) (slabs : List Nat) (a : Nat) : Decidable (InCache oc slabs a) :=
  inferInstanceAs (Decidable (_ ∨ _))

theorem InCache.mono {oc a : Nat} {slabs slabs' : List Nat} (h : InCache oc slabs a)
    (hslabs : slabs ⊆ slabs') : InCache oc slabs' a := by
  obtain hin | ⟨p, hp, hin⟩ := h
  · exact .inl hin
  · exact .inr ⟨p, hslabs hp, hin⟩

namespace IsCache

variable {m m' : Memory} {oc osize page obj a : Nat} {slabs live : List Nat}

/-- A cache consists of its structure, the headers of its slabs and the link words of their
slots. -/
theorem frame (h : IsCache m oc osize slabs live)
    (cache : ∀ a, oc ≤ a → a < oc + 48 → m' a = m a)
    (header : ∀ p ∈ slabs, ∀ a, p ≤ a → a < p + 64 → m' a = m a)
    (words : ∀ p ∈ slabs, ∀ x ∈ slabSlots osize p, m' x = m x) :
    IsCache m' oc osize slabs live where
  size := (cache _ (by omega) (by omega)).trans h.size
  list := h.list.frame (cache _ (by omega) (by omega)) (cache _ (by omega) (by omega))
    fun p hp => header p hp p (by omega) (by omega)
  slab := by
    have hlast := cache (oc + 32) (by omega) (by omega)
    refine h.slab.imp (fun ⟨h1, h2, h3⟩ => ⟨h1, h2, hlast.trans h3⟩) ?_
    rintro ⟨slab, free, rfl, h2, h3⟩
    refine ⟨slab, free, rfl, hlast.trans h2, h3.frame (fun a h1 h2 => ?_) fun x hx => ?_⟩
    · exact header slab (by simp) a (by omega) h2
    · exact words slab (by simp) x hx

theorem keep (h : IsCache m oc osize slabs live) (hfits : Fits osize)
    (same : ∀ a, InCache oc slabs a → m' a = m a) : IsCache m' oc osize slabs live := by
  refine h.frame (fun a h1 h2 => same a (.inl ⟨h1, h2⟩)) (fun p hp a h1 h2 => ?_)
    fun p hp x hx => ?_
  · exact same a (.inr ⟨p, hp, h1, by simp only [pageSize]; omega⟩)
  · have := slot_bounds hx
    have := (slotSize_spec hfits).2.1
    exact same x (.inr ⟨p, hp, by omega, by omega⟩)

theorem init (m : Memory) (oc osize : Nat) :
    IsCache (objcacheInit m oc osize) oc osize [] [] ∧
      ∀ a, ¬ InCache oc [] a → objcacheInit m oc osize a = m a := by
  have hlist := IsList.init (Function.update m oc osize) (show oc + 8 ≠ 0 by omega)
  have hinit : ∀ a, a ≠ oc + 8 → a ≠ oc + 16 →
      listInit (Function.update m oc osize) (oc + 8) a = Function.update m oc osize a := by
    intro a h1 h2
    rw [listInit, if_pos (by omega), Function.update_of_ne (by omega), Function.update_of_ne h1]
  refine ⟨⟨?_, ?_, .inl ⟨rfl, rfl, ?_⟩⟩, fun a ha => ?_⟩
  · rw [objcacheInit, Function.update_of_ne (by omega), hinit _ (by omega) (by omega),
      Function.update_self]
  · exact hlist.frame (Function.update_of_ne (by omega) _ _) (Function.update_of_ne (by omega) _ _)
      (by simp)
  · rw [objcacheInit, Function.update_self]
  · have hout : ¬ (oc ≤ a ∧ a < oc + 48) := fun hin => ha (.inl hin)
    rw [objcacheInit, Function.update_of_ne (by omega), hinit a (by omega) (by omega),
      Function.update_of_ne (by omega)]

theorem grow_null (h : IsCache m oc osize [] live) : objcacheGrow m oc 0 = (0, m) := by
  obtain ⟨-, -, hlast⟩ | ⟨slab, free, hslab, -⟩ := h.slab
  · simp [objcacheGrow, slabCreate, listPush, ← hlast]
  · cases hslab

theorem grow (h : IsCache m oc osize [] live) (hfits : Fits osize) (hoc : oc ≠ 0)
    (hpages : PagesOk oc [page]) :
    (objcacheGrow m oc page).1 = page ∧ IsCache (objcacheGrow m oc page).2 oc osize [page] [] ∧
      IsSlab (objcacheGrow m oc page).2 oc osize page (slabSlots osize page) [] ∧
      ∀ a, ¬ InCache oc [page] a → (objcacheGrow m oc page).2 a = m a := by
  obtain ⟨hpage, -, hout⟩ := hpages page (by simp)
  have hsize : 64 ≤ pageSize := by decide
  obtain ⟨hr, hslab, hframe⟩ := IsSlab.create hfits hoc hpage (by omega) h.size
  have hlist : IsList (slabCreate m oc page).2 (oc + 8) [] :=
    h.list.frame (hframe _ (by omega)) (hframe _ (by omega)) (by simp)
  have hpush := hlist.push hpage (by omega) (by omega) (by simp)
  -- The push changes the list and the first word of the page, then `last_free` is set.
  have hword : ∀ a, a ≠ oc + 8 → a ≠ oc + 16 → a ≠ oc + 32 → a ≠ page →
      (objcacheGrow m oc page).2 a = (slabCreate m oc page).2 a := by
    intro a h1 h2 h3 h4
    simp only [objcacheGrow, hr]
    rw [Function.update_of_ne h3, hlist.push_frame hpage (by omega) (by omega) h1 (by omega) h4
      (by simp)]
  have hslab' : IsSlab (objcacheGrow m oc page).2 oc osize page (slabSlots osize page) [] := by
    refine hslab.frame (fun a h1 h2 => hword a ?_ ?_ ?_ ?_) fun x hx => ?_
    iterate 4 omega
    have := slot_bounds hx
    exact hword x (by omega) (by omega) (by omega) (by omega)
  refine ⟨hr, ⟨?_, ?_, .inr ⟨page, slabSlots osize page, rfl, ?_, hslab'⟩⟩, hslab', fun a ha => ?_⟩
  · rw [hword oc (by omega) (by omega) (by omega) (by omega), hframe oc (by omega), h.size]
  · simp only [objcacheGrow, hr]
    refine hpush.frame ?_ ?_ fun x hx => ?_
    · exact Function.update_of_ne (by omega) _ _
    · exact Function.update_of_ne (by omega) _ _
    · rw [List.mem_singleton.mp hx]
      exact Function.update_of_ne (by omega) _ _
  · simp only [objcacheGrow, hr, Function.update_self]
  · simp only [InCache, List.mem_singleton, exists_eq_left, not_or, not_and, not_lt] at ha
    rw [hword a (by omega) (by omega) (by omega) (by omega), hframe a (by omega)]

theorem of_slab {slab : Nat} {free' live' : List Nat} (h : IsCache m oc osize [slab] live)
    (hpages : PagesOk oc [slab]) (hslab : IsSlab m' oc osize slab free' live')
    (same : ∀ a, a ≤ slab ∨ slab + pageSize ≤ a → m' a = m a) :
    IsCache m' oc osize [slab] live' := by
  obtain ⟨-, -, hout⟩ := hpages slab (by simp)
  have hlast : m (oc + 32) = slab := by
    obtain ⟨hnil, -⟩ | ⟨p, -, hp, hlast, -⟩ := h.slab
    · cases hnil
    · rw [hlast, List.singleton_inj.mp hp]
  refine ⟨?_, h.list.frame ?_ ?_ fun p hp => ?_, .inr ⟨slab, free', rfl, ?_, hslab⟩⟩
  · rw [same _ (by omega), h.size]
  · exact same _ (by omega)
  · exact same _ (by omega)
  · exact same _ (by rw [List.mem_singleton.mp hp]; omega)
  · rw [same _ (by omega), hlast]

theorem slabAlloc {slab : Nat} {free : List Nat} (h : IsCache m oc osize [slab] live)
    (hslab : IsSlab m oc osize slab free live) (hfits : Fits osize) (hpages : PagesOk oc [slab]) :
    let r := Bao.slabAlloc m slab
    IsCache r.2 oc osize [slab] (if r.1 ≠ 0 then r.1 :: live else live) ∧
      (r.1 = 0 ↔ live.length = slotNum osize) ∧ (∀ a, ¬ InCache oc [slab] a → r.2 a = m a) ∧
      ∀ obj ∈ live, ∀ a, obj ≤ a → a < obj + osize → r.2 a = m a := by
  obtain ⟨hne, -, -⟩ := hpages slab (by simp)
  have hlen := hslab.length_add
  cases free with
  | nil =>
    simp only [slabAlloc_nil hslab.list, ne_eq, not_true_eq_false, if_false, true_iff]
    exact ⟨h, by simpa using hlen, fun _ _ => trivial, fun _ _ _ _ _ => trivial⟩
  | cons x free =>
    obtain ⟨hr, hslab', hframe⟩ := hslab.alloc hfits hne
    have hr0 : (Bao.slabAlloc m slab).1 ≠ 0 := by omega
    simp only [List.length_cons] at hlen
    simp only [hr0, ne_eq, not_false_eq_true, if_true, false_iff]
    have hx := hslab.free_slot List.mem_cons_self
    have hbounds := slot_bounds hx
    have hlarge := (slotSize_spec hfits).2.1
    have hout : ∀ a, a ≤ slab ∨ slab + pageSize ≤ a → (Bao.slabAlloc m slab).2 a = m a :=
      fun a ha => hframe a (by omega) (by omega)
    refine ⟨h.of_slab hpages (hr ▸ hslab') hout, by omega, fun a ha => hout a ?_,
      fun obj hobj a hlo hhi => ?_⟩
    · simp only [InCache, List.mem_singleton, exists_eq_left, not_or, not_and, not_lt] at ha
      omega
    · have := hslab.object_apart hfits hobj hx
        (by rintro rfl; exact hslab.notMem_free hfits hobj List.mem_cons_self) hlo hhi
      exact hframe a (by omega) (by omega)

/-- The slabs of a cache after an allocation for which `mem_alloc_page` gives `page`. -/
def slabsAfter (m : Memory) (oc page : Nat) (slabs : List Nat) : List Nat :=
  if m (oc + 32) = 0 ∧ page ≠ 0 then slabs ++ [page] else slabs

theorem alloc (h : IsCache m oc osize slabs live) (page : Nat) (hfits : Fits osize) (hoc : oc ≠ 0)
    (hpages : PagesOk oc (slabsAfter m oc page slabs)) :
    let r := objcacheAlloc m oc page
    IsCache r.2 oc osize (slabsAfter m oc page slabs) (if r.1 ≠ 0 then r.1 :: live else live) ∧
      (r.1 = 0 ↔ slabsAfter m oc page slabs = [] ∨ live.length = slotNum osize) ∧
      (∀ a, ¬ InCache oc (slabsAfter m oc page slabs) a → r.2 a = m a) ∧
      ∀ obj ∈ live, ∀ a, obj ≤ a → a < obj + osize → r.2 a = m a := by
  obtain ⟨rfl, rfl, hlast⟩ | ⟨slab, free, rfl, hlast, hslab⟩ := h.slab
  · by_cases hpage : page = 0
    · simp [objcacheAlloc_eq hoc, hlast, hpage, h.grow_null, slabsAfter, h]
    · simp only [slabsAfter, hlast, hpage, ne_eq, not_false_eq_true, and_self, if_true,
        List.nil_append] at hpages ⊢
      obtain ⟨hr, hcache, hslab, hframe⟩ := h.grow hfits hoc hpages
      have heq : objcacheAlloc m oc page = Bao.slabAlloc (objcacheGrow m oc page).2 page := by
        simp only [objcacheAlloc_eq hoc, hlast, if_true, hr, ne_eq, hpage, not_false_eq_true]
      obtain ⟨hcache', hfull, hframe', -⟩ := hcache.slabAlloc hslab hfits hpages
      rw [heq]
      exact ⟨hcache', by simpa using hfull, fun a ha => (hframe' a ha).trans (hframe a ha),
        by simp⟩
  · have hne : slab ≠ 0 := by
      rintro rfl
      exact h.list.chain.ne_zero (List.mem_singleton_self 0) rfl
    have heq : objcacheAlloc m oc page = Bao.slabAlloc m slab := by
      rw [objcacheAlloc_eq hoc, hlast, if_neg hne]
    have hafter : slabsAfter m oc page [slab] = [slab] := by
      rw [slabsAfter, hlast, if_neg fun hand => hne hand.1]
    rw [hafter] at hpages ⊢
    obtain ⟨hcache, hfull, hframe⟩ := h.slabAlloc hslab hfits hpages
    rw [heq]
    exact ⟨hcache, by simpa using hfull, hframe⟩

theorem live_slot (h : IsCache m oc osize slabs live) (hobj : obj ∈ live) :
    ∃ p ∈ slabs, ∃ x ∈ slabSlots osize p, obj = x + 8 := by
  obtain ⟨-, rfl, -⟩ | ⟨slab, free, rfl, -, hslab⟩ := h.slab
  · cases hobj
  · exact ⟨slab, by simp, hslab.live_slot hobj⟩

theorem live_nodup (h : IsCache m oc osize slabs live) (hfits : Fits osize) : live.Nodup := by
  obtain ⟨-, rfl, -⟩ | ⟨slab, free, -, -, hslab⟩ := h.slab
  · exact List.nodup_nil
  · exact (List.nodup_append.mp (hslab.nodup hfits)).2.1

theorem release (h : IsCache m oc osize slabs live) (hfits : Fits osize) (hsize : 0 < osize)
    (hoc : oc ≠ 0) (hpages : PagesOk oc slabs) (hobj : obj ∈ live) :
    IsCache (objcacheFree m oc obj).2 oc osize slabs (live.erase obj) ∧
      (∀ a, ¬ InCache oc slabs a → (objcacheFree m oc obj).2 a = m a) ∧
      ∀ obj' ∈ live, obj' ≠ obj → ∀ a, obj' ≤ a → a < obj' + osize →
        (objcacheFree m oc obj).2 a = m a := by
  obtain ⟨-, rfl, -⟩ | ⟨slab, free, rfl, hlast, hslab⟩ := h.slab
  · cases hobj
  · obtain ⟨hne, haligned, -⟩ := hpages slab (by simp)
    obtain ⟨x, hx, rfl⟩ := hslab.live_slot hobj
    have hbounds := slot_bounds hx
    have hlarge := (slotSize_spec hfits).2.1
    obtain ⟨hslab', hframe⟩ := hslab.release hfits hoc hne haligned hobj (by omega)
    have hout : ∀ a, a ≤ slab ∨ slab + pageSize ≤ a → (objcacheFree m oc (x + 8)).2 a = m a :=
      fun a ha => hframe a (by omega)
        (fun hin => by have := slot_bounds (hslab.free_slot hin); omega) (by omega)
    refine ⟨h.of_slab hpages hslab' hout, fun a ha => hout a ?_, fun obj hlive hne a hlo hhi => ?_⟩
    · simp only [InCache, List.mem_singleton, exists_eq_left, not_or, not_and, not_lt] at ha
      omega
    · have hapart := hslab.object_apart hfits hlive hx hne hlo hhi
      refine hframe a (by omega) (fun hin => ?_) (by omega)
      have := hslab.object_apart hfits hlive (hslab.free_slot hin)
        (by rintro rfl; exact hslab.notMem_free hfits hlive hin) hlo hhi
      omega

end IsCache

/-! ## Runs -/

/-- Where the caches lie, and the sizes of their objects. -/
structure CacheLayout (n : Nat) where
  oc : Fin n → Nat
  osize : Fin n → Nat
  oc_ne : ∀ c, oc c ≠ 0
  apart : ∀ c c', c ≠ c' → oc c + 48 ≤ oc c' ∨ oc c' + 48 ≤ oc c
  fits : ∀ c, Fits (osize c)

/-- The memory, and for each cache whether it is initialised, its slabs, and the objects that were
returned by `objcache_alloc` and not freed since. -/
structure CacheState (n : Nat) where
  m : Memory
  ready : Fin n → Bool
  slabs : Fin n → List Nat
  live : Fin n → List Nat

/-- `page` is what `mem_alloc_page` returns if it is called, 0 for `NULL`. -/
inductive CacheAction (n : Nat) where
  | init (c : Fin n) (prime : Bool) (page : Nat)
  | alloc (c : Fin n) (page : Nat)
  | free (c : Fin n) (obj : Nat)
  | write (a v : Nat)

namespace CacheState

variable {n : Nat}

def initial (m : Memory) : CacheState n where
  m := m
  ready _ := false
  slabs _ := []
  live _ := []

/-- `mem_alloc_page` returns `NULL` or an aligned page that nothing else lies in. -/
def FreshPage (L : CacheLayout n) (s : CacheState n) (page : Nat) : Prop :=
  page = 0 ∨ page % pageSize = 0 ∧
    ∀ c, (L.oc c + 48 ≤ page ∨ page + pageSize ≤ L.oc c) ∧ page ∉ s.slabs c

/-- Others store into live objects and outside the caches. -/
def Writable (L : CacheLayout n) (s : CacheState n) (a : Nat) : Prop :=
  (∃ c, ∃ obj ∈ s.live c, obj ≤ a ∧ a < obj + L.osize c) ∨ ∀ c, ¬ InCache (L.oc c) (s.slabs c) a

instance (L : CacheLayout n) (s : CacheState n) (page : Nat) : Decidable (FreshPage L s page) :=
  inferInstanceAs (Decidable (_ ∨ _))

instance (L : CacheLayout n) (s : CacheState n) (a : Nat) : Decidable (Writable L s a) :=
  inferInstanceAs (Decidable (_ ∨ _))

/-- The caches are used once they are initialised, each object is freed to the cache it came from
and at most once, and the functions hold the lock of the cache. -/
def step (L : CacheLayout n) (s : CacheState n) : CacheAction n → Option (CacheState n)
  | .init c prime page =>
    if s.ready c = false ∧ FreshPage L s page then
      let m := objcacheInit s.m (L.oc c) (L.osize c)
      some { s with
        m := if prime then (objcacheGrow m (L.oc c) page).2 else m
        ready := Function.update s.ready c true
        slabs := Function.update s.slabs c (if prime ∧ page ≠ 0 then [page] else []) }
    else none
  | .alloc c page =>
    if s.ready c = true ∧ FreshPage L s page then
      let r := objcacheAlloc s.m (L.oc c) page
      some { s with
        m := r.2
        slabs := Function.update s.slabs c (IsCache.slabsAfter s.m (L.oc c) page (s.slabs c))
        live := Function.update s.live c (if r.1 ≠ 0 then r.1 :: s.live c else s.live c) }
    else none
  | .free c obj =>
    if obj ∈ s.live c then
      some { s with
        m := (objcacheFree s.m (L.oc c) obj).2
        live := Function.update s.live c ((s.live c).erase obj) }
    else none
  | .write a v => if Writable L s a then some { s with m := Function.update s.m a v } else none

/-- No page is a slab of two caches or holds the structure of one. -/
structure PagesApart (L : CacheLayout n) (slabs : Fin n → List Nat) : Prop where
  pages : ∀ c c', PagesOk (L.oc c') (slabs c)
  distinct : ∀ c c' p, p ∈ slabs c → p ∈ slabs c' → c = c'

/-- Every cache is as `slabs` and `live` say. -/
structure Inv (L : CacheLayout n) (s : CacheState n) : Prop where
  cache : ∀ c, s.ready c = true → IsCache s.m (L.oc c) (L.osize c) (s.slabs c) (s.live c)
  idle : ∀ c, s.ready c = false → s.slabs c = [] ∧ s.live c = []
  apart : PagesApart L s.slabs

section Steps

variable {L : CacheLayout n} {s t : CacheState n} {c c' : Fin n} {page obj a : Nat}

theorem PagesApart.unique {slabs : Fin n → List Nat} (h : PagesApart L slabs)
    (hc : InCache (L.oc c) (slabs c) a) (hc' : InCache (L.oc c') (slabs c') a) : c = c' := by
  by_contra hne
  rcases hc with hoc | ⟨p, hp, hlo, hhi⟩ <;> rcases hc' with hoc' | ⟨p', hp', hlo', hhi'⟩
  · have := L.apart c c' hne
    omega
  · obtain ⟨-, -, hout⟩ := h.pages c' c p' hp'
    omega
  · obtain ⟨-, -, hout⟩ := h.pages c c' p hp
    omega
  · obtain ⟨-, hal, -⟩ := h.pages c c p hp
    obtain ⟨-, hal', -⟩ := h.pages c' c' p' hp'
    have heq : p = p' := by simp only [pageSize] at *; omega
    exact hne (h.distinct c c' p hp (heq ▸ hp'))

theorem PagesApart.update (h : PagesApart L s.slabs) (hpage : FreshPage L s page)
    {slabs' : List Nat} (hslabs : ∀ p ∈ slabs', p ∈ s.slabs c ∨ p = page ∧ page ≠ 0) :
    PagesApart L (Function.update s.slabs c slabs') := by
  have hcases : ∀ c' p, p ∈ Function.update s.slabs c slabs' c' →
      p ∈ s.slabs c' ∨ (c' = c ∧ p = page ∧ page ≠ 0) := by
    intro c' p hp
    by_cases heq : c' = c
    · subst heq
      rw [Function.update_self] at hp
      exact (hslabs p hp).imp_right fun hnew => ⟨rfl, hnew⟩
    · rw [Function.update_of_ne heq] at hp
      exact .inl hp
  refine ⟨fun c₁ c₂ p hp => ?_, fun c₁ c₂ p hp₁ hp₂ => ?_⟩
  · obtain hold | ⟨-, rfl, hne⟩ := hcases c₁ p hp
    · exact h.pages c₁ c₂ p hold
    · obtain ⟨hal, hout⟩ := hpage.resolve_left hne
      exact ⟨hne, hal, (hout c₂).1⟩
  · obtain hold₁ | ⟨rfl, rfl, hne₁⟩ := hcases c₁ p hp₁ <;>
      obtain hold₂ | ⟨rfl, hp, hne₂⟩ := hcases c₂ p hp₂
    · exact h.distinct c₁ c₂ p hold₁ hold₂
    · exact absurd (hp ▸ hold₁) ((hpage.resolve_left hne₂).2 c₁).2
    · exact absurd hold₂ ((hpage.resolve_left hne₁).2 c₂).2
    · rfl

theorem PagesApart.alloc (h : PagesApart L s.slabs) (hpage : FreshPage L s page) :
    PagesApart L
      (Function.update s.slabs c (IsCache.slabsAfter s.m (L.oc c) page (s.slabs c))) := by
  refine h.update hpage fun p hp => ?_
  unfold IsCache.slabsAfter at hp
  split at hp
  · rename_i hnew
    exact (List.mem_append.mp hp).imp_right fun hin => ⟨List.mem_singleton.mp hin, hnew.2⟩
  · exact .inl hp

theorem Inv.initial (L : CacheLayout n) (m : Memory) : Inv L (initial m) where
  cache c h := by cases h
  idle c _ := ⟨rfl, rfl⟩
  apart := ⟨by rintro _ _ _ ⟨⟩, by rintro _ _ _ ⟨⟩⟩

theorem Inv.live_ready (h : Inv L s) (hobj : obj ∈ s.live c) : s.ready c = true := by
  by_contra hready
  rw [(h.idle c (by simpa using hready)).2] at hobj
  cases hobj

/-- An operation on cache `c` that changes no word outside it keeps the other caches. -/
theorem Inv.update (h : Inv L s) {m' : Memory} {slabs' live' : List Nat}
    (apart : PagesApart L (Function.update s.slabs c slabs'))
    (hcache : IsCache m' (L.oc c) (L.osize c) slabs' live')
    (same : ∀ a, ¬ InCache (L.oc c) slabs' a → m' a = s.m a) :
    Inv L { m := m', ready := Function.update s.ready c true,
            slabs := Function.update s.slabs c slabs'
            live := Function.update s.live c live' } := by
  refine ⟨fun c' hready => ?_, fun c' hready => ?_, apart⟩
  · by_cases heq : c' = c
    · subst heq
      simpa using hcache
    · simp only [Function.update_of_ne heq] at hready ⊢
      refine (h.cache c' hready).keep (L.fits c') fun a ha => same a fun hin => heq ?_
      exact apart.unique (by rwa [Function.update_of_ne heq]) (by rwa [Function.update_self])
  · have heq : c' ≠ c := by
      rintro rfl
      simp at hready
    simp only [Function.update_of_ne heq] at hready ⊢
    exact h.idle c' hready

theorem Inv.init (h : Inv L s) {prime : Bool} (hstep : step L s (.init c prime page) = some t) :
    Inv L t := by
  simp only [step, Option.ite_none_right_eq_some, Option.some.injEq] at hstep
  obtain ⟨⟨hidle, hpage⟩, rfl⟩ := hstep
  obtain ⟨-, hlive⟩ := h.idle c hidle
  obtain ⟨hcache, hframe⟩ := IsCache.init s.m (L.oc c) (L.osize c)
  have hsame : s.live = Function.update s.live c [] := by
    rw [eq_comm, Function.update_eq_self_iff, hlive]
  rw [hsame]
  by_cases hgrow : prime = true ∧ page ≠ 0
  · have apart : PagesApart L (Function.update s.slabs c [page]) :=
      h.apart.update hpage fun p hp => .inr ⟨List.mem_singleton.mp hp, hgrow.2⟩
    have hpages : PagesOk (L.oc c) [page] := by simpa using apart.pages c c
    obtain ⟨-, hcache', -, hframe'⟩ := hcache.grow (L.fits c) (L.oc_ne c) hpages
    simp only [hgrow, and_self, ne_eq, not_false_eq_true, if_true]
    exact h.update apart hcache' fun a ha =>
      (hframe' a ha).trans (hframe a fun hin => ha (hin.mono (List.nil_subset _)))
  · have apart : PagesApart L (Function.update s.slabs c []) :=
      h.apart.update hpage fun p hp => by cases hp
    have hnull : (if prime = true then
        (objcacheGrow (objcacheInit s.m (L.oc c) (L.osize c)) (L.oc c) page).2
        else objcacheInit s.m (L.oc c) (L.osize c)) = objcacheInit s.m (L.oc c) (L.osize c) := by
      split
      · rename_i hprime
        have hzero : page = 0 := by
          by_contra hne
          exact hgrow ⟨hprime, hne⟩
        rw [hzero, hcache.grow_null]
      · rfl
    rw [hnull, if_neg hgrow]
    exact h.update apart hcache hframe

theorem Inv.alloc (h : Inv L s) (hstep : step L s (.alloc c page) = some t) : Inv L t := by
  simp only [step, Option.ite_none_right_eq_some, Option.some.injEq] at hstep
  obtain ⟨⟨hready, hpage⟩, rfl⟩ := hstep
  have apart := h.apart.alloc (c := c) hpage
  obtain ⟨hcache, -, hframe, -⟩ := (h.cache c hready).alloc page (L.fits c) (L.oc_ne c)
    (by simpa using apart.pages c c)
  have hsame : s.ready = Function.update s.ready c true := by
    rw [eq_comm, Function.update_eq_self_iff, hready]
  rw [hsame]
  exact h.update apart hcache hframe

theorem Inv.free (h : Inv L s) (hsize : 0 < L.osize c)
    (hstep : step L s (.free c obj) = some t) : Inv L t := by
  simp only [step, Option.ite_none_right_eq_some, Option.some.injEq] at hstep
  obtain ⟨hobj, rfl⟩ := hstep
  have hready := h.live_ready hobj
  obtain ⟨hcache, hframe, -⟩ := (h.cache c hready).release (L.fits c) hsize (L.oc_ne c)
    (h.apart.pages c c) hobj
  have hsame : s.ready = Function.update s.ready c true := by
    rw [eq_comm, Function.update_eq_self_iff, hready]
  have hslabs : s.slabs = Function.update s.slabs c (s.slabs c) :=
    (Function.update_eq_self c _).symm
  rw [hsame]
  have apart : PagesApart L (Function.update s.slabs c (s.slabs c)) := hslabs ▸ h.apart
  have hinv := h.update apart hcache hframe
  rwa [← hslabs] at hinv

/-- A store into a live object meets neither a header nor a link word. -/
theorem Inv.write (h : Inv L s) {v : Nat} (hstep : step L s (.write a v) = some t) : Inv L t := by
  simp only [step, Option.ite_none_right_eq_some, Option.some.injEq] at hstep
  obtain ⟨ha, rfl⟩ := hstep
  refine ⟨fun c hready => ?_, h.idle, h.apart⟩
  rcases ha with ⟨c', obj, hobj, hlo, hhi⟩ | hout
  · have hcache := h.cache c' (h.live_ready hobj)
    obtain ⟨p, hp, x, hx, rfl⟩ := hcache.live_slot hobj
    have hbounds := slot_bounds hx
    have hlarge := (slotSize_spec (L.fits c')).2.1
    have hin : InCache (L.oc c') (s.slabs c') a := .inr ⟨p, hp, by omega, by omega⟩
    by_cases heq : c = c'
    · subst heq
      have hout := h.apart.pages c c
      refine hcache.frame (fun b h1 h2 => ?_) (fun q hq b h1 h2 => ?_) fun q hq y hy => ?_
      · exact Function.update_of_ne (by have := (hout p hp).2.2; omega) _ _
      · have hal := (hout p hp).2.1
        have hal' := (hout q hq).2.1
        exact Function.update_of_ne (by simp only [pageSize] at *; omega) _ _
      · refine Function.update_of_ne ?_ _ _
        rintro rfl
        have hal := (hout p hp).2.1
        have hal' := (hout q hq).2.1
        have hbounds' := slot_bounds hy
        obtain rfl : p = q := by simp only [pageSize] at *; omega
        have := slots_apart hx hy (by omega)
        omega
    · refine (h.cache c hready).keep (L.fits c) fun b hb => Function.update_of_ne ?_ _ _
      rintro rfl
      exact heq (h.apart.unique hb hin)
  · refine (h.cache c hready).keep (L.fits c) fun b hb => Function.update_of_ne ?_ _ _
    rintro rfl
    exact hout c hb

theorem Inv.step (hsize : ∀ c, 0 < L.osize c) (s : CacheState n) (a : CacheAction n)
    (t : CacheState n) (h : Inv L s) (hstep : step L s a = some t) : Inv L t := by
  cases a with
  | init c prime page => exact h.init hstep
  | alloc c page => exact h.alloc hstep
  | free c obj => exact h.free (hsize c) hstep
  | write a v => exact h.write hstep

/-! ### What the invariant says -/

theorem Inv.slab (h : Inv L s) {slab : Nat} (hslab : slab ∈ s.slabs c) :
    ∃ free, IsSlab s.m (L.oc c) (L.osize c) slab free (s.live c) := by
  have hready : s.ready c = true := by
    by_contra hready
    rw [(h.idle c (by simpa using hready)).1] at hslab
    cases hslab
  obtain ⟨hnil, -⟩ | ⟨p, free, hp, -, hp'⟩ := (h.cache c hready).slab
  · rw [hnil] at hslab
    cases hslab
  · rw [hp] at hslab
    rw [List.mem_singleton.mp hslab]
    exact ⟨free, hp'⟩

theorem Inv.live_slab (h : Inv L s) (hobj : obj ∈ s.live c) :
    ∃ p ∈ s.slabs c, ∃ x ∈ slabSlots (L.osize c) p, obj = x + 8 :=
  (h.cache c (h.live_ready hobj)).live_slot hobj

theorem Inv.live_nodup (h : Inv L s) (c : Fin n) : (s.live c).Nodup := by
  by_cases hready : s.ready c = true
  · exact (h.cache c hready).live_nodup (L.fits c)
  · rw [(h.idle c (by simpa using hready)).2]
    exact List.nodup_nil

theorem Inv.live_disjoint (h : Inv L s) {obj' : Nat} (hobj : obj ∈ s.live c)
    (hobj' : obj' ∈ s.live c') (hne : (c, obj) ≠ (c', obj')) :
    obj + L.osize c ≤ obj' ∨ obj' + L.osize c' ≤ obj := by
  obtain ⟨p, hp, x, hx, rfl⟩ := h.live_slab hobj
  obtain ⟨p', hp', x', hx', rfl⟩ := h.live_slab hobj'
  have hbounds := slot_bounds hx
  have hbounds' := slot_bounds hx'
  have hlarge := (slotSize_spec (L.fits c)).2.1
  have hlarge' := (slotSize_spec (L.fits c')).2.1
  have hal := (h.apart.pages c c p hp).2.1
  have hal' := (h.apart.pages c' c' p' hp').2.1
  by_cases hpage : p = p'
  · subst hpage
    obtain rfl := h.apart.distinct c c' p hp hp'
    have := slots_apart hx hx' (by rintro rfl; exact hne rfl)
    omega
  · simp only [pageSize] at *
    omega

end Steps

/-- In every run the slots of each slab are partitioned into its free list, whose length is
`objcount`, and the live objects. The live objects are aligned, lie behind the header of a slab and
inside its page, and do not overlap. -/
theorem objcache_partition (L : CacheLayout n) (hsize : ∀ c, 0 < L.osize c) (m : Memory)
    (as : List (CacheAction n)) (s : CacheState n)
    (h : run (step L) (initial m) as = some s) :
    (∀ c, s.ready c = true → IsList s.m (L.oc c + 8) (s.slabs c)) ∧
    (∀ c, ∀ slab ∈ s.slabs c, ∃ free, IsList s.m (slab + 8) free ∧
      s.m (slab + 48) = free.length ∧ (∀ x ∈ free, x ∈ slabSlots (L.osize c) slab) ∧
      ∀ x ∈ slabSlots (L.osize c) slab,
        (free.count x = 1 ∧ x + 8 ∉ s.live c) ∨ (x ∉ free ∧ x + 8 ∈ s.live c)) ∧
    (∀ c, (s.live c).Nodup ∧ ∀ obj ∈ s.live c, obj % 8 = 0 ∧
      ∃ slab ∈ s.slabs c, slab + 64 ≤ obj ∧ obj + L.osize c ≤ slab + pageSize) ∧
    ∀ c c' obj obj', obj ∈ s.live c → obj' ∈ s.live c' → (c, obj) ≠ (c', obj') →
      obj + L.osize c ≤ obj' ∨ obj' + L.osize c' ≤ obj := by
  have hinv := run_invariant (Inv.step hsize) (Inv.initial L m) h
  refine ⟨fun c hready => (hinv.cache c hready).list, fun c slab hslab => ?_,
    fun c => ⟨hinv.live_nodup c, fun obj hobj => ?_⟩, fun c c' obj obj' => hinv.live_disjoint⟩
  · obtain ⟨free, hfree⟩ := hinv.slab hslab
    refine ⟨free, hfree.list, hfree.objcount, fun x => hfree.free_slot, fun x hx => ?_⟩
    by_cases hlive : x + 8 ∈ s.live c
    · exact .inr ⟨hfree.notMem_free (L.fits c) hlive, hlive⟩
    · have hx := (hfree.mem_or_mem hx).resolve_right hlive
      exact .inl ⟨List.count_eq_one_of_mem hfree.list.chain.nodup hx, hlive⟩
  · obtain ⟨p, hp, x, hx, rfl⟩ := hinv.live_slab hobj
    obtain ⟨hmod, hlarge, -⟩ := slotSize_spec (L.fits c)
    have hbounds := slot_bounds hx
    refine ⟨?_, p, hp, by omega, by omega⟩
    have hal := (hinv.apart.pages c c p hp).2.1
    obtain ⟨i, -, rfl⟩ := mem_slabSlots.mp hx
    have hslots : slotSize (L.osize c) * i % 8 = 0 := by rw [Nat.mul_mod, hmod]; simp
    simp only [pageSize] at hal
    omega

/-- One cache with objects of the given size. -/
def oneCache (osize : Nat) (h : Fits osize) : CacheLayout 1 where
  oc _ := 0x100
  osize _ := osize
  oc_ne _ := by decide
  apart c c' hne := absurd (Subsingleton.elim c c') hne
  fits _ := h

/-- Two objects of 2000 bytes fill a slab; one is freed and handed out again. -/
theorem objcache_partition_reuse :
    ∃ s, run (step (oneCache 2000 (by decide))) (initial fun _ => 0)
        [.init 0 false 0, .alloc 0 0x1000, .alloc 0 0x5000, .write 0x1048 7, .free 0 0x1048,
          .alloc 0 0] = some s ∧
      s.slabs 0 = [0x1000] ∧ s.live 0 = [0x1048, 0x1820] ∧
      ∀ slab ∈ s.slabs 0, ∃ free, IsList s.m (slab + 8) free ∧ s.m (slab + 48) = free.length := by
  refine exists_some_of_and (by decide +kernel) fun s hs _ _ slab hslab => ?_
  obtain ⟨free, hlist, hcount, -⟩ := (objcache_partition _ (by decide) _ _ s hs).2.1 0 slab hslab
  exact ⟨free, hlist, hcount⟩

/-! ### Objects of no size -/

section ZeroSize

variable {L : CacheLayout n} {s : CacheState n} {c : Fin n} {slab obj : Nat}

theorem exists_step_init (hidle : s.ready c = false) (hfresh : FreshPage L s slab)
    (hne : slab ≠ 0) :
    ∃ t, step L s (.init c true slab) = some t ∧ t.ready c = true ∧ t.slabs c = [slab] ∧
      t.live = s.live :=
  ⟨_, if_pos ⟨hidle, hfresh⟩, by simp, by simp [hne], rfl⟩

theorem exists_step_free (hobj : obj ∈ s.live c) :
    ∃ t, step L s (.free c obj) = some t ∧ t.m = (objcacheFree s.m (L.oc c) obj).2 ∧
      t.slabs = s.slabs ∧ t.live c = (s.live c).erase obj :=
  ⟨_, if_pos hobj, rfl, rfl, by simp⟩

theorem exists_step_alloc (h : Inv L s) (hready : s.ready c = true) (hslab : s.slabs c = [slab])
    (hroom : (s.live c).length < slotNum (L.osize c)) :
    ∃ t, step L s (.alloc c 0) = some t ∧ Inv L t ∧ t.ready c = true ∧ t.slabs c = [slab] ∧
      (t.live c).length = (s.live c).length + 1 := by
  have hafter : IsCache.slabsAfter s.m (L.oc c) 0 (s.slabs c) = s.slabs c := by
    simp [IsCache.slabsAfter]
  have hserved : (objcacheAlloc s.m (L.oc c) 0).1 ≠ 0 := by
    have hnull := ((h.cache c hready).alloc 0 (L.fits c) (L.oc_ne c)
      (by rw [hafter]; exact h.apart.pages c c)).2.1
    rw [ne_eq, hnull, hafter, hslab]
    simpa using hroom.ne
  obtain ⟨t, ht⟩ : ∃ t, step L s (.alloc c 0) = some t := ⟨_, if_pos ⟨hready, .inl rfl⟩⟩
  refine ⟨t, ht, h.alloc ht, ?_⟩
  simp only [step, hready, FreshPage, true_or, and_self, if_true, Option.some.injEq] at ht
  subst ht
  simp [hready, hslab, hserved, IsCache.slabsAfter]

theorem exists_run_alloc (h : Inv L s) (hready : s.ready c = true) (hslab : s.slabs c = [slab])
    (k : Nat) (hk : (s.live c).length + k ≤ slotNum (L.osize c)) :
    ∃ t, run (step L) s (List.replicate k (.alloc c 0)) = some t ∧ Inv L t ∧ t.slabs c = [slab] ∧
      (t.live c).length = (s.live c).length + k := by
  induction k generalizing s with
  | zero => exact ⟨s, rfl, h, hslab, rfl⟩
  | succ k ih =>
    obtain ⟨u, hu, hinv, hready', hslab', hlen⟩ := exists_step_alloc h hready hslab (by omega)
    obtain ⟨t, ht, hinv', hslab'', hlen'⟩ := ih hinv hready' hslab' (by omega)
    exact ⟨t, run_cons.mpr ⟨u, hu, ht⟩, hinv', hslab'', by omega⟩

end ZeroSize

/-- An object that starts where the next page does is not found in its slab, and stays out. -/
theorem objcacheFree_page_end {m : Memory} {oc obj : Nat} (hmod : obj % pageSize = 0)
    (hpos : 0 < obj) : (objcacheFree m oc obj).2 = m := by
  have hslab : obj / pageSize * pageSize = obj := Nat.div_mul_cancel (Nat.dvd_of_mod_eq_zero hmod)
  have hpage : obj / pageSize ≠ (obj - 8) / pageSize := by simp only [pageSize] at *; omega
  simp only [objcacheFree, hslab, slabFree, hpage, false_and, and_false, if_false]
  split <;> rfl

/-- Objects of size 0 have slots of 8 bytes, and the object of the last slot starts at the end of
the page. When it is freed its slot is neither on the free list nor in use. -/
theorem objcache_slot_lost :
    ∃ s, run (step (oneCache 0 (by decide))) (initial fun _ => 0)
        (.init 0 true 0x1000 :: (List.replicate 504 (.alloc 0 0) ++ [.free 0 0x2000])) = some s ∧
      0x1000 ∈ s.slabs 0 ∧ 0x1ff8 ∈ slabSlots 0 0x1000 ∧ 0x1ff8 + 8 ∉ s.live 0 ∧
      ∃ free, IsList s.m (0x1000 + 8) free ∧ 0x1ff8 ∉ free := by
  have hslot : 0x1ff8 ∈ slabSlots 0 0x1000 := mem_slabSlots.mpr ⟨503, by decide, by decide⟩
  have hfresh : FreshPage (oneCache 0 (by decide)) (initial fun _ => 0) 0x1000 := by decide
  obtain ⟨t₁, ht₁, hready, hslabs₁, hlive₁⟩ := exists_step_init (c := 0) rfl hfresh (by decide)
  have hinv₁ := (Inv.initial _ fun _ => 0).init ht₁
  obtain ⟨t₂, ht₂, hinv₂, hslabs, hlen⟩ := exists_run_alloc hinv₁ hready hslabs₁ 504
    (by rw [hlive₁]; decide)
  -- All slots are in use now, the last one too.
  have hmem : 0x1000 ∈ t₂.slabs 0 := by simp [hslabs]
  obtain ⟨free, hfree⟩ := hinv₂.slab hmem
  obtain rfl : free = [] := by
    have hall := hfree.length_add
    have hnum : slotNum 0 = 504 := by decide
    rw [hlen, hlive₁] at hall
    exact List.length_eq_zero_iff.mp (by simpa [initial, oneCache, hnum] using hall)
  have hlive : 0x2000 ∈ t₂.live 0 := (hfree.mem_or_mem hslot).resolve_left (by simp)
  obtain ⟨t₃, ht₃, hm, hslabs₃, hlive₃⟩ := exists_step_free (L := oneCache 0 (by decide)) hlive
  refine ⟨t₃, run_cons.mpr ⟨t₁, ht₁, run_append.mpr ⟨t₂, ht₂, run_cons.mpr ⟨t₃, ht₃, rfl⟩⟩⟩,
    by rwa [hslabs₃], hslot, ?_, [], ?_, by simp⟩
  · rw [hlive₃]
    exact (hinv₂.live_nodup 0).not_mem_erase
  · rw [hm, objcacheFree_page_end (by decide) (by decide)]
    exact hfree.list

end CacheState

end Bao
