import Mathlib.Data.List.Range
import Bao.Lib.List
import Bao.Lib.Util

/-!
# Object caches

The functions of `objcache.c` on memory words. A slab is a page: a header of 64 bytes with the list
of free objects (at offset 8), their size (32), number (40), free count (48) and the cache (56),
then the objects. An object starts with the word that links it into the free list; what
`objcache_alloc` returns is the address behind that word. An `objcache_t` has the object size at
offset 0, its list of slabs at 8 and `last_free` at 32.
-/

namespace Bao

open Foundation

/-- `memset` to 0 of the words in `n` bytes. -/
def memset (m : Memory) (a n : Nat) : Memory := fun x => if a ≤ x ∧ x < a + n then 0 else m x

/-- The loop of `slab_create` that puts `k` objects on the free list. -/
def pushObjs (m : Memory) (l objsize : Nat) : (k obj : Nat) → Memory
  | 0, _ => m
  | k + 1, obj => pushObjs (listPush m l obj) l objsize k (obj + objsize)

/-- `slab_create`, where `page` is the page `mem_alloc_page` returns, or 0. -/
def slabCreate (m : Memory) (oc page : Nat) : Nat × Memory :=
  if oc ≠ 0 ∧ page ≠ 0 then
    let m := memset m page pageSize
    let m := Function.update m (page + 56) oc
    let objsize := align (8 + m oc) 8
    let m := Function.update m (page + 32) objsize
    let objnum := (pageSize - 64) / objsize
    let m := Function.update m (page + 40) objnum
    let m := Function.update m (page + 48) objnum
    let m := listInit m (page + 8)
    (page, pushObjs m (page + 8) objsize objnum (page + 64))
  else (0, m)

def slabAlloc (m : Memory) (slab : Nat) : Nat × Memory :=
  if slab ≠ 0 then
    let r := listPop m (slab + 8)
    if r.1 ≠ 0 then
      let m := Function.update r.2 r.1 0
      (r.1 + 8, Function.update m (slab + 48) (u64 (m (slab + 48) + (2 ^ 64 - 1))))
    else (0, r.2)
  else (0, m)

def slabFree (m : Memory) (slab obj : Nat) : Bool × Memory :=
  let objAddr := obj - 8
  if slab ≠ 0 ∧ slab / pageSize = objAddr / pageSize ∧
      u64 (objAddr % pageSize + (2 ^ 64 - 64)) % m (slab + 32) = 0 ∧ m objAddr = 0 then
    let m := memset m objAddr (m (slab + 32))
    let m := listPush m (slab + 8) objAddr
    (true, Function.update m (slab + 48) (u64 (m (slab + 48) + 1)))
  else (false, m)

/-- `objcache_init` without a first slab. -/
def objcacheInit (m : Memory) (oc osize : Nat) : Memory :=
  let m := Function.update m oc osize
  let m := listInit m (oc + 8)
  Function.update m (oc + 32) 0

/-- `objcache_alloc`, where `page` is the page `mem_alloc_page` would return. The slab that the loop
over `oc->slabs` finds is dropped, because `last_free` is still `NULL` behind the loop. -/
def objcacheAlloc (m : Memory) (oc page : Nat) : Nat × Memory :=
  if oc ≠ 0 then
    if m (oc + 32) = 0 then
      let r := slabCreate m oc page
      let m := listPush r.2 (oc + 8) r.1
      let m := Function.update m (oc + 32) r.1
      if r.1 ≠ 0 then slabAlloc m r.1 else (0, m)
    else slabAlloc m (m (oc + 32))
  else (0, m)

def objcacheFree (m : Memory) (oc obj : Nat) : Bool × Memory :=
  let slab := obj / pageSize * pageSize
  if oc ≠ 0 ∧ slab ≠ 0 ∧ m (slab + 56) = oc then (true, (slabFree m slab obj).2) else (false, m)

variable {m : Memory} {l objsize k obj a : Nat} {xs : List Nat}

theorem pushObjs_spec (h : IsList m l xs) (hpos : 0 < objsize) (hl : l + 8 < obj)
    (hxs : ∀ x ∈ xs, x < obj) :
    IsList (pushObjs m l objsize k obj) l (xs ++ (List.range k).map (obj + objsize * ·)) ∧
      ∀ a, a ≠ l → a ≠ l + 8 → a ∉ xs → (∀ i < k, a ≠ obj + objsize * i) →
        pushObjs m l objsize k obj a = m a := by
  induction k generalizing m obj xs with
  | zero => simpa [pushObjs] using h
  | succ k ih =>
    have hnew : obj ∉ xs := fun hx => Nat.lt_irrefl _ (hxs obj hx)
    have hpush := h.push (show obj ≠ 0 by omega) (by omega) (by omega) hnew
    obtain ⟨hlist, hframe⟩ := ih hpush (show l + 8 < obj + objsize by omega) (by
      intro x hx
      rcases List.mem_append.mp hx with hx | hx
      · have := hxs x hx; omega
      · rw [List.mem_singleton.mp hx]; omega)
    refine ⟨?_, fun a h1 h2 h3 h4 => ?_⟩
    · have hrange : (List.range (k + 1)).map (obj + objsize * ·) =
          obj :: (List.range k).map (obj + objsize + objsize * ·) := by
        rw [List.range_succ_eq_map]
        simp [Function.comp_def, Nat.mul_add, Nat.add_assoc, Nat.add_comm objsize]
      rw [hrange, pushObjs]
      simpa using hlist
    · have hobj : a ≠ obj := by simpa using h4 0 (by omega)
      rw [pushObjs, hframe a h1 h2 (by simp [h3, hobj]) fun i hi => ?_]
      · exact h.push_frame (by omega) (by omega) (by omega) h1 h2 hobj h3
      · have := h4 (i + 1) (by omega)
        rw [Nat.mul_add] at this
        omega

/-- The addresses of the `k` objects of a slab. -/
def slots (page objsize k : Nat) : List Nat := (List.range k).map (page + 64 + objsize * ·)

theorem slabCreate_spec {oc page : Nat} (hoc : oc ≠ 0) (hpage : page ≠ 0)
    (hout : oc < page ∨ page + pageSize ≤ oc) (hsize : align (8 + m oc) 8 = objsize)
    (hpos : 0 < objsize) :
    let r := slabCreate m oc page
    r.1 = page ∧ r.2 (page + 32) = objsize ∧ r.2 (page + 56) = oc ∧
      r.2 (page + 48) = (pageSize - 64) / objsize ∧
      IsList r.2 (page + 8) (slots page objsize ((pageSize - 64) / objsize)) ∧
      ∀ a, a < page ∨ page + pageSize ≤ a → r.2 a = m a := by
  have hread : Function.update (memset m page pageSize) (page + 56) oc oc = m oc := by
    rw [Function.update_of_ne (by simp only [pageSize] at hout; omega), memset, if_neg (by omega)]
  set objnum := (pageSize - 64) / objsize with hnum
  set m₁ := Function.update (Function.update (Function.update (Function.update
    (memset m page pageSize) (page + 56) oc) (page + 32) objsize) (page + 40) objnum)
    (page + 48) objnum with hm₁
  have hr : slabCreate m oc page =
      (page, pushObjs (listInit m₁ (page + 8)) (page + 8) objsize objnum (page + 64)) := by
    simp only [slabCreate, hoc, hpage, ne_eq, not_false_eq_true, and_self, if_true, hread, hsize]
    rfl
  have hinit : ∀ a, a ≠ page + 8 → a ≠ page + 16 → listInit m₁ (page + 8) a = m₁ a := by
    intro a h1 h2
    rw [listInit, if_pos (by omega), Function.update_of_ne (by omega), Function.update_of_ne h1]
  obtain ⟨hlist, hframe⟩ := pushObjs_spec (k := objnum)
    (IsList.init m₁ (show page + 8 ≠ 0 by omega)) hpos
    (show page + 8 + 8 < page + 64 by omega) (by simp)
  -- The words of the header below the objects, apart from the list itself, stay as they were.
  have hheader : ∀ a, a < page + 64 → a ≠ page + 8 → a ≠ page + 16 →
      pushObjs (listInit m₁ (page + 8)) (page + 8) objsize objnum (page + 64) a = m₁ a := by
    intro a ha h1 h2
    exact (hframe a h1 h2 (by simp) (by omega)).trans (hinit a h1 h2)
  rw [hr]
  dsimp only
  refine ⟨rfl, ?_, ?_, ?_, by simpa [slots] using hlist, ?_⟩
  · rw [hheader _ (by omega) (by omega) (by omega), hm₁, Function.update_of_ne (by omega),
      Function.update_of_ne (by omega), Function.update_self]
  · rw [hheader _ (by omega) (by omega) (by omega), hm₁, Function.update_of_ne (by omega),
      Function.update_of_ne (by omega), Function.update_of_ne (by omega), Function.update_self]
  · rw [hheader _ (by omega) (by omega) (by omega), hm₁, Function.update_self]
  · intro a ha
    have hsmall : ∀ i < objnum, objsize * i < pageSize - 64 := by
      intro i hi
      have h1 := Nat.mul_le_mul_left objsize (show i + 1 ≤ objnum by omega)
      have h2 := Nat.mul_div_le (pageSize - 64) objsize
      rw [Nat.mul_add, hnum] at h1
      omega
    simp only [pageSize] at ha hsmall
    have hout' : ∀ i < objnum, a ≠ page + 64 + objsize * i := fun i hi => by
      have := hsmall i hi
      omega
    rw [hframe a (by omega) (by omega) (by simp) hout', hinit a (by omega) (by omega), hm₁,
      Function.update_of_ne (by omega), Function.update_of_ne (by omega),
      Function.update_of_ne (by omega), Function.update_of_ne (by omega), memset,
      if_neg (by simp only [pageSize]; omega)]

theorem slabAlloc_nil {slab : Nat} (h : IsList m (slab + 8) []) : slabAlloc m slab = (0, m) := by
  unfold slabAlloc
  split
  · simp [h.pop_nil]
  · rfl

theorem slabAlloc_cons {slab x : Nat} (hslab : slab ≠ 0) (h : IsList m (slab + 8) (x :: xs))
    (hx : x ≠ slab + 48) (hxs : slab + 48 ∉ xs) :
    let r := slabAlloc m slab
    r.1 = x + 8 ∧ IsList r.2 (slab + 8) xs ∧ r.2 x = 0 ∧
      r.2 (slab + 48) = u64 (m (slab + 48) + (2 ^ 64 - 1)) ∧
      ∀ a, a ≠ slab + 8 → a ≠ slab + 16 → a ≠ slab + 48 → a ≠ x → r.2 a = m a := by
  have hx0 : x ≠ 0 := h.chain.ne_zero (by simp)
  obtain ⟨hpop, happly⟩ := h.pop_apply
  have hword : Function.update (listPop m (slab + 8)).2 x 0 = (listPop m (slab + 8)).2 := by
    rw [Function.update_eq_self_iff, happly, if_pos rfl]
  simp only [slabAlloc, hslab, ne_eq, not_false_eq_true, if_true, hpop, hx0, hword, true_and]
  refine ⟨?_, ?_, ?_, ?_⟩
  · refine h.pop.frame (Function.update_of_ne (by omega) _ _) (Function.update_of_ne (by omega) _ _)
      fun z hz => Function.update_of_ne ?_ _ _
    rintro rfl
    exact hxs hz
  · rw [Function.update_of_ne hx, happly, if_pos rfl]
  · rw [Function.update_self, h.pop_frame hx.symm (by omega) (by omega)]
  · intro a h1 h2 h3 h4
    rw [Function.update_of_ne h3, h.pop_frame h4 h1 (by omega)]

/-- Releasing an object that is not on the free list appends it there and changes only the header,
the object and the object that was last. -/
theorem slabFree_spec {slab : Nat} (obj : Nat) (hslab : slab ≠ 0) (h : IsList m (slab + 8) xs)
    (hpage : slab / pageSize = (obj - 8) / pageSize)
    (hobj : u64 ((obj - 8) % pageSize + (2 ^ 64 - 64)) % m (slab + 32) = 0)
    (hnull : m (obj - 8) = 0) (hhigh : slab + 64 ≤ obj - 8) (hnew : obj - 8 ∉ xs)
    (hxs : ∀ x ∈ xs, slab + 64 ≤ x ∧ (x < obj - 8 ∨ obj - 8 + m (slab + 32) ≤ x)) :
    let r := slabFree m slab obj
    IsList r.2 (slab + 8) (xs ++ [obj - 8]) ∧ r.2 (slab + 48) = u64 (m (slab + 48) + 1) ∧
      ∀ a, a ≠ slab + 8 → a ≠ slab + 16 → a ≠ slab + 48 → a ∉ xs →
        (a < obj - 8 ∨ obj - 8 + m (slab + 32) ≤ a) → a ≠ obj - 8 → r.2 a = m a := by
  have hset : ∀ a, a < obj - 8 ∨ obj - 8 + m (slab + 32) ≤ a →
      memset m (obj - 8) (m (slab + 32)) a = m a := by
    intro a ha
    rw [memset, if_neg (by omega)]
  have hlist : IsList (memset m (obj - 8) (m (slab + 32))) (slab + 8) xs :=
    h.frame (hset _ (by omega)) (hset _ (by omega)) fun x hx => hset x (hxs x hx).2
  have hpush := hlist.push (show obj - 8 ≠ 0 by omega) (by omega) (by omega) hnew
  simp only [slabFree, hslab, ne_eq, not_false_eq_true, hpage, hobj, hnull, and_self, if_true]
  refine ⟨?_, ?_, fun a h1 h2 h3 h4 h5 h6 => ?_⟩
  · refine hpush.frame (Function.update_of_ne (by omega) _ _) (Function.update_of_ne (by omega) _ _)
      fun z hz => Function.update_of_ne ?_ _ _
    rcases List.mem_append.mp hz with hz | hz
    · have := (hxs z hz).1; omega
    · rw [List.mem_singleton.mp hz]; omega
  · have hcount : slab + 48 ∉ xs := fun hx => by have := (hxs _ hx).1; omega
    rw [Function.update_self, hlist.push_frame (by omega) (by omega) (by omega) (by omega)
      (by omega) (by omega) hcount, hset _ (by omega)]
  · rw [Function.update_of_ne h3,
      hlist.push_frame (by omega) (by omega) (by omega) h1 (by omega) h6 h4, hset a h5]

end Bao
