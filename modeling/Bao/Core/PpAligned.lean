import Bao.Foundation.Doubling
import Bao.Core.PagePool

/-!
# Which aligned requests a pool serves

`pp_alloc` looks for an aligned run of free pages by going from one free run to the next, and
corrects the index of a misaligned one by adding its residue. What a pass finds is then determined
by where the runs of free pages begin: from such a place the search goes to its landing index, if
the pages are free up to the end of the block there, and otherwise leaves the run behind.
-/

namespace Bao

open Foundation

namespace PoolGeom

/-- The pages of the block of `n` pages at `i` are free and belong to the pool. -/
def FreeBlock (pool : PoolGeom) (bits : Bitmap) (n i : Nat) : Prop :=
  RunAt (pool.map bits) pool.size n false i

/-- All pages from `f` to the end of the block of `2 ^ e` pages at the landing index of `f` are free
and belong to the pool. -/
def Lands (pool : PoolGeom) (bits : Bitmap) (e f : Nat) : Prop :=
  landing e f + 2 ^ e ≤ pool.size ∧
    ∀ k, f ≤ k → k < landing e f + 2 ^ e → pool.map bits k = false

/-- Page `f` is the first one, or the page before it is taken. -/
def Begins (pool : PoolGeom) (bits : Bitmap) (f : Nat) : Prop :=
  f = 0 ∨ pool.map bits (f - 1) = true

variable {bits : Bitmap} {pool : PoolGeom} {n e f i b : Nat}

theorem Lands.freeBlock (h : pool.Lands bits e f) : pool.FreeBlock bits (2 ^ e) f := by
  have hle := le_landing e f
  obtain ⟨hend, hfree⟩ := h
  exact ⟨by omega, fun k hk => hfree _ (by omega) (by omega)⟩

theorem lands_of_aligned (h : pool.FreeBlock bits (2 ^ e) i) (hi : i % 2 ^ e = 0) :
    pool.Lands bits e i := by
  obtain ⟨hend, hfree⟩ := h
  rw [Lands, landing_of_mod_eq_zero hi]
  refine ⟨hend, fun k hlo hhi => ?_⟩
  rw [← Nat.add_sub_cancel' hlo]
  exact hfree _ (by omega)

theorem lands_step (h : pool.FreeBlock bits (2 ^ e) b) :
    pool.Lands bits e (b + b % 2 ^ e) ↔ pool.Lands bits e b := by
  obtain ⟨-, hfree⟩ := h
  simp only [Lands, landing_add_mod]
  refine and_congr_right fun _ => ⟨fun hall k hlo hhi => ?_, fun hall k hlo hhi => ?_⟩
  · by_cases hk : b + b % 2 ^ e ≤ k
    · exact hall k hk hhi
    · rw [← Nat.add_sub_cancel' hlo]
      exact hfree _ (by omega)
  · exact hall k (by omega) hhi

theorem FreeBlock.taken (h : pool.FreeBlock bits n b) (hf : pool.map bits f = true) :
    f < b ∨ b + n ≤ f := by
  by_contra hin
  have hfree := h.2 (f - b) (by omega)
  rw [Nat.add_sub_cancel' (by omega)] at hfree
  simp [hf] at hfree

/-- The first free block from `curr` on begins a run of free pages, or it begins at `curr`. -/
theorem begins_of_first {curr : Nat} (hle : curr ≤ b) (h : pool.FreeBlock bits n b)
    (hfirst : ∀ j, curr ≤ j → pool.FreeBlock bits n j → b ≤ j) :
    b = curr ∨ pool.map bits (b - 1) = true := by
  refine or_iff_not_imp_left.mpr fun hne => ?_
  by_contra htaken
  have hprev : pool.FreeBlock bits n (b - 1) := by
    refine ⟨by have := h.1; omega, fun k hk => ?_⟩
    cases k with
    | zero => simpa using htaken
    | succ k => simpa [show b - 1 + (k + 1) = b + k by omega] using h.2 k (by omega)
  have := hfirst (b - 1) (by omega) hprev
  omega

end PoolGeom

open PoolGeom

section Search

variable {bits : Bitmap} {pool : PoolGeom} {e left curr bit f : Nat}

/-- The index is corrected by its residue, since `start` is `n` for a pool that begins at a multiple
of the size of the request. -/
theorem ppAllocLoop_succ (bits : Bitmap) (pool : PoolGeom) (n left curr : Nat) :
    ppAllocLoop bits pool n true n (left + 1) curr =
      (bitmapFindConsec (pool.map bits) pool.size curr n false).bind fun bit =>
        if bit % n ≠ 0 then ppAllocLoop bits pool n true n left (bit + bit % n) else some bit := by
  simp only [ppAllocLoop, Nat.add_mod_right, true_and]
  cases bitmapFindConsec (pool.map bits) pool.size curr n false <;> rfl

theorem lands_of_ppAllocLoop (hsize : pool.size < 2 ^ 64 - 1)
    (h : ppAllocLoop bits pool (2 ^ e) true (2 ^ e) left curr = some bit) :
    ∃ f, (f = curr ∨ pool.map bits (f - 1) = true) ∧ pool.Lands bits e f := by
  have hpos : 0 < 2 ^ e := Nat.two_pow_pos e
  induction left generalizing curr with
  | zero => cases h
  | succ left ih =>
    rw [ppAllocLoop_succ] at h
    cases hfind : bitmapFindConsec (pool.map bits) pool.size curr (2 ^ e) false with
    | none =>
      rw [hfind] at h
      cases h
    | some b =>
      rw [hfind, Option.bind_some] at h
      obtain ⟨hle, hrun⟩ := bitmapFindConsec_sound hpos hsize hfind
      have hbegins := begins_of_first hle hrun fun j hj =>
        bitmapFindConsec_first hpos hsize hfind hj
      split at h
      · obtain ⟨f, hf | hf, hlands⟩ := ih h
        · subst hf
          exact ⟨b, hbegins, (lands_step hrun).mp hlands⟩
        · exact ⟨f, .inr hf, hlands⟩
      · rename_i hal
        exact ⟨b, hbegins, lands_of_aligned hrun (not_not.mp hal)⟩

/-- A pass that comes by a place where the search lands finds something: it leaves a free run only
behind its end, so it meets the beginning of the next one. -/
theorem ppAllocLoop_of_lands (hsize : pool.size < 2 ^ 64 - 1) (hleft : pool.size < left + curr)
    (hle : curr ≤ f) (hf : f = curr ∨ pool.map bits (f - 1) = true)
    (hlands : pool.Lands bits e f) :
    ∃ bit, ppAllocLoop bits pool (2 ^ e) true (2 ^ e) left curr = some bit := by
  have hpos : 0 < 2 ^ e := Nat.two_pow_pos e
  induction left generalizing curr f with
  | zero =>
    have := hlands.1
    have := le_landing e f
    omega
  | succ left ih =>
    obtain ⟨b, hbf, hfind⟩ := bitmapFindConsec_complete hpos hsize hle hlands.freeBlock
    obtain ⟨hcb, hrun⟩ := bitmapFindConsec_sound hpos hsize hfind
    rw [ppAllocLoop_succ, hfind, Option.bind_some]
    split
    · rename_i hmis
      by_cases heq : b = f
      · subst heq
        exact ih (by omega) le_rfl (.inl rfl) ((lands_step hrun).mpr hlands)
      · have hprev : pool.map bits (f - 1) = true := hf.resolve_left (by omega)
        have hout := FreeBlock.taken hrun hprev
        exact ih (by omega) (by omega) (.inr hprev) hlands
    · exact ⟨b, rfl⟩

end Search

section Request

variable {bits : Bitmap} {pool : PagePool} {e : Nat}

theorem ppAllocSearch_eq (he : e < 64) (hbase : pool.base % (2 ^ e * pageSize) = 0)
    (hlast : pool.last < 2 ^ 63) (hfree : pool.free ≠ 0) :
    ppAllocSearch bits pool (2 ^ e) true =
      (ppAllocLoop bits pool.toPoolGeom (2 ^ e) true (2 ^ e) (pool.size + 1)
        (pool.last + pool.last % 2 ^ e)).or
        (ppAllocLoop bits pool.toPoolGeom (2 ^ e) true (2 ^ e) (pool.size + 1) 0) := by
  have hpage : pool.base / pageSize % 2 ^ e = 0 := by
    rw [Nat.mul_comm] at hbase
    rw [← Nat.mod_mul_right_div_self, hbase, Nat.zero_div]
  have hpow : 2 ^ e ≤ 2 ^ 63 := Nat.pow_le_pow_right (by decide) (by omega)
  have hfirst : u64 (pool.last + u64 (pool.last + 2 ^ e) % 2 ^ e) =
      pool.last + pool.last % 2 ^ e := by
    rw [u64_of_lt (x := pool.last + 2 ^ e) (by omega), Nat.add_mod_right]
    exact u64_of_lt (by omega)
  simp only [ppAllocSearch, if_true, hpage, Nat.sub_zero, hfirst, hfree, if_false, Nat.mod_self]
  cases ppAllocLoop bits pool.toPoolGeom (2 ^ e) true (2 ^ e) (pool.size + 1)
    (pool.last + pool.last % 2 ^ e) <;> rfl

theorem exists_begins {g : PoolGeom} {n i : Nat} (hi : g.FreeBlock bits n i) :
    ∃ f ≤ i, g.Begins bits f ∧ ∀ k, f ≤ k → k < i + n → g.map bits k = false := by
  have hex : ∃ f, f ≤ i ∧ ∀ k, f ≤ k → k < i + n → g.map bits k = false := by
    refine ⟨i, le_rfl, fun k hlo hhi => ?_⟩
    rw [← Nat.add_sub_cancel' hlo]
    exact hi.2 _ (by omega)
  classical
  obtain ⟨hle, hfree⟩ := Nat.find_spec hex
  refine ⟨Nat.find hex, hle, ?_, hfree⟩
  refine or_iff_not_imp_left.mpr fun hne => ?_
  by_contra htaken
  refine Nat.find_min hex (show Nat.find hex - 1 < Nat.find hex by omega) ⟨by omega, ?_⟩
  intro k hlo hhi
  by_cases hk : k = Nat.find hex - 1
  · rw [hk]
    simpa using htaken
  · exact hfree k (by omega) hhi

theorem landing_le {i f : Nat} (he : e ≤ 1) (hle : f ≤ i) (hi : i % 2 ^ e = 0) :
    landing e f ≤ i := by
  obtain rfl | rfl : e = 0 ∨ e = 1 := by omega
  · simpa [landing] using hle
  · rw [landing, Nat.count_succ, Nat.count_zero, Nat.testBit_zero]
    simp only [Nat.pow_one, decide_eq_true_eq] at *
    split <;> omega

/-- An aligned request to a pool that begins at a multiple of its size is served exactly when the
search lands from the beginning of a run of free pages, or from where the first pass starts. For one
or two pages that is the case whenever there is a free aligned block. -/
theorem ppAlloc_aligned_isSome_iff (he : e < 64) (hbase : pool.base % (2 ^ e * pageSize) = 0)
    (hsize : pool.size < 2 ^ 63) (hlast : pool.last ≤ pool.size) (hfree : pool.free ≠ 0) :
    ((ppAlloc bits pool (2 ^ e) true).isSome ↔
      ∃ f, (pool.Begins bits f ∨ f = pool.last + pool.last % 2 ^ e) ∧ pool.Lands bits e f) ∧
    (e ≤ 1 → (∃ i, i % 2 ^ e = 0 ∧ pool.FreeBlock bits (2 ^ e) i) →
      (ppAlloc bits pool (2 ^ e) true).isSome) := by
  have hserved : (ppAlloc bits pool (2 ^ e) true).isSome ↔
      ∃ f, (pool.Begins bits f ∨ f = pool.last + pool.last % 2 ^ e) ∧ pool.Lands bits e f := by
    rw [ppAlloc, if_neg (Nat.two_pow_pos e).ne', Option.isSome_map,
      ppAllocSearch_eq he hbase (by omega) hfree, Option.isSome_or, Bool.or_eq_true,
      Option.isSome_iff_exists, Option.isSome_iff_exists]
    constructor
    · rintro (⟨bit, hbit⟩ | ⟨bit, hbit⟩)
      · obtain ⟨f, hf, hlands⟩ := lands_of_ppAllocLoop (by omega) hbit
        exact ⟨f, hf.symm.imp_left .inr, hlands⟩
      · obtain ⟨f, hf, hlands⟩ := lands_of_ppAllocLoop (by omega) hbit
        exact ⟨f, .inl hf, hlands⟩
    · rintro ⟨f, hf | hf, hlands⟩
      · exact .inr (ppAllocLoop_of_lands (by omega) (by omega) (Nat.zero_le f) hf hlands)
      · exact .inl (ppAllocLoop_of_lands (by omega) (by omega) hf.ge (.inl hf) hlands)
  refine ⟨hserved, fun hsmall hblock => hserved.mpr ?_⟩
  obtain ⟨i, hi, hblock⟩ := hblock
  obtain ⟨f, hle, hbegins, hrun⟩ := exists_begins hblock
  have hland := landing_le hsmall hle hi
  have hend := hblock.1
  exact ⟨f, .inl hbegins, by omega, fun k hlo hhi => hrun k hlo (by omega)⟩

/-- Only the first page is taken: the search for four pages goes from page 1 over 2 to page 4. -/
theorem ppAlloc_aligned_served : PoolGeom.Lands ⟨0x80000000, 16, 0⟩ (fun b => b = 0) 2 1 ∧
    (ppAlloc (fun b => b = 0) ⟨⟨0x80000000, 16, 0⟩, 15, 0⟩ (2 ^ 2) true).isSome := by
  have hlands : PoolGeom.Lands ⟨0x80000000, 16, 0⟩ (fun b => b = 0) 2 1 :=
    ⟨by decide, fun k hk _ => by simp [PoolGeom.map, PoolGeom.bit]; omega⟩
  exact ⟨hlands, (ppAlloc_aligned_isSome_iff (by decide) (by decide) (by decide) (by decide)
    (by decide)).1.mpr ⟨1, .inl (.inr (by decide)), hlands⟩⟩

/-- Pages 4 to 7 of eight are free and aligned. The free run begins at page 3, from where the search
steps to page 6, and four pages are not left there. -/
theorem ppAlloc_aligned_skips :
    (4 % 4 = 0 ∧
      ∀ k < 4, PoolGeom.map ⟨0x80000000, 8, 0⟩ (fun b => decide (b < 3)) (4 + k) = false) ∧
      ppAlloc (fun b => decide (b < 3)) ⟨⟨0x80000000, 8, 0⟩, 5, 0⟩ 4 true = none := by
  refine ⟨by decide, ?_⟩
  rw [← Option.isNone_iff_eq_none]
  decide +kernel

end Request

end Bao
