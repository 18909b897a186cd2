import Bao.Core.MemInit

/-!
# Reservations without holes

`mem_reserve_ppool_ppages` returns true in two cases: when it has marked pages that were free, and
when the pages are not within the pool. The second case is meant for pages that other pools have. It
also covers pages that are only partly in the pool, none of which is marked.
-/

namespace Bao

/-- No page of the pool is one of the pages. -/
def PoolGeom.Apart (g : PoolGeom) (r : Ppages) : Prop :=
  ∀ k < g.size, g.frame k ∉ frames r.base r.size

section Call

variable {p p' : NewPool} {r : Ppages}

theorem NewPool.reserve_mono (h : p.reserve r = some p') :
    p'.pool.toPoolGeom = p.pool.toPoolGeom ∧ ∀ b, p.bits b = true → p'.bits b = true := by
  simp only [NewPool.reserve] at h
  split at h
  · cases h
  split at h
  swap
  · cases h
  cases h
  simp only [memReservePpoolPpages]
  split
  · refine ⟨rfl, fun b hb => ?_⟩
    simp only [bitmapSetConsecutive_apply, hb, ite_self]
  · exact ⟨rfl, fun b hb => hb⟩

theorem NewPool.reserve_inside (hbase : p.pool.base % pageSize = 0) (hstop : p.pool.stop < 2 ^ 64)
    (hr : r.Sane) (hin : p.pool.Inside r) (h : p.reserve r = some p') {k : Nat}
    (hk : p.pool.frame k ∈ frames r.base r.size) :
    p.bits (p.pool.bit k) = false ∧ p'.bits (p.pool.bit k) = true := by
  obtain ⟨hal, htop⟩ := hr
  have hrange : rangeInRange r.base (r.size * pageSize) p.pool.base (p.pool.size * pageSize) =
      true := (rangeInRange_iff htop hstop).mpr hin
  have hoff : numPages (r.base - p.pool.base) = (r.base - p.pool.base) / pageSize := by
    refine numPages_of_mod ?_ ?_ <;> simp only [pageSize] at * <;> omega
  -- The page is one of those from the offset of the range on.
  obtain ⟨j, hj, hkj⟩ : ∃ j < r.size, k = (r.base - p.pool.base) / pageSize + j := by
    obtain ⟨hlo, hhi⟩ := hk
    obtain ⟨hle, -⟩ := hin
    refine ⟨k - (r.base - p.pool.base) / pageSize, ?_, ?_⟩ <;>
      simp only [PoolGeom.frame, pageSize] at * <;> omega
  simp only [NewPool.reserve, memReservePpoolPpages, hrange, if_true] at h
  split at h
  · cases h
  split at h
  swap
  · cases h
  rename_i hfree
  cases h
  refine ⟨?_, ?_⟩
  · have := map_eq_false_of_not_reserved hrange (by simpa using hfree) j hj
    rwa [hoff, ← hkj] at this
  · simp only [bitmapSetConsecutive_apply, hoff, hkj, PoolGeom.bit]
    rw [if_pos (by omega)]

end Call

section Run

variable {p p' : NewPool} {rs : List Ppages}

theorem NewPool.reserveAll_mono (h : rs.foldlM NewPool.reserve p = some p') :
    p'.pool.toPoolGeom = p.pool.toPoolGeom ∧ ∀ b, p.bits b = true → p'.bits b = true := by
  induction rs generalizing p with
  | nil =>
    cases h
    exact ⟨rfl, fun b hb => hb⟩
  | cons r rs ih =>
    rw [List.foldlM_cons] at h
    obtain ⟨p₁, hp₁, hrest⟩ := Option.bind_eq_some_iff.mp h
    obtain ⟨hgeom, hmono⟩ := NewPool.reserve_mono hp₁
    obtain ⟨hgeom', hmono'⟩ := ih hrest
    exact ⟨hgeom'.trans hgeom, fun b hb => hmono' b (hmono b hb)⟩

/-- When the reservations of a list of ranges in a pool all return true, and every range is inside
of the pool or has no page of it, then all pages of the ranges that the pool has are marked, and
each of them was free before the call that reserved it. -/
theorem reserveAll_no_hole (hbase : p.pool.base % pageSize = 0) (hstop : p.pool.stop < 2 ^ 64)
    (hrs : ∀ r ∈ rs, r.Sane) (hwhole : ∀ r ∈ rs, p.pool.Inside r ∨ p.pool.Apart r)
    (h : rs.foldlM NewPool.reserve p = some p') :
    (∀ r ∈ rs, ∀ k < p.pool.size, p.pool.frame k ∈ frames r.base r.size →
      p'.bits (p.pool.bit k) = true) ∧
    ∀ before r after, rs = before ++ r :: after → ∃ q, before.foldlM NewPool.reserve p = some q ∧
      ∀ k < p.pool.size, p.pool.frame k ∈ frames r.base r.size → q.bits (p.pool.bit k) = false := by
  have hcall : ∀ before r after, rs = before ++ r :: after → ∃ q q',
      before.foldlM NewPool.reserve p = some q ∧ q.reserve r = some q' ∧
      after.foldlM NewPool.reserve q' = some p' ∧
      ∀ k < p.pool.size, p.pool.frame k ∈ frames r.base r.size →
        q.bits (p.pool.bit k) = false ∧ q'.bits (p.pool.bit k) = true := by
    rintro before r after rfl
    rw [List.foldlM_append] at h
    obtain ⟨q, hq, h⟩ := Option.bind_eq_some_iff.mp h
    rw [List.foldlM_cons] at h
    obtain ⟨q', hq', hafter⟩ := Option.bind_eq_some_iff.mp h
    have hgeom := (NewPool.reserveAll_mono hq).1
    refine ⟨q, q', hq, hq', hafter, fun k hk hmem => ?_⟩
    rcases hwhole r (by simp) with hin | hout
    · rw [← hgeom] at hin hbase hstop hmem ⊢
      exact NewPool.reserve_inside hbase hstop (hrs r (by simp)) hin hq' hmem
    · exact absurd hmem (hout k hk)
  refine ⟨fun r hr k hk hmem => ?_, fun before r after heq => ?_⟩
  · obtain ⟨before, after, heq⟩ := List.append_of_mem hr
    obtain ⟨q, q', -, -, hafter, hset⟩ := hcall before r after heq
    exact (NewPool.reserveAll_mono hafter).2 _ (hset k hk hmem).2
  · obtain ⟨q, q', hq, -, -, hset⟩ := hcall before r after heq
    exact ⟨q, hq, fun k hk hmem => (hset k hk hmem).1⟩

end Run

/-- A pool of 16 free pages. -/
def sixteenPages : NewPool := ⟨fun _ => false, ⟨⟨0x80000000, 16, 0⟩, 16, 0⟩, true⟩

/-- Two pages in the pool and one behind it. -/
theorem reserveAll_no_hole_two :
    ∃ p', [⟨0x80002000, 2, 0⟩, ⟨0x90000000, 1, 0⟩].foldlM NewPool.reserve sixteenPages = some p' ∧
      p'.bits 3 = true := by
  refine Foundation.exists_some_of (P := fun _ => True) (by decide +kernel) fun p' hp' _ => ?_
  have hhole := reserveAll_no_hole (by decide) (by decide) (by decide) ?_ hp'
  · exact hhole.1 ⟨0x80002000, 2, 0⟩ (by simp) 3 (by decide) ⟨by decide, by decide⟩
  · intro r hr
    simp only [List.mem_cons, List.not_mem_nil, or_false] at hr
    rcases hr with rfl | rfl
    · exact .inl (by decide)
    · refine .inr fun k hk hmem => ?_
      simp only [sixteenPages, PoolGeom.frame, frames, Set.mem_Ico, pageSize] at hk hmem
      omega

/-- The last page of the pool and the page behind it: the reservation returns true and marks
nothing. -/
theorem reserve_leaves_hole :
    let r := memReservePpoolPpages sixteenPages.bits sixteenPages.pool ⟨0x8000f000, 2, 0⟩
    r.1 = true ∧ sixteenPages.pool.frame 15 ∈ frames 0x8000f000 2 ∧
      r.2.1 (sixteenPages.pool.bit 15) = false := by
  refine ⟨by decide, ⟨by decide, by decide⟩, by decide⟩

end Bao
