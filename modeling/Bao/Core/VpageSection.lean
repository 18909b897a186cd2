import Bao.Core.AsInit
import Bao.Core.VpageFresh

/-!
# Virtual pages of a section

`mem_alloc_vpage` without a hint looks for pages from the beginning of a section on. It looks for
the end of the section only where it enters or leaves a table, and then it asks for room for all
pages again, also when it has counted some of them already. So it may give up inside a run of free
pages of the section, and it may go on behind the section. The places where it looks are determined
by the tables in the beginning and by the first run of free pages.
-/

namespace Bao

/-- The `n` pages from `r` on are neither mapped nor reserved. -/
def FreePages (pt : PageTable) (mem : PhysMem) (n r : Nat) : Prop :=
  ∀ k < n * pageSize, memTranslate pt mem (r + k) = none ∧ pageReserved pt mem (r + k) = false

/-- The first run of `n` free pages from `beg` on begins at `r`. -/
structure FirstRun (pt : PageTable) (mem : PhysMem) (beg n r : Nat) : Prop where
  beg_le : beg ≤ r
  free : FreePages pt mem n r
  first : ∀ r', beg ≤ r' → FreePages pt mem n r' → r ≤ r'

/-- Where a search for `n` pages from `beg` on looks for the end of the section: where it begins,
where the root table begins again, and at the ends of blocks of 1 GiB and 2 MiB that it does not
pass within one table. Of the two blocks that meet there it goes into the first one if that has a
table or the search began inside of it, and into the second one if that has a table or is the last
one of the first run of free pages, which ends inside of it. -/
def LooksAt (pt : PageTable) (mem : PhysMem) (beg n b : Nat) : Prop :=
  b = beg ∨ b % ptSpan pt = 0 ∨ ∃ j < 2, b % ptLvlsize pt j = 0 ∧
    (b < beg + ptLvlsize pt j ∨ (∃ q, PtEntry pt mem (b - 1) (j + 1) q) ∨
      (∃ q, PtEntry pt mem b (j + 1) q) ∨
      ∃ r, FirstRun pt mem beg n r ∧ r ≤ b ∧ r + n * pageSize < b + ptLvlsize pt j)

/-- A run of `n` free pages of the section. -/
structure SecRun (pt : PageTable) (mem : PhysMem) (sec : Section) (n r : Nat) : Prop where
  beg_le : sec.beg ≤ r
  le_stop : r + n * pageSize ≤ sec.stop + 1
  free : FreePages pt mem n r

/-- The search finds the end of the section in time, and not too early. If the first run of free
pages lies in the section, then wherever the search looks inside the run there is room for `n` pages
up to the end. If there is no run in the section, it looks somewhere in the last `n` pages or at the
end. A section up to the last address has the end 0 for the search, which gives up at once. -/
structure SecOk (pt : PageTable) (mem : PhysMem) (sec : Section) (n : Nat) : Prop where
  run : ∀ r, FirstRun pt mem sec.beg n r → r + n * pageSize ≤ sec.stop + 1 →
    sec.stop + 1 < 2 ^ 64 ∧ ∀ b, r < b → b < r + n * pageSize → LooksAt pt mem sec.beg n b →
      b + n * pageSize ≤ sec.stop + 1
  none : (∀ r, ¬ SecRun pt mem sec n r) → sec.stop + 1 = 2 ^ 64 ∨ ∃ b, sec.beg ≤ b ∧
    b ≤ sec.stop + 1 ∧ sec.stop + 1 < b + n * pageSize ∧ LooksAt pt mem sec.beg n b

/-- The sections of the hypervisor: pages within the range of the root table, below the last
address. The root table is aligned, no superpage reaches over the beginning of the section, and
entries of tables are not marked as reserved. -/
structure SecFits (pt : PageTable) (mem : PhysMem) (sec : Section) : Prop where
  beg_pos : 0 < sec.beg
  beg_page : sec.beg % pageSize = 0
  le : sec.beg ≤ sec.stop
  stop_lt : sec.stop + 1 < 2 ^ 64
  window : sec.beg % ptSpan pt + (sec.stop + 1 - sec.beg) ≤ ptSpan pt
  root : pt.root % ptSize pt 0 = 0
  begins : ∀ {lvl pte}, PtEntry pt mem sec.beg lvl pte → PteTaken (mem pte) →
    pteTable (mem pte) = false → sec.beg % ptLvlsize pt lvl = 0
  tables : ∀ {va lvl pte}, PtEntry pt mem va lvl pte → pteTable (mem pte) = true →
    pteCheckRsw (mem pte) pteRswRsrv = false

/-- The end of the range of the root table in which an address lies. -/
def spanEnd (pt : PageTable) (a : Nat) : Nat := a - a % ptSpan pt + ptSpan pt

/-! ## Blocks -/

section Block

variable {pt : PageTable} {mem : PhysMem} {lvl a va pte : Nat}

theorem block_le {m L : Nat} (ha : a % L = 0) (hm : m % L = 0) (hlt : a < m) : a + L ≤ m := by
  have hdvd : L ∣ m - a := (Nat.dvd_sub_iff_left hlt.le (Nat.dvd_of_mod_eq_zero ha)).mpr
    (Nat.dvd_of_mod_eq_zero hm)
  have := Nat.le_of_dvd (by omega) hdvd
  omega

variable {j a' q : Nat}

section

variable (hrv : pt.Rv64) (hl : lvl < 3)

include hrv hl

theorem lvlsize_dvd (hj : j ≤ lvl) : ptLvlsize pt lvl ∣ ptLvlsize pt j := by
  rw [hrv.lvlsize hl, hrv.lvlsize (by omega)]
  exact Nat.pow_dvd_pow 2 (by omega)

theorem table_dvd (hj : j < lvl) : ptLvlsize pt lvl * ptNentries pt lvl ∣ ptLvlsize pt j := by
  obtain ⟨l, rfl⟩ := Nat.exists_eq_succ_of_ne_zero (show lvl ≠ 0 by omega)
  rw [hrv.nentries (Nat.succ_pos l) hl, ← hrv.lvlsize_succ hl]
  exact lvlsize_dvd hrv (by omega) (by omega)

theorem table_dvd_span : ptLvlsize pt lvl * ptNentries pt lvl ∣ ptSpan pt := by
  rcases Nat.eq_zero_or_pos lvl with rfl | hpos
  · exact dvd_rfl
  · exact (table_dvd hrv hl hpos).trans (lvlsize_dvd_span hrv (by decide))

theorem mod_of_last_index (ha : a % ptLvlsize pt lvl = 0)
    (hlast : ¬ ptGetpteindexByVa pt a lvl + 1 < ptNentries pt lvl) :
    (a + ptLvlsize pt lvl) % (ptLvlsize pt lvl * ptNentries pt lvl) = 0 := by
  have hindex := hrv.index_lt hl a
  have hpos := hrv.lvlsize_pos hl
  rw [hrv.index hl] at hlast hindex
  obtain ⟨b, rfl⟩ := Nat.dvd_of_mod_eq_zero ha
  rw [Nat.mul_div_cancel_left _ hpos] at hlast hindex
  rw [← Nat.mul_succ, Nat.mul_mod_mul_left, Nat.mul_eq_zero]
  refine .inr ?_
  rw [Nat.succ_eq_add_one, ← Nat.mod_add_mod, show b % ptNentries pt lvl + 1 = ptNentries pt lvl by
    omega, Nat.mod_self]

theorem mod_ne_of_table_dvd {m : Nat} (hdvd : ptLvlsize pt lvl * ptNentries pt lvl ∣ m)
    (hin : ptGetpteindexByVa pt a lvl + 1 < ptNentries pt lvl) :
    (a + ptLvlsize pt lvl) % m ≠ 0 := by
  intro hzero
  have hnext := hrv.index_next hl hin
  rw [hrv.index hl, ← Nat.mod_mul_right_div_self,
    Nat.mod_eq_zero_of_dvd (hdvd.trans (Nat.dvd_of_mod_eq_zero hzero)), Nat.zero_div] at hnext
  omega

/-- The last block inside a block of a level above, if the address behind it is not the end of that
block. -/
theorem div_eq_of_mod_ne (hj : j ≤ lvl) (ha : a % ptLvlsize pt lvl = 0)
    (hne : (a + ptLvlsize pt lvl) % ptLvlsize pt j ≠ 0) :
    a / ptLvlsize pt j = (a + ptLvlsize pt lvl) / ptLvlsize pt j := by
  have hle : ptLvlsize pt lvl ≤ (a + ptLvlsize pt lvl) % ptLvlsize pt j := by
    refine Nat.le_of_dvd (by omega) (Nat.dvd_of_mod_eq_zero ?_)
    rw [Nat.mod_mod_of_dvd _ (lvlsize_dvd hrv hl hj), Nat.add_mod_right, ha]
  have hsplit := Nat.div_add_mod' (a + ptLvlsize pt lvl) (ptLvlsize pt j)
  have hmod := Nat.mod_lt (a + ptLvlsize pt lvl) (hrv.lvlsize_pos (show j < 3 by omega))
  refine Nat.div_eq_of_lt_le (by omega) ?_
  rw [Nat.succ_mul]
  omega

end

theorem PtEntry.below_congr (hrv : pt.Rv64) (hj : j < 3)
    (hdiv : a / ptLvlsize pt j = a' / ptLvlsize pt j) (h : PtEntry pt mem a (j + 1) q) :
    ∃ q', PtEntry pt mem a' (j + 1) q' := by
  obtain ⟨q', hq', htable, -⟩ := h.up
  exact ⟨_, (hq'.congr_va hrv hj (blockOf_eq_of_div_eq hrv hj hdiv)).next htable⟩

theorem PtEntry.not_below (hrv : pt.Rv64) (hl : lvl < 3) (h : PtEntry pt mem a lvl pte)
    (hleaf : pteTable (mem pte) = false) (hj : lvl ≤ j)
    (hblock : blockOf pt a lvl = blockOf pt a' lvl) : ¬ PtEntry pt mem a' (j + 1) q := by
  intro hq
  obtain ⟨q', hq', htable⟩ := hq.above (show lvl < j + 1 by omega)
  rw [← (h.congr_va hrv hl hblock).unique hq', hleaf] at htable
  cases htable

theorem PtEntry.begins_behind (hrv : pt.Rv64) (hl : lvl < 3) (h : PtEntry pt mem a lvl pte)
    (ha : a % ptLvlsize pt lvl = 0) {l : Nat} (hlq : l < 3)
    (hq : PtEntry pt mem (a + ptLvlsize pt lvl) l q) (hleaf : pteTable (mem q) = false) :
    (a + ptLvlsize pt lvl) % ptLvlsize pt l = 0 := by
  have hsum : (a + ptLvlsize pt lvl) % ptLvlsize pt lvl = 0 := by rw [Nat.add_mod_right, ha]
  rcases Nat.lt_or_ge l lvl with hlt | hge
  · by_contra hne
    -- In the middle of a block of a level above, the address before has the same entry, which then
    -- leads to a table.
    obtain ⟨q', hq', htable⟩ := h.above hlt
    rw [hq'.unique (hq.congr_va hrv hlq (blockOf_eq_of_div_eq hrv hlq
      (div_eq_of_mod_ne hrv hl hlt.le ha hne).symm)), hleaf] at htable
    cases htable
  · exact Nat.mod_eq_zero_of_dvd ((lvlsize_dvd hrv hlq hge).trans (Nat.dvd_of_mod_eq_zero hsum))

theorem PteTaken.not_free (tree : PtTree pt mem) (hrv : pt.Rv64) (h : PtEntry pt mem va lvl pte)
    (taken : PteTaken (mem pte)) (hleaf : pteTable (mem pte) = false) :
    ¬ (memTranslate pt mem va = none ∧ pageReserved pt mem va = false) := by
  rintro ⟨hnone, hfree⟩
  rw [h.reserved hrv (tree.lvl_lt h) hleaf] at hfree
  rcases taken with hrsv | ⟨hv, -⟩
  · rw [hfree] at hrsv
    cases hrsv
  · rw [tree.invalid_of_unmapped hrv h hleaf hnone] at hv
    cases hv

theorem div_eq_of_blockOf (hrv : pt.Rv64) (hl : lvl < 3) {beg : Nat} (ha : beg ≤ a) (ha' : beg ≤ a')
    (hlt : a < spanEnd pt beg) (hlt' : a' < spanEnd pt beg)
    (h : blockOf pt a lvl = blockOf pt a' lvl) : a / ptLvlsize pt lvl = a' / ptLvlsize pt lvl := by
  have hwindow : beg % ptSpan pt + (spanEnd pt beg - beg) ≤ ptSpan pt := by
    have := Nat.mod_le beg (ptSpan pt)
    rw [spanEnd] at *
    omega
  refine (blockOf_eq_iff_div hrv hl ?_).mp h
  rw [div_span_of_window hwindow ha hlt, div_span_of_window hwindow ha' hlt']

theorem lvlsize_dvd_spanEnd (hrv : pt.Rv64) (hl : lvl < 3) (a : Nat) :
    ptLvlsize pt lvl ∣ spanEnd pt a :=
  Nat.dvd_add ((lvlsize_dvd_span hrv hl).trans (Nat.dvd_sub_mod a)) (lvlsize_dvd_span hrv hl)

theorem SecFits.spanEnd_le {sec : Section} (hfit : SecFits pt mem sec) (hrv : pt.Rv64) :
    spanEnd pt sec.beg ≤ 2 ^ 64 := by
  have hle := hfit.le
  have hlt := hfit.stop_lt
  have hdvd : ptSpan pt ∣ 2 ^ 64 := by
    rcases hrv.nentries_zero with h | h <;> rw [ptSpan, h, hrv.lvlsize (by decide)] <;> decide
  exact block_le (Nat.mod_eq_zero_of_dvd (Nat.dvd_sub_mod sec.beg)) (Nat.mod_eq_zero_of_dvd hdvd)
    (by omega)

end Block

/-! ## Pages counted -/

/-- The search has come to the address `addr` and counted `count` pages from `start` on: they are
free, and no run of `n` free pages begins before them. -/
structure Counted (pt : PageTable) (mem : PhysMem) (beg n start count addr : Nat) : Prop where
  beg_le : beg ≤ start
  addr_eq : addr = start + count * pageSize
  count_le : count ≤ n
  free : FreePages pt mem count start
  first : ∀ r, beg ≤ r → FreePages pt mem n r → start ≤ r

/-- Up to the address `addr`, the search has found room for `n` pages wherever it looked. -/
def Seen (pt : PageTable) (mem : PhysMem) (sec : Section) (n addr : Nat) : Prop :=
  ∀ b, sec.beg ≤ b → b < addr → b ≤ sec.stop + 1 → LooksAt pt mem sec.beg n b →
    b + n * pageSize ≤ sec.stop + 1

namespace Counted

variable {pt : PageTable} {mem : PhysMem} {sec : Section} {beg n start count addr r : Nat}

theorem start_eq (h : Counted pt mem beg n start count addr) (hr : FirstRun pt mem beg n r)
    (hle : r ≤ addr) : r = start := by
  have haddr := h.addr_eq
  have hstart := h.first r hr.beg_le hr.free
  refine Nat.le_antisymm (hr.first start h.beg_le fun k hk => ?_) hstart
  by_cases hin : k < count * pageSize
  · exact h.free k hin
  · have := hr.free (start + k - r) (by omega)
    rwa [Nat.add_sub_cancel' (show r ≤ start + k by omega)] at this

theorem exists_first (hr : SecRun pt mem sec n r) :
    ∃ r', FirstRun pt mem sec.beg n r' ∧ r' ≤ r := by
  classical
  have hex : ∃ r, sec.beg ≤ r ∧ FreePages pt mem n r := ⟨r, hr.beg_le, hr.free⟩
  exact ⟨Nat.find hex, ⟨(Nat.find_spec hex).1, (Nat.find_spec hex).2,
    fun r' hle hfree => Nat.find_min' hex ⟨hle, hfree⟩⟩, Nat.find_min' hex ⟨hr.beg_le, hr.free⟩⟩

theorem no_run (h : Counted pt mem sec.beg n start count addr) (hend : sec.stop + 1 < addr)
    (r : Nat) : ¬ SecRun pt mem sec n r := by
  rintro ⟨hbeg, hstop, hfree⟩
  have hstart := h.first r hbeg hfree
  have haddr := h.addr_eq
  have hmul := Nat.mul_le_mul_right pageSize h.count_le
  omega

theorem not_secOk (h : Counted pt mem sec.beg n start count addr)
    (hseen : Seen pt mem sec n addr) (hlt : sec.stop + 1 < 2 ^ 64) (hend : sec.stop + 1 < addr) :
    ¬ SecOk pt mem sec n := by
  intro hok
  obtain hwrap | ⟨b, hbeg, hstop, hroom, hlook⟩ := hok.none (h.no_run hend)
  · omega
  · have := hseen b hbeg (by omega) hstop hlook
    omega

theorem secOk_found (h : Counted pt mem sec.beg n start n addr) (hseen : Seen pt mem sec n addr)
    (hlt : sec.stop + 1 < 2 ^ 64) (hend : addr ≤ sec.stop + 1) : SecOk pt mem sec n := by
  have haddr := h.addr_eq
  refine ⟨fun r hr hle => ⟨hlt, fun b hrb hb hlook => ?_⟩, fun hno => ?_⟩
  · have hstart := h.first r hr.beg_le hr.free
    have hfirst := hr.first start h.beg_le h.free
    have hbeg := h.beg_le
    exact hseen b (by omega) (by omega) (by omega) hlook
  · exact absurd ⟨h.beg_le, by omega, h.free⟩ (hno start)

/-- The search gives up where it looks for the end and has no room: it is right to do so exactly if
there is no run of free pages in the section. -/
theorem secOk_iff_none (h : Counted pt mem sec.beg n start count addr) (hcount : count < n)
    (hend : addr ≤ sec.stop + 1) (hroom : sec.stop + 1 < addr + n * pageSize)
    (hlook : LooksAt pt mem sec.beg n addr) :
    SecOk pt mem sec n ↔ ∀ r, ¬ SecRun pt mem sec n r := by
  have haddr := h.addr_eq
  have hbeg := h.beg_le
  constructor
  · intro hok r hr
    obtain ⟨r', hfirst, hle⟩ := exists_first hr
    have hstop := hr.le_stop
    have hstart := h.first r' hfirst.beg_le hfirst.free
    have hmul := Nat.mul_lt_mul_of_pos_right hcount (show 0 < pageSize by decide)
    have := (hok.run r' hfirst (by omega)).2 addr (by omega) (by omega) hlook
    omega
  · exact fun hno => ⟨fun r hr hle => absurd ⟨hr.beg_le, hle, hr.free⟩ (hno r),
      fun _ => .inr ⟨addr, by omega, hend, hroom, hlook⟩⟩

end Counted

/-! ## The search -/

/-- Why the search has gone into a block of level `j` that the address `a` lies in: there was a
table, the search began inside of it, or the first run of free pages ends there. -/
def Entered (pt : PageTable) (mem : PhysMem) (beg n j a : Nat) : Prop :=
  (∃ q, PtEntry pt mem a (j + 1) q) ∨ a / ptLvlsize pt j * ptLvlsize pt j < beg ∨
    ∃ r, FirstRun pt mem beg n r ∧ r ≤ a / ptLvlsize pt j * ptLvlsize pt j ∧
      r + n * pageSize < a / ptLvlsize pt j * ptLvlsize pt j + ptLvlsize pt j

/-- What holds during the search in a section, besides what holds during any search. Tables ahead of
the search are those of the beginning, and it is inside of blocks only for a reason. -/
structure SecScan (clr : Colors) (as : AddrSpace) (rel : Bool) (used₀ : Set Nat) (s₀ : MemState)
    (sec : Section) (n : Nat) (c : VpageScan) (s : MemState) : Prop where
  scan : Scan clr as rel used₀ s₀ 0 n c s
  counted : Counted as.pt s₀.mem sec.beg n c.start c.count c.addr
  begins : ∀ {lvl pte}, PtEntry as.pt s.mem c.addr lvl pte → PteTaken (s.mem pte) →
    pteTable (s.mem pte) = false → c.addr % ptLvlsize as.pt lvl = 0
  tables : ∀ {va lvl pte}, PtEntry as.pt s.mem va lvl pte → pteTable (s.mem pte) = true →
    pteCheckRsw (s.mem pte) pteRswRsrv = false
  grown : ∀ {a lvl q}, PtEntry as.pt s₀.mem a lvl q → PtEntry as.pt s.mem a lvl q
  ahead : ∀ {a lvl q}, c.addr ≤ a → a < spanEnd as.pt sec.beg → a % ptLvlsize as.pt lvl = 0 →
    (a = c.addr → c.lvl ≤ lvl) → PtEntry as.pt s.mem a (lvl + 1) q →
    ∃ q', PtEntry as.pt s₀.mem a (lvl + 1) q'
  inside : ∀ j < 2, c.addr % ptLvlsize as.pt j ≠ 0 ∨ j < c.lvl →
    Entered as.pt s₀.mem sec.beg n j c.addr

/-- The search has come to its address within a table, from the entry before. -/
structure Stayed (pt : PageTable) (beg : Nat) (c : VpageScan) (s : MemState) : Prop where
  index : 0 < ptGetpteindexByVa pt c.addr c.lvl
  beg_le : beg + ptLvlsize pt c.lvl ≤ c.addr
  aligned : c.addr % ptLvlsize pt c.lvl = 0
  entry : ∃ q, PtEntry pt s.mem (c.addr - 1) c.lvl q ∧ pteTable (s.mem q) = false

/-- The search within a table: it has looked for the end here, or not at all since it came from the
entry before. -/
def Here (pt : PageTable) (s₀ : MemState) (sec : Section) (n : Nat) (c : VpageScan)
    (s : MemState) : Prop :=
  LooksAt pt s₀.mem sec.beg n c.addr ∧ c.addr + n * pageSize ≤ sec.stop + 1 ∨
    Stayed pt sec.beg c s

/-- What a step of the search comes to, at the address `addr` before it is cut to 64 bits. -/
structure Reached (clr : Colors) (as : AddrSpace) (rel : Bool) (used₀ : Set Nat) (s₀ : MemState)
    (sec : Section) (n : Nat) (c : VpageScan) (s : MemState) (addr : Nat) : Prop where
  le : addr ≤ spanEnd as.pt sec.beg
  addr_eq : c.addr = u64 addr
  counted : ∃ start, Counted as.pt s₀.mem sec.beg n start c.count addr ∧
    (0 < c.count → c.vpage = start)
  seen : Seen as.pt s₀.mem sec n addr
  all : Scan clr as rel used₀ s₀ 0 n c s
  scan : addr < 2 ^ 64 → SecScan clr as rel used₀ s₀ sec n c s

/-- The number of steps to the end of the section at most. -/
def stepsLeft (sec : Section) (addr lvl : Nat) : Nat :=
  3 * ((sec.stop + 1 - addr) / pageSize) + (2 - lvl)

variable {n : Nat} {sec : Section} {pt : PageTable} {mem : PhysMem} {clr : Colors} {as : AddrSpace}
  {rel : Bool} {used₀ : Set Nat} {s₀ s s' : MemState} {c c' : VpageScan}

theorem Entered.congr {beg j a a' : Nat} (hrv : pt.Rv64) (hj : j < 3)
    (hdiv : a / ptLvlsize pt j = a' / ptLvlsize pt j) (h : Entered pt mem beg n j a) :
    Entered pt mem beg n j a' := by
  rw [Entered, hdiv] at h
  rcases h with ⟨q, hq⟩ | h
  · exact .inl (hq.below_congr hrv hj hdiv)
  · exact .inr h

namespace SecScan

variable {pte : Nat}

theorem beg_le (hsc : SecScan clr as rel used₀ s₀ sec n c s) : sec.beg ≤ c.addr := by
  have := hsc.counted.beg_le
  have := hsc.counted.addr_eq
  omega

variable {start : Nat}

section

variable (hsc : SecScan clr as rel used₀ s₀ sec n c s)

include hsc

variable {count : Nat}

section

variable (hrv : as.pt.Rv64) (hl : c.lvl < 3) (haligned : c.addr % ptLvlsize as.pt c.lvl = 0)

include hrv hl haligned

theorem looksAt_end
    (hlast : ¬ ptGetpteindexByVa as.pt c.addr c.lvl + 1 < ptNentries as.pt c.lvl)
    (hcounted : Counted as.pt s₀.mem sec.beg n start count (c.addr + ptLvlsize as.pt c.lvl)) :
    LooksAt as.pt s₀.mem sec.beg n (c.addr + ptLvlsize as.pt c.lvl) := by
  have hend := mod_of_last_index hrv hl haligned hlast
  rcases Nat.eq_zero_or_pos c.lvl with hzero | hpos
  · rw [hzero] at hend ⊢
    exact .inr (.inl hend)
  obtain ⟨j, hlvl⟩ := Nat.exists_eq_succ_of_ne_zero hpos.ne'
  have hj : j + 1 < 3 := by omega
  have hmod : (c.addr + ptLvlsize as.pt c.lvl) % ptLvlsize as.pt j = 0 := by
    rw [hlvl] at hend ⊢
    rwa [hrv.nentries (Nat.succ_pos j) hj, ← hrv.lvlsize_succ hj] at hend
  have hpos := hrv.lvlsize_pos hl
  have hle := hrv.lvlsize_succ hj
  rw [← Nat.succ_eq_add_one, ← hlvl] at hle
  -- The block of the table ends at the address.
  have hblock : c.addr / ptLvlsize as.pt j * ptLvlsize as.pt j + ptLvlsize as.pt j =
      c.addr + ptLvlsize as.pt c.lvl := by
    have hsplit := Nat.div_add_mod' c.addr (ptLvlsize as.pt j)
    have hmodlt := Nat.mod_lt c.addr (hrv.lvlsize_pos (show j < 3 by omega))
    refine Nat.le_antisymm (block_le (Nat.mul_mod_left _ _) hmod (by omega)) ?_
    refine block_le haligned (Nat.mod_eq_zero_of_dvd ?_) (by omega)
    exact Nat.dvd_add ((lvlsize_dvd hrv hl (by omega)).mul_left _)
      (lvlsize_dvd hrv hl (by omega))
  refine .inr (.inr ⟨j, by omega, hmod, ?_⟩)
  obtain ⟨q, hq⟩ | hbeg | ⟨r, hr, hle', hlt⟩ := hsc.inside j (by omega) (.inr (by omega))
  · refine .inr (.inl (hq.below_congr hrv (by omega) ?_))
    have hsplit := Nat.div_add_mod' c.addr (ptLvlsize as.pt j)
    refine (Nat.div_eq_of_lt_le (by omega) ?_).symm
    rw [Nat.succ_mul]
    omega
  · exact .inl (by omega)
  · -- The search would have ended with the run.
    have hstart := hcounted.start_eq hr (by omega)
    have haddr := hcounted.addr_eq
    have hmul := Nat.mul_le_mul_right pageSize hcounted.count_le
    omega

theorem inside_behind {j : Nat} (hj : j < 2)
    (hwhy : (c.addr + ptLvlsize as.pt c.lvl) % ptLvlsize as.pt j ≠ 0 ∨
      j < c.lvl ∧ ptGetpteindexByVa as.pt c.addr c.lvl + 1 < ptNentries as.pt c.lvl) :
    Entered as.pt s₀.mem sec.beg n j (c.addr + ptLvlsize as.pt c.lvl) := by
  have hjl : j < c.lvl := by
    by_contra hge
    rcases hwhy with hne | ⟨hlt, -⟩
    · have hdvd := lvlsize_dvd hrv (show j < 3 by omega) (Nat.le_of_not_lt hge)
      exact hne (Nat.mod_eq_zero_of_dvd (Nat.dvd_add
        (hdvd.trans (Nat.dvd_of_mod_eq_zero haligned)) hdvd))
    · exact hge hlt
  refine (hsc.inside j hj (.inr hjl)).congr hrv (by omega)
    (div_eq_of_mod_ne hrv hl hjl.le haligned ?_)
  rcases hwhy with hne | ⟨-, hin⟩
  · exact hne
  · exact mod_ne_of_table_dvd hrv hl (table_dvd hrv hl hjl) hin

variable (h : PtEntry as.pt s.mem c.addr c.lvl pte) (hleaf : pteTable (s.mem pte) = false)

include h hleaf

theorem stayed_behind (hin : ptGetpteindexByVa as.pt c.addr c.lvl + 1 < ptNentries as.pt c.lvl)
    (haddr : c'.addr = c.addr + ptLvlsize as.pt c.lvl) (hlvl : c'.lvl = c.lvl) :
    Stayed as.pt sec.beg c' s := by
  have hpos := hrv.lvlsize_pos hl
  have hbeg := hsc.beg_le
  refine ⟨?_, ?_, ?_, pte, ?_, hleaf⟩ <;> rw [hlvl, haddr]
  · rw [hrv.index_next hl hin]
    omega
  · omega
  · rw [Nat.add_mod_right, haligned]
  · exact h.of_block hrv hl haligned (by omega) (by omega)

variable (hcounted : Counted as.pt s₀.mem sec.beg n start count (c.addr + ptLvlsize as.pt c.lvl))

include hcounted

theorem not_looksAt {b : Nat} (hle : c.addr ≤ b) (hlt : b < c.addr + ptLvlsize as.pt c.lvl)
    (hstayed : b = c.addr → Stayed as.pt sec.beg c s) : ¬ LooksAt as.pt s₀.mem sec.beg n b := by
  have hbeg := hsc.beg_le
  -- No block of a level above begins inside of the block, and none where the search stayed.
  have hinner : ptLvlsize as.pt c.lvl * ptNentries as.pt c.lvl ∣ b → False := by
    intro hdvd
    have hzero : b % ptLvlsize as.pt c.lvl = 0 :=
      Nat.mod_eq_zero_of_dvd ((Nat.dvd_mul_right _ _).trans hdvd)
    obtain rfl : b = c.addr := by
      by_contra hne
      have := block_le haligned hzero (by omega)
      omega
    have hindex := (hstayed rfl).index
    rw [hrv.index hl, ← Nat.mod_mul_right_div_self, Nat.mod_eq_zero_of_dvd hdvd,
      Nat.zero_div] at hindex
    omega
  rintro (rfl | hspan | ⟨j, hj, hmod, hwhy⟩)
  · have heq := Nat.le_antisymm hle hbeg
    have := (hstayed heq.symm).beg_le
    omega
  · exact hinner ((table_dvd_span hrv hl).trans (Nat.dvd_of_mod_eq_zero hspan))
  rcases Nat.lt_or_ge j c.lvl with hjl | hjl
  · exact hinner ((table_dvd hrv hl hjl).trans (Nat.dvd_of_mod_eq_zero hmod))
  have hdvd := lvlsize_dvd hrv (show j < 3 by omega) hjl
  have haddr : c.addr % ptLvlsize as.pt j = 0 :=
    Nat.mod_eq_zero_of_dvd (hdvd.trans (Nat.dvd_of_mod_eq_zero haligned))
  have hinto : ∀ {a' q}, blockOf as.pt c.addr c.lvl = blockOf as.pt a' c.lvl →
      ¬ PtEntry as.pt s.mem a' (j + 1) q := h.not_below hrv hl hleaf hjl
  rcases hwhy with hnear | ⟨q, hq⟩ | ⟨q, hq⟩ | ⟨r, hr, hrb, hrun⟩
  · rcases Nat.eq_or_lt_of_le hle with rfl | hlt'
    · have := (hstayed rfl).beg_le
      have := Nat.le_of_dvd (hrv.lvlsize_pos hl) hdvd
      omega
    · have := block_le haddr hmod hlt'
      omega
  · rcases Nat.eq_or_lt_of_le hle with rfl | hlt'
    · obtain ⟨q', hq', hleaf'⟩ := (hstayed rfl).entry
      exact hq'.not_below hrv hl hleaf' hjl rfl (hsc.grown hq)
    · exact hinto (blockOf_of_lt hrv hl haligned (by omega) (by omega)) (hsc.grown hq)
  · exact hinto (blockOf_of_lt hrv hl haligned hle hlt) (hsc.grown hq)
  · have hstart := hcounted.start_eq hr (by omega)
    have hend := hcounted.addr_eq
    have hmul := Nat.mul_le_mul_right pageSize hcounted.count_le
    have hbehind : b + ptLvlsize as.pt j ≤ c.addr + ptLvlsize as.pt c.lvl := by
      refine block_le hmod (Nat.mod_eq_zero_of_dvd ?_) hlt
      exact Nat.dvd_add (Nat.dvd_of_mod_eq_zero haddr) hdvd
    omega

theorem seen_behind (hseen : Seen as.pt s₀.mem sec n c.addr) (here : Here as.pt s₀ sec n c s) :
    Seen as.pt s₀.mem sec n (c.addr + ptLvlsize as.pt c.lvl) := by
  intro b hb hlt hstop hlook
  rcases Nat.lt_or_ge b c.addr with hbefore | hge
  · exact hseen b hb hbefore hstop hlook
  have hnot := hsc.not_looksAt hrv hl haligned h hleaf hcounted hge hlt
  rcases here with ⟨-, hroom⟩ | hstayed
  · rcases Nat.eq_or_lt_of_le hge with rfl | hgt
    · exact hroom
    · exact absurd hlook (hnot fun heq => by omega)
  · exact absurd hlook (hnot fun _ => hstayed)

end

/-- A step to the entry behind: the search has looked for the end of the section wherever it would
in the block, and behind the last entry of a table it will. -/
theorem moved (hfit : SecFits as.pt s₀.mem sec) (hend : c.addr < spanEnd as.pt sec.beg)
    (hseen : Seen as.pt s₀.mem sec n c.addr) (here : Here as.pt s₀ sec n c s)
    (h : PtEntry as.pt s.mem c.addr c.lvl pte) (hleaf : pteTable (s.mem pte) = false)
    (haligned : c.addr % ptLvlsize as.pt c.lvl = 0) {c₁ : VpageScan} (haddr : c₁.addr = c.addr)
    (hlvl : c₁.lvl = c.lvl)
    (hcounted : Counted as.pt s₀.mem sec.beg n start c₁.count (c.addr + ptLvlsize as.pt c.lvl))
    (hvpage : 0 < c₁.count → c₁.vpage = start)
    (hall : Scan clr as rel used₀ s₀ 0 n (c₁.behind as.pt) s) :
    Reached clr as rel used₀ s₀ sec n (c₁.behind as.pt) s (c.addr + ptLvlsize as.pt c.lvl) ∧
      (c₁.behind as.pt).lvl ≤ c.lvl ∧
      (ptGetpteindexByVa as.pt c.addr c.lvl + 1 < ptNentries as.pt c.lvl →
        c.addr + ptLvlsize as.pt c.lvl < spanEnd as.pt sec.beg ∧
        Stayed as.pt sec.beg (c₁.behind as.pt) s) ∧
      (¬ ptGetpteindexByVa as.pt c.addr c.lvl + 1 < ptNentries as.pt c.lvl →
        LooksAt as.pt s₀.mem sec.beg n (c.addr + ptLvlsize as.pt c.lvl)) := by
  obtain ⟨used, hs, -⟩ := hsc.scan.state
  have hrv := hs.rv64
  have hl := hs.tree.lvl_lt h
  have hpos := hrv.lvlsize_pos hl
  have hle : c.addr + ptLvlsize as.pt c.lvl ≤ spanEnd as.pt sec.beg :=
    block_le haligned (Nat.mod_eq_zero_of_dvd (lvlsize_dvd_spanEnd hrv hl _)) hend
  have hspan := hfit.spanEnd_le hrv
  have hnext : (c₁.behind as.pt).addr = u64 (c.addr + ptLvlsize as.pt c.lvl) := by
    simp only [VpageScan.behind, haddr, hlvl]
  have hnextlvl : (c₁.behind as.pt).lvl = if ptGetpteindexByVa as.pt c.addr c.lvl + 1 <
      ptNentries as.pt c.lvl then c.lvl else 0 := by
    simp only [VpageScan.behind, haddr, hlvl]
  refine ⟨⟨hle, hnext, ⟨start, hcounted, hvpage⟩,
    hsc.seen_behind hrv hl haligned h hleaf hcounted hseen here, hall, fun hlt => ?_⟩, ?_,
    fun hin => ?_, fun hlast => hsc.looksAt_end hrv hl haligned hlast hcounted⟩
  · have hcut : (c₁.behind as.pt).addr = c.addr + ptLvlsize as.pt c.lvl :=
      hnext.trans (u64_of_lt hlt)
    refine ⟨hall, ?_, ?_, hsc.tables, hsc.grown, fun {a lvl q} hle hlt hmod _ hq => ?_,
      fun j hj hwhy => ?_⟩
    · have hstart : (c₁.behind as.pt).start = start := by
        have haddr := hcounted.addr_eq
        simp only [VpageScan.start, hcut]
        split
        case isTrue hzero =>
          rw [show c₁.count = 0 from hzero] at haddr
          omega
        case isFalse hcount => exact hvpage (Nat.pos_of_ne_zero hcount)
      rw [hstart, hcut]
      exact hcounted
    · rw [hcut]
      exact fun hq _ hleaf => h.begins_behind hrv hl haligned (hs.tree.lvl_lt hq) hq hleaf
    · rw [hcut] at hle
      exact hsc.ahead (by omega) hlt hmod (fun heq => by omega) hq
    · rw [hcut] at hwhy ⊢
      refine hsc.inside_behind hrv hl haligned hj (hwhy.imp_right fun hlt' => ?_)
      rw [hnextlvl] at hlt'
      split at hlt'
      case isTrue hin => exact ⟨hlt', hin⟩
      case isFalse => omega
  · rw [hnextlvl]
    split <;> omega
  · have hne : c.addr + ptLvlsize as.pt c.lvl ≠ spanEnd as.pt sec.beg := by
      intro heq
      refine mod_ne_of_table_dvd hrv hl (table_dvd_span hrv hl) hin ?_
      rw [heq, spanEnd, Nat.add_mod_right]
      exact Nat.mod_eq_zero_of_dvd (Nat.dvd_sub_mod _)
    exact ⟨by omega, hsc.stayed_behind hrv hl haligned h hleaf hin
      (hnext.trans (u64_of_lt (by omega))) (hnextlvl.trans (if_pos hin))⟩

theorem counted_restart (hlt : c.count < n) (h : PtEntry as.pt s.mem c.addr c.lvl pte)
    (taken : PteTaken (s.mem pte)) (leaf : pteTable (s.mem pte) = false)
    (haligned : c.addr % ptLvlsize as.pt c.lvl = 0) :
    Counted as.pt s₀.mem sec.beg n (c.addr + ptLvlsize as.pt c.lvl) 0
      (c.addr + ptLvlsize as.pt c.lvl) := by
  obtain ⟨used, hs, -⟩ := hsc.scan.state
  have hrv := hs.rv64
  have hl := hs.tree.lvl_lt h
  have hbeg := hsc.beg_le
  refine ⟨by omega, by omega, Nat.zero_le n, fun k hk => by omega, fun r hr hfree => ?_⟩
  have hstart := hsc.counted.first r hr hfree
  by_contra hbefore
  -- One of the pages of the run is in the block.
  obtain ⟨k, hk, hentry⟩ : ∃ k < n * pageSize, PtEntry as.pt s.mem (r + k) c.lvl pte := by
    have hcount := hsc.counted.addr_eq
    have hmul := Nat.mul_lt_mul_of_pos_right hlt (show 0 < pageSize by decide)
    rcases Nat.lt_or_ge r c.addr with hr' | hr'
    · exact ⟨c.addr - r, by omega, by rwa [Nat.add_sub_cancel' hr'.le]⟩
    · exact ⟨0, by omega, h.of_block hrv hl haligned hr' (by omega)⟩
  refine taken.not_free hs.tree hrv hentry leaf ?_
  rw [hsc.scan.trans, hsc.scan.reserved]
  exact hfree k hk

theorem free_block (h : PtEntry as.pt s.mem c.addr c.lvl pte) (free : ¬ PteTaken (s.mem pte))
    (invalid : pteValid (s.mem pte) = false) (haligned : c.addr % ptLvlsize as.pt c.lvl = 0) :
    FreePages as.pt s₀.mem (c.count + lvlPages c.lvl) c.start := by
  obtain ⟨used, hs, -⟩ := hsc.scan.state
  have haddr := hsc.counted.addr_eq
  have hrun := hsc.scan.run.snoc hs.rv64 (hs.tree.lvl_lt h) (haddr ▸ h) invalid
    (not_pteTaken.mp free).1 (haddr ▸ haligned)
  intro k hk
  rw [← hsc.scan.trans, ← hsc.scan.reserved]
  exact hrun.free_page hs.rv64 hk

theorem inside_below
    (hwhy : c.addr % ptLvlsize as.pt c.lvl = 0 → Entered as.pt s₀.mem sec.beg n c.lvl c.addr) :
    ∀ j < 2, c.addr % ptLvlsize as.pt j ≠ 0 ∨ j < c.lvl + 1 →
      Entered as.pt s₀.mem sec.beg n j c.addr := by
  intro j hj hor
  by_cases hold : c.addr % ptLvlsize as.pt j ≠ 0 ∨ j < c.lvl
  · exact hsc.inside j hj hold
  rw [not_or, not_not] at hold
  obtain rfl : j = c.lvl := by
    omega
  exact hwhy hold.1

section

variable (hspan : n * pageSize ≤ ptSpan as.pt) (hend : c.addr < spanEnd as.pt sec.beg)
  (hlt : c.count < n) (h : PtEntry as.pt s.mem c.addr c.lvl pte) (free : ¬ PteTaken (s.mem pte))

include hspan hend hlt h free

/-- A table below the entry at which the search is. What was there before stays as it was, and a new
table is clear. The search goes into it for a reason. -/
theorem newTable {base : Nat} (invalid : pteValid (s.mem pte) = false) (hl : c.lvl + 1 < 3)
    (large : pteAllocable as (s.mem pte) c.lvl (n - c.count) c.addr = false)
    (alloc : memAllocPt clr as pte c.lvl c.addr s = .ok (base, s')) :
    SecScan clr as rel used₀ s₀ sec n { c with lvl := c.lvl + 1 } s' := by
  obtain ⟨used, hs, -⟩ := hsc.scan.state
  have hrv := hs.rv64
  obtain herr | ⟨base', s₁, hok, -, -, new⟩ := hs.allocPt h hl invalid
  · rw [herr] at alloc
    cases alloc
  rw [hok] at alloc
  cases alloc
  have hentry : ∀ {va lvl q}, PtEntry as.pt s'.mem va lvl q →
      (q = pte ∨ PtEntry as.pt s.mem va lvl q ∧ s'.mem q = s.mem q) ∨ s'.mem q = 0 := by
    intro va lvl q hq
    rcases PtTree.entry_of_split hs.tree hrv h hl new.split hq with hold | ⟨-, -, rfl⟩
    · by_cases heq : q = pte
      · exact .inl (.inl heq)
      · exact .inl (.inr ⟨hold, new.split.mem_eq hold heq⟩)
    · exact .inr (new.empty _ (PtTree.newPt_page hrv hl new va))
  refine ⟨hsc.scan.entryStep hspan hlt h (.newTable free invalid hl large hok), hsc.counted,
    fun hq taken leaf => ?_, fun hq table => ?_, fun hq => new.entry (hsc.grown hq),
    fun {a lvl q} hle hlt' hmod hnot hq => ?_, hsc.inside_below fun haligned => ?_⟩
  · rcases hentry hq with (rfl | ⟨hold, heq⟩) | heq
    · exact absurd taken (not_pteTaken.mpr ⟨new.plain, fun _ => new.table⟩)
    · exact hsc.begins hold (heq ▸ taken) (heq ▸ leaf)
    · exact absurd (heq ▸ taken) (by simp [PteTaken]; decide)
  · rcases hentry hq with (rfl | ⟨hold, heq⟩) | heq
    · exact new.plain
    · rw [heq] at table ⊢
      exact hsc.tables hold table
    · rw [heq]
      decide
  · rcases PtTree.entry_of_split hs.tree hrv h hl new.split hq with hold | ⟨hlvl, hblock, -⟩
    · exact hsc.ahead hle hlt' hmod (fun heq => by have := hnot heq; simp only at this; omega) hold
    · -- The new table is at the address of the search, where it is not ahead any more.
      obtain rfl : lvl = c.lvl := by omega
      have hbeg := hsc.beg_le
      have hdiv := div_eq_of_blockOf hrv (by omega) (hbeg.trans hle) hbeg hlt' hend hblock
      have hmul := Nat.div_mul_cancel (Nat.dvd_of_mod_eq_zero hmod)
      have hle' := Nat.div_mul_le_self c.addr (ptLvlsize as.pt c.lvl)
      have := hnot (Nat.le_antisymm (by rw [← hmul, hdiv]; exact hle') hle)
      simp only at this
      omega
  · -- The block is too large for the pages to go, so the first run of free pages ends in it.
    have hsize := hrv.lvlsize_eq (show c.lvl < 3 by omega)
    have hlarge : (n - c.count) * pageSize < ptLvlsize as.pt c.lvl := by
      by_contra hfits
      rw [pteAllocable, hrv.lvlTerminal (by omega), invalid, hrv.lvls] at large
      simp [haligned] at large
      omega
    rw [Nat.sub_mul] at hlarge
    have haddr := hsc.counted.addr_eq
    have hfree := hsc.free_block h free invalid haligned
    refine .inr (.inr ⟨c.start, ⟨hsc.counted.beg_le, fun k hk => hfree k ?_, hsc.counted.first⟩,
      ?_⟩)
    · rw [Nat.add_mul, ← hsize]
      omega
    · rw [Nat.div_mul_cancel (Nat.dvd_of_mod_eq_zero haligned)]
      omega

theorem table (table : pteTable (s.mem pte) = true) :
    SecScan clr as rel used₀ s₀ sec n { c with lvl := c.lvl + 1 } s := by
  refine ⟨hsc.scan.entryStep hspan hlt h (.table free table), hsc.counted, hsc.begins, hsc.tables,
    hsc.grown, fun {a lvl q} hle hlt' hmod hnot hq => ?_, hsc.inside_below fun haligned =>
      .inl (hsc.ahead le_rfl hend haligned (fun _ => le_rfl) (h.next table))⟩
  exact hsc.ahead hle hlt' hmod (fun heq => by have := hnot heq; simp only at this; omega) hq

end

/-- A step of the search goes into a table, where it looks for the end of the section, or behind the
entry. -/
theorem entryStep (hfit : SecFits as.pt s₀.mem sec) (hspan : n * pageSize ≤ ptSpan as.pt)
    (hend : c.addr < spanEnd as.pt sec.beg) (hseen : Seen as.pt s₀.mem sec n c.addr)
    (here : Here as.pt s₀ sec n c s) (hlt : c.count < n) (h : PtEntry as.pt s.mem c.addr c.lvl pte)
    (hstep : EntryStep clr as 0 n pte c s c' s') :
    (Reached clr as rel used₀ s₀ sec n c' s' c.addr ∧ c'.lvl = c.lvl + 1 ∧ c.lvl < 2 ∧
      LooksAt as.pt s₀.mem sec.beg n c.addr) ∨
    (Reached clr as rel used₀ s₀ sec n c' s' (c.addr + ptLvlsize as.pt c.lvl) ∧ c'.lvl ≤ c.lvl ∧
      (ptGetpteindexByVa as.pt c.addr c.lvl + 1 < ptNentries as.pt c.lvl →
        c.addr + ptLvlsize as.pt c.lvl < spanEnd as.pt sec.beg ∧ Stayed as.pt sec.beg c' s') ∧
      (¬ ptGetpteindexByVa as.pt c.addr c.lvl + 1 < ptNentries as.pt c.lvl →
        LooksAt as.pt s₀.mem sec.beg n (c.addr + ptLvlsize as.pt c.lvl))) := by
  obtain ⟨used, hs, -⟩ := hsc.scan.state
  have hrv := hs.rv64
  have hl := hs.tree.lvl_lt h
  have hall := hsc.scan.entryStep hspan hlt h hstep
  have hbound : c.addr < 2 ^ 64 := by
    have := hfit.spanEnd_le hrv
    omega
  -- Into a table: where the search came from the entry before, the table is a reason to look.
  have hdown : ∀ {t : MemState}, c.lvl < 2 →
      SecScan clr as rel used₀ s₀ sec n { c with lvl := c.lvl + 1 } t →
      Reached clr as rel used₀ s₀ sec n { c with lvl := c.lvl + 1 } t c.addr ∧
        LooksAt as.pt s₀.mem sec.beg n c.addr := by
    intro t hlvl hsc'
    refine ⟨⟨hend.le, (u64_of_lt hbound).symm, ⟨c.start, hsc.counted, fun hpos => ?_⟩, hseen,
      hsc'.scan, fun _ => hsc'⟩, here.elim And.left fun stayed => ?_⟩
    · exact (if_neg hpos.ne').symm
    · refine .inr (.inr ⟨c.lvl, hlvl, stayed.aligned, ?_⟩)
      have hmul := Nat.div_mul_cancel (Nat.dvd_of_mod_eq_zero stayed.aligned)
      obtain hq | hlow | hrun := hsc'.inside c.lvl hlvl (.inr (Nat.lt_succ_self _))
      · exact .inr (.inr (.inl hq))
      · rw [hmul] at hlow
        omega
      · rw [hmul] at hrun
        exact .inr (.inr (.inr hrun))
  cases hstep with
  | restart hat taken leaf =>
    have haligned := hsc.begins h taken leaf
    exact .inr (hsc.moved hfit hend hseen here h leaf haligned rfl rfl
      (hsc.counted_restart hlt h taken leaf haligned) (fun hpos => absurd hpos (Nat.lt_irrefl 0))
      hall)
  | restartTable hat taken table =>
    -- No table entry is marked.
    rcases taken with hrsv | ⟨-, hleaf⟩
    · rw [hsc.tables h table] at hrsv
      cases hrsv
    · rw [hleaf] at table
      cases table
  | count free invalid allocable =>
    obtain ⟨hfits, haligned⟩ :=
      pteAllocable_fits hrv hl (by omega) (hsc.scan.addr_page hrv) allocable
    have haddr := hsc.counted.addr_eq
    refine .inr (hsc.moved hfit hend hseen here h (pteTable_of_invalid invalid) haligned rfl rfl
      ⟨hsc.counted.beg_le, ?_, ?_, hsc.free_block h free invalid haligned, hsc.counted.first⟩
      (fun _ => rfl) hall)
    · rw [hrv.lvlsize_eq hl, haddr, Nat.add_mul, Nat.add_assoc]
    · simp only
      omega
  | newTable free invalid lvl_lt large alloc =>
    have hsc' := hsc.newTable hspan hend hlt h free invalid lvl_lt large alloc
    obtain ⟨hr, hlook⟩ := hdown (by omega) hsc'
    exact .inl ⟨hr, rfl, by omega, hlook⟩
  | table free table =>
    have hl1 := hs.tree.lvl_lt (h.next table)
    have hsc' := hsc.table hspan hend hlt h free table
    obtain ⟨hr, hlook⟩ := hdown (by omega) hsc'
    exact .inl ⟨hr, rfl, by omega, hlook⟩

end

/-- The inner loop of `mem_alloc_vpage`, from a place where the search looked for the end of the
section to the next one. -/
theorem tableRun {x z : VpageScan × MemState} (hfit : SecFits as.pt s₀.mem sec)
    (hspan : n * pageSize ≤ ptSpan as.pt) (hsc : SecScan clr as rel used₀ s₀ sec n x.1 x.2)
    (hend : x.1.addr < spanEnd as.pt sec.beg) (hseen : Seen as.pt s₀.mem sec n x.1.addr)
    (hlook : LooksAt as.pt s₀.mem sec.beg n x.1.addr)
    (hroom : x.1.addr + n * pageSize ≤ sec.stop + 1) (run : TableRun clr as 0 n x z) :
    ∃ addr, Reached clr as rel used₀ s₀ sec n z.1 z.2 addr ∧
      (z.1.count < n → LooksAt as.pt s₀.mem sec.beg n addr) ∧
      (addr ≤ sec.stop + 1 → stepsLeft sec addr z.1.lvl < stepsLeft sec x.1.addr x.1.lvl) := by
  obtain ⟨used, hs, -⟩ := hsc.scan.state
  have hrv := hs.rv64
  obtain ⟨y, steps, ⟨hcount, pte, h, hlast⟩, hlvl⟩ := run
  have hy : SecScan clr as rel used₀ s₀ sec n y.1 y.2 ∧ y.1.addr < spanEnd as.pt sec.beg ∧
      Seen as.pt s₀.mem sec n y.1.addr ∧ Here as.pt s₀ sec n y.1 y.2 ∧ x.1.addr ≤ y.1.addr ∧
      y.1.lvl = x.1.lvl := by
    clear hlast h hcount hlvl
    induction steps with
    | refl => exact ⟨hsc, hend, hseen, .inl ⟨hlook, hroom⟩, le_rfl, rfl⟩
    | tail _ hstay ih =>
      obtain ⟨hsc', hend', hseen', here, hle, hlvl⟩ := ih
      obtain ⟨⟨hcount, pte, h, hstep⟩, hsame, hindex⟩ := hstay
      obtain ⟨-, hdown, -⟩ | ⟨hr, -, hin, -⟩ :=
        hsc'.entryStep hfit hspan hend' hseen' here hcount h hstep
      · omega
      obtain ⟨hlt, stayed⟩ := hin hindex
      have hbound := hfit.spanEnd_le hrv
      have haddr := hr.addr_eq.trans (u64_of_lt (by omega))
      refine ⟨hr.scan (by omega), by omega, ?_, .inr stayed, by omega, by omega⟩
      rw [haddr]
      exact hr.seen
  obtain ⟨hsc', hend', hseen', here, hle, hlvl'⟩ := hy
  have hpage := hsc.scan.addr_page hrv
  have hpage' := hsc'.scan.addr_page hrv
  simp only [pageSize] at hpage hpage'
  obtain ⟨hr, hdown, hl, hlook'⟩ | ⟨hr, hup, -, hlook'⟩ :=
    hsc'.entryStep hfit hspan hend' hseen' here hcount h hlast
  · refine ⟨y.1.addr, hr, fun _ => hlook', fun hstop => ?_⟩
    simp only [stepsLeft, pageSize]
    omega
  · have hl : y.1.lvl < 3 := by
      obtain ⟨used', hs', -⟩ := hsc'.scan.state
      exact hs'.tree.lvl_lt h
    have hsize := hrv.lvlsize_eq hl
    have hmul := Nat.le_mul_of_pos_left pageSize (lvlPages_pos y.1.lvl)
    refine ⟨y.1.addr + ptLvlsize as.pt y.1.lvl, hr, fun hlt => hlook' ?_, fun hstop => ?_⟩
    · exact ((hlvl hlt).resolve_left (by omega)).2 hfit.root
    · simp only [stepsLeft, pageSize] at *
      omega

end SecScan

/-- The search goes on outside of the section. -/
def LeavesSection (clr : Colors) (as : AddrSpace) (sec : Section) (n : Nat) (c : VpageScan)
    (s : MemState) : Prop :=
  ∃ k c' s', (∀ rounds, vpageSearch clr as sec 0 n (k + rounds) c s =
    vpageSearch clr as sec 0 n rounds c' s') ∧ c'.count < n ∧ c'.failed = false ∧
      (c'.addr < sec.beg ∨ sec.stop + 1 < c'.addr)

/-- How the search ends: without a page for a table, without pages, with pages, or it leaves the
section. Whether that is right is known from the beginning. -/
inductive SearchEnd (clr : Colors) (as : AddrSpace) (rel : Bool) (used₀ : Set Nat) (s₀ : MemState)
    (sec : Section) (n rounds : Nat) (c : VpageScan) (s : MemState) : Prop
  | noTable (error : vpageSearch clr as sec 0 n rounds c s = .error .noTable)
  | none {c' : VpageScan} {s' : MemState}
      (run : vpageSearch clr as sec 0 n rounds c s = .ok (c', s')) (null : c'.vpage = 0)
      (right : SecOk as.pt s₀.mem sec n ↔ ∀ r, ¬ SecRun as.pt s₀.mem sec n r)
  | found {c' : VpageScan} {s' : MemState}
      (run : vpageSearch clr as sec 0 n rounds c s = .ok (c', s')) (failed : c'.failed = false)
      (scan : Scan clr as rel used₀ s₀ 0 n c' s') (count : c'.count = n)
      (span : n * pageSize ≤ ptSpan as.pt) (beg_le : sec.beg ≤ c'.vpage)
      (right : SecOk as.pt s₀.mem sec n ↔ c'.vpage + n * pageSize ≤ sec.stop + 1)
  | left (leaves : LeavesSection clr as sec n c s) (wrong : ¬ SecOk as.pt s₀.mem sec n)

section Search

variable {rounds : Nat}

theorem SearchEnd.of_round
    (hround : ∀ k, vpageSearch clr as sec 0 n (k + 1) c s = vpageSearch clr as sec 0 n k c' s')
    (h : SearchEnd clr as rel used₀ s₀ sec n rounds c' s') :
    SearchEnd clr as rel used₀ s₀ sec n (rounds + 1) c s := by
  cases h with
  | noTable error => exact .noTable ((hround rounds).trans error)
  | none run null right => exact .none ((hround rounds).trans run) null right
  | found run failed scan count span beg_le right =>
    exact .found ((hround rounds).trans run) failed scan count span beg_le right
  | left leaves wrong =>
    obtain ⟨k, c'', s'', hrest, hleft⟩ := leaves
    refine .left ⟨k + 1, c'', s'', fun r => ?_, hleft⟩ wrong
    rw [Nat.add_right_comm, hround, hrest]

theorem vpageSearch_succ {used : Set Nat} {q : Nat} (hs : AsState clr as rel used s)
    (h : PtEntry as.pt s.mem c.addr c.lvl q) (hfail : c.failed = false) (hlt : c.count < n)
    (hle : c.addr ≤ sec.stop + 1) (hstop : sec.stop + 1 < 2 ^ 64) (k : Nat) :
    (sec.stop + 1 < c.addr + n * pageSize → vpageSearch clr as sec 0 n (k + 1) c s =
      .ok ({ c with vpage := 0, failed := true }, s)) ∧
    (c.addr + n * pageSize ≤ sec.stop + 1 →
      (∀ e, vpageTable clr as 0 n (ptNentries as.pt c.lvl - ptGetpteindex as.pt q c.lvl) q c s =
          .error e → vpageSearch clr as sec 0 n (k + 1) c s = .error e) ∧
      ∀ c' s', vpageTable clr as 0 n (ptNentries as.pt c.lvl - ptGetpteindex as.pt q c.lvl) q c s =
        .ok (c', s') →
          vpageSearch clr as sec 0 n (k + 1) c s = vpageSearch clr as sec 0 n k c' s') := by
  have hl := hs.tree.lvl_lt h
  have hroom : u64 (u64 (sec.stop + 1) + (2 ^ 64 - c.addr)) = sec.stop + 1 - c.addr := by
    simp only [u64]
    omega
  have hdiv : (sec.stop + 1 - c.addr) / pageSize < n ↔ sec.stop + 1 < c.addr + n * pageSize := by
    rw [Nat.div_lt_iff_lt_mul (by decide)]
    omega
  have hgo : c.count < n ∧ (!c.failed) = true := ⟨hlt, by simp [hfail]⟩
  simp only [vpageSearch, if_pos hgo, hroom, hdiv, hs.rv64.lvls,
    if_neg (show ¬ 3 ≤ c.lvl by omega), h.getPte]
  refine ⟨fun hfull => if_pos hfull, fun hfits => ?_⟩
  rw [if_neg (by omega)]
  exact ⟨fun e he => by rw [he], fun c' s' he => by rw [he]⟩

/-- The outer loop of `mem_alloc_vpage`, from a place where it looks for the end of the section. -/
theorem SecScan.search (hfit : SecFits as.pt s₀.mem sec)
    (hsc : SecScan clr as rel used₀ s₀ sec n c s) (hfail : c.failed = false) (hlt : c.count < n)
    (hentry : ∃ q, PtEntry as.pt s.mem c.addr c.lvl q) (hle : c.addr ≤ sec.stop + 1)
    (hseen : Seen as.pt s₀.mem sec n c.addr) (hlook : LooksAt as.pt s₀.mem sec.beg n c.addr)
    (hrounds : stepsLeft sec c.addr c.lvl < rounds) :
    SearchEnd clr as rel used₀ s₀ sec n rounds c s := by
  induction rounds generalizing c s with
  | zero => omega
  | succ rounds ih =>
    obtain ⟨q, h⟩ := hentry
    obtain ⟨used, hs, -⟩ := hsc.scan.state
    have hstop := hfit.stop_lt
    have hbeg := hsc.beg_le
    obtain hfull | hroom := Nat.lt_or_ge (sec.stop + 1) (c.addr + n * pageSize)
    · exact .none ((vpageSearch_succ hs h hfail hlt hle hstop rounds).1 hfull) rfl
        (hsc.counted.secOk_iff_none hlt hle hfull hlook)
    have hstep := fun k => (vpageSearch_succ hs h hfail hlt hle hstop k).2 hroom
    have hwindow := hfit.window
    have hspan : n * pageSize ≤ ptSpan as.pt := by omega
    have hend : c.addr < spanEnd as.pt sec.beg := by
      have := Nat.mod_le sec.beg (ptSpan as.pt)
      have := Nat.mul_lt_mul_of_pos_right hlt (show 0 < pageSize by decide)
      simp only [spanEnd]
      omega
    obtain herr | ⟨hat, -⟩ | ⟨c', s', hround, run, hgo, hentry⟩ :=
      hsc.scan.vpageRound hspan (.inl hfit.root) hfail hlt h rfl
    · exact .noTable ((hstep rounds).1 _ herr)
    · exact absurd rfl hat
    obtain ⟨addr, hr, hlook', hless⟩ :=
      tableRun (x := (c, s)) hfit hspan hsc hend hseen hlook hroom run
    obtain ⟨start, hcounted, hvpage⟩ := hr.counted
    have hnext := fun k => (hstep k).2 _ _ hround
    have hbound := hr.le.trans (hfit.spanEnd_le hs.rv64)
    have hcut := hr.addr_eq
    have haddr := hcounted.addr_eq
    by_cases hlt' : c'.count < n
    · by_cases hin : addr ≤ sec.stop + 1
      · have hsame := hcut.trans (u64_of_lt (by omega))
        dsimp only at hsame
        rw [← hsame] at hin hless hlook'
        refine .of_round hnext (ih (hr.scan (by omega)) hgo hlt' (hentry hlt') hin ?_ (hlook' hlt')
          (by have := hless hin; simp only at this; omega))
        rw [hsame]
        exact hr.seen
      · refine .left ⟨1, c', s', fun k => by rw [Nat.add_comm, hnext], hlt', hgo, ?_⟩
          (hcounted.not_secOk hr.seen hstop (by omega))
        -- The search has passed the end, and may have come to the address 0 again.
        have hpos := hfit.beg_pos
        simp only [u64] at hcut
        omega
    · have hcount : c'.count = n := Nat.le_antisymm hr.all.count_le (by omega)
      obtain ⟨r, rfl⟩ : ∃ r, rounds = r + 1 := by
        refine Nat.exists_eq_succ_of_ne_zero fun hzero => ?_
        simp only [stepsLeft, pageSize] at hrounds hroom
        omega
      have hstart : c'.vpage = start := hvpage (by dsimp only; omega)
      dsimp only at hcounted
      rw [hcount] at hcounted haddr
      refine .found ((hnext (r + 1)).trans (by rw [vpageSearch, if_neg fun h => hlt' h.1]))
        hgo hr.all hcount hspan (hstart ▸ hcounted.beg_le) ?_
      rw [hstart, ← haddr]
      refine ⟨fun hok => ?_, hcounted.secOk_found hr.seen hstop⟩
      by_contra hout
      exact hcounted.not_secOk hr.seen hstop (by omega) hok

end Search

/-! ## What is returned -/

/-- What is expected of `mem_alloc_vpage` for a section: the pages are in the section, and null
means that the section has no run of `n` pages that are neither mapped nor reserved. -/
structure SecResult (pt : PageTable) (mem : PhysMem) (sec : Section) (n v : Nat) : Prop where
  pages : v ≠ 0 → sec.beg ≤ v ∧ v + n * pageSize - 1 ≤ sec.stop
  null : v = 0 → ∀ r, ¬ SecRun pt mem sec n r

theorem SecScan.start {rel : Bool} {used : Set Nat} (hs : AsState clr as rel used s)
    (hfit : SecFits as.pt s.mem sec) : SecScan clr as rel used s sec n { addr := sec.beg } s := by
  refine ⟨⟨hs.reach, fun _ => rfl, fun _ => rfl, Nat.zero_le n, .nil _, hfit.beg_page, ?_,
    fun hat => absurd rfl hat⟩, ⟨le_rfl, ?_, Nat.zero_le n, fun k hk => ?_, fun r hr _ => hr⟩,
    hfit.begins, hfit.tables, id, fun _ _ _ _ hq => ⟨_, hq⟩, fun j hj hwhy => .inr (.inl ?_)⟩
  · simp [VpageScan.start]
  · simp [VpageScan.start]
  · simp only [Nat.zero_mul] at hk
    omega
  · have hne := hwhy.resolve_right (Nat.not_lt_zero j)
    have hsplit := Nat.div_add_mod' sec.beg (ptLvlsize as.pt j)
    simp only at hne ⊢
    omega

/-- The section of a guest goes up to the last address, so that the search gives up at once. -/
theorem memAllocVpage_guest {section_ rounds : Nat} (hsec : as.secs[section_]? = some sec)
    (hvm : sec ∈ vmSecs) (hn : 1 ≤ n) (hrounds : 0 < rounds) :
    memAllocVpage clr as section_ 0 n rounds s = .ok (0, s) := by
  obtain rfl := List.mem_singleton.mp hvm
  obtain ⟨k, rfl⟩ := Nat.exists_eq_succ_of_ne_zero hrounds.ne'
  simp only [memAllocVpage, hsec, ne_eq, not_true_eq_false, false_and, if_false]
  rw [Nat.succ_eq_add_one, vpageSearch, if_pos ⟨hn, rfl⟩, if_pos (by simp [u64, pageOf]; omega)]
  simp

theorem secOk_guest (hvm : sec ∈ vmSecs) : SecOk pt mem sec n ↔ SecResult pt mem sec n 0 := by
  obtain rfl := List.mem_singleton.mp hvm
  constructor
  · refine fun hok => ⟨fun h => absurd rfl h, fun _ r hr => ?_⟩
    obtain ⟨r', hfirst, hle⟩ := Counted.exists_first hr
    have hstop := hr.le_stop
    exact absurd (hok.run r' hfirst (by omega)).1 (by decide)
  · exact fun h => ⟨fun r hr hle => absurd ⟨hr.beg_le, hle, hr.free⟩ (h.null rfl r),
      fun _ => .inl (by decide)⟩

/-- `mem_alloc_vpage` without a hint, for a section of the hypervisor or the one of a guest, with
pages for the tables that it needs. Where the search finds the end of the section in time and not
too early, it returns, with the result that is expected. Otherwise the result is wrong, or the
search goes on outside of the section. -/
theorem memAllocVpage_section {clr : Colors} {as : AddrSpace} {rel : Bool} {used : Set Nat}
    {s : MemState} {sec : Section} {section_ n rounds : Nat} (hs : AsState clr as rel used s)
    (hsec : as.secs[section_]? = some sec) (hfit : SecFits as.pt s.mem sec ∨ sec ∈ vmSecs)
    (hn : 1 ≤ n) (hrounds : 3 * ((sec.stop + 1 - sec.beg) / pageSize) + 2 < rounds)
    (hroom : memAllocVpage clr as section_ 0 n rounds s ≠ .error .noTable) :
    (SecOk as.pt s.mem sec n → ∃ v s', memAllocVpage clr as section_ 0 n rounds s = .ok (v, s') ∧
      SecResult as.pt s.mem sec n v) ∧
    (¬ SecOk as.pt s.mem sec n →
      (∃ v s', memAllocVpage clr as section_ 0 n rounds s = .ok (v, s') ∧
        ¬ SecResult as.pt s.mem sec n v) ∨
      LeavesSection clr as sec n { addr := sec.beg } s) := by
  suffices h : (∃ v s', memAllocVpage clr as section_ 0 n rounds s = .ok (v, s') ∧
      (SecOk as.pt s.mem sec n ↔ SecResult as.pt s.mem sec n v)) ∨
      LeavesSection clr as sec n { addr := sec.beg } s ∧ ¬ SecOk as.pt s.mem sec n by
    obtain ⟨v, s', hok, hiff⟩ | ⟨hleft, hwrong⟩ := h
    · exact ⟨fun h => ⟨v, s', hok, hiff.mp h⟩, fun h => .inl ⟨v, s', hok, mt hiff.mpr h⟩⟩
    · exact ⟨fun h => absurd h hwrong, fun _ => .inr hleft⟩
  obtain hfit | hvm := hfit
  swap
  · exact .inl ⟨0, s, memAllocVpage_guest hsec hvm hn (by omega), secOk_guest hvm⟩
  have hpage : pageOf sec.beg = sec.beg := by
    have := hfit.beg_page
    simp only [pageOf, pageSize] at *
    omega
  have hpos := hfit.beg_pos
  have hle := hfit.le
  simp only [memAllocVpage, hsec, ne_eq, not_true_eq_false, false_and, if_false, hpage]
    at hroom ⊢
  cases (SecScan.start hs hfit).search hfit rfl (show 0 < n from hn) ⟨_, .root⟩
    (show sec.beg ≤ _ by omega) (fun b hb hlt => absurd hlt (Nat.not_lt.mpr hb)) (.inl rfl)
    (show stepsLeft sec sec.beg 0 < rounds from hrounds) with
  | noTable error =>
    rw [error] at hroom
    exact absurd rfl hroom
  | none run null right =>
    rw [run]
    simp only [null, not_true_eq_false, false_and, if_false]
    exact .inl ⟨0, _, rfl, right.trans ⟨fun h => ⟨fun h0 => absurd rfl h0, fun _ => h⟩,
      fun h => h.null rfl⟩⟩
  | @found c s₁ run failed scan count span beg_le right =>
    obtain ⟨used₁, hs₁, -⟩ := scan.state
    have hrun := scan.run
    rw [show c.start = c.vpage from if_neg (by omega), count] at hrun
    obtain ⟨s₂, hreserve, -⟩ := hs₁.vpageReserve hrun span (Nat.zero_add n) le_rfl
    simp only [run, hreserve, failed]
    rw [if_pos ⟨by omega, rfl⟩]
    refine .inl ⟨c.vpage, s₂, rfl, right.trans ⟨fun h => ⟨fun _ => ⟨beg_le, by omega⟩,
      fun h0 => by omega⟩, fun h => ?_⟩⟩
    have := (h.pages (by omega)).2
    simp only [pageSize] at *
    omega
  | left leaves wrong => exact .inr ⟨leaves, wrong⟩

/-- A cpu whose global section has 8 MiB, behind an image of one page. -/
def tightCpu : AddrSpace := emptyCpu (baoVasBase + 0x1000) (baoCpuBase - 0x800000)

/-- 600 pages of a section without pages in use: the run ends in a second table. -/
theorem memAllocVpage_section_two_tables :
    ∃ v s', memAllocVpage {} tightCpu 0 0 600 6147 clearState = .ok (v, s') ∧
      SecResult tightCpu.pt clearState.mem ⟨baoCpuBase - 0x800000, baoCpuBase - 1⟩ 600 v := by
  have hrv : tightCpu.pt.Rv64 := .inl rfl
  have hroom : memAllocVpage {} tightCpu 0 0 600 6147 clearState ≠ .error .noTable :=
    ne_error_of_isOk (by decide +kernel)
  have hzero : ∀ a, ¬ PteTaken (clearState.mem a) := fun _ => by
    change ¬ PteTaken 0
    simp [PteTaken]
    decide
  have hfit : SecFits tightCpu.pt clearState.mem ⟨baoCpuBase - 0x800000, baoCpuBase - 1⟩ :=
    ⟨by decide, by decide, by decide, by decide, by decide, by decide,
      fun _ taken => absurd taken (hzero _),
      fun _ table => absurd table (show ¬ pteTable 0 = true by decide)⟩
  have hfree : FreePages tightCpu.pt clearState.mem 600 (baoCpuBase - 0x800000) := by
    intro k _
    have hleaf : pteTable 0 = false := by decide
    exact ⟨(PtEntry.root.translate hrv (by decide) hleaf).trans
      (if_neg fun h => absurd h.2 (show ¬ pteValid 0 = true by decide)),
      (PtEntry.root.reserved hrv (by decide) hleaf).trans (show pteCheckRsw 0 _ = false by decide)⟩
  refine (memAllocVpage_section (clearState_asState hrv rfl (by decide) rfl) rfl (.inl hfit)
    (by decide) (by decide) hroom).1
    ⟨fun r hr hle => ⟨by decide, fun b hrb hb _ => ?_⟩, fun h => ?_⟩
  · have := hr.first _ le_rfl hfree
    simp only [baoCpuBase, pageSize] at *
    omega
  · exact absurd ⟨le_rfl, by decide, hfree⟩ (h (baoCpuBase - 0x800000))

/-- The section of the image has one page. The second page that is asked for is the one behind it:
the search goes on in the table without a look at the end of the section. -/
theorem memAllocVpage_leaves_section :
    tightCpu.secs[1]? = some ⟨baoVasBase, baoVasBase + 0xfff⟩ ∧
      ((memAllocVpage {} tightCpu 1 0 1 8 clearState).toOption.bind fun r =>
        (memAllocVpage {} tightCpu 1 0 1 8 r.2).toOption.map fun r' => (r.1, r'.1)) =
          some (baoVasBase, baoVasBase + 0x1000) := by
  decide +kernel

end Bao
