import Bao.Foundation.Loop
import Bao.Core.PagePoolClr

/-!
# The walk to the next page of a colour

`pp_next_clr` on its own, as a loop that need not end and with the product `COLOR_NUM * COLOR_SIZE`
in 64 bits. Its callers test the mask with `all_clrs`, which knows no mask that has only bits above
the colours there are; the walk then goes on for ever. With a bit of a colour in the mask it ends at
the next page of one, as long as the product fits in 64 bits. The theorem also says what happens
when it does not.
-/

namespace Bao

open Foundation

/-- `clr_offset`. Where the product is 0 in 64 bits, the remainder of both architectures is the
dividend, as it is here. -/
def nextClrOffset (clr : Colors) (base : Nat) : Nat :=
  base / pageSize % u64 (clr.num * clr.size)

/-- The test of `pp_next_clr`. -/
def NextClrTest (clr : Colors) (base colors index : Nat) : Prop :=
  colors.testBit (u64 (index + nextClrOffset clr base) / clr.size % clr.num) = true

instance (clr : Colors) (base colors index : Nat) : Decidable (NextClrTest clr base colors index) :=
  inferInstanceAs (Decidable (_ = true))

def nextClrRound (clr : Colors) (base colors index : Nat) : Round Nat Nat :=
  if NextClrTest clr base colors index then .exit index else .again (u64 (index + 1))

/-- `pp_next_clr` returns `r`. -/
def PpNextClr (clr : Colors) (base start colors r : Nat) : Prop :=
  Ends (nextClrRound clr base colors) (intIndex start) r

/-- `r` is the first number from `start` on with the property `P`. -/
def IsFirst (P : Nat → Prop) (start r : Nat) : Prop :=
  start ≤ r ∧ P r ∧ ∀ j, start ≤ j → P j → r ≤ j

/-- The product fits in 64 bits, or the offset is right all the same, or it does not matter because
the walk ends where it starts. -/
def OffsetFits (clr : Colors) (base colors : Nat) : Prop :=
  clr.num * clr.size < 2 ^ 64 ∨ u64 (clr.num * clr.size) = 0 ∨
    base / pageSize < u64 (clr.num * clr.size) ∨ colors.testBit 0 = true

variable {clr : Colors} {base start colors r : Nat}

/-! ## The loop -/

theorem ends_nextClrRound (hr : IsFirst (NextClrTest clr base colors) start r) (hlt : r < 2 ^ 64) :
    Ends (nextClrRound clr base colors) start r := by
  suffices h : ∃ r', Ends (nextClrRound clr base colors) start r' ∧ r' = r by
    obtain ⟨r', h, rfl⟩ := h
    exact h
  refine exists_ends (I := fun i => start ≤ i ∧ i ≤ r) (fun i => r - i) ?_ ⟨le_rfl, hr.1⟩
  rintro i ⟨hi, hir⟩
  by_cases htest : NextClrTest clr base colors i
  · exact .inl ⟨i, if_pos htest, le_antisymm hir (hr.2.2 i hi htest)⟩
  · have hne : i ≠ r := by
      rintro rfl
      exact htest hr.2.1
    rw [nextClrRound, if_neg htest, u64_of_lt (by omega)]
    exact .inr ⟨i + 1, rfl, ⟨by omega, by omega⟩, by omega⟩

theorem ppNextClr_of_isFirst (hstart : start < 2 ^ 31)
    (hr : IsFirst (NextClrTest clr base colors) start r) (hlt : r < 2 ^ 64) :
    PpNextClr clr base start colors r := by
  rw [PpNextClr, intIndex_of_lt hstart]
  exact ends_nextClrRound hr hlt

variable {P : Nat → Prop} {j o c : Nat}

theorem exists_isFirst (hj : start ≤ j) (hP : P j) : ∃ r, r ≤ j ∧ IsFirst P start r := by
  classical
  have hex : ∃ k, start ≤ k ∧ P k := ⟨j, hj, hP⟩
  obtain ⟨hstart, hfind⟩ := Nat.find_spec hex
  exact ⟨Nat.find hex, Nat.find_min' hex ⟨hj, hP⟩, hstart, hfind,
    fun k hk hPk => Nat.find_min' hex ⟨hk, hPk⟩⟩

theorem IsFirst.congr_le {Q : Nat → Prop} (h : IsFirst P start r) (hPQ : ∀ j ≤ r, P j ↔ Q j) :
    IsFirst Q start r := by
  obtain ⟨hle, hr, hmin⟩ := h
  refine ⟨hle, (hPQ r le_rfl).1 hr, fun j hj hQ => ?_⟩
  by_contra hjr
  exact hjr (hmin j hj ((hPQ j (by omega)).2 hQ))

theorem isFirst_self (h : P start) : IsFirst P start start :=
  ⟨le_rfl, h, fun _ hj _ => hj⟩

theorem PpNextClr.test (hstart : start < 2 ^ 31) (h : PpNextClr clr base start colors r) :
    r < 2 ^ 64 ∧ NextClrTest clr base colors r := by
  rw [PpNextClr, intIndex_of_lt hstart] at h
  refine Ends.invariant (I := (· < 2 ^ 64))
    (Q := fun r => r < 2 ^ 64 ∧ NextClrTest clr base colors r) ?_ ?_ h (by omega)
  · intro i t _ ht
    rw [nextClrRound] at ht
    split at ht <;> cases ht
    exact u64_lt _
  · intro i r hi hr
    rw [nextClrRound] at hr
    split at hr <;> cases hr
    exact ⟨hi, ‹_›⟩

theorem PpNextClr.isFirst (hstart : start < 2 ^ 31) (h : PpNextClr clr base start colors r)
    (hle : start ≤ r) : IsFirst (NextClrTest clr base colors) start r := by
  obtain ⟨hlt, htest⟩ := h.test hstart
  obtain ⟨r', hr', hfirst⟩ := exists_isFirst hle htest
  have hends := ppNextClr_of_isFirst hstart hfirst (hr'.trans_lt hlt)
  exact Ends.unique h hends ▸ hfirst

/-! ## Colours behind an offset -/

/-- The index `j` has a colour of the mask when the pool begins at page `o`. -/
def ColouredAt (clr : Colors) (colors o j : Nat) : Prop :=
  colors.testBit ((j + o) / clr.size % clr.num) = true

theorem hasClr_iff (clr : Colors) (base colors j : Nat) :
    HasClr clr base colors j ↔ ColouredAt clr colors (base / pageSize) j := by
  rw [HasClr, ColouredAt, Colors.ofPage, Nat.add_comm]

theorem nextClrTest_iff (clr : Colors) (colors : Nat) (h : j + nextClrOffset clr base < 2 ^ 64) :
    NextClrTest clr base colors j ↔ ColouredAt clr colors (nextClrOffset clr base) j := by
  rw [NextClrTest, ColouredAt, u64_of_lt h]

theorem colouredAt_of_lt (h : j + o < clr.size) :
    ColouredAt clr colors o j ↔ colors.testBit 0 = true := by
  rw [ColouredAt, Nat.div_eq_of_lt h, Nat.zero_mod]

theorem colouredAt_mul (hsize : 0 < clr.size) (hc : c < clr.num) (ho : o ≤ c * clr.size) :
    ColouredAt clr colors o (c * clr.size - o) ↔ colors.testBit c = true := by
  rw [ColouredAt, Nat.sub_add_cancel ho, Nat.mul_div_cancel _ hsize, Nat.mod_eq_of_lt hc]

/-- A walk that starts in the first block, and whose mask is without the first colour, ends at the
start of a block. -/
theorem mod_eq_zero_of_isFirst (h0 : colors.testBit 0 ≠ true) (hblock : start + o < clr.size)
    (h : IsFirst (ColouredAt clr colors o) start r) : (r + o) % clr.size = 0 := by
  obtain ⟨hle, hr, hmin⟩ := h
  by_contra hmod
  have hne : start ≠ r := by
    rintro rfl
    exact h0 ((colouredAt_of_lt hblock).1 hr)
  -- the page before is in the same block
  have hdiv : (r - 1 + o) / clr.size = (r + o) / clr.size := by
    have hdm := Nat.div_add_mod' (r + o) clr.size
    have hlt := Nat.mod_lt (r + o) (show 0 < clr.size by omega)
    refine Nat.div_eq_of_lt_le (by omega) ?_
    rw [Nat.add_mul, Nat.one_mul]
    omega
  have hprev : ColouredAt clr colors o (r - 1) := by
    rw [ColouredAt, hdiv]
    exact hr
  have := hmin (r - 1) (by omega) hprev
  omega

theorem page_lt (hbase : base < 2 ^ 64) : base / pageSize < 2 ^ 52 := by
  simp only [pageSize]
  omega

theorem nextClrOffset_le (clr : Colors) (base : Nat) : nextClrOffset clr base ≤ base / pageSize :=
  Nat.mod_le _ _

/-- Where the offset is right, the test is for the colour of the page until `index + clr_offset`
wraps. -/
theorem nextClrTest_iff_hasClr
    (h : clr.num * clr.size < 2 ^ 64 ∨ nextClrOffset clr base = base / pageSize)
    (hj : j + nextClrOffset clr base < 2 ^ 64) :
    NextClrTest clr base colors j ↔ HasClr clr base colors j := by
  rw [nextClrTest_iff clr colors hj, hasClr_iff]
  rcases h with h | h
  · have hmod (x : Nat) : x / clr.size % clr.num = x % (clr.num * clr.size) / clr.size := by
      rw [Nat.mul_comm, Nat.mod_mul_right_div_self]
    rw [ColouredAt, ColouredAt, nextClrOffset, u64_of_lt h, hmod, hmod, Nat.add_mod_mod]
  · rw [h]

/-- A page of a colour is ahead of any index, before the wrap-around. -/
theorem exists_hasClr (hsize : 0 < clr.size) (hnum : clr.num < 64) (hbase : base < 2 ^ 64)
    (hstart : start < 2 ^ 31) (hc : c < clr.num) (hbit : colors.testBit c = true)
    (hlow : c * clr.size < 2 ^ 64) :
    ∃ j, start ≤ j ∧ j + base / pageSize < 2 ^ 64 ∧ HasClr clr base colors j := by
  have hpage := page_lt hbase
  by_cases hbig : 2 ^ 53 ≤ clr.size
  · obtain rfl | hpos := c.eq_zero_or_pos
    · exact ⟨start, le_rfl, by omega,
        (hasClr_iff ..).2 ((colouredAt_of_lt (by omega)).2 hbit)⟩
    · have hle : clr.size ≤ c * clr.size := Nat.le_mul_of_pos_left _ hpos
      exact ⟨c * clr.size - base / pageSize, by omega, by omega,
        (hasClr_iff ..).2 ((colouredAt_mul hsize hc (by omega)).2 hbit)⟩
  · have hperiod : clr.num * clr.size ≤ 64 * 2 ^ 53 := Nat.mul_le_mul (by omega) (by omega)
    obtain ⟨t, ht, hclr⟩ := exists_ofPage_eq (Nat.mul_pos (by omega) hsize) hc
      (base / pageSize + start)
    refine ⟨start + t, by omega, by omega, ?_⟩
    rw [HasClr, ← Nat.add_assoc, hclr, hbit]

theorem offset_eq_iff (clr : Colors) (base : Nat) : nextClrOffset clr base = base / pageSize ↔
    u64 (clr.num * clr.size) = 0 ∨ base / pageSize < u64 (clr.num * clr.size) := by
  rw [nextClrOffset]
  constructor
  · intro h
    by_cases hzero : u64 (clr.num * clr.size) = 0
    · exact .inl hzero
    · exact .inr (h ▸ Nat.mod_lt _ (Nat.pos_of_ne_zero hzero))
  · rintro (h | h)
    · rw [h, Nat.mod_zero]
    · exact Nat.mod_eq_of_lt h

theorem lt_size_of_overflow (hnum : clr.num < 64) (h : ¬clr.num * clr.size < 2 ^ 64) :
    2 ^ 53 ≤ clr.size := by
  by_contra hlt
  have : clr.num * clr.size ≤ 64 * 2 ^ 53 := Nat.mul_le_mul (by omega) (by omega)
  omega

/-- An offset that is cut off leads to another page, unless the walk ends where it starts. -/
theorem not_isFirst_of_cut (hsize : 2 ^ 53 ≤ clr.size) (hbase : base < 2 ^ 64)
    (hstart : start < 2 ^ 31) (hcut : nextClrOffset clr base ≠ base / pageSize)
    (h0 : colors.testBit 0 ≠ true) (hends : PpNextClr clr base start colors r) :
    ¬IsFirst (HasClr clr base colors) start r := by
  intro hfirst
  have hpage := page_lt hbase
  have hoff := nextClrOffset_le clr base
  obtain ⟨hlt, htest⟩ := hends.test hstart
  have hwrap : r + nextClrOffset clr base < 2 ^ 64 := by
    by_contra hge
    have hval : u64 (r + nextClrOffset clr base) = r + nextClrOffset clr base - 2 ^ 64 := by
      simp only [u64]
      omega
    rw [NextClrTest, hval, Nat.div_eq_of_lt (by omega), Nat.zero_mod] at htest
    exact h0 htest
  have hcoded : IsFirst (ColouredAt clr colors (nextClrOffset clr base)) start r :=
    (hends.isFirst hstart hfirst.1).congr_le fun j hj => nextClrTest_iff clr colors (by omega)
  have htrue : IsFirst (ColouredAt clr colors (base / pageSize)) start r :=
    hfirst.congr_le fun j _ => hasClr_iff clr base colors j
  -- both pages are the first of a block, but they are less than a block apart
  have h1 := mod_eq_zero_of_isFirst h0 (by omega) hcoded
  have h2 := mod_eq_zero_of_isFirst h0 (by omega) htrue
  rw [show r + base / pageSize =
      r + nextClrOffset clr base + (base / pageSize - nextClrOffset clr base) by omega,
    Nat.add_mod, h1, Nat.zero_add, Nat.mod_mod, Nat.mod_eq_of_lt (by omega)] at h2
  omega

theorem exists_ppNextClr (hsize : 0 < clr.size) (hnum : clr.num < 64) (hbase : base < 2 ^ 64)
    (hstart : start < 2 ^ 31) (hc : c < clr.num) (hbit : colors.testBit c = true)
    (hlow : c * clr.size < 2 ^ 64)
    (hright : clr.num * clr.size < 2 ^ 64 ∨ nextClrOffset clr base = base / pageSize) :
    ∃ r, PpNextClr clr base start colors r ∧ IsFirst (HasClr clr base colors) start r := by
  have hoff := nextClrOffset_le clr base
  obtain ⟨j, hj, hjlt, hclr⟩ := exists_hasClr hsize hnum hbase hstart hc hbit hlow
  obtain ⟨r, hrj, hfirst⟩ := exists_isFirst hj hclr
  have htest : IsFirst (NextClrTest clr base colors) start r :=
    hfirst.congr_le fun k hk => (nextClrTest_iff_hasClr hright (by omega)).symm
  exact ⟨r, ppNextClr_of_isFirst hstart htest (by omega), hfirst⟩

theorem ppNextClr_start (hsize : 2 ^ 53 ≤ clr.size) (hbase : base < 2 ^ 64)
    (hstart : start < 2 ^ 31) (h0 : colors.testBit 0 = true) :
    PpNextClr clr base start colors start ∧ IsFirst (HasClr clr base colors) start start := by
  have hpage := page_lt hbase
  have hoff := nextClrOffset_le clr base
  have htest : NextClrTest clr base colors start :=
    (nextClrTest_iff clr colors (by omega)).2 ((colouredAt_of_lt (by omega)).2 h0)
  have hclr : HasClr clr base colors start :=
    (hasClr_iff ..).2 ((colouredAt_of_lt (by omega)).2 h0)
  exact ⟨ppNextClr_of_isFirst hstart (isFirst_self htest) (by omega), isFirst_self hclr⟩

/-- The colour at which the walk ends is one of a page below `2 ^ 64`. -/
theorem PpNextClr.exists_colour (hnum : 1 ≤ clr.num) (hstart : start < 2 ^ 31)
    (h : PpNextClr clr base start colors r) :
    ∃ c < clr.num, colors.testBit c = true ∧ c * clr.size < 2 ^ 64 := by
  refine ⟨_, Nat.mod_lt _ hnum, (h.test hstart).2, ?_⟩
  calc u64 (r + nextClrOffset clr base) / clr.size % clr.num * clr.size
      ≤ u64 (r + nextClrOffset clr base) / clr.size * clr.size :=
        Nat.mul_le_mul_right _ (Nat.mod_le _ _)
    _ ≤ u64 (r + nextClrOffset clr base) := Nat.div_mul_le_self _ _
    _ < 2 ^ 64 := u64_lt _

/-- `pp_next_clr` returns the first index from `start` on whose page has a colour of the mask, just
when the mask has a bit of a colour that pages below `2 ^ 64` have, and the offset is right. -/
theorem ppNextClr_first_iff (hnum : 1 ≤ clr.num) (hnum' : clr.num < 64) (hsize : 1 ≤ clr.size)
    (hbase : base < 2 ^ 64) (hstart : start < 2 ^ 31) :
    (∃ r, PpNextClr clr base start colors r ∧ IsFirst (HasClr clr base colors) start r) ↔
      (∃ c < clr.num, colors.testBit c = true ∧ c * clr.size < 2 ^ 64) ∧
        OffsetFits clr base colors := by
  constructor
  · rintro ⟨r, hends, hfirst⟩
    refine ⟨hends.exists_colour hnum hstart, ?_⟩
    by_contra hfits
    simp only [OffsetFits, not_or] at hfits
    obtain ⟨hover, hzero, hcut, h0⟩ := hfits
    refine not_isFirst_of_cut (lt_size_of_overflow hnum' hover) hbase hstart ?_ h0 hends hfirst
    exact fun heq => ((offset_eq_iff clr base).1 heq).elim hzero hcut
  · rintro ⟨⟨c, hc, hbit, hlow⟩, hfits⟩
    by_cases hright : clr.num * clr.size < 2 ^ 64 ∨ nextClrOffset clr base = base / pageSize
    · exact exists_ppNextClr hsize hnum' hbase hstart hc hbit hlow hright
    · -- the offset is wrong, but the walk starts on a page of the first colour
      obtain ⟨hover, hcut⟩ := not_or.1 hright
      have h0 : colors.testBit 0 = true := by
        rw [offset_eq_iff] at hcut
        simp only [OffsetFits] at hfits
        tauto
      exact ⟨start, ppNextClr_start (lt_size_of_overflow hnum' hover) hbase hstart h0⟩

/-- With 16 colours of two pages and the colours 2 and 5, the walk from the pool's first page, which
has colour 8, ends 20 pages on. -/
theorem ppNextClr_first_sixteen :
    ∃ r, PpNextClr ⟨16, 2⟩ 0x80010000 0 0b100100 r ∧
      IsFirst (HasClr ⟨16, 2⟩ 0x80010000 0b100100) 0 r :=
  (ppNextClr_first_iff (by decide) (by decide) (by decide) (by decide) (by decide)).2
    ⟨⟨2, by decide, by decide, by decide⟩, .inl (by decide)⟩

/-- With two colours, a mask that has only bit 2 passes the test of the callers, and the walk does
not end. -/
theorem ppNextClr_no_colour :
    allClrs ⟨2, 1⟩ 0b100 = false ∧ ¬∃ r, PpNextClr ⟨2, 1⟩ 0x80000000 0 0b100 r := by
  refine ⟨by decide, ?_⟩
  rintro ⟨r, h⟩
  refine not_ends (I := fun _ => True) (fun i _ => ⟨u64 (i + 1), ?_, trivial⟩) trivial h
  have hbits : ∀ c < 2, Nat.testBit 0b100 c ≠ true := by decide
  exact if_neg (hbits _ (Nat.mod_lt _ (by decide)))

end Bao
