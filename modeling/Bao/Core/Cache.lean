import Mathlib.Data.Nat.ModEq
import Bao.Lib.Util

/-!
# Cache colours

Pages whose addresses fall into different sets of the last shared cache can be given to different
VMs without their interfering in that cache. The colour of a page says which of the groups of sets
it uses. Pages are coloured in blocks of `COLOR_SIZE`, as long as a way of the first-level cache, so
that colouring the last level leaves the first level whole.
-/

namespace Bao

inductive CacheType where
  | unified
  | separate
  | data
  | instruction
  deriving DecidableEq

inductive CacheIndexed where
  | pipt
  | vipt
  deriving DecidableEq

/-- `cache_t`. The second index of the tables is 0 for a unified or data cache, 1 for an instruction
cache. -/
structure Cache where
  lvls : Nat
  minSharedLvl : Nat
  type : Nat → CacheType
  indexed : Nat → Nat → CacheIndexed
  lineSize : Nat → Nat → Nat
  numset : Nat → Nat → Nat

/-- `COLOR_NUM` and `COLOR_SIZE`. -/
structure Colors where
  num : Nat := 1
  size : Nat := 1
  deriving DecidableEq

namespace Cache

/-- The size of a way. -/
def waySize (dscr : Cache) (lvl i : Nat) : Nat := u64 (dscr.numset lvl i * dscr.lineSize lvl i)

def llcWaySize (dscr : Cache) : Nat := dscr.waySize dscr.minSharedLvl 0

/-- The way size of the first level that `cache_calc_colors` goes by. -/
def flcWaySize (dscr : Cache) : Nat :=
  if dscr.type 0 ≠ .unified then
    let flcWaySize := dscr.waySize 0 0
    let flcIWaySize := dscr.waySize 0 1
    if (dscr.indexed 0 0 = .pipt ∨ flcIWaySize < flcWaySize) ∧ dscr.indexed 0 1 = .pipt then
      flcIWaySize
    else flcWaySize
  else 0

end Cache

def cacheCalcColors (dscr : Cache) (pageSize : Nat) (colors : Colors) : Colors :=
  if dscr.lvls = 0 then colors
  else
    let llc := dscr.minSharedLvl
    if dscr.type llc ≠ .unified ∨ dscr.indexed llc 0 ≠ .pipt then colors
    else
      let llcNumColors := dscr.llcWaySize / pageSize
      let flcNumColors := dscr.flcWaySize / pageSize
      { size := flcNumColors, num := llcNumColors / flcNumColors }

/-- The colours after `cache_enumerate`. -/
def cacheEnumerate (dscr : Cache) : Colors := cacheCalcColors dscr pageSize {}

/-- The colour of a page. -/
def Colors.ofPage (clr : Colors) (page : Nat) : Nat := page / clr.size % clr.num

/-- The colour that `pp_next_clr` tests for the page `index` of a pool. -/
def ppNextClrColor (clr : Colors) (base index : Nat) : Nat :=
  let clrOffset := base / pageSize % (clr.num * clr.size)
  u64 (index + clrOffset) / clr.size % clr.num

/-- The set of the last shared cache that an address falls into. -/
def Cache.llcSet (dscr : Cache) (addr : Nat) : Nat :=
  addr / dscr.lineSize dscr.minSharedLvl 0 % dscr.numset dscr.minSharedLvl 0

/-- A PIPT unified last shared level, a first level that is not unified, sizes that are powers of
two, and ways of at least a page that are not longer in the first level than in the last. -/
structure Cache.Geometry (dscr : Cache) : Prop where
  unified : dscr.type dscr.minSharedLvl = .unified
  pipt : dscr.indexed dscr.minSharedLvl 0 = .pipt
  separate : dscr.type 0 ≠ .unified
  lineSize : ∀ lvl i, ∃ k, dscr.lineSize lvl i = 2 ^ k
  numset : ∀ lvl i, ∃ k, dscr.numset lvl i = 2 ^ k
  page_le : pageSize ≤ dscr.flcWaySize
  flc_le : dscr.flcWaySize ≤ dscr.llcWaySize

/-! ### Powers of two -/

variable {dscr : Cache} {f l s : Nat} {clr : Colors}

theorem waySize_pow (h : dscr.Geometry) (lvl i : Nat) (hpos : 0 < dscr.waySize lvl i) :
    dscr.waySize lvl i = dscr.numset lvl i * dscr.lineSize lvl i ∧
      ∃ k < 64, dscr.waySize lvl i = 2 ^ k := by
  obtain ⟨j, hj⟩ := h.numset lvl i
  obtain ⟨k, hk⟩ := h.lineSize lvl i
  rw [Cache.waySize, hj, hk, ← Nat.pow_add] at hpos ⊢
  by_cases hlt : j + k < 64
  · have := u64_of_lt (Nat.pow_lt_pow_right (show 1 < 2 by decide) hlt)
    exact ⟨this, j + k, hlt, this⟩
  · -- A product that does not fit wraps to 0.
    obtain ⟨m, hm⟩ := Nat.exists_eq_add_of_le (Nat.le_of_not_lt hlt)
    rw [u64, hm, Nat.pow_add, Nat.mul_mod_right] at hpos
    exact absurd hpos (lt_irrefl 0)

theorem flcWaySize_pow (h : dscr.Geometry) : ∃ k < 64, dscr.flcWaySize = 2 ^ k := by
  have hpos : 0 < dscr.flcWaySize := lt_of_lt_of_le (by decide) h.page_le
  unfold Cache.flcWaySize at hpos ⊢
  rw [if_pos h.separate] at hpos ⊢
  dsimp only at hpos ⊢
  split at hpos
  · next hi =>
    rw [if_pos hi]
    exact (waySize_pow h 0 1 hpos).2
  · next hi =>
    rw [if_neg hi]
    exact (waySize_pow h 0 0 hpos).2

theorem cacheEnumerate_eq (h : dscr.Geometry) (hlvls : dscr.lvls ≠ 0) {m : Nat}
    (hf : dscr.flcWaySize = 2 ^ f) (hm : dscr.llcWaySize = 2 ^ m) :
    12 ≤ f ∧ f ≤ m ∧ cacheEnumerate dscr = { num := 2 ^ (m - f), size := 2 ^ (f - 12) } := by
  have hpage : pageSize = 2 ^ 12 := rfl
  have hf12 : 12 ≤ f := by
    have := h.page_le
    rw [hf, hpage] at this
    exact (Nat.pow_le_pow_iff_right (by decide)).mp this
  have hfm : f ≤ m := by
    have := h.flc_le
    rw [hf, hm] at this
    exact (Nat.pow_le_pow_iff_right (by decide)).mp this
  refine ⟨hf12, hfm, ?_⟩
  have hpipt : ¬ (dscr.type dscr.minSharedLvl ≠ .unified ∨
      dscr.indexed dscr.minSharedLvl 0 ≠ .pipt) := by simp [h.unified, h.pipt]
  rw [cacheEnumerate, cacheCalcColors, if_neg hlvls]
  dsimp only
  rw [if_neg hpipt, hf, hm, hpage, Nat.pow_div (by omega) (by decide),
    Nat.pow_div hf12 (by decide), Nat.pow_div (by omega) (by decide)]
  congr 2
  omega

/-! ### Colours and sets -/

theorem ofPage_div_pageSize (f n a : Nat) (hf : 12 ≤ f) :
    Colors.ofPage { num := n, size := 2 ^ (f - 12) } (a / pageSize) = a / 2 ^ f % n := by
  have hpage : pageSize * 2 ^ (f - 12) = 2 ^ f := by
    rw [show pageSize = 2 ^ 12 from rfl, ← Nat.pow_add]
    congr 1
    omega
  rw [Colors.ofPage, Nat.div_div_eq_div_mul, hpage]

theorem div_mod_eq_of_set_eq {a b : Nat} (hlf : l ≤ f) (h : a / 2 ^ l % 2 ^ s = b / 2 ^ l % 2 ^ s) :
    a / 2 ^ f % 2 ^ (l + s - f) = b / 2 ^ f % 2 ^ (l + s - f) := by
  by_cases hfs : f ≤ l + s
  · have hset (x : Nat) : x / 2 ^ f % 2 ^ (l + s - f) = x / 2 ^ l % 2 ^ s / 2 ^ (f - l) := by
      have hs : 2 ^ s = 2 ^ (f - l) * 2 ^ (l + s - f) := by
        rw [← Nat.pow_add]
        congr 1
        omega
      have hf : 2 ^ f = 2 ^ l * 2 ^ (f - l) := by
        rw [← Nat.pow_add]
        congr 1
        omega
      rw [hs, Nat.mod_mul_right_div_self, hf, Nat.div_div_eq_div_mul]
    rw [hset, hset, h]
  · have hzero : l + s - f = 0 := by omega
    simp [hzero, Nat.mod_one]

/-- Addresses of different colours are in different sets exactly when a line is no longer than a
block, or a block is as long as a way of the last level. -/
theorem ofPage_ne_imp_set_ne_iff {m : Nat} (hf : 12 ≤ f) (hfm : f ≤ m) (hm : l + s = m) :
    (∀ p q, Colors.ofPage { num := 2 ^ (m - f), size := 2 ^ (f - 12) } p ≠
        Colors.ofPage { num := 2 ^ (m - f), size := 2 ^ (f - 12) } q →
      ∀ a b, a / pageSize = p → b / pageSize = q → a / 2 ^ l % 2 ^ s ≠ b / 2 ^ l % 2 ^ s) ↔
        l ≤ f ∨ f = m := by
  constructor
  · intro hall
    by_contra hnot
    simp only [not_or, not_le] at hnot
    obtain ⟨hlf, hne⟩ := hnot
    -- The first address of the second block is in the first line.
    have hlt : 2 ^ f < 2 ^ l := Nat.pow_lt_pow_right (by decide) hlf
    have hnum : 1 < 2 ^ (m - f) := Nat.one_lt_two_pow (by omega)
    refine hall (0 / pageSize) (2 ^ f / pageSize) ?_ 0 (2 ^ f) rfl rfl ?_
    · rw [ofPage_div_pageSize f _ _ hf, ofPage_div_pageSize f _ _ hf, Nat.zero_div,
        Nat.div_self (Nat.two_pow_pos f), Nat.mod_eq_of_lt hnum, Nat.zero_mod]
      decide
    · rw [Nat.zero_div, Nat.div_eq_of_lt hlt]
  · rintro hcases p q hne a b rfl rfl hset
    rw [ofPage_div_pageSize f _ _ hf, ofPage_div_pageSize f _ _ hf] at hne
    rcases hcases with hlf | hone
    · rw [← hm] at hne
      exact hne (div_mod_eq_of_set_eq hlf hset)
    · simp [hone, Nat.mod_one] at hne

/-- Adding an index to a page commutes with reducing the page modulo the period of the colours,
also when the sum wraps around. -/
theorem ppNextClrColor_eq (hdvd : clr.num * clr.size ∣ 2 ^ 64) (base index : Nat) :
    ppNextClrColor clr base index = clr.ofPage (base / pageSize + index) := by
  have hmod (x : Nat) : x / clr.size % clr.num = x % (clr.num * clr.size) / clr.size := by
    rw [Nat.mul_comm, Nat.mod_mul_right_div_self]
  rw [ppNextClrColor, Colors.ofPage, hmod, hmod, u64, Nat.mod_mod_of_dvd _ hdvd, Nat.add_mod_mod,
    Nat.add_comm]

/-- Pages of different colours share no set of the last level exactly when its lines are no longer
than a way of the first level, or there is but one colour; and `pp_next_clr` tests the colour of the
page. -/
theorem cacheEnumerate_disjoint_iff {dscr : Cache} (h : dscr.Geometry) :
    ((∀ p q, (cacheEnumerate dscr).ofPage p ≠ (cacheEnumerate dscr).ofPage q →
      ∀ a b, a / pageSize = p → b / pageSize = q → dscr.llcSet a ≠ dscr.llcSet b) ↔
        dscr.lineSize dscr.minSharedLvl 0 ≤ dscr.flcWaySize ∨
          dscr.flcWaySize = dscr.llcWaySize ∨ dscr.lvls = 0) ∧
    ∀ base < 2 ^ 64, ∀ index < 2 ^ 64, ppNextClrColor (cacheEnumerate dscr) base index =
      (cacheEnumerate dscr).ofPage (base / pageSize + index) := by
  by_cases hlvls : dscr.lvls = 0
  · have hone : cacheEnumerate dscr = {} := by rw [cacheEnumerate, cacheCalcColors, if_pos hlvls]
    rw [hone]
    refine ⟨⟨fun _ => .inr (.inr hlvls), fun _ p q hne => absurd ?_ hne⟩, fun base _ index _ => ?_⟩
    · simp [Colors.ofPage, Nat.mod_one]
    · exact ppNextClrColor_eq (by decide) base index
  · obtain ⟨f, hf64, hf⟩ := flcWaySize_pow h
    have hllc : 0 < dscr.llcWaySize :=
      lt_of_lt_of_le (by decide) (h.page_le.trans h.flc_le)
    obtain ⟨hway, m, hm64, hm⟩ := waySize_pow h dscr.minSharedLvl 0 hllc
    obtain ⟨hf12, hfm, heq⟩ := cacheEnumerate_eq h hlvls hf hm
    obtain ⟨l, hl⟩ := h.lineSize dscr.minSharedLvl 0
    obtain ⟨s, hs⟩ := h.numset dscr.minSharedLvl 0
    have hlsm : l + s = m := by
      rw [hl, hs, ← Nat.pow_add, hm] at hway
      have := Nat.pow_right_injective (le_refl 2) hway
      omega
    have hfm' : dscr.flcWaySize = dscr.llcWaySize ↔ f = m := by
      rw [hf, Cache.llcWaySize, hm]
      exact Nat.pow_right_inj (by decide)
    rw [heq, hfm', hl, hf, Nat.pow_le_pow_iff_right (by decide)]
    simp only [Cache.llcSet, hl, hs, hlvls, or_false]
    refine ⟨ofPage_ne_imp_set_ne_iff hf12 hfm hlsm, fun base _ index _ => ?_⟩
    refine ppNextClrColor_eq ?_ base index
    rw [← Nat.pow_add]
    exact Nat.pow_dvd_pow 2 (by omega)

/-- Two levels: separate first-level caches with ways of a page, and a unified second level. -/
def twoLevels (lineSize numset : Nat) : Cache where
  lvls := 2
  minSharedLvl := 1
  type lvl := if lvl = 0 then .separate else .unified
  indexed _ _ := .pipt
  lineSize lvl _ := if lvl = 0 then 64 else lineSize
  numset lvl _ := if lvl = 0 then 64 else numset

theorem twoLevels_flcWaySize (lineSize numset : Nat) :
    (twoLevels lineSize numset).flcWaySize = 2 ^ 12 := by
  simp [Cache.flcWaySize, Cache.waySize, twoLevels, u64]

theorem twoLevels_geometry (h : 12 ≤ s + l) (hlt : s + l < 64) :
    (twoLevels (2 ^ l) (2 ^ s)).Geometry where
  unified := rfl
  pipt := rfl
  separate := by simp [twoLevels]
  lineSize lvl _ := by
    by_cases hlvl : lvl = 0
    · exact ⟨6, by simp [twoLevels, hlvl]⟩
    · exact ⟨l, by simp [twoLevels, hlvl]⟩
  numset lvl _ := by
    by_cases hlvl : lvl = 0
    · exact ⟨6, by simp [twoLevels, hlvl]⟩
    · exact ⟨s, by simp [twoLevels, hlvl]⟩
  page_le := by rw [twoLevels_flcWaySize]; decide
  flc_le := by
    have hway : (twoLevels (2 ^ l) (2 ^ s)).llcWaySize = 2 ^ (s + l) := by
      change u64 (2 ^ s * 2 ^ l) = _
      rw [← Nat.pow_add, u64_of_lt (Nat.pow_lt_pow_right (by decide) hlt)]
    rw [hway, twoLevels_flcWaySize]
    exact Nat.pow_le_pow_right (by decide) h

/-- Lines of 64 bytes and 1024 sets make 16 colours that share no set. -/
theorem cacheEnumerate_disjoint_sixteen :
    (twoLevels 64 1024).Geometry ∧ cacheEnumerate (twoLevels 64 1024) = { num := 16, size := 1 } ∧
      ∀ a b, (cacheEnumerate (twoLevels 64 1024)).ofPage (a / pageSize) ≠
          (cacheEnumerate (twoLevels 64 1024)).ofPage (b / pageSize) →
        (twoLevels 64 1024).llcSet a ≠ (twoLevels 64 1024).llcSet b := by
  have hgeom : (twoLevels 64 1024).Geometry :=
    twoLevels_geometry (l := 6) (s := 10) (by decide) (by decide)
  refine ⟨hgeom, by decide, fun a b hne => ?_⟩
  exact (cacheEnumerate_disjoint_iff hgeom).1.mpr (.inl (by decide)) _ _ hne a b rfl rfl

/-- With lines of two pages, the first two pages have different colours, and share a line. -/
theorem cacheEnumerate_not_disjoint :
    (twoLevels 8192 2).Geometry ∧
      (cacheEnumerate (twoLevels 8192 2)).ofPage 0 ≠ (cacheEnumerate (twoLevels 8192 2)).ofPage 1 ∧
      0 / pageSize = 0 ∧ pageSize / pageSize = 1 ∧
      (twoLevels 8192 2).llcSet 0 = (twoLevels 8192 2).llcSet pageSize :=
  ⟨twoLevels_geometry (l := 13) (s := 1) (by decide) (by decide), by decide, by decide, by decide,
    by decide⟩

/-! ### Usable colours -/

/-- A division of the source: `none` is a division by zero. -/
def checkedDiv (a b : Nat) : Option Nat := if b = 0 then none else some (a / b)

/-- `cache_calc_colors` with its divisions checked, in the order of the source. -/
def cacheCalcColorsChecked (dscr : Cache) (pageSize : Nat) (colors : Colors) : Option Colors :=
  if dscr.lvls = 0 then some colors
  else
    let llc := dscr.minSharedLvl
    if dscr.type llc ≠ .unified ∨ dscr.indexed llc 0 ≠ .pipt then some colors
    else do
      let llcNumColors ← checkedDiv dscr.llcWaySize pageSize
      let flcNumColors ← checkedDiv dscr.flcWaySize pageSize
      let colorNum ← checkedDiv llcNumColors flcNumColors
      return { size := flcNumColors, num := colorNum }

/-- What the walks over colours rely on: they divide by both numbers, and shift a word by the number
of colours. -/
structure Colors.Usable (clr : Colors) : Prop where
  size_pos : 1 ≤ clr.size
  num_pos : 1 ≤ clr.num
  num_lt : clr.num < 64

theorem checkedDiv_eq_some {a b c : Nat} : checkedDiv a b = some c ↔ b ≠ 0 ∧ a / b = c := by
  simp [checkedDiv]

/-- The branch of `cache_calc_colors` that computes colours. -/
def Cache.Colored (dscr : Cache) : Prop :=
  dscr.lvls ≠ 0 ∧ dscr.type dscr.minSharedLvl = .unified ∧ dscr.indexed dscr.minSharedLvl 0 = .pipt

theorem cacheCalcColorsChecked_of_not_colored (h : ¬ dscr.Colored) (page : Nat) (clr : Colors) :
    cacheCalcColorsChecked dscr page clr = some clr := by
  unfold cacheCalcColorsChecked
  by_cases hlvls : dscr.lvls = 0
  · rw [if_pos hlvls]
  · rw [if_neg hlvls]
    refine if_pos ?_
    by_contra hllc
    simp only [not_or, ne_eq, not_not] at hllc
    exact h ⟨hlvls, hllc⟩

theorem cacheCalcColorsChecked_eq_some (h : dscr.Colored) {page : Nat} {clr' : Colors} :
    cacheCalcColorsChecked dscr page clr = some clr' ↔
      page ≠ 0 ∧ dscr.flcWaySize / page ≠ 0 ∧ clr' =
        { size := dscr.flcWaySize / page,
          num := dscr.llcWaySize / page / (dscr.flcWaySize / page) } := by
  obtain ⟨hlvls, hunified, hpipt⟩ := h
  unfold cacheCalcColorsChecked
  rw [if_neg hlvls]
  dsimp only
  rw [if_neg (by simp [hunified, hpipt])]
  simp only [Option.pure_def, Option.bind_eq_bind, Option.bind_eq_some_iff, checkedDiv_eq_some,
    Option.some.injEq]
  constructor
  · rintro ⟨a, ⟨hpage, rfl⟩, b, ⟨_, rfl⟩, c, ⟨hsize, rfl⟩, rfl⟩
    exact ⟨hpage, hsize, rfl⟩
  · rintro ⟨hpage, hsize, rfl⟩
    exact ⟨_, ⟨hpage, rfl⟩, _, ⟨hpage, rfl⟩, _, ⟨hsize, rfl⟩, rfl⟩

/-- Where no division is by zero, the checked version computes the same colours. -/
theorem cacheCalcColors_of_checked {page : Nat} {clr' : Colors}
    (h : cacheCalcColorsChecked dscr page clr = some clr') :
    cacheCalcColors dscr page clr = clr' := by
  unfold cacheCalcColorsChecked at h
  unfold cacheCalcColors
  by_cases hlvls : dscr.lvls = 0
  · rw [if_pos hlvls] at h ⊢
    exact Option.some.inj h
  · rw [if_neg hlvls] at h ⊢
    dsimp only at h ⊢
    split at h
    · next hllc =>
      rw [if_pos hllc]
      exact Option.some.inj h
    · next hllc =>
      rw [if_neg hllc]
      simp only [Option.pure_def, Option.bind_eq_bind, Option.bind_eq_some_iff, checkedDiv_eq_some,
        Option.some.injEq] at h
      obtain ⟨_, ⟨_, rfl⟩, _, ⟨_, rfl⟩, _, ⟨_, rfl⟩, rfl⟩ := h
      rfl

/-- The colours are usable exactly when the cache is not coloured at all, or a way of the first
level holds a page and makes between one and 63 blocks of a way of the last level. -/
theorem cacheCalcColors_usable_iff (dscr : Cache) (page : Nat) :
    (∃ clr, cacheCalcColorsChecked dscr page {} = some clr ∧ cacheCalcColors dscr page {} = clr ∧
      clr.Usable) ↔
      ¬ dscr.Colored ∨
        0 < page ∧ page ≤ dscr.flcWaySize ∧ dscr.flcWaySize / page ≤ dscr.llcWaySize / page ∧
          dscr.llcWaySize / page < 64 * (dscr.flcWaySize / page) := by
  by_cases hcolored : dscr.Colored
  · simp only [hcolored, not_true_eq_false, false_or]
    constructor
    · rintro ⟨clr, hclr, -, husable⟩
      obtain ⟨hpage, hsize, rfl⟩ := (cacheCalcColorsChecked_eq_some hcolored).mp hclr
      have hpos : 0 < dscr.flcWaySize / page := husable.size_pos
      refine ⟨Nat.pos_of_ne_zero hpage, ?_, ?_, ?_⟩
      · exact ((Nat.div_pos_iff).mp hpos).2
      · exact ((Nat.div_pos_iff).mp husable.num_pos).2
      · exact (Nat.div_lt_iff_lt_mul hpos).mp husable.num_lt
    · rintro ⟨hpage, hway, hle, hlt⟩
      have hpos : 0 < dscr.flcWaySize / page := Nat.div_pos hway hpage
      have hsome : cacheCalcColorsChecked dscr page {} = some _ :=
        (cacheCalcColorsChecked_eq_some hcolored).mpr ⟨hpage.ne', hpos.ne', rfl⟩
      refine ⟨_, hsome, cacheCalcColors_of_checked hsome, hpos, Nat.div_pos hle hpos, ?_⟩
      exact (Nat.div_lt_iff_lt_mul hpos).mpr hlt
  · have hsome := cacheCalcColorsChecked_of_not_colored hcolored page {}
    simp only [hcolored, not_false_eq_true, true_or, iff_true]
    exact ⟨{}, hsome, cacheCalcColors_of_checked hsome, by decide, by decide, by decide⟩

/-- A unified first level with ways of a page, and a unified second level. -/
def unifiedLevels : Cache := { twoLevels 64 1024 with type := fun _ => .unified }

/-- A unified first level divides by zero; 4096 sets in the last level make 64 colours. -/
theorem cacheCalcColors_not_usable :
    unifiedLevels.waySize 0 0 = pageSize ∧
      cacheCalcColorsChecked unifiedLevels pageSize {} = none ∧
      cacheCalcColorsChecked (twoLevels 64 4096) pageSize {} = some { num := 64, size := 1 } := by
  decide

end Bao
