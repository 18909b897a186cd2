import Bao.Foundation.Logged
import Bao.Foundation.Loop
import Bao.Lib.Bitmap
import Bao.Lib.Util

/-!
# The bits that a search reads

The searches of `bitmap.c` once more, now with 64-bit numbers as the source has them and with a
record of every `bitmap_get`. The loop of `bitmap_find_consec` is here a loop that need not end.

For maps below `2 ^ 63` bits the search ends, and its result is the first run from `start` on, or
`-1`. It may read the bit behind the map: when a run that is too short touches the end, the search
counts the bits of the other kind from there, and the count begins with a read. What it reads there
does not change the result.
-/

namespace Bao.BitmapSearch

open Foundation

/-- The result `-1`. -/
def minusOne : Nat := 2 ^ 64 - 1

def bitmapGet (map : Bitmap) (bit : Nat) : Logged Nat Bool := .touch bit (map bit)

/-- The loop of `bitmap_find_nth`, with `left` bits to go from `i`. -/
def findNthLoop (map : Bitmap) (nth : Nat) (set : Bool) : (left i count : Nat) → Logged Nat Nat
  | 0, _, _ => pure minusOne
  | left + 1, i, count => do
    let bit ← bitmapGet map i
    if bit = set then
      if count + 1 = nth then pure i else findNthLoop map nth set left (i + 1) (count + 1)
    else findNthLoop map nth set left (i + 1) count

def bitmapFindNth (map : Bitmap) (size nth start : Nat) (set : Bool) : Logged Nat Nat :=
  if size = 0 ∨ nth = 0 then pure minusOne else findNthLoop map nth set (size - start) start 0

/-- The loop of `bitmap_count_consecutive`, with `left` bits to go from `start`. -/
def countConsecutiveLoop (map : Bitmap) (b : Bool) (n : Nat) :
    (left start count : Nat) → Logged Nat Nat
  | 0, _, count => pure count
  | left + 1, start, count => do
    let bit ← bitmapGet map start
    if bit = b then
      if count + 1 = n then pure (count + 1)
      else countConsecutiveLoop map b n left (start + 1) (count + 1)
    else pure count

def bitmapCountConsecutive (map : Bitmap) (size start n : Nat) : Logged Nat Nat :=
  if n ≤ 1 then pure n
  else do
    -- the first bit is read whether it is in the map or not
    let b ← bitmapGet map start
    let start := u64 (start + 1)
    countConsecutiveLoop map b n (size - start) start 1

/-- A round of the loop of `bitmap_find_consec`. -/
def findConsecRound (map : Bitmap) (size n i : Nat) : Logged Nat (Round Nat Nat) :=
  if i < size then do
    let count ← bitmapCountConsecutive map size i n
    if count < n then do
      let i := u64 (i + count)
      let count ← bitmapCountConsecutive map size i (2 ^ 64 - 1)
      pure (.again (u64 (i + count)))
    else pure (.exit i)
  else pure (.exit i)

/-- `bitmap_find_consec` returns `r`. A result of `bitmap_find_nth` from `2 ^ 63` on is negative. -/
def FindConsec (map : Bitmap) (size start n : Nat) (set : Bool) (r : Nat) : Prop :=
  let i := (bitmapFindNth map size 1 start set).val
  if 2 ^ 63 ≤ i then r = minusOne
  else ∃ i', Ends (fun i => (findConsecRound map size n i).val) i i' ∧
    r = if size ≤ i' then minusOne else i'

/-- `bitmap_find_consec` reads the bit `b`, in a search that ends or in one that does not. -/
def FindConsecReads (map : Bitmap) (size start n : Nat) (set : Bool) (b : Nat) : Prop :=
  let i := bitmapFindNth map size 1 start set
  b ∈ i.log ∨ i.val < 2 ^ 63 ∧
    ∃ i', Visits (fun i => (findConsecRound map size n i).val) i.val i' ∧
      b ∈ (findConsecRound map size n i').log

/-! ## Values -/

variable {map : Bitmap} {size start n i b : Nat} {set : Bool}

@[simp] theorem val_bitmapGet (map : Bitmap) (bit : Nat) : (bitmapGet map bit).val = map bit :=
  Logged.val_touch ..

theorem val_findNthLoop (map : Bitmap) (nth : Nat) (set : Bool) (left i count : Nat) :
    (findNthLoop map nth set left i count).val =
      (Bao.findNthLoop map nth set left i count).getD minusOne := by
  induction left generalizing i count with
  | zero => simp [findNthLoop, Bao.findNthLoop]
  | succ left ih =>
    simp only [findNthLoop, Bao.findNthLoop, Logged.val_bind, val_bitmapGet, Logged.val_ite,
      Logged.val_pure, ih]
    split
    · split <;> rfl
    · rfl

theorem val_bitmapFindNth (map : Bitmap) (size nth start : Nat) (set : Bool) :
    (bitmapFindNth map size nth start set).val =
      (Bao.bitmapFindNth map size nth start set).getD minusOne := by
  unfold bitmapFindNth Bao.bitmapFindNth
  split
  · simp
  · exact val_findNthLoop ..

theorem val_countConsecutiveLoop (map : Bitmap) (b : Bool) (n left start count : Nat) :
    (countConsecutiveLoop map b n left start count).val =
      Bao.countConsecutiveLoop map b n left start count := by
  induction left generalizing start count with
  | zero => simp [countConsecutiveLoop, Bao.countConsecutiveLoop]
  | succ left ih =>
    simp only [countConsecutiveLoop, Bao.countConsecutiveLoop, Logged.val_bind, val_bitmapGet,
      Logged.val_ite, Logged.val_pure, ih]

theorem val_bitmapCountConsecutive (map : Bitmap) (size start : Nat)
    (hstart : start + 1 < 2 ^ 64) (n : Nat) : (bitmapCountConsecutive map size start n).val =
      Bao.bitmapCountConsecutive map size start n := by
  unfold bitmapCountConsecutive Bao.bitmapCountConsecutive
  split
  · simp
  · simp only [Logged.val_bind, val_bitmapGet, u64_of_lt hstart, val_countConsecutiveLoop]

/-! ## Reads -/

@[simp] theorem all_bitmapGet {P : Nat → Prop} (map : Bitmap) (bit : Nat) :
    (bitmapGet map bit).All P ↔ P bit :=
  Logged.all_touch ..

theorem all_findNthLoop (map : Bitmap) (nth : Nat) (set : Bool) (left i count : Nat) :
    (findNthLoop map nth set left i count).All (· < i + left) := by
  induction left generalizing i count with
  | zero => simp [findNthLoop]
  | succ left ih =>
    have hnext : ∀ count, (findNthLoop map nth set left (i + 1) count).All (· < i + (left + 1)) :=
      fun count b hb => by
        have := ih (i + 1) count b hb
        omega
    simp only [findNthLoop, Logged.all_bind, all_bitmapGet, Logged.all_ite, Logged.all_pure]
    exact ⟨by omega, fun _ => ⟨fun _ => trivial, fun _ => hnext _⟩, fun _ => hnext _⟩

theorem all_bitmapFindNth (map : Bitmap) (size nth start : Nat) (set : Bool) :
    (bitmapFindNth map size nth start set).All (· < size) := by
  unfold bitmapFindNth
  split
  · simp
  · intro b hb
    have hlt := all_findNthLoop map nth set _ _ _ b hb
    by_cases hstart : start ≤ size
    · omega
    · rw [show size - start = 0 by omega] at hb
      simp [findNthLoop, pure] at hb

theorem all_countConsecutiveLoop (map : Bitmap) (b : Bool) (n left start count : Nat) :
    (countConsecutiveLoop map b n left start count).All (· < start + left) := by
  induction left generalizing start count with
  | zero => simp [countConsecutiveLoop]
  | succ left ih =>
    have hnext : ∀ count,
        (countConsecutiveLoop map b n left (start + 1) count).All (· < start + (left + 1)) :=
      fun count b hb => by
        have := ih (start + 1) count b hb
        omega
    simp only [countConsecutiveLoop, Logged.all_bind, all_bitmapGet, Logged.all_ite,
      Logged.all_pure]
    exact ⟨by omega, fun _ => ⟨fun _ => trivial, fun _ => hnext _⟩, fun _ => trivial⟩

theorem all_bitmapCountConsecutive_iff (map : Bitmap) (hsize : size < 2 ^ 64) (start n : Nat) :
    (bitmapCountConsecutive map size start n).All (· < size) ↔ n ≤ 1 ∨ start < size := by
  unfold bitmapCountConsecutive
  by_cases hn : n ≤ 1
  · simp [hn]
  · rw [if_neg hn, Logged.all_bind, all_bitmapGet, or_iff_right hn]
    refine and_iff_left_of_imp fun hstart b hb => ?_
    rw [u64_of_lt (by omega)] at hb
    have hlt := all_countConsecutiveLoop map _ n _ _ _ b hb
    omega

/-! ## A round -/

/-- No run of `n` bits begins from `i` on and before `j`. -/
def NoRun (map : Bitmap) (size n : Nat) (set : Bool) (i j : Nat) : Prop :=
  ∀ k, i ≤ k → k < j → ¬RunAt map size n set k

theorem NoRun.trans {j k : Nat} (hij : NoRun map size n set i j) (hjk : NoRun map size n set j k) :
    NoRun map size n set i k := by
  intro l hil hlk
  by_cases hlj : l < j
  · exact hij l hil hlj
  · exact hjk l (by omega) hlk

/-- The end of the run that a round counts from `i` on. -/
def runEnd (map : Bitmap) (size n i : Nat) : Nat := i + Bao.bitmapCountConsecutive map size i n

theorem findConsecRound_exit (hsize : size < 2 ^ 64) (hi : i < size)
    (hlong : i + n ≤ runEnd map size n i) : (findConsecRound map size n i).val = .exit i := by
  have hcount := val_bitmapCountConsecutive map size i (by omega) n
  simp only [findConsecRound, if_pos hi, Logged.val_bind, Logged.val_ite, Logged.val_pure, hcount]
  rw [if_neg (by simp only [runEnd] at hlong; omega)]

theorem runAt_of_runEnd (hn : 0 < n) (hi : i < size) (hset : map i = set)
    (hlong : i + n ≤ runEnd map size n i) : RunAt map size n set i := by
  obtain ⟨-, hle, hend, hrun, -⟩ := bitmapCountConsecutive_spec map size i n hn
  have hcount : Bao.bitmapCountConsecutive map size i n = n := by
    simp only [runEnd] at hlong
    omega
  rw [hcount] at hend hrun
  exact ⟨by omega, fun k hk => (hrun k hk).trans hset⟩

theorem noRun_of_runEnd (hn : 0 < n) (hi : i < size) (hset : map i = set)
    (hshort : runEnd map size n i < i + n) :
    i < runEnd map size n i ∧ runEnd map size n i ≤ size ∧ map (runEnd map size n i - 1) = set ∧
      (runEnd map size n i < size → map (runEnd map size n i) = !set) ∧
      NoRun map size n set i (runEnd map size n i + 1) := by
  obtain ⟨hpos, hle, hend, hrun, hstop⟩ := bitmapCountConsecutive_spec map size i n hn
  unfold runEnd at hshort ⊢
  set c := Bao.bitmapCountConsecutive map size i n
  have hother : i + c < size → map (i + c) = !set := fun hlt =>
    Bool.eq_not.mpr (hset ▸ (hstop (by omega)).resolve_left (by omega))
  have hlast : map (i + c - 1) = set := by
    have := hrun (c - 1) (by omega)
    rwa [show i + (c - 1) = i + c - 1 by omega, hset] at this
  refine ⟨by omega, by omega, hlast, hother, ?_⟩
  rintro j hij hjc ⟨hjn, hj⟩
  have hbit := hj (i + c - j) (by omega)
  rw [show j + (i + c - j) = i + c by omega, hother (by omega)] at hbit
  simp at hbit

/-- The end of the bits of the other kind that a round counts behind a run that is too short. -/
def gapEnd (map : Bitmap) (size n i : Nat) : Nat :=
  runEnd map size n i + Bao.bitmapCountConsecutive map size (runEnd map size n i) (2 ^ 64 - 1)

theorem findConsecRound_again (hsize : size < 2 ^ 64) (hn : 0 < n) (hi : i < size)
    (hset : map i = set) (hshort : runEnd map size n i < i + n)
    (hin : runEnd map size n i < size ∨ size + 1 < 2 ^ 64) :
    (findConsecRound map size n i).val = .again (u64 (gapEnd map size n i)) := by
  obtain ⟨-, hle, -⟩ := noRun_of_runEnd hn hi hset hshort
  have hcount := val_bitmapCountConsecutive map size i (by omega) n
  have hgap := val_bitmapCountConsecutive map size (runEnd map size n i) (by omega)
    (2 ^ 64 - 1)
  have hrun : u64 (i + Bao.bitmapCountConsecutive map size i n) = runEnd map size n i :=
    u64_of_lt (show runEnd map size n i < 2 ^ 64 by omega)
  simp only [findConsecRound, if_pos hi, Logged.val_bind, Logged.val_ite, Logged.val_pure, hcount,
    hrun, hgap]
  rw [if_pos (by simp only [runEnd] at hshort; omega), gapEnd]

/-- Behind a short run inside the map comes at least one bit of the other kind, and the loop goes on
at the next bit of the asked kind. -/
theorem gapEnd_spec (hsize : size < 2 ^ 64) (hn : 0 < n) (hi : i < size) (hset : map i = set)
    (hshort : runEnd map size n i < i + n) (hin : runEnd map size n i < size) :
    i < gapEnd map size n i ∧ gapEnd map size n i ≤ size ∧ map (gapEnd map size n i - 1) = !set ∧
      (gapEnd map size n i < size → map (gapEnd map size n i) = set) ∧
      NoRun map size n set i (gapEnd map size n i) := by
  obtain ⟨hlt, -, -, hother, hno⟩ := noRun_of_runEnd hn hi hset hshort
  obtain ⟨hpos, -, hend, hrun, hstop⟩ :=
    bitmapCountConsecutive_spec map size (runEnd map size n i) (2 ^ 64 - 1) (by decide)
  unfold gapEnd
  set i₁ := runEnd map size n i
  set c := Bao.bitmapCountConsecutive map size i₁ (2 ^ 64 - 1)
  have hgap : ∀ k < c, map (i₁ + k) = !set := fun k hk => (hrun k hk).trans (hother hin)
  refine ⟨by omega, by omega, ?_, fun h => ?_, ?_⟩
  · have := hgap (c - 1) (by omega)
    rwa [show i₁ + (c - 1) = i₁ + c - 1 by omega] at this
  · have hne := (hstop (by omega)).resolve_left (by omega)
    rw [hother hin] at hne
    simpa using Bool.eq_not.mpr hne
  · refine hno.trans ?_
    rintro j hij hjc ⟨-, hj⟩
    have hbit := hj 0 hn
    have := hgap (j - i₁) (by omega)
    rw [show i₁ + (j - i₁) = j + 0 by omega, hbit] at this
    simp at this

theorem gapEnd_of_end (hend : runEnd map size n i = size) : gapEnd map size n i = size + 1 := by
  simp [gapEnd, hend, Bao.bitmapCountConsecutive, Bao.countConsecutiveLoop]

/-! ## The result -/

/-- What holds at the head of each round: the loop is at a bit of the asked kind or behind the map,
and it has not passed by a run. -/
structure AtRun (map : Bitmap) (size start n : Nat) (set : Bool) (i : Nat) : Prop where
  start_le : start ≤ i
  set_eq : i < size → map i = set
  noRun : NoRun map size n set start i

theorem findNth_le {j : Nat} (h : Bao.bitmapFindNth map size 1 start set = some i)
    (hj : start ≤ j) (hset : map j = set) : i ≤ j := by
  obtain ⟨-, -, -, hcount⟩ := (bitmapFindNth_spec (by decide)).mp h
  by_contra hji
  have h1 := Nat.count_monotone (map · = set) hj
  have h2 := Nat.count_strict_mono (p := (map · = set)) hset (not_le.mp hji)
  omega

theorem atRun_of_findNth (hn : 0 < n) (h : Bao.bitmapFindNth map size 1 start set = some i) :
    AtRun map size start n set i := by
  obtain ⟨hstart, -, hset, -⟩ := (bitmapFindNth_spec (by decide)).mp h
  refine ⟨hstart, fun _ => hset, ?_⟩
  rintro j hj hji ⟨-, hrun⟩
  exact absurd (findNth_le h hj (hrun 0 hn)) (by omega)

theorem AtRun.afterGap (h : AtRun map size start n set i) (hsize : size < 2 ^ 64) (hn : 0 < n)
    (hi : i < size) (hshort : runEnd map size n i < i + n) (hin : runEnd map size n i < size) :
    AtRun map size start n set (gapEnd map size n i) := by
  obtain ⟨hlt, -, -, hset, hno⟩ := gapEnd_spec hsize hn hi (h.set_eq hi) hshort hin
  exact ⟨h.start_le.trans hlt.le, hset, h.noRun.trans hno⟩

/-- `r` is the first run from `start` on, or `-1` where there is none. -/
def FirstRun (map : Bitmap) (size start n : Nat) (set : Bool) (r : Nat) : Prop :=
  (start ≤ r ∧ RunAt map size n set r ∧ ∀ j, start ≤ j → RunAt map size n set j → r ≤ j) ∨
    r = minusOne ∧ ∀ j, start ≤ j → ¬RunAt map size n set j

theorem FirstRun.unique {r r' : Nat} (h : FirstRun map size start n set r)
    (h' : FirstRun map size start n set r') : r = r' := by
  rcases h with ⟨hr, hrun, hmin⟩ | ⟨rfl, hno⟩
  · rcases h' with ⟨hr', hrun', hmin'⟩ | ⟨-, hno'⟩
    · exact le_antisymm (hmin r' hr' hrun') (hmin' r hr hrun)
    · exact absurd hrun (hno' r hr)
  · rcases h' with ⟨hr', hrun', -⟩ | ⟨rfl, -⟩
    · exact absurd hrun' (hno r' hr')
    · rfl

theorem runAt_congr {map' : Bitmap} (hmap : ∀ b < size, map' b = map b) (i : Nat) :
    RunAt map' size n set i ↔ RunAt map size n set i := by
  refine and_congr_right fun hi => forall₂_congr fun k hk => ?_
  rw [hmap (i + k) (by omega)]

theorem firstRun_congr {map' : Bitmap} (hmap : ∀ b < size, map' b = map b) (r : Nat) :
    FirstRun map' size start n set r ↔ FirstRun map size start n set r := by
  simp only [FirstRun, runAt_congr hmap]

theorem AtRun.firstRun_minusOne (h : AtRun map size start n set i) (hn : 0 < n) (hi : size ≤ i) :
    FirstRun map size start n set minusOne := by
  refine .inr ⟨rfl, fun j hj hrun => ?_⟩
  by_cases hji : j < i
  · exact h.noRun j hj hji hrun
  · have := hrun.1
    omega

theorem AtRun.exists_ends (hsize : size < 2 ^ 63) (hn : 0 < n)
    (h : AtRun map size start n set i) :
    ∃ i', Ends (fun i => (findConsecRound map size n i).val) i i' ∧
      FirstRun map size start n set (if size ≤ i' then minusOne else i') := by
  refine Foundation.exists_ends (I := AtRun map size start n set) (fun i => size + 1 - i) ?_ h
  intro i h
  by_cases hi : i < size
  · have hset := h.set_eq hi
    by_cases hshort : runEnd map size n i < i + n
    · right
      obtain ⟨hlt, hle, -, -, hno⟩ := noRun_of_runEnd hn hi hset hshort
      refine ⟨_, findConsecRound_again (by omega) hn hi hset hshort (by omega), ?_⟩
      by_cases hin : runEnd map size n i < size
      · obtain ⟨hgap, hle, -⟩ := gapEnd_spec (by omega) hn hi hset hshort hin
        rw [u64_of_lt (by omega)]
        exact ⟨h.afterGap (by omega) hn hi hshort hin, by omega⟩
      · -- the run touches the end, and the count of the other bits gives 1
        have hend : runEnd map size n i = size := by omega
        rw [gapEnd_of_end hend, u64_of_lt (by omega)]
        rw [hend] at hno
        have hstart := h.start_le
        exact ⟨⟨by omega, fun h => by omega, h.noRun.trans hno⟩, by omega⟩
    · left
      refine ⟨i, findConsecRound_exit (by omega) hi (by omega), ?_⟩
      rw [if_neg (by omega)]
      refine .inl ⟨h.start_le, runAt_of_runEnd hn hi hset (by omega), fun j hj hrun => ?_⟩
      by_contra hji
      exact h.noRun j hj (by omega) hrun
  · left
    refine ⟨i, by simp [findConsecRound, hi], ?_⟩
    rw [if_pos (by omega)]
    exact h.firstRun_minusOne hn (by omega)

theorem exists_findConsec (map : Bitmap) (start : Nat) (set : Bool) (hsize : size < 2 ^ 63)
    (hn : 0 < n) :
    ∃ r, FindConsec map size start n set r ∧ FirstRun map size start n set r := by
  simp only [FindConsec, val_bitmapFindNth]
  cases hfirst : Bao.bitmapFindNth map size 1 start set with
  | none =>
    refine ⟨minusOne, by simp [minusOne], .inr ⟨rfl, fun j hj hrun => ?_⟩⟩
    have hin : j < size := by
      have := hrun.1
      omega
    obtain ⟨i, hi⟩ := exists_bitmapFindNth_one.mpr ⟨j, hin, hj, hrun.2 0 hn⟩
    rw [hfirst] at hi
    cases hi
  | some i =>
    obtain ⟨-, hi, -⟩ := (bitmapFindNth_spec (by decide)).mp hfirst
    obtain ⟨i', hends, hrun⟩ := (atRun_of_findNth hn hfirst).exists_ends hsize hn
    refine ⟨_, ?_, hrun⟩
    rw [Option.getD_some, if_neg (by omega)]
    exact ⟨i', hends, rfl⟩

theorem FindConsec.unique {r r' : Nat} (h : FindConsec map size start n set r)
    (h' : FindConsec map size start n set r') : r = r' := by
  unfold FindConsec at h h'
  dsimp only at h h'
  split at h
  · rename_i hneg
    rw [if_pos hneg] at h'
    rw [h, h']
  · rename_i hpos
    rw [if_neg hpos] at h'
    obtain ⟨i, hends, rfl⟩ := h
    obtain ⟨i', hends', rfl⟩ := h'
    rw [hends.unique hends']

theorem findConsec_iff_firstRun (hsize : size < 2 ^ 63) (hn : 0 < n) (r : Nat) :
    FindConsec map size start n set r ↔ FirstRun map size start n set r := by
  obtain ⟨x, hx, hrun⟩ := exists_findConsec map start set hsize hn
  constructor
  · intro h
    exact hx.unique h ▸ hrun
  · intro h
    exact hrun.unique h ▸ hx

/-- For a map below `2 ^ 63` bits `bitmap_find_consec` returns the first run from `start` on, or
`-1` where there is none, and the bits behind the map do not matter. -/
theorem bitmapFindConsec_first_run (map : Bitmap) (size start n : Nat) (set : Bool)
    (hsize : size < 2 ^ 63) (hn : 1 ≤ n) :
    (∃ r, FindConsec map size start n set r) ∧
      (∀ r, FindConsec map size start n set r ↔ FirstRun map size start n set r) ∧
      ∀ map' : Bitmap, (∀ b < size, map' b = map b) →
        ∀ r, FindConsec map' size start n set r ↔ FindConsec map size start n set r := by
  obtain ⟨r, hr, -⟩ := exists_findConsec map start set hsize hn
  refine ⟨⟨r, hr⟩, findConsec_iff_firstRun hsize hn, fun map' hmap r => ?_⟩
  rw [findConsec_iff_firstRun hsize hn, findConsec_iff_firstRun hsize hn, firstRun_congr hmap]

/-- In the bits 0110 the first two set bits are found at bit 1. -/
theorem bitmapFindConsec_first_run_two :
    FindConsec (Nat.testBit 6) 4 0 2 true 1 ∧ 4 < 2 ^ 63 := by
  refine ⟨((bitmapFindConsec_first_run (Nat.testBit 6) 4 0 2 true (by decide) (by decide)).2.1 1).2
    (.inl ⟨by decide, ⟨by decide, by decide⟩, fun j _ hrun => ?_⟩), by decide⟩
  by_contra hj
  obtain rfl : j = 0 := by omega
  exact absurd (hrun.2 0 (by decide)) (by decide)

/-! ## Reads behind the map -/

/-- The last run touches the end of the map and is too short, as all others are. Where the first bit
of the asked kind is at `2 ^ 63` or above, the search does not begin. -/
def EndsInShortRun (map : Bitmap) (size start n : Nat) (set : Bool) : Prop :=
  2 ≤ n ∧ start < size ∧ map (size - 1) = set ∧ (∀ j, start ≤ j → ¬RunAt map size n set j) ∧
    ∃ i, start ≤ i ∧ i < size ∧ i < 2 ^ 63 ∧ map i = set

theorem all_findConsecRound_iff (hsize : size < 2 ^ 64) (hn : 0 < n) (hi : i < size)
    (hset : map i = set) : (findConsecRound map size n i).All (· < size) ↔
      (runEnd map size n i < i + n → runEnd map size n i < size) := by
  have hcount := val_bitmapCountConsecutive map size i (by omega) n
  have hfirst := (all_bitmapCountConsecutive_iff map hsize i n).2 (.inr hi)
  have hiff : Bao.bitmapCountConsecutive map size i n < n ↔ runEnd map size n i < i + n := by
    simp only [runEnd]
    omega
  simp only [findConsecRound, if_pos hi, Logged.all_bind, Logged.all_ite, Logged.all_pure, hfirst,
    hcount, hiff, true_and, and_true, implies_true]
  refine forall_congr' fun hshort => ?_
  have hle := (noRun_of_runEnd hn hi hset hshort).2.1
  rw [show i + Bao.bitmapCountConsecutive map size i n = runEnd map size n i from rfl,
    u64_of_lt (by omega), all_bitmapCountConsecutive_iff map hsize]
  simp

theorem AtRun.exists_visits_end (hsize : size < 2 ^ 64) (hn : 0 < n)
    (hno : ∀ j, start ≤ j → ¬RunAt map size n set j) (hlast : map (size - 1) = set)
    (h : AtRun map size start n set i) (hi : i < size) :
    ∃ i', Visits (fun i => (findConsecRound map size n i).val) i i' ∧ i' < size ∧ map i' = set ∧
      runEnd map size n i' < i' + n ∧ runEnd map size n i' = size := by
  induction hk : size - i using Nat.strongRecOn generalizing i with
  | ind k ih =>
    have hset := h.set_eq hi
    have hshort : runEnd map size n i < i + n := by
      by_contra hlong
      exact hno i h.start_le (runAt_of_runEnd hn hi hset (by omega))
    have hle := (noRun_of_runEnd hn hi hset hshort).2.1
    by_cases hin : runEnd map size n i < size
    · obtain ⟨hlt, hle, hother, -⟩ := gapEnd_spec hsize hn hi hset hshort hin
      -- the last bit is of the asked kind, so the gap ends before it
      have hgap : gapEnd map size n i < size := by
        refine lt_of_le_of_ne hle fun heq => ?_
        rw [heq, hlast] at hother
        simp at hother
      obtain ⟨i', hvisit, hrest⟩ := ih (size - gapEnd map size n i) (by omega)
        (h.afterGap hsize hn hi hshort hin) hgap rfl
      have hround := findConsecRound_again hsize hn hi hset hshort (.inl hin)
      rw [u64_of_lt (by omega)] at hround
      exact ⟨i', hvisit.head hround, hrest⟩
    · exact ⟨i, .refl, hi, hset, hshort, by omega⟩

/-- A round at a run keeps to the map, unless the map ends in a short run. -/
theorem AtRun.next (hsize : size < 2 ^ 64) (hn : 0 < n) (h : AtRun map size start n set i)
    (hlow : ∃ i, start ≤ i ∧ i < size ∧ i < 2 ^ 63 ∧ map i = set)
    (hends : ¬EndsInShortRun map size start n set) :
    (findConsecRound map size n i).All (· < size) ∧
      ∀ i', (findConsecRound map size n i).val = .again i' → AtRun map size start n set i' := by
  by_cases hi : i < size
  · have hset := h.set_eq hi
    have hin : runEnd map size n i < i + n → runEnd map size n i < size := by
      intro hshort
      obtain ⟨hlt, hle, hlast, -, hno⟩ := noRun_of_runEnd hn hi hset hshort
      refine lt_of_le_of_ne hle fun heq => hends ⟨by omega, ?_, heq ▸ hlast, ?_, hlow⟩
      · have hstart := h.start_le
        omega
      · intro j hj hrun
        have hjn := hrun.1
        exact h.noRun.trans (heq ▸ hno) j hj (by omega) hrun
    refine ⟨(all_findConsecRound_iff hsize hn hi hset).2 hin, fun i' hi' => ?_⟩
    by_cases hshort : runEnd map size n i < i + n
    · obtain ⟨-, hle, -⟩ := gapEnd_spec hsize hn hi hset hshort (hin hshort)
      rw [findConsecRound_again hsize hn hi hset hshort (.inl (hin hshort)),
        u64_of_lt (by omega)] at hi'
      cases hi'
      exact h.afterGap hsize hn hi hshort (hin hshort)
    · rw [findConsecRound_exit hsize hi (by omega)] at hi'
      cases hi'
  · simp [findConsecRound, hi]

theorem all_findConsecRound_zero (map : Bitmap) (size i : Nat) :
    (findConsecRound map size 0 i).All (· < size) := by
  simp [findConsecRound, bitmapCountConsecutive]

/-- Every `bitmap_get` of `bitmap_find_consec` is inside the map, unless the map ends in a run that
is too short and there is no long enough one. -/
theorem findConsecReads_lt_iff (map : Bitmap) (size start n : Nat) (set : Bool)
    (hsize : size < 2 ^ 64) :
    (∀ b, FindConsecReads map size start n set b → b < size) ↔
      ¬EndsInShortRun map size start n set := by
  simp only [FindConsecReads, val_bitmapFindNth]
  constructor
  · rintro hreads ⟨hn, -, hlast, hno, i, hi, hin, hlow, hset⟩
    obtain ⟨i₀, hfirst⟩ := exists_bitmapFindNth_one.mpr ⟨i, hin, hi, hset⟩
    have hle := findNth_le hfirst hi hset
    obtain ⟨i', hvisit, hi', hset', hshort, hend⟩ :=
      (atRun_of_findNth (by omega) hfirst).exists_visits_end hsize (by omega) hno hlast (by omega)
    have hall : (findConsecRound map size n i').All (· < size) := fun b hb =>
      hreads b (.inr ⟨by rw [hfirst, Option.getD_some]; omega, i', by rwa [hfirst], hb⟩)
    exact absurd ((all_findConsecRound_iff hsize (by omega) hi' hset').1 hall hshort) (by omega)
  · rintro hends b (hb | ⟨hlow, i', hvisit, hb⟩)
    · exact all_bitmapFindNth map size 1 start set b hb
    · obtain rfl | hn := n.eq_zero_or_pos
      · exact all_findConsecRound_zero map size i' b hb
      · cases hfirst : Bao.bitmapFindNth map size 1 start set with
        | none =>
          rw [hfirst] at hlow
          exact absurd hlow (by decide)
        | some i =>
          rw [hfirst, Option.getD_some] at hlow hvisit
          obtain ⟨hstart, hin, hset, -⟩ := (bitmapFindNth_spec (by decide)).mp hfirst
          have hnext := fun j (hj : AtRun map size start n set j) =>
            hj.next hsize hn ⟨i, hstart, hin, hlow, hset⟩ hends
          have hat := hvisit.invariant (fun s t hs ht => (hnext s hs).2 t ht)
            (atRun_of_findNth hn hfirst)
          exact (hnext i' hat).1 b hb

/-- In the bits 0110 the last bit is clear. -/
theorem findConsecReads_lt_two : 4 < 2 ^ 64 ∧
    ∀ b, FindConsecReads (Nat.testBit 6) 4 0 2 true b → b < 4 :=
  ⟨by decide, (findConsecReads_lt_iff _ 4 0 2 true (by decide)).2 fun h =>
    absurd h.2.2.1 (by decide)⟩

/-- In a map of 32 bits with only the last bit set, the search for two set bits reads bit 32. -/
theorem findConsecReads_behind :
    FindConsecReads (fun b => decide (b = 31)) 32 0 2 true 32 := by
  refine .inr ⟨by decide, 31, .refl, ?_⟩
  decide

end Bao.BitmapSearch
