import Mathlib.Data.Nat.Count
import Mathlib.Logic.Function.Basic

/-!
# Bitmaps

The functions of `bitmap.h` and `bitmap.c` over a reader of bits. A `bitmap_t` is a bare pointer, so
nothing here knows how many bits belong to the map: the callers pass a size, and reading or writing
past it reaches whatever memory follows.

Every loop counts down the bits that are left, so the functions evaluate. The `_spec` lemmas say
what each search returns; later modules use only those.
-/

namespace Bao

abbrev Bitmap := Nat → Bool

def bitmapWrite (v : Bool) (map : Bitmap) (bit : Nat) : Bitmap := Function.update map bit v

def bitmapSet : Bitmap → Nat → Bitmap := bitmapWrite true

def bitmapClear : Bitmap → Nat → Bitmap := bitmapWrite false

theorem bitmapClear_apply (map : Bitmap) (bit i : Nat) :
    bitmapClear map bit i = if i = bit then false else map i :=
  Function.update_apply ..

def bitmapWriteConsecutive (v : Bool) (map : Bitmap) (start : Nat) : Nat → Bitmap
  | 0 => map
  | n + 1 => bitmapWrite v (bitmapWriteConsecutive v map start n) (start + n)

def bitmapSetConsecutive : Bitmap → Nat → Nat → Bitmap := bitmapWriteConsecutive true

def bitmapClearConsecutive : Bitmap → Nat → Nat → Bitmap := bitmapWriteConsecutive false

theorem bitmapWriteConsecutive_apply (v : Bool) (map : Bitmap) (start n i : Nat) :
    bitmapWriteConsecutive v map start n i =
      if start ≤ i ∧ i < start + n then v else map i := by
  induction n with
  | zero => rw [if_neg (by omega)]; rfl
  | succ n ih =>
    simp only [bitmapWriteConsecutive, bitmapWrite]
    by_cases hi : i = start + n
    · subst hi
      rw [Function.update_self, if_pos (by omega)]
    · rw [Function.update_of_ne hi, ih]
      have : (start ≤ i ∧ i < start + n) ↔ (start ≤ i ∧ i < start + (n + 1)) := by omega
      simp only [this]

@[simp] theorem bitmapSetConsecutive_apply (map : Bitmap) (start n i : Nat) :
    bitmapSetConsecutive map start n i = if start ≤ i ∧ i < start + n then true else map i :=
  bitmapWriteConsecutive_apply true map start n i

@[simp] theorem bitmapClearConsecutive_apply (map : Bitmap) (start n i : Nat) :
    bitmapClearConsecutive map start n i = if start ≤ i ∧ i < start + n then false else map i :=
  bitmapWriteConsecutive_apply false map start n i

/-- The loop of `bitmap_count`, with `left` bits still to look at. -/
def bitmapCountLoop (map : Bitmap) (set : Bool) : (left i count : Nat) → Nat
  | 0, _, count => count
  | left + 1, i, count =>
    bitmapCountLoop map set left (i + 1) (if map i = set then count + 1 else count)

def bitmapCount (map : Bitmap) (start n : Nat) (set : Bool) : Nat :=
  bitmapCountLoop map set (n - start) start 0

theorem bitmapCountLoop_eq (map : Bitmap) (set : Bool) (left i : Nat) :
    bitmapCountLoop map set left i (Nat.count (map · = set) i) =
      Nat.count (map · = set) (i + left) := by
  induction left generalizing i with
  | zero => rfl
  | succ left ih =>
    have hcount : (if map i = set then Nat.count (map · = set) i + 1
        else Nat.count (map · = set) i) = Nat.count (map · = set) (i + 1) := by
      rw [Nat.count_succ]
      split <;> rfl
    rw [bitmapCountLoop, hcount, ih]
    congr 1
    omega

theorem bitmapCount_zero (map : Bitmap) (n : Nat) (set : Bool) :
    bitmapCount map 0 n set = Nat.count (map · = set) n := by
  simpa [bitmapCount] using bitmapCountLoop_eq map set n 0

/-- The number of set bits of a 64-bit mask. -/
def popcount (mask : Nat) : Nat := Nat.count (fun c => mask.testBit c = true) 64

theorem popcount_le (mask : Nat) : popcount mask ≤ 64 := Nat.count_le _

/-! ## The `nth` bit of a kind -/

/-- The loop of `bitmap_find_nth`, with `left` bits to go from `i`. -/
def findNthLoop (map : Bitmap) (nth : Nat) (set : Bool) : (left i count : Nat) → Option Nat
  | 0, _, _ => none
  | left + 1, i, count =>
    if map i = set then
      if count + 1 = nth then some i else findNthLoop map nth set left (i + 1) (count + 1)
    else findNthLoop map nth set left (i + 1) count

/-- `bitmap_find_nth`, with `none` for the result `-1`. -/
def bitmapFindNth (map : Bitmap) (size nth start : Nat) (set : Bool) : Option Nat :=
  if size = 0 ∨ nth = 0 then none else findNthLoop map nth set (size - start) start 0

variable {map : Bitmap} {i j size start n : Nat} {set : Bool}

theorem findNthLoop_spec {nth left count : Nat} :
    findNthLoop map nth set left i count = some j ↔ i ≤ j ∧ j < i + left ∧ map j = set ∧
      count + Nat.count (map · = set) j + 1 = nth + Nat.count (map · = set) i := by
  induction left generalizing i count with
  | zero => simp [findNthLoop]; omega
  | succ left ih =>
    simp only [findNthLoop]
    have hsucc := Nat.count_succ (map · = set) i
    -- Everything after `i` has a rank that counts bit `i`.
    have hmono : ∀ j, i + 1 ≤ j →
        Nat.count (map · = set) (i + 1) ≤ Nat.count (map · = set) j :=
      fun j hj => Nat.count_monotone _ hj
    split
    · rename_i hi
      rw [if_pos hi] at hsucc
      split
      · rename_i hc
        simp only [Option.some.injEq]
        constructor
        · rintro rfl; exact ⟨le_rfl, by omega, hi, by omega⟩
        · rintro ⟨hij, -, -, hcount⟩
          by_contra hne
          have := hmono j (by omega)
          omega
      · rename_i hc
        rw [ih]
        constructor
        · rintro ⟨hij, hj, hm, hcount⟩; exact ⟨by omega, by omega, hm, by omega⟩
        · rintro ⟨hij, hj, hm, hcount⟩
          have hne : i ≠ j := by rintro rfl; omega
          exact ⟨by omega, by omega, hm, by omega⟩
    · rename_i hi
      rw [if_neg hi] at hsucc
      rw [ih]
      constructor
      · rintro ⟨hij, hj, hm, hcount⟩; exact ⟨by omega, by omega, hm, by omega⟩
      · rintro ⟨hij, hj, hm, hcount⟩
        have hne : i ≠ j := by rintro rfl; exact hi hm
        exact ⟨by omega, by omega, hm, by omega⟩

/-- `bitmap_find_nth` returns the bit of the asked kind that has `nth - 1` of them before it, from
`start` on. -/
theorem bitmapFindNth_spec {nth : Nat} (hn : 0 < nth) :
    bitmapFindNth map size nth start set = some j ↔ start ≤ j ∧ j < size ∧ map j = set ∧
      Nat.count (map · = set) j + 1 = nth + Nat.count (map · = set) start := by
  unfold bitmapFindNth
  by_cases hs : size = 0
  · simp [hs]
  · rw [if_neg (by omega), findNthLoop_spec]
    constructor <;> rintro ⟨h1, h2, h3, h4⟩ <;> exact ⟨h1, by omega, h3, by omega⟩

theorem exists_bitmapFindNth_one :
    (∃ j, bitmapFindNth map size 1 start set = some j) ↔ ∃ i < size, start ≤ i ∧ map i = set := by
  constructor
  · rintro ⟨j, hj⟩
    obtain ⟨hstart, hsize, hset, -⟩ := (bitmapFindNth_spec (by decide)).mp hj
    exact ⟨j, hsize, hstart, hset⟩
  · rintro ⟨i, hi, hstart, hset⟩
    have hex : ∃ k, map (start + k) = set := ⟨i - start, by rwa [Nat.add_sub_cancel' hstart]⟩
    have hle : Nat.find hex ≤ i - start := Nat.find_min' hex (by rwa [Nat.add_sub_cancel' hstart])
    refine ⟨start + Nat.find hex, (bitmapFindNth_spec (by decide)).mpr
      ⟨by omega, by omega, Nat.find_spec hex, ?_⟩⟩
    rw [Nat.count_add, Nat.count_of_forall_not fun k hk => Nat.find_min hex hk]
    omega

/-! ## Runs of equal bits -/

/-- The loop of `bitmap_count_consecutive`, with `left` bits to go from `start`. -/
def countConsecutiveLoop (map : Bitmap) (b : Bool) (n : Nat) : (left start count : Nat) → Nat
  | 0, _, count => count
  | left + 1, start, count =>
    if map start = b then
      if count + 1 = n then count + 1
      else countConsecutiveLoop map b n left (start + 1) (count + 1)
    else count

def bitmapCountConsecutive (map : Bitmap) (size start n : Nat) : Nat :=
  if n ≤ 1 then n
  else countConsecutiveLoop map (map start) n (size - (start + 1)) (start + 1) 1

/-- The loop counts a run of bits equal to `b` that ends at `n`, at the last bit or before a bit of
the other kind. -/
theorem countConsecutiveLoop_spec (map : Bitmap) (b : Bool) (n left start count : Nat)
    (hn : count < n) :
    let c := countConsecutiveLoop map b n left start count
    count ≤ c ∧ c ≤ n ∧ c ≤ count + left ∧ (∀ k < c - count, map (start + k) = b) ∧
      (c < n → c = count + left ∨ map (start + (c - count)) ≠ b) := by
  induction left generalizing start count with
  | zero => simp [countConsecutiveLoop]; omega
  | succ left ih =>
    simp only [countConsecutiveLoop]
    split
    · rename_i hb
      split
      · rename_i hc
        refine ⟨by omega, by omega, by omega, ?_, fun h => by omega⟩
        intro k hk
        obtain rfl : k = 0 := by omega
        simpa using hb
      · rename_i hc
        obtain ⟨h1, h2, h3, h4, h5⟩ := ih (start + 1) (count + 1) (by omega)
        refine ⟨by omega, h2, by omega, ?_, fun hlt => ?_⟩
        · intro k hk
          cases k with
          | zero => simpa using hb
          | succ k => simpa [Nat.add_assoc, Nat.add_comm 1 k] using h4 k (by omega)
        · refine (h5 hlt).imp (by omega) fun h => ?_
          have : start + 1 + (countConsecutiveLoop map b n left (start + 1) (count + 1) -
              (count + 1)) = start + (countConsecutiveLoop map b n left (start + 1) (count + 1) -
              count) := by omega
          rwa [this] at h
    · rename_i hb
      exact ⟨le_rfl, by omega, by omega, by simp, fun _ => .inr (by simpa using hb)⟩

theorem bitmapCountConsecutive_spec (map : Bitmap) (size start n : Nat) (hn : 0 < n) :
    let c := bitmapCountConsecutive map size start n
    0 < c ∧ c ≤ n ∧ (c = 1 ∨ start + c ≤ size) ∧ (∀ k < c, map (start + k) = map start) ∧
      (c < n → size ≤ start + c ∨ map (start + c) ≠ map start) := by
  unfold bitmapCountConsecutive
  split
  · obtain rfl : n = 1 := by omega
    simp
  · obtain ⟨h1, h2, h3, h4, h5⟩ := countConsecutiveLoop_spec map (map start) n
      (size - (start + 1)) (start + 1) 1 (by omega)
    refine ⟨by omega, h2, by omega, ?_, fun hlt => (h5 hlt).imp (by omega) fun h => ?_⟩
    · intro k hk
      cases k with
      | zero => rfl
      | succ k => simpa [Nat.add_assoc, Nat.add_comm 1 k] using h4 k (by omega)
    · have : start + 1 + (countConsecutiveLoop map (map start) n (size - (start + 1))
          (start + 1) 1 - 1) = start + countConsecutiveLoop map (map start) n
          (size - (start + 1)) (start + 1) 1 := by omega
      rwa [this] at h

/-! ## The first run that is long enough -/

/-- The loop of `bitmap_find_consec`: the value of `i` when it ends. `left` bounds the bits from `i`
on, and each round moves `i`. -/
def findConsecLoop (map : Bitmap) (size n : Nat) : (left i : Nat) → Nat
  | 0, i => i
  | left + 1, i =>
    if i < size then
      let count := bitmapCountConsecutive map size i n
      if count < n then
        let i := i + count
        findConsecLoop map size n left (i + bitmapCountConsecutive map size i (2 ^ 64 - 1))
      else i
    else i

/-- `bitmap_find_consec`, with `none` for the result `-1`. -/
def bitmapFindConsec (map : Bitmap) (size start n : Nat) (set : Bool) : Option Nat :=
  match bitmapFindNth map size 1 start set with
  | none => none
  | some i =>
    let i := findConsecLoop map size n (size - i) i
    if size ≤ i then none else some i

/-- At the head of each round `i` is a bit of the asked kind or past the end, so a round that ends
the loop inside the map has counted `n` of them. -/
theorem findConsecLoop_spec (map : Bitmap) (size n left i : Nat) (set : Bool) (hn : 0 < n)
    (hsize : size < 2 ^ 64 - 1) (hleft : size ≤ i + left) (hi : i < size → map i = set) :
    let j := findConsecLoop map size n left i
    i ≤ j ∧ (j < size → j + n ≤ size ∧ ∀ k < n, map (j + k) = set) := by
  induction left generalizing i with
  | zero => exact ⟨le_rfl, fun h => by simp only [findConsecLoop] at h; omega⟩
  | succ left ih =>
    simp only [findConsecLoop]
    split
    · rename_i hlt
      obtain ⟨h1, h2, h3, h4, h5⟩ := bitmapCountConsecutive_spec map size i n hn
      split
      · rename_i hc
        set i₁ := i + bitmapCountConsecutive map size i n with hi₁
        obtain ⟨g1, g2, g3, g4, g5⟩ :=
          bitmapCountConsecutive_spec map size i₁ (2 ^ 64 - 1) (by decide)
        have hmid : i₁ < size → map i₁ = !set := by
          intro h
          have := (h5 hc).resolve_left (by omega)
          rw [hi hlt] at this
          exact Bool.eq_not.mpr this
        obtain ⟨r1, r2⟩ := ih (i₁ + bitmapCountConsecutive map size i₁ (2 ^ 64 - 1)) (by omega) (by
          intro h
          have := (g5 (by omega)).resolve_left (by omega)
          rw [hmid (by omega)] at this
          simpa using Bool.eq_not.mpr this)
        exact ⟨by omega, r2⟩
      · rename_i hc
        have hcount : bitmapCountConsecutive map size i n = n := by omega
        rw [hcount] at h3 h4
        exact ⟨le_rfl, fun _ => ⟨by omega, fun k hk => (h4 k hk).trans (hi hlt)⟩⟩
    · rename_i hlt
      exact ⟨le_rfl, fun h => absurd h hlt⟩

/-- A run that `bitmap_find_consec` returns lies inside the map, not before `start`, and consists of
bits of the asked kind. -/
theorem bitmapFindConsec_sound (hn : 0 < n) (hsize : size < 2 ^ 64 - 1)
    (h : bitmapFindConsec map size start n set = some i) :
    start ≤ i ∧ i + n ≤ size ∧ ∀ k < n, map (i + k) = set := by
  unfold bitmapFindConsec at h
  split at h
  · cases h
  · rename_i i₀ hfirst
    obtain ⟨hstart, -, hset, -⟩ := (bitmapFindNth_spec (by decide)).mp hfirst
    obtain ⟨r1, r2⟩ := findConsecLoop_spec map size n (size - i₀) i₀ set hn hsize (by omega)
      (fun _ => hset)
    dsimp only at h
    split at h
    · cases h
    · rename_i hin
      cases h
      exact ⟨by omega, r2 (by omega)⟩

/-- `n` bits of the kind `set` begin at bit `i`, inside a map of `size` bits. -/
def RunAt (map : Bitmap) (size n : Nat) (set : Bool) (i : Nat) : Prop :=
  i + n ≤ size ∧ ∀ k < n, map (i + k) = set

/-- The loop does not pass by a run: the bit that ends a short run, and the bits of the other kind
behind it, are in no run of length `n`. -/
theorem findConsecLoop_le {left : Nat} (hn : 0 < n) (hsize : size < 2 ^ 64 - 1) (hi : map i = set)
    (hij : i ≤ j) (hj : RunAt map size n set j) : findConsecLoop map size n left i ≤ j := by
  obtain ⟨hend, hrun⟩ := hj
  induction left generalizing i with
  | zero => exact hij
  | succ left ih =>
    simp only [findConsecLoop]
    rw [if_pos (by omega)]
    obtain ⟨h1, h2, h3, h4, h5⟩ := bitmapCountConsecutive_spec map size i n hn
    split
    · rename_i hc
      set i₁ := i + bitmapCountConsecutive map size i n with hi₁
      have hmid : i₁ < size ∧ map i₁ ≠ set := by
        have hin : ¬ size ≤ i₁ := by omega
        exact ⟨by omega, hi ▸ (h5 hc).resolve_left hin⟩
      have hpast : i₁ < j := by
        by_contra hle
        exact hmid.2 (by simpa [show j + (i₁ - j) = i₁ by omega] using hrun (i₁ - j) (by omega))
      obtain ⟨g1, g2, g3, g4, g5⟩ :=
        bitmapCountConsecutive_spec map size i₁ (2 ^ 64 - 1) (by decide)
      set i₂ := i₁ + bitmapCountConsecutive map size i₁ (2 ^ 64 - 1) with hi₂
      have hle : i₂ ≤ j := by
        by_contra hlt
        have hother := g4 (j - i₁) (by omega)
        rw [show i₁ + (j - i₁) = j by omega] at hother
        exact hmid.2 (hother ▸ hrun 0 hn)
      refine ih ?_ hle
      have hnext := (g5 (by omega)).resolve_left (by omega)
      cases set <;> simp_all
    · exact hij

/-- A run is found, unless there is one before it. -/
theorem bitmapFindConsec_complete (hn : 0 < n) (hsize : size < 2 ^ 64 - 1) (hstart : start ≤ j)
    (hj : RunAt map size n set j) : ∃ i ≤ j, bitmapFindConsec map size start n set = some i := by
  have hset : map j = set := hj.2 0 hn
  have hin : j < size := by have := hj.1; omega
  obtain ⟨i₀, hfirst⟩ := exists_bitmapFindNth_one.mpr ⟨j, hin, hstart, hset⟩
  obtain ⟨hlo, -, hi₀, hcount⟩ := (bitmapFindNth_spec (by decide)).mp hfirst
  have hle : i₀ ≤ j := by
    by_contra hlt
    have h1 := Nat.count_monotone (map · = set) hstart
    have h2 := Nat.count_strict_mono (p := (map · = set)) hset (show j < i₀ by omega)
    omega
  have hend : findConsecLoop map size n (size - i₀) i₀ ≤ j :=
    findConsecLoop_le hn hsize hi₀ hle hj
  refine ⟨_, hend, ?_⟩
  simp only [bitmapFindConsec, hfirst]
  rw [if_neg (by omega)]

/-- No run begins between `start` and the run that is found. -/
theorem bitmapFindConsec_first (hn : 0 < n) (hsize : size < 2 ^ 64 - 1)
    (h : bitmapFindConsec map size start n set = some i) (hstart : start ≤ j)
    (hj : RunAt map size n set j) : i ≤ j := by
  obtain ⟨i', hle, hi'⟩ := bitmapFindConsec_complete hn hsize hstart hj
  rw [h] at hi'
  exact Option.some.inj hi' ▸ hle

end Bao
