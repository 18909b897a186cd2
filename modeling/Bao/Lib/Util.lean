import Mathlib.Order.Basic
import Mathlib.Data.Nat.Basic
import Mathlib.Algebra.Order.Ring.Nat

/-!
# Macros of `util.h`

Addresses and sizes are natural numbers; `u64` marks the places where the C expression wraps around
at 64 bits. The range tests wrap as the macros do, so their users owe a bound on the end of a range.
-/

namespace Bao

/-- Unsigned 64-bit wrap-around. -/
def u64 (x : Nat) : Nat := x % 2 ^ 64

theorem u64_of_lt {x : Nat} (h : x < 2 ^ 64) : u64 x = x := Nat.mod_eq_of_lt h

theorem u64_lt (x : Nat) : u64 x < 2 ^ 64 := Nat.mod_lt _ (by decide)

def pageSize : Nat := 0x1000

/-- `ALIGN(VAL, TO)`: the first multiple of `unit` that is not below `val`. -/
def align (val unit : Nat) : Nat := u64 (u64 (val + unit - 1) / unit * unit)

/-- `NUM_PAGES(SZ)`. -/
def numPages (sz : Nat) : Nat := align sz pageSize / pageSize

/-- `range_in_range`: the macro warns that it does not check for overflow. -/
def rangeInRange (base1 size1 base2 size2 : Nat) : Bool :=
  base2 ≤ base1 && u64 (base1 + size1) ≤ u64 (base2 + size2)

/-- `in_range`: the end of the range counts as inside it. -/
def inRange (addr base size : Nat) : Bool := rangeInRange addr 0 base size

theorem align_eq {val unit : Nat} (h : val + unit ≤ 2 ^ 64) :
    align val unit = (val + unit - 1) / unit * unit := by
  have hlt : val + unit - 1 < 2 ^ 64 := by omega
  have hle := Nat.div_mul_le_self (val + unit - 1) unit
  rw [align, u64_of_lt hlt, u64_of_lt (by omega)]

/-- Rounding up a value of the `k`-th block of length `unit` gives the end of that block. -/
theorem align_eq_mul {val unit k : Nat} (h : val + unit ≤ 2 ^ 64) (lo : k * unit < val)
    (hi : val ≤ (k + 1) * unit) : align val unit = (k + 1) * unit := by
  rw [align_eq h]
  congr 1
  apply Nat.div_eq_of_lt_le
  · rw [Nat.add_mul] at *; omega
  · rw [Nat.add_mul, Nat.add_mul] at *; omega

theorem rangeInRange_iff {base1 size1 base2 size2 : Nat} (h1 : base1 + size1 < 2 ^ 64)
    (h2 : base2 + size2 < 2 ^ 64) : rangeInRange base1 size1 base2 size2 = true ↔
      base2 ≤ base1 ∧ base1 + size1 ≤ base2 + size2 := by
  simp only [rangeInRange, u64_of_lt h1, u64_of_lt h2, Bool.and_eq_true, decide_eq_true_eq]

theorem align_of_mod {val : Nat} (h : val + pageSize ≤ 2 ^ 64) (hmod : val % pageSize = 0) :
    align val pageSize = val := by
  rw [align_eq h]
  simp only [pageSize] at *
  omega

theorem align_mod (val : Nat) : align val pageSize % pageSize = 0 := by
  simp only [align, u64, pageSize]
  omega

theorem numPages_of_mod {sz : Nat} (h : sz + pageSize ≤ 2 ^ 64) (hmod : sz % pageSize = 0) :
    numPages sz = sz / pageSize := by
  rw [numPages, align_of_mod h hmod]

theorem numPages_mul {sz : Nat} (h : sz + pageSize ≤ 2 ^ 64) (hmod : sz % pageSize = 0) :
    numPages sz * pageSize = sz := by
  rw [numPages_of_mod h hmod, Nat.div_mul_cancel (Nat.dvd_of_mod_eq_zero hmod)]

/-! ### Results of functions that may not come back -/

section Result

variable {ε α β : Type*} {x : Except ε α} {b : β}

theorem map_eq_ok {f : α → β} : x.map f = .ok b ↔ ∃ a, x = .ok a ∧ f a = b := by
  cases x <;> simp [Except.map]

theorem bind_eq_ok {f : α → Except ε β} : x.bind f = .ok b ↔ ∃ a, x = .ok a ∧ f a = .ok b := by
  cases x <;> simp [Except.bind]

theorem toOption_eq_some {a : α} : x.toOption = some a ↔ x = .ok a := by
  cases x <;> simp [Except.toOption]

theorem ne_error_of_isOk {e : ε} (h : x.isOk = true) : x ≠ .error e := by
  rintro rfl
  cases h

end Result

end Bao
