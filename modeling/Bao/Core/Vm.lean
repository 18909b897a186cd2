import Mathlib.Data.Nat.Bitwise
import Mathlib.Data.Set.Function
import Bao.Lib.Util
import Bao.Lib.Bitmap

/-!
# Virtual and physical cpu numbers

The virtual cpu `v` of a VM runs on the physical cpu that is the `v + 1`-st set bit of `vm->cpus`.
A set of virtual cpus, given by the bits of a number, thus has a set of physical cpus as its image;
two numbers have the same image exactly when they agree on as many bits as the VM has cpus.

A cpu finds its own virtual number with a loop of its own when its virtual cpu is created, and the
numbers of others by counting. All of these are one bijection.
-/

namespace Bao

/-- `vm_translate_to_pcpuid`, with `none` for the result `-1`. -/
def vmTranslateToPcpuid (cpus vcpuid : Nat) : Option Nat :=
  bitmapFindNth cpus.testBit 64 (u64 (vcpuid + 1)) 0 true

def vmTranslateToVcpuid (cpus pcpuid : Nat) : Nat :=
  bitmapCount cpus.testBit 0 pcpuid true

/-- The loop of `vm_vcpu_init` that finds `vcpu->id`, from `offset` on with `left` steps to
`cpu.id`. The loop may end before, and the id is then the 0 that the memory was cleared to. -/
def vcpuIdLoop (cpus cpuNum : Nat) : (left count offset : Nat) → Nat
  | 0, count, _ => if count < cpuNum then count else 0
  | left + 1, count, offset =>
    if count < cpuNum then
      vcpuIdLoop cpus cpuNum left (if cpus.testBit offset then count + 1 else count) (offset + 1)
    else 0

/-- The `vcpu->id` that `vm_vcpu_init` gives to the virtual cpu on the cpu `cpuId`. -/
def vmVcpuInit (cpus cpuNum cpuId : Nat) : Nat := vcpuIdLoop cpus cpuNum cpuId 0 0

/-- The loop of `vm_translate_to_pcpu_mask` over the first `len` bits. -/
def vmTranslateToPcpuMask (cpus mask : Nat) : (len : Nat) → Nat
  | 0 => 0
  | i + 1 =>
    let pmask := vmTranslateToPcpuMask cpus mask i
    if mask.testBit i then
      match vmTranslateToPcpuid cpus i with
      | some shift => pmask ||| 1 <<< shift
      | none => pmask
    else pmask

/-- The loop of `vm_translate_to_vcpu_mask` over the first `len` bits. Its test that the translation
is not negative always passes, because the translation is a count. -/
def vmTranslateToVcpuMask (cpus mask : Nat) : (len : Nat) → Nat
  | 0 => 0
  | i + 1 =>
    let pmask := vmTranslateToVcpuMask cpus mask i
    if mask.testBit i then pmask ||| 1 <<< vmTranslateToVcpuid cpus i else pmask

variable {cpus v p : Nat}

/-- The physical cpu of `v` is the one with `v` cpus of the VM before it. -/
theorem vmTranslateToPcpuid_spec (hv : v < 2 ^ 64) :
    vmTranslateToPcpuid cpus v = some p ↔
      p < 64 ∧ cpus.testBit p = true ∧ Nat.count (cpus.testBit · = true) p = v := by
  unfold vmTranslateToPcpuid
  by_cases hwrap : v + 1 < 2 ^ 64
  · rw [u64_of_lt hwrap, bitmapFindNth_spec (by omega)]
    simp only [Nat.zero_le, true_and, Nat.count_zero]
    refine and_congr_right fun _ => and_congr_right fun _ => by omega
  · -- The argument wraps to 0, and no VM has that many cpus.
    obtain rfl : v = 2 ^ 64 - 1 := by omega
    have hcount : Nat.count (cpus.testBit · = true) p ≤ p := Nat.count_le _
    have hzero : u64 (2 ^ 64 - 1 + 1) = 0 := by decide
    simp only [hzero, bitmapFindNth, or_true, if_true, reduceCtorEq, false_iff]
    omega

theorem vmTranslateToPcpuid_mod (cpus v : Nat) :
    vmTranslateToPcpuid cpus (v % 2 ^ 64) = vmTranslateToPcpuid cpus v := by
  simp [vmTranslateToPcpuid, u64]

theorem vmTranslateToPcpuid_testBit (h : vmTranslateToPcpuid cpus v = some p) :
    cpus.testBit p = true := by
  rw [← vmTranslateToPcpuid_mod] at h
  exact ((vmTranslateToPcpuid_spec (Nat.mod_lt v (by decide))).mp h).2.1

theorem vmTranslateToPcpuid_lt_popcount (hv : v < 2 ^ 64)
    (h : vmTranslateToPcpuid cpus v = some p) : v < popcount cpus := by
  obtain ⟨hp, hbit, rfl⟩ := (vmTranslateToPcpuid_spec hv).mp h
  exact Nat.count_strict_mono hbit hp

theorem exists_count_eq {P : Nat → Prop} [DecidablePred P] {n : Nat} (h : v < Nat.count P n) :
    ∃ k < n, P k ∧ Nat.count P k = v := by
  induction n with
  | zero => simp at h
  | succ n ih =>
    by_cases hlt : v < Nat.count P n
    · obtain ⟨k, hk, hP, hv⟩ := ih hlt
      exact ⟨k, by omega, hP, hv⟩
    · rw [Nat.count_succ] at h
      by_cases hP : P n
      · rw [if_pos hP] at h
        exact ⟨n, by omega, hP, by omega⟩
      · rw [if_neg hP] at h; omega

theorem exists_vmTranslateToPcpuid (h : v < popcount cpus) :
    ∃ p, vmTranslateToPcpuid cpus v = some p := by
  have hpop := popcount_le cpus
  obtain ⟨p, hp, hbit, hcount⟩ := exists_count_eq h
  exact ⟨p, (vmTranslateToPcpuid_spec (by omega)).mpr ⟨hp, hbit, hcount⟩⟩

/-- The physical cpus of the virtual cpus that are bits of `mask`. -/
def OnPcpu (cpus mask p : Nat) : Prop :=
  ∃ v < 2 ^ 64, mask.testBit v = true ∧ vmTranslateToPcpuid cpus v = some p

theorem onPcpu_iff_of_translate {mask : Nat} (hv : v < 2 ^ 64)
    (h : vmTranslateToPcpuid cpus v = some p) : OnPcpu cpus mask p ↔ mask.testBit v = true := by
  refine ⟨?_, fun hbit => ⟨v, hv, hbit, h⟩⟩
  rintro ⟨w, hw, hbit, htrans⟩
  have hsame : w = v := ((vmTranslateToPcpuid_spec hw).mp htrans).2.2.symm.trans
    ((vmTranslateToPcpuid_spec hv).mp h).2.2
  exact hsame ▸ hbit

theorem onPcpu_congr_iff (cpus mask mask' : Nat) :
    (∀ p, OnPcpu cpus mask p ↔ OnPcpu cpus mask' p) ↔
      mask % 2 ^ popcount cpus = mask' % 2 ^ popcount cpus := by
  have hpop := popcount_le cpus
  constructor
  · intro h
    refine Nat.eq_of_testBit_eq fun v => ?_
    simp only [Nat.testBit_mod_two_pow]
    by_cases hv : v < popcount cpus
    · obtain ⟨p, hp⟩ := exists_vmTranslateToPcpuid hv
      have := h p
      rw [onPcpu_iff_of_translate (by omega) hp, onPcpu_iff_of_translate (by omega) hp] at this
      simp only [hv, decide_true, Bool.true_and]
      exact Bool.eq_iff_iff.mpr this
    · simp [hv]
  · intro h p
    refine exists_congr fun v => and_congr_right fun hv => and_congr_left fun htrans => ?_
    have hlt := vmTranslateToPcpuid_lt_popcount hv htrans
    have hbit := congrArg (Nat.testBit · v) h
    simp only [Nat.testBit_mod_two_pow, hlt, decide_true, Bool.true_and] at hbit
    rw [hbit]

theorem vmTranslateToPcpuMask_testBit (cpus mask len p : Nat) :
    (vmTranslateToPcpuMask cpus mask len).testBit p = true ↔
      ∃ v < len, mask.testBit v = true ∧ vmTranslateToPcpuid cpus v = some p := by
  induction len with
  | zero => simp [vmTranslateToPcpuMask]
  | succ i ih =>
    rw [Nat.exists_lt_succ_right, ← ih]
    simp only [vmTranslateToPcpuMask]
    split
    · rename_i hbit
      cases htrans : vmTranslateToPcpuid cpus i with
      | none => simp
      | some shift =>
        simp only [Nat.testBit_or, Nat.one_shiftLeft, Nat.testBit_two_pow, Bool.or_eq_true,
          decide_eq_true_eq, hbit, true_and, Option.some.injEq]
    · rename_i hbit
      simp [hbit]

/-! ### The numbering -/

theorem vmTranslateToVcpuid_eq (cpus p : Nat) :
    vmTranslateToVcpuid cpus p = Nat.count (cpus.testBit · = true) p :=
  bitmapCount_zero ..

theorem vcpuIdLoop_eq {cpuNum : Nat} (left offset : Nat)
    (h : Nat.count (cpus.testBit · = true) (offset + left) < cpuNum) :
    vcpuIdLoop cpus cpuNum left (Nat.count (cpus.testBit · = true) offset) offset =
      Nat.count (cpus.testBit · = true) (offset + left) := by
  induction left generalizing offset with
  | zero => exact if_pos h
  | succ left ih =>
    have hle : Nat.count (cpus.testBit · = true) offset ≤
        Nat.count (cpus.testBit · = true) (offset + (left + 1)) := Nat.count_monotone _ (by omega)
    have hcount : (if cpus.testBit offset = true then Nat.count (cpus.testBit · = true) offset + 1
        else Nat.count (cpus.testBit · = true) offset) =
          Nat.count (cpus.testBit · = true) (offset + 1) := by
      rw [Nat.count_succ]
      split <;> rfl
    have hnext : offset + (left + 1) = offset + 1 + left := by omega
    rw [vcpuIdLoop, if_pos (by omega), hcount, hnext]
    exact ih _ (by rwa [← hnext])

theorem lt_of_testBit (hcpus : cpus < 2 ^ 64) (hp : cpus.testBit p = true) : p < 64 := by
  by_contra hge
  have hlt : cpus < 2 ^ p := hcpus.trans_le (Nat.pow_le_pow_right (by decide) (by omega))
  rw [Nat.testBit_lt_two_pow hlt] at hp
  cases hp

theorem vmVcpuInit_eq (hcpus : cpus < 2 ^ 64) (hp : cpus.testBit p = true) :
    vmVcpuInit cpus (popcount cpus) p = Nat.count (cpus.testBit · = true) p := by
  have hlt : Nat.count (cpus.testBit · = true) p < popcount cpus :=
    Nat.count_strict_mono hp (lt_of_testBit hcpus hp)
  have h := vcpuIdLoop_eq p 0 (by rwa [Nat.zero_add])
  simpa [vmVcpuInit] using h

/-- The numbers that the cpus of a VM give to their virtual cpus are a bijection to the first
`cpu_num` numbers, `vm_translate_to_vcpuid` is the same map, `vm_translate_to_pcpuid` is its inverse
and negative elsewhere, and `vm_translate_to_pcpu_mask` is the image of a mask under that
inverse. -/
theorem vm_cpu_numbering (cpus : Nat) (hcpus : cpus < 2 ^ 64) :
    Set.BijOn (vmVcpuInit cpus (popcount cpus)) {p | cpus.testBit p = true}
      {v | v < popcount cpus} ∧
    (∀ p, cpus.testBit p = true →
      vmVcpuInit cpus (popcount cpus) p = vmTranslateToVcpuid cpus p ∧
      vmTranslateToPcpuid cpus (vmVcpuInit cpus (popcount cpus) p) = some p) ∧
    (∀ v < 2 ^ 64, popcount cpus ≤ v → vmTranslateToPcpuid cpus v = none) ∧
    ∀ mask, ∀ len ≤ 64, ∀ p, ((vmTranslateToPcpuMask cpus mask len).testBit p = true ↔
        ∃ v < len, mask.testBit v = true ∧ vmTranslateToPcpuid cpus v = some p) ∧
      ((vmTranslateToPcpuMask cpus mask len).testBit p = true → cpus.testBit p = true) := by
  have hlt (p : Nat) (hp : cpus.testBit p = true) :
      Nat.count (cpus.testBit · = true) p < popcount cpus :=
    Nat.count_strict_mono hp (lt_of_testBit hcpus hp)
  have hpop := popcount_le cpus
  refine ⟨⟨?_, ?_, ?_⟩, fun p hp => ⟨?_, ?_⟩, fun v hv hle => ?_, fun mask len _ p => ⟨?_, ?_⟩⟩
  · intro p hp
    exact (vmVcpuInit_eq hcpus hp).trans_lt (hlt p hp)
  · intro p hp q hq heq
    rw [vmVcpuInit_eq hcpus hp, vmVcpuInit_eq hcpus hq] at heq
    exact Nat.count_injective hp hq heq
  · intro v hv
    obtain ⟨p, -, hp, hcount⟩ := exists_count_eq hv
    exact ⟨p, hp, (vmVcpuInit_eq hcpus hp).trans hcount⟩
  · rw [vmVcpuInit_eq hcpus hp, vmTranslateToVcpuid_eq]
  · have := hlt p hp
    rw [vmVcpuInit_eq hcpus hp, vmTranslateToPcpuid_spec (by omega)]
    exact ⟨lt_of_testBit hcpus hp, hp, rfl⟩
  · rw [Option.eq_none_iff_forall_ne_some]
    intro p htrans
    have := vmTranslateToPcpuid_lt_popcount hv htrans
    omega
  · exact vmTranslateToPcpuMask_testBit cpus mask len p
  · intro hbit
    obtain ⟨v, -, -, htrans⟩ := (vmTranslateToPcpuMask_testBit cpus mask len p).mp hbit
    exact vmTranslateToPcpuid_testBit htrans

/-- A VM on the cpus 1 and 3: the last cpu is its virtual cpu 1, and 2 ^ 64 - 1 is none. -/
theorem vm_cpu_numbering_two :
    vmVcpuInit 10 (popcount 10) 3 = 1 ∧ vmTranslateToPcpuid 10 1 = some 3 ∧
      vmTranslateToPcpuid 10 (2 ^ 64 - 1) = none := by
  have h := vm_cpu_numbering 10 (by decide)
  have hid : vmVcpuInit 10 (popcount 10) 3 = 1 := by decide
  refine ⟨hid, hid ▸ (h.2.1 3 (by decide)).2, h.2.2.1 _ (by decide) ?_⟩
  exact (popcount_le 10).trans (by decide)

/-! ### Masks of physical cpus -/

theorem vmTranslateToVcpuMask_testBit (cpus mask len v : Nat) :
    (vmTranslateToVcpuMask cpus mask len).testBit v = true ↔
      ∃ i < len, mask.testBit i = true ∧ vmTranslateToVcpuid cpus i = v := by
  induction len with
  | zero => simp [vmTranslateToVcpuMask]
  | succ i ih =>
    rw [Nat.exists_lt_succ_right, ← ih]
    simp only [vmTranslateToVcpuMask]
    split
    · rename_i hbit
      simp only [Nat.testBit_or, Nat.one_shiftLeft, Nat.testBit_two_pow, Bool.or_eq_true,
        decide_eq_true_eq, hbit, true_and]
    · rename_i hbit
      simp [hbit]

/-- A cpu of the mask that is not the VM's counts as the next cpu of the VM above it. So the mask is
translated exactly when each such cpu has a next one, and that one is in the mask as well. -/
theorem vmTranslateToVcpuMask_exact_iff (cpus mask : Nat) :
    (∀ v < 2 ^ 64, (vmTranslateToVcpuMask cpus mask 64).testBit v = true ↔
      ∃ p, vmTranslateToPcpuid cpus v = some p ∧ mask.testBit p = true) ↔
    ∀ i < 64, mask.testBit i = true → cpus.testBit i = false →
      ∃ p, vmTranslateToPcpuid cpus (vmTranslateToVcpuid cpus i) = some p ∧
        mask.testBit p = true := by
  have hcount (i : Nat) : vmTranslateToVcpuid cpus i ≤ i := by
    rw [vmTranslateToVcpuid_eq]
    exact Nat.count_le _
  constructor
  · intro hexact i hi hmask _
    exact (hexact _ (by have := hcount i; omega)).mp
      ((vmTranslateToVcpuMask_testBit cpus mask 64 _).mpr ⟨i, hi, hmask, rfl⟩)
  · intro hforeign v hv
    rw [vmTranslateToVcpuMask_testBit]
    constructor
    · rintro ⟨i, hi, hmask, rfl⟩
      cases hcpu : cpus.testBit i with
      | false => exact hforeign i hi hmask hcpu
      | true =>
        refine ⟨i, (vmTranslateToPcpuid_spec hv).mpr ⟨hi, hcpu, ?_⟩, hmask⟩
        exact (vmTranslateToVcpuid_eq cpus i).symm
    · rintro ⟨p, hp, hmask⟩
      obtain ⟨hlt, -, hv⟩ := (vmTranslateToPcpuid_spec hv).mp hp
      exact ⟨p, hlt, hmask, (vmTranslateToVcpuid_eq cpus p).trans hv⟩

/-- A VM on the cpus 1 and 3, and a mask of cpu 2: the result is the virtual cpu of cpu 3. -/
theorem vmTranslateToVcpuMask_foreign :
    vmTranslateToVcpuMask 10 4 64 = 2 ∧ vmTranslateToPcpuid 10 1 = some 3 ∧
      Nat.testBit 10 2 = false ∧ Nat.testBit 4 3 = false := by
  decide

end Bao
