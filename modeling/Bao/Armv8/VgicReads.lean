import Bao.Armv8.VgicAccess
import Bao.Armv8.VgicScan

/-!
# What the guest reads of the state of an interrupt

The registers with the pending and active bits read the record of an interrupt, while
`vgic_get_state` looks at the list register that holds it, too. The two are compared in every state
that the virtual GIC gets to.
-/

namespace Bao.Armv8

open Foundation VgicSystem

variable {n : Nat}

/-- The bit of the state that a register reads. -/
def RegHandler.stateBit : RegHandler → Option IntState
  | ispendr | icpendr => some pend
  | isactiver | icactiver => some act
  | _ => none

section Reads

variable (g : VgicConfig n) (regs : VgicRegs n)

/-- The interrupt has its registers in a redistributor. -/
def InRedist (r : IntRef n) : Prop := g.version = .gicv3 ∧ gicIsPriv r.id = true

instance (r : IntRef n) : Decidable (InRedist g r) := inferInstanceAs (Decidable (_ ∧ _))

/-- The address is decoded as the word of a register with the bit of an interrupt. -/
def WordOf (v : Fin n) (h : RegHandler) (r : IntRef n) (addr : Nat) : Prop :=
  if InRedist g r then
    addr % gicrSize = 0x10000 + h.regroupBase ∧ vgicGetInt g r.id (vgicrGetId regs addr) = some r
  else
    gicdRegMask g.version addr = h.regroupBase + 4 * (r.id / 32) ∧ vgicGetInt g r.id v = some r

/-- The guest reads a word in the frame of an interrupt. -/
def guestRead (s : VgicState n) (v : Fin n) (r : IntRef n) (addr : Nat) :
    Option (Option (BitVec 64)) :=
  if InRedist g r then vgicrEmulRead g regs s v addr 4 else vgicdEmulRead g regs s v addr 4

end Reads

variable {g : VgicConfig n} {regs : VgicRegs n} {s : VgicState n} {v : Fin n} {r : IntRef n}
  {h : RegHandler} {bit : IntState} {gicr : Bool} {vgicrId addr width i : Nat}

theorem fieldWidth_of_stateBit (hbit : h.stateBit = some bit) : h.fieldWidth = 1 := by
  cases h <;> simp [RegHandler.stateBit] at hbit <;> rfl

/-! ## The bit of the record -/

theorem getLsbD_read (hbit : h.stateBit = some bit) (hwidth : width ≤ 8)
    (hat : FieldAt g h gicr vgicrId addr width i r) :
    (vgicEmulGenericRead g s v h gicr vgicrId addr width).getLsbD i =
      decide ((s.ints r).state &&& bit ≠ 0) := by
  have hone := fieldWidth_of_stateBit hbit
  have hroute : h ≠ .irouter := by rintro rfl; simp [RegHandler.stateBit] at hbit
  have hread := bitExtract_read (s := s) (v := v) hroute hwidth hat.mem
  rw [hone, Nat.mul_one] at hread
  have hbit0 := congrArg (fun x => x.getLsbD 0) hread
  simp only [getLsbD_bitExtract Nat.one_pos (by decide : 1 ≤ 64), BitVec.getLsbD_and,
    getLsbD_fieldMask hroute, hone, Nat.zero_lt_one, decide_true, Bool.true_and, Nat.add_zero,
    Bool.and_true] at hbit0
  rw [hbit0]
  cases h <;> simp only [RegHandler.stateBit, Option.some.injEq, reduceCtorEq] at hbit <;>
    subst hbit <;> simp only [RegHandler.readField] <;> split <;> simp_all

theorem gicIsPriv_word (id : Nat) : gicIsPriv (id - id % 32) = gicIsPriv id := by
  rw [gicIsPriv, gicIsPriv, decide_eq_decide]
  simp only [gicCpuPriv]
  omega

theorem regroupBase_mod (h : RegHandler) : h.regroupBase % 4 = 0 := by cases h <;> rfl

theorem redist_word (hoff : addr % gicrSize = 0x10000 + h.regroupBase) :
    gicdRegMask .gicv3 addr = h.regroupBase ∧ addr % 4 = 0 := by
  have hmod := regroupBase_mod h
  simp only [gicrSize] at hoff
  simp only [gicdRegMask]
  omega

theorem read_field (hbit : h.stateBit = some bit) :
    (RegInfo.field h).read g regs s v gicr vgicrId addr width =
      some (vgicEmulGenericRead g s v h gicr vgicrId addr width) := by
  cases h <;> first
    | rfl
    | simp [RegHandler.stateBit] at hbit

theorem guestRead_dist (hbit : h.stateBit = some bit) (hdist : ¬ InRedist g r)
    (hword : WordOf g regs v h r addr) :
    ∃ val, guestRead g regs s v r addr = some (some val) ∧
      val.getLsbD (r.id % 32) = decide ((s.ints r).state &&& bit ≠ 0) := by
  have hone := fieldWidth_of_stateBit hbit
  rw [WordOf, if_neg hdist] at hword
  obtain ⟨hmask, hint⟩ := hword
  have hid : r.id < 1024 := by
    have hnum := g.intNum_le
    rcases vgicGetInt_cases hint with ⟨_, _, -, hlt⟩ | ⟨-, -, hlt⟩
    · exact hlt.trans (by decide)
    · omega
  have hinfo : vgicdInfo (gicdRegMask g.version addr) = .field h := by
    rw [hmask, vgicdInfo_field hone (by omega)]
  have haddr : addr % 4 = 0 := by
    have hbase := regroupBase_mod h
    have hmod : gicdRegMask g.version addr % 4 = addr % 4 := by
      cases g.version <;> simp only [gicdRegMask] <;> omega
    omega
  have hat : FieldAt g h false v addr 4 (r.id % 32) r := by
    refine ⟨v.isLt, hint, by omega, ?_, by rw [hone]; omega, ?_⟩
    · rw [hone]; omega
    by_cases hv2 : g.version = .gicv2
    · exact .inl hv2
    · have hv3 : g.version = .gicv3 := by cases hv : g.version <;> simp_all
      refine .inr ?_
      rw [gicIsPriv_word, eq_comm, Bool.eq_false_iff]
      exact fun hpriv => hdist ⟨hv3, hpriv⟩
  refine ⟨vgicEmulGenericRead g s v h false v addr 4, ?_, getLsbD_read hbit (by decide) hat⟩
  rw [guestRead, if_neg hdist, vgicdEmulRead, hinfo, vgicCheckRegAlignment_word (by omega) haddr,
    if_pos rfl, read_field hbit]

theorem guestRead_redist_pend (hbit : h.stateBit = some pend) (hredist : InRedist g r)
    (hword : WordOf g regs v h r addr) :
    ∃ val, guestRead g regs s v r addr = some (some val) ∧
      val.getLsbD (r.id % 32) = decide ((s.ints r).state &&& pend ≠ 0) := by
  have hone := fieldWidth_of_stateBit hbit
  rw [WordOf, if_pos hredist] at hword
  obtain ⟨hoff, hint⟩ := hword
  obtain ⟨hv3, hpriv⟩ := hredist
  have hid : r.id < 32 := of_decide_eq_true hpriv
  obtain ⟨hmask, haddr⟩ := redist_word hoff
  rw [← hv3] at hmask
  have hinfo : vgicrInfo regs.vgicrAddr addr = .field h := by
    cases h <;> simp [RegHandler.stateBit, act, pend] at hbit <;>
      simp [vgicrInfo, hoff, RegHandler.regroupBase]
  have hvcpu : vgicrGetId regs addr < n := by
    simp only [vgicGetInt, show r.id < gicCpuPriv from hid, dif_pos] at hint
    by_contra hnot
    simp [hnot] at hint
  have hat : FieldAt g h true (vgicrGetId regs addr) addr 4 (r.id % 32) r := by
    refine ⟨hvcpu, hint, hmask.ge, by rw [hone, hmask]; omega, by rw [hone]; omega, .inr ?_⟩
    rw [gicIsPriv_word, hpriv]
  refine ⟨vgicEmulGenericRead g s v h true (vgicrGetId regs addr) addr 4, ?_,
    getLsbD_read hbit (by decide) hat⟩
  rw [guestRead, if_pos ⟨hv3, hpriv⟩, vgicrEmulRead, hinfo,
    vgicCheckRegAlignment_word (by omega) haddr, if_pos rfl, read_field hbit]

/-- The two words of active bits of a redistributor are decoded as other registers, whose fields are
not there. -/
theorem guestRead_redist_act (hbit : h.stateBit = some act) (hredist : InRedist g r)
    (hword : WordOf g regs v h r addr) : guestRead g regs s v r addr = some (some 0#64) := by
  rw [WordOf, if_pos hredist] at hword
  have hoff := hword.1
  obtain ⟨hmask, haddr⟩ := redist_word hoff
  have hand : addr &&& 3 = 0 := (Nat.and_two_pow_sub_one_eq_mod addr 2).trans haddr
  have hempty : ∀ h' : RegHandler, h.regroupBase < h'.regroupBase →
      vgicEmulGenericRead g s v h' true (vgicrGetId regs addr) addr 4 = 0#64 := by
    intro h' hlt
    rw [vgicEmulGenericRead, accessInts_of_lt hredist.1, List.foldl_nil]
    rw [hredist.1, hmask]
    exact hlt
  rw [guestRead, if_pos hredist, vgicrEmulRead]
  cases h <;> simp [RegHandler.stateBit, act, pend] at hbit
  · have hinfo : vgicrInfo regs.vgicrAddr addr = .field .icactiver := by
      simp [vgicrInfo, hoff, RegHandler.regroupBase]
    simp [hinfo, vgicCheckRegAlignment, RegInfo.alignment, hand, RegInfo.read,
      hempty .icactiver (by decide)]
  · have hinfo : vgicrInfo regs.vgicrAddr addr = .field .icfgr := by
      simp [vgicrInfo, hoff, RegHandler.regroupBase]
    simp [hinfo, vgicCheckRegAlignment, RegInfo.alignment, hand, RegInfo.read,
      hempty .icfgr (by decide)]

/-! ## The state of the interrupt -/

/-- The record shows a bit of the state exactly when the register has it not, and no source of an
SGI is pending beside it. -/
theorem record_bit_iff (hs : Sane g s) (hbit : bit = pend ∨ bit = act) :
    decide ((s.ints r).state &&& bit ≠ 0) = decide (vgicGetState g s v r &&& bit ≠ 0) ↔
      (∀ lr, gichGetLr g s v r = some lr → lr.state &&& bit = 0) ∧
        (bit = pend → g.version = .gicv2 → r.id < gicMaxSgis → (s.ints r).sgiPend ≠ 0 →
          (s.ints r).state &&& pend ≠ 0) := by
  have hpend : ∀ x : IntState, x &&& pend ≠ 0 ∨ x &&& pend = 0 ∧ (x ||| pend) &&& pend ≠ 0 := by
    decide
  have hact : ∀ x : IntState, (x ||| pend) &&& act = x &&& act := by decide
  have hzero : ∀ b : IntState, inv &&& b = 0 := by decide
  rw [vgicGetState, decide_eq_decide]
  cases hlr : gichGetLr g s v r with
  | none => grind
  | some lr =>
    have hinv : (s.ints r).state = inv := by
      refine (hs.inLr r ?_).1
      simp only [gichGetLr] at hlr
      grind
    grind

/-- In every state of every run, a pending or active bit reads as `vgic_get_state` has it exactly
when the list register that holds the interrupt has it not and no source of an SGI is pending beside
the record. An active bit in a redistributor reads as 0, and that is right when it is. -/
theorem vgic_state_reads_iff {sys : VgicSystem n} {hw : Nat → Bool} {as : List (VgicAction n)}
    (hrun : run (VgicSystem.step g) (initial g hw) as = some sys)
    (hbit : h.stateBit = some bit) (hword : WordOf g regs v h r addr) :
    ∃ val, guestRead g regs sys.vgic v r addr = some (some val) ∧
      (val.getLsbD (r.id % 32) = decide (vgicGetState g sys.vgic v r &&& bit ≠ 0) ↔
        (InRedist g r → bit = act → vgicGetState g sys.vgic v r &&& act = 0) ∧
        (¬ (InRedist g r ∧ bit = act) →
          (∀ lr, gichGetLr g sys.vgic v r = some lr → lr.state &&& bit = 0) ∧
          (bit = pend → g.version = .gicv2 → r.id < gicMaxSgis →
            (sys.vgic.ints r).sgiPend ≠ 0 → (sys.vgic.ints r).state &&& pend ≠ 0))) := by
  have hs := (ScanInv.run hrun).sane
  have hbits : bit = pend ∨ bit = act := by
    cases h <;> simp [RegHandler.stateBit] at hbit <;> simp [← hbit]
  by_cases hact : InRedist g r ∧ bit = act
  · obtain ⟨hredist, rfl⟩ := hact
    refine ⟨0#64, guestRead_redist_act hbit hredist hword, ?_⟩
    simp [hredist]
  · obtain ⟨val, hread, hval⟩ : ∃ val, guestRead g regs sys.vgic v r addr = some (some val) ∧
        val.getLsbD (r.id % 32) = decide ((sys.vgic.ints r).state &&& bit ≠ 0) := by
      by_cases hredist : InRedist g r
      · obtain rfl := hbits.resolve_right fun heq => hact ⟨hredist, heq⟩
        exact guestRead_redist_pend hbit hredist hword
      · exact guestRead_dist hbit hredist hword
    refine ⟨val, hread, ?_⟩
    rw [hval, record_bit_iff hs hbits]
    simp only [hact, not_false_iff, true_implies]
    exact ⟨fun hcond => ⟨fun hredist heq => absurd ⟨hredist, heq⟩ hact, hcond⟩,
      fun hcond => hcond.2⟩

theorem wordOf_ispendr1 : WordOf oneCluster regsAt2f1 vcpu0 .ispendr (.spi 32) 0x2f000204 := by
  rw [WordOf, if_neg (by decide)]
  decide

/-- An interrupt that is set pending and not enabled reads as pending. -/
theorem vgic_state_reads_pending : ∃ s val,
    run (VgicSystem.step oneCluster) (initial oneCluster fun _ => false)
      [.setField vcpu0 .ispendr 32 0 1] = some s ∧
    guestRead oneCluster regsAt2f1 s.vgic vcpu0 (.spi 32) 0x2f000204 = some (some val) ∧
    vgicGetState oneCluster s.vgic vcpu0 (.spi 32) = pend ∧ val.getLsbD 0 = true := by
  obtain ⟨s, hs, hlr, hstate⟩ :
      ∃ s ∈ run (VgicSystem.step oneCluster) (initial oneCluster fun _ => false)
        [.setField vcpu0 .ispendr 32 0 1], gichGetLr oneCluster s.vgic vcpu0 (.spi 32) = none ∧
          vgicGetState oneCluster s.vgic vcpu0 (.spi 32) = pend := by
    decide +kernel
  obtain ⟨val, hread, hval⟩ := vgic_state_reads_iff hs rfl wordOf_ispendr1
  refine ⟨s, val, hs, hread, hstate, (hval.mpr ⟨fun hredist => ?_, fun _ => ⟨?_, ?_⟩⟩).trans ?_⟩
  · exact absurd hredist (by decide)
  · simp [hlr]
  · exact fun _ hv2 => absurd hv2 (by decide)
  · rw [hstate]; decide

/-- An interrupt that is pending in a list register of the vcpu reads as not pending. -/
theorem vgic_state_reads_in_lr : ∃ s,
    run (VgicSystem.step oneCluster) (initial oneCluster fun _ => false)
      [.setField vcpu0 .isenabler 32 0 1, .setField vcpu0 .irouter 32 0 0, .inject vcpu0 32 0] =
        some s ∧
    (s.vgic.ints (.spi 32)).Mine vcpu0 ∧
    WordOf oneCluster regsAt2f1 vcpu0 .ispendr (.spi 32) 0x2f000204 ∧
    vgicGetState oneCluster s.vgic vcpu0 (.spi 32) = pend ∧
    guestRead oneCluster regsAt2f1 s.vgic vcpu0 (.spi 32) 0x2f000204 = some (some 0) := by
  refine exists_some_of (P := fun s => (s.vgic.ints (.spi 32)).owner = some vcpu0 ∧
      vgicGetState oneCluster s.vgic vcpu0 (.spi 32) = pend ∧
      guestRead oneCluster regsAt2f1 s.vgic vcpu0 (.spi 32) 0x2f000204 = some (some 0))
    (by decide +kernel) fun s _ h => ?_
  exact ⟨.inr h.1, wordOf_ispendr1, h.2⟩

end Bao.Armv8
