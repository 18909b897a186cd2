import Mathlib.Data.Finset.Card
import Bao.Armv8.VgicScan

/-!
# Refilling the list registers

`vgic_refill_lrs` fills one empty list register after the other with the best of the interrupts that
its scan goes through, and ends when no register is empty or the scan finds none. The scan goes up
to `gic_num_irqs()`, which the number of interrupts of the virtual distributor does not come from.
Each register that is filled uses up one of the interrupts that can fill one, so the two numbers at
the call decide which of the two ends it comes to.
-/

namespace Bao.Armv8

open Foundation

variable {n : Nat}

/-- `gic_num_irqs`, of the line number field of `GICD_TYPER`. -/
def gicNumIrqs (itlinenumber : Nat) : Nat := 32 * itlinenumber + 1

/-- What the scan of `vgic_refill_lrs` looks for. -/
def Candidate (g : VgicConfig n) (s : VgicState n) (v : Fin n) (r : IntRef n) : Prop :=
  (s.ints r).Mine v ∧ vgicIntVcpuIsTarget g v r (s.ints r) = true ∧
    vgicGetState g s v r ≠ inv ∧ (s.ints r).inLr = false

instance (g : VgicConfig n) (s : VgicState n) (v : Fin n) (r : IntRef n) :
    Decidable (Candidate g s v r) :=
  inferInstanceAs (Decidable (_ ∧ _ ∧ _ ∧ _))

/-- The interrupt could be presented to the vcpu. -/
def Deliverable (g : VgicConfig n) (s : VgicState n) (v : Fin n) (r : IntRef n) : Prop :=
  (s.ints r).enabled = true ∧ Candidate g s v r

instance (g : VgicConfig n) (s : VgicState n) (v : Fin n) (r : IntRef n) :
    Decidable (Deliverable g s v r) :=
  inferInstanceAs (Decidable (_ ∧ _))

/-- A register to which the interrupt is written is no longer empty. That of a pending SGI without a
source is. -/
def Fills (g : VgicConfig n) (s : VgicState n) (v : Fin n) (r : IntRef n) : Prop :=
  Candidate g s v r ∧ (lrOf g r (s.ints r) (vgicGetState g s v r)).1.empty = false

instance (g : VgicConfig n) (s : VgicState n) (v : Fin n) (r : IntRef n) :
    Decidable (Fills g s v r) :=
  inferInstanceAs (Decidable (_ ∧ _))

/-- The interrupts that the scan goes through and that fill a register. -/
def fillers (g : VgicConfig n) (s : VgicState n) (v : Fin n) : Finset Nat :=
  {i ∈ Finset.range g.numIrqs | (scanInt g v i).any fun r => decide (Fills g s v r)}

/-- The bits of `gich_get_elrsr()`. -/
def emptyLrs (g : VgicConfig n) (s : VgicState n) (v : Fin n) : Finset Nat :=
  {k ∈ Finset.range g.numLrs | ((s.cpu v).lrs k).empty}

variable {g : VgicConfig n} {s t u : VgicState n} {v : Fin n} {r : IntRef n} {k i : Nat}

theorem mem_emptyLrs : k ∈ emptyLrs g s v ↔ k < g.numLrs ∧ ((s.cpu v).lrs k).empty = true := by
  simp [emptyLrs]

theorem emptyLrs_eq_empty :
    emptyLrs g s v = ∅ ↔ ∀ k < g.numLrs, ((s.cpu v).lrs k).empty = false := by
  simp [Finset.eq_empty_iff_forall_notMem, mem_emptyLrs]

theorem scanInt_eq_some : scanInt g v i = some r ↔ i < g.numIrqs ∧ vgicGetInt g i v = some r := by
  simp only [scanInt]
  split <;> simp [*]

theorem id_of_scanInt (h : scanInt g v i = some r) : r.id = i :=
  id_of_vgicGetInt (scanInt_eq_some.mp h).2

theorem mem_fillers : i ∈ fillers g s v ↔ ∃ r, scanInt g v i = some r ∧ Fills g s v r := by
  simp only [fillers, Finset.mem_filter, Finset.mem_range, Option.any_eq_true, decide_eq_true_eq]
  exact ⟨fun h => h.2, fun h => ⟨(scanInt_eq_some.mp h.choose_spec.1).1, h⟩⟩

/-! ## What is the same for a scan -/

/-- The same interrupt as far as `v` can tell: another owner is one that `v` may take it from. -/
structure SameInt (v : Fin n) (x y : VgicInt n) : Prop where
  mine : y.Mine v ↔ x.Mine v
  fields : y.fields = x.fields
  inLr : y.inLr = x.inLr

theorem SameInt.of_eq {x y : VgicInt n} (h : y = x) : SameInt v x y := by
  rw [h]
  exact ⟨Iff.rfl, rfl, rfl⟩

theorem OwnersOnly.sameInt (h : OwnersOnly v s t) (r : IntRef n) :
    SameInt v (s.ints r) (t.ints r) :=
  ⟨h.mine_iff r, h.fields r, h.inLr r⟩

theorem lrOf_congr {x y : VgicInt n} (h : y.fields = x.fields) (state : IntState) :
    lrOf g r y state = lrOf g r x state := by
  have hprio : y.prio = x.prio := (congrArg VgicInt.prio h :)
  have hhw : y.hw = x.hw := (congrArg VgicInt.hw h :)
  have hact : y.sgiAct = x.sgiAct := (congrArg VgicInt.sgiAct h :)
  have hpend : y.sgiPend = x.sgiPend := (congrArg VgicInt.sgiPend h :)
  simp only [lrOf, hprio, hhw, hact, hpend]

namespace SameInt

theorem candidate_iff (h : SameInt v (s.ints r) (t.ints r)) :
    Candidate g t v r ↔ Candidate g s v r := by
  rw [Candidate, Candidate, h.mine, isTarget_of_config (config_of_fields h.fields), h.inLr]
  refine and_congr_right fun _ => and_congr_right fun _ => and_congr_left fun hout => ?_
  rw [vgicGetState_congr hout h.fields (h.inLr.trans hout)]

theorem deliverable_iff (h : SameInt v (s.ints r) (t.ints r)) :
    Deliverable g t v r ↔ Deliverable g s v r := by
  have henabled : (t.ints r).enabled = (s.ints r).enabled := (congrArg VgicInt.enabled h.fields :)
  rw [Deliverable, Deliverable, henabled, h.candidate_iff]

theorem fills_iff (h : SameInt v (s.ints r) (t.ints r)) : Fills g t v r ↔ Fills g s v r := by
  rw [Fills, Fills, h.candidate_iff]
  refine and_congr_right fun hcand => ?_
  have hout := hcand.2.2.2
  rw [lrOf_congr h.fields, vgicGetState_congr hout h.fields (h.inLr.trans hout)]

end SameInt

/-- The registers and the interrupts are the same for the scan of `v`. -/
structure SameScan (v : Fin n) (s t : VgicState n) : Prop where
  lrs : (t.cpu v).lrs = (s.cpu v).lrs
  ints : ∀ r, SameInt v (s.ints r) (t.ints r)

theorem SameScan.emptyLrs_eq (h : SameScan v s t) : emptyLrs g t v = emptyLrs g s v := by
  rw [emptyLrs, emptyLrs, h.lrs]

theorem SameScan.fillers_eq (h : SameScan v s t) : fillers g t v = fillers g s v := by
  ext i
  simp only [mem_fillers, (h.ints _).fills_iff]

theorem OwnersOnly.sameScan (h : OwnersOnly v s t) : SameScan v s t :=
  ⟨by rw [h.cpu], h.sameInt⟩

theorem SameScan.setNpie (npie : Bool) : SameScan v s (s.setNpie v npie) :=
  ⟨by simp [VgicState.setNpie, VgicState.setCpu], fun _ => .of_eq rfl⟩

/-! ## Writing to a list register -/

theorem leaveLr_cases (h : vgicLeaveLr g s v r k = some u) :
    u.cpu = s.cpu ∧ u.ints r = s.ints r ∧ ∀ r', u.ints r' = s.ints r' ∨
      RecordedIn (s.ints r') v k ∧ (u.ints r').inLr = false ∧ gicIsPriv r'.id = false := by
  obtain ⟨-, hcpu, -, -, hself, -⟩ := leftLr_of_leave h
  refine ⟨hcpu, hself, fun r' => ?_⟩
  simp only [vgicLeaveLr] at h
  split at h
  · rename_i hprev
    split at h
    · cases h; exact .inl rfl
    · rename_i prev hint
      split at h
      · cases h
      · split at h
        · rename_i hrec
          cases h
          by_cases hr : r' = prev
          · subst hr
            refine .inr ⟨by simpa [RecordedIn, vgicOwns] using hrec,
              yield_inLr.trans (by simp [VgicState.setInt]), ?_⟩
            rw [id_of_vgicGetInt hint, hprev.2]
          · exact .inl (by rw [yield_other hr]; simp [VgicState.setInt, hr])
        · cases h; exact .inl rfl
  · cases h; exact .inl rfl

/-- What `vgic_write_lr` does to the register and to what was in it before. -/
structure WroteLr (g : VgicConfig n) (v : Fin n) (r : IntRef n) (k : Nat) (s t : VgicState n) :
    Prop where
  lrs : (t.cpu v).lrs =
    Function.update (s.cpu v).lrs k (lrOf g r (s.ints r) (vgicGetState g s v r)).1
  self : (t.ints r).inLr = true
  other : ∀ r', r' ≠ r → t.ints r' = s.ints r' ∨ (s.ints r').inLr = true ∧
    (t.ints r').inLr = false ∧ (t.ints r').state = (s.ints r').state ∧ gicIsPriv r'.id = false

theorem wroteLr_of_write (ht : vgicWriteLr g s v r k = some t) : WroteLr g v r k s t := by
  obtain ⟨u, hleave, rfl⟩ := vgicWriteLr_eq_some.mp ht
  obtain ⟨hcpu, hself, hother⟩ := leaveLr_cases hleave
  refine ⟨?_, by simp [VgicState.setInt, VgicState.setCpu], fun r' hr => ?_⟩
  · simp [VgicState.setInt, VgicState.setCpu, vgicGetState, gichGetLr, hcpu, hself]
  · simp only [VgicState.setInt, VgicState.setCpu, Function.update_of_ne hr]
    refine (hother r').imp_right ?_
    rintro ⟨hrec, hleft, hspi⟩
    exact ⟨hrec.2.1, hleft, state_of_fields (fields_leaveLr hleave r'), hspi⟩

namespace WroteLr

variable {k : Nat} {r' : IntRef n}

section

variable (h : WroteLr g v r k s t)

include h

/-- The interrupt that leaves the register was no candidate and is none, as its state has gone to
the register. -/
theorem sameInt (hs : Sane g s) (hr : r' ≠ r) :
    SameInt v (s.ints r') (t.ints r') ∨ ¬ Candidate g s v r' ∧ ¬ Candidate g t v r' := by
  rcases h.other r' hr with hsame | ⟨hin, hleft, hstate, hspi⟩
  · exact .inl (.of_eq hsame)
  · refine .inr ⟨fun hcand => ?_, fun hcand => hcand.2.2.1 ?_⟩
    · rw [hcand.2.2.2] at hin
      cases hin
    · have hnotSgi : ¬ r'.id < gicMaxSgis := by
        have hge := of_decide_eq_false hspi
        simp only [gicCpuPriv, gicMaxSgis] at hge ⊢
        omega
      rw [vgicGetState, gichGetLr_of_out hleft, if_neg fun h => hnotSgi h.2.1]
      exact hstate.trans (hs.inLr r' hin).1

theorem not_candidate : ¬ Candidate g t v r := fun hcand => by
  have hout := hcand.2.2.2
  rw [h.self] at hout
  cases hout

theorem fills_iff (hs : Sane g s) (hr : r' ≠ r) : Fills g t v r' ↔ Fills g s v r' := by
  rcases h.sameInt hs hr with hsame | ⟨hnot, hnot'⟩
  · exact hsame.fills_iff
  · exact ⟨fun hfills => absurd hfills.1 hnot', fun hfills => absurd hfills.1 hnot⟩

theorem deliverable_iff (hs : Sane g s) (hr : r' ≠ r) :
    Deliverable g t v r' ↔ Deliverable g s v r' := by
  rcases h.sameInt hs hr with hsame | ⟨hnot, hnot'⟩
  · exact hsame.deliverable_iff
  · exact ⟨fun hd => absurd hd.2 hnot', fun hd => absurd hd.2 hnot⟩

theorem fillers_eq (hs : Sane g s) (hi : scanInt g v i = some r) :
    fillers g t v = (fillers g s v).erase i := by
  ext j
  simp only [mem_fillers, Finset.mem_erase]
  by_cases hj : j = i
  · subst hj
    simp [hi, Fills, h.not_candidate]
  · have hne : ∀ r', scanInt g v j = some r' → r' ≠ r := by
      rintro r' hr' rfl
      exact hj ((id_of_scanInt hr').symm.trans (id_of_scanInt hi))
    simp only [ne_eq, hj, not_false_eq_true, true_and]
    exact exists_congr fun r' => and_congr_right fun hr' => h.fills_iff hs (hne r' hr')

theorem mem_emptyLrs_iff (hcand : Candidate g s v r) (hk : k ∈ emptyLrs g s v) {j : Nat} :
    j ∈ emptyLrs g t v ↔ j ∈ emptyLrs g s v ∧ (j = k → ¬ Fills g s v r) := by
  rw [mem_emptyLrs, h.lrs]
  by_cases hj : j = k
  · subst hj
    simp [(mem_emptyLrs.mp hk).1, hk, Fills, hcand]
  · simp [mem_emptyLrs, hj]

/-- A register that is filled uses up an interrupt that can fill one. -/
theorem balance (hs : Sane g s) (hi : scanInt g v i = some r) (hcand : Candidate g s v r)
    (hk : k ∈ emptyLrs g s v) :
    (fillers g s v).card + (emptyLrs g t v).card =
      (fillers g t v).card + (emptyLrs g s v).card := by
  rw [h.fillers_eq hs hi]
  have hmem : i ∈ fillers g s v ↔ Fills g s v r := by simp [mem_fillers, hi]
  by_cases hfills : Fills g s v r
  · have hempty : emptyLrs g t v = (emptyLrs g s v).erase k := by
      ext j
      simp [h.mem_emptyLrs_iff hcand hk, hfills, and_comm]
    have hcard := Finset.card_erase_add_one (hmem.mpr hfills)
    have hcard' := Finset.card_erase_add_one hk
    rw [hempty]
    omega
  · have hempty : emptyLrs g t v = emptyLrs g s v := by
      ext j
      simp [h.mem_emptyLrs_iff hcand hk, hfills]
    rw [Finset.erase_eq_of_notMem (hmem.not.mpr hfills), hempty]

end

end WroteLr

/-! ## The scan -/

theorem scanInt_eq_none : scanInt g v i = none ↔ g.numIrqs ≤ i ∨ gicCpuPriv ≤ i ∧ g.intNum ≤ i := by
  simp only [scanInt, vgicGetInt]
  split
  · rename_i hi
    split
    · rename_i hpriv
      simp [v.isLt]
      omega
    · split <;> simp <;> omega
  · simp
    omega

theorem scanInt_lt {j : Nat} (hi : scanInt g v i = none) (hj : scanInt g v j = some r) : j < i := by
  by_contra hle
  have hnone : scanInt g v j = none := by
    rw [scanInt_eq_none] at hi ⊢
    omega
  rw [hnone] at hj
  cases hj

theorem swapHeld_held : (swapHeld g s v r).held = Function.update s.held v (some r) := by
  simp only [swapHeld]
  cases s.held v with
  | none => rfl
  | some old => exact yield_frame.1

theorem OwnersOnly.swapHeld : OwnersOnly v s (swapHeld g s v r) := by
  simp only [Armv8.swapHeld]
  cases s.held v with
  | none => exact setHeld _
  | some old => exact (setHeld _).trans yield

/-- A round changes only owners, and holds the interrupt only if it is a candidate, which it is if
the scan holds none after all. -/
theorem refillRound_cases {hp pp : Bool} {prio : BitVec 8} {u : VgicState n × Bool × BitVec 8}
    (h : refillRound g s v hp pp prio r = some u) :
    OwnersOnly v s u.1 ∧ (u.1.held v = some r ∧ Candidate g s v r ∨
      u.1.held v = s.held v ∧ (s.held v = none → ¬ Candidate g s v r)) := by
  have htake : OwnersOnly v s (vgicGetOwnership s v r).2 := .take
  simp only [refillRound] at h
  split at h
  · cases h
  · split at h
    · rename_i hbest
      cases h
      refine ⟨htake.trans .swapHeld, .inl ⟨by simp [swapHeld_held], ?_⟩⟩
      refine (htake.sameInt r).candidate_iff.mp ⟨?_, hbest.2.1, hbest.2.2.1, hbest.2.2.2.1⟩
      exact (htake.mine_iff r).mpr (getOwnership_iff.mp hbest.1)
    · rename_i hcond
      cases h
      have hheld : (vgicYieldOwnership g (vgicGetOwnership s v r).2 v r).held v = s.held v := by
        rw [yield_frame.1, getOwnership_held]
      refine ⟨htake.trans .yield, .inr ⟨hheld, fun hnone hcand => hcond ?_⟩⟩
      obtain ⟨-, htarget, hstate, hout⟩ := (htake.sameInt r).candidate_iff.mpr hcand
      exact ⟨getOwnership_iff.mpr hcand.1, htarget, hstate, hout,
        .inl (by rw [getOwnership_held, hnone])⟩

namespace VgicSystem

variable {s t : VgicSystem n}

/-- What a refill knows where it is. The interrupts that the scan has gone through without finding
one are no candidates; when it is over, no register is empty or there is no candidate. -/
def ScannedTo (g : VgicConfig n) (v : Fin n) (s : VgicState n) : Scan → Prop
  | .idle => emptyLrs g s v = ∅ ∨ ∀ i r, scanInt g v i = some r → ¬ Candidate g s v r
  | .refill _ => True
  | .refillScan _ lrInd i _ _ => lrInd ∈ emptyLrs g s v ∧
      (∀ r, s.held v = some r → Candidate g s v r ∧ ∃ j, scanInt g v j = some r) ∧
      (s.held v = none → ∀ j < i, ∀ r, scanInt g v j = some r → ¬ Candidate g s v r)
  | .eoirScan _ => False

/-- A refill that was called in `s₀`. -/
structure RefillInv (g : VgicConfig n) (v : Fin n) (s₀ : VgicState n) (s : VgicSystem n) :
    Prop where
  scan : s.ScanInv g
  scanned : ScannedTo g v s.vgic (s.scan v)
  balance : (fillers g s₀ v).card + (emptyLrs g s.vgic v).card =
    (fillers g s.vgic v).card + (emptyLrs g s₀ v).card
  rest : ∀ r, (∀ i, scanInt g v i ≠ some r) →
    (Deliverable g s.vgic v r ↔ Deliverable g s₀ v r)

variable {s₀ : VgicState n}

theorem RefillInv.sameScan {u : VgicState n} {c : Scan} (h : s.RefillInv g v s₀)
    (hu : SameScan v s.vgic u) (hscan : (s.goto v u c).ScanInv g) (hc : ScannedTo g v u c) :
    (s.goto v u c).RefillInv g v s₀ where
  scan := hscan
  scanned := by rwa [goto_scan]
  balance := by rw [goto_vgic, hu.emptyLrs_eq, hu.fillers_eq, h.balance]
  rest r hr := (hu.ints r).deliverable_iff.trans (h.rest r hr)

theorem ScannedTo.refillRound {s : VgicState n} {hp pp : Bool} {lrInd : Nat} {prio : BitVec 8}
    {u : VgicState n × Bool × BitVec 8} (h : ScannedTo g v s (.refillScan hp lrInd i pp prio))
    (hint : scanInt g v i = some r) (hu : refillRound g s v hp pp prio r = some u) :
    ScannedTo g v u.1 (.refillScan hp lrInd (i + 1) u.2.1 u.2.2) := by
  obtain ⟨hk, hheld, hnone⟩ := h
  obtain ⟨howners, hcases⟩ := refillRound_cases hu
  have hcand (r : IntRef n) := (howners.sameInt r).candidate_iff (g := g)
  simp only [ScannedTo, howners.sameScan.emptyLrs_eq, hcand]
  rcases hcases with ⟨hnew, hr⟩ | ⟨hsame, hnot⟩
  · rw [hnew]
    refine ⟨hk, fun r' hr' => ?_, fun h => by cases h⟩
    cases hr'
    exact ⟨hr, i, hint⟩
  · rw [hsame]
    refine ⟨hk, hheld, fun h j hj r' hr' => ?_⟩
    rcases Nat.lt_succ_iff_lt_or_eq.mp hj with hlt | rfl
    · exact hnone h j hlt r' hr'
    · rw [← Option.some.inj (hint.symm.trans hr')]
      exact hnot h

theorem RefillInv.scanStep (h : s.RefillInv g v s₀) (ht : s.scanStep g v = some t) :
    t.RefillInv g v s₀ := by
  have hscanned := h.scanned
  have hinv := h.scan.step (a := .scan v) ht
  have hrefl : SameScan v s.vgic s.vgic := (OwnersOnly.refl _).sameScan
  cases scanStep_cases ht with
  | full _ hfind =>
    refine h.sameScan hrefl hinv (.inl ?_)
    rw [Finset.eq_empty_iff_forall_notMem]
    intro k hk
    obtain ⟨hlt, hempty⟩ := mem_emptyLrs.mp hk
    have hfound : ∃ j, bitmapFindNth (fun k => ((s.vgic.cpu v).lrs k).empty) g.numLrs 1 0 true =
        some j := exists_bitmapFindNth_one.mpr ⟨k, hlt, Nat.zero_le k, hempty⟩
    rw [hfind] at hfound
    exact absurd hfound (by simp)
  | start hscan hfind =>
    have hnone : s.vgic.held v = none := h.scan.idle v (by rw [hscan]; rfl)
    obtain ⟨-, hlt, hempty, -⟩ := (bitmapFindNth_spec Nat.one_pos).mp hfind
    refine h.sameScan hrefl hinv ⟨mem_emptyLrs.mpr ⟨hlt, hempty⟩, ?_, ?_⟩
    · rw [hnone]
      intro r hr
      cases hr
    · intro _ j hj
      cases hj
  | refillRound hscan hint hu =>
    rw [hscan] at hscanned
    exact h.sameScan (refillRound_cases hu).1.sameScan hinv (hscanned.refillRound hint hu)
  | refillWrite hscan hend hheld hu =>
    rw [hscan] at hscanned
    obtain ⟨hk, hcands, -⟩ := hscanned
    obtain ⟨hcand, i, hi⟩ := hcands _ hheld
    have hwrote := wroteLr_of_write hu
    have hunlock : SameScan v s.vgic (Armv8.unlock s.vgic v) := (OwnersOnly.setHeld _).sameScan
    have hsane : Sane g (Armv8.unlock s.vgic v) := h.scan.sane.congr rfl rfl
    have hbalance := hwrote.balance hsane hi ((hunlock.ints _).candidate_iff.mpr hcand)
      (by rwa [hunlock.emptyLrs_eq])
    rw [hunlock.emptyLrs_eq, hunlock.fillers_eq] at hbalance
    refine ⟨hinv, by rw [goto_scan]; trivial, ?_, fun r hr => ?_⟩
    · have hbefore := h.balance
      rw [goto_vgic]
      omega
    · refine (hwrote.deliverable_iff hsane ?_).trans
        ((hunlock.ints r).deliverable_iff.trans (h.rest r hr))
      rintro rfl
      exact hr i hi
  | refillNone hscan hend hnone =>
    rw [hscan] at hscanned
    refine h.sameScan (.setNpie _) hinv (.inr fun j r hr => ?_)
    rw [((SameScan.setNpie _).ints r).candidate_iff]
    exact hscanned.2.2 hnone j (scanInt_lt hend hr) r hr
  | eoirRound hscan => rw [hscan] at hscanned; exact hscanned.elim
  | eoirEnd hscan => rw [hscan] at hscanned; exact hscanned.elim

theorem run_scans (s : VgicSystem n) (v : Fin n) (k : Nat) :
    run (VgicSystem.step g) s (List.replicate k (.scan v)) =
      run (fun s _ => s.scanStep g v) s (List.replicate k ()) := by
  rw [← List.map_replicate (f := fun _ : Unit => VgicAction.scan v), run_map]
  rfl

theorem refill_run (hs : s.ScanInv g)
    (ht : run (VgicSystem.step g) s (.refill v :: List.replicate k (.scan v)) = some t) :
    t.RefillInv g v s.vgic := by
  obtain ⟨u, hu, ht⟩ := run_cons.mp ht
  have hinv := hs.step hu
  rw [run_scans] at ht
  have hstart : u.RefillInv g v s.vgic := by
    simp only [VgicSystem.step] at hu
    split at hu
    · obtain ⟨w, hw, rfl⟩ := Option.map_eq_some_iff.mp hu
      cases hw
      exact ⟨hinv, by rw [VgicAction.vcpu, goto_scan]; trivial, rfl, fun _ _ => Iff.rfl⟩
    · cases hu
  exact run_invariant (fun _ _ _ h hstep => RefillInv.scanStep h hstep) hstart ht

theorem RefillInv.full_iff (h : t.RefillInv g v s₀) (hidle : t.scan v = .idle) :
    emptyLrs g t.vgic v = ∅ ↔ (emptyLrs g s₀ v).card ≤ (fillers g s₀ v).card := by
  have hbalance := h.balance
  constructor
  · intro hfull
    rw [hfull, Finset.card_empty] at hbalance
    omega
  · intro hle
    have hscanned := h.scanned
    rw [hidle] at hscanned
    rcases hscanned with hfull | hnone
    · exact hfull
    · have hused : fillers g t.vgic v = ∅ := by
        rw [Finset.eq_empty_iff_forall_notMem]
        intro i hi
        obtain ⟨r, hr, hfills⟩ := mem_fillers.mp hi
        exact hnone i r hr hfills.1
      rw [hused, Finset.card_empty] at hbalance
      rw [← Finset.card_eq_zero]
      omega

/-- When `vgic_refill_lrs` is over, no register is left empty beside a deliverable interrupt exactly
when at the call there were as many interrupts below the end of the scan to fill a register as empty
registers, or none of the last 31 interrupts, which the scan does not go through, was
deliverable. -/
theorem vgic_refill_iff {itln k : Nat} (hs : s.ScanInv g) (hnum : g.intNum = 32 * (itln + 1))
    (hirqs : g.numIrqs = gicNumIrqs itln)
    (ht : run (VgicSystem.step g) s (.refill v :: List.replicate k (.scan v)) = some t)
    (hidle : t.scan v = .idle) :
    ((∀ k < g.numLrs, ((t.vgic.cpu v).lrs k).empty = false) ∨
      ∀ id < g.intNum, ∀ r, vgicGetInt g id v = some r → ¬ Deliverable g t.vgic v r) ↔
    (emptyLrs g s.vgic v).card ≤ (fillers g s.vgic v).card ∨
      ∀ id < 32 * itln + 32, 32 * itln < id → ∀ r, vgicGetInt g id v = some r →
        ¬ Deliverable g s.vgic v r := by
  have hinv := refill_run hs ht
  rw [← emptyLrs_eq_empty, ← hinv.full_iff hidle]
  have hrest : ∀ id r, 32 * itln < id → vgicGetInt g id v = some r →
      (Deliverable g t.vgic v r ↔ Deliverable g s.vgic v r) := by
    intro id r hid hr
    refine hinv.rest r fun i hi => ?_
    obtain ⟨hlt, hget⟩ := scanInt_eq_some.mp hi
    rw [hirqs, gicNumIrqs, ← id_of_vgicGetInt hget, id_of_vgicGetInt hr] at hlt
    omega
  constructor
  · refine Or.imp_right fun hnone id hid hlt r hr => ?_
    rw [← hrest id r hlt hr]
    exact hnone id (by omega) r hr
  · rintro (hfull | hlast)
    · exact .inl hfull
    · have hscanned := hinv.scanned
      rw [hidle] at hscanned
      refine hscanned.imp_right fun hnone id hid r hr hdeliverable => ?_
      by_cases hlt : 32 * itln < id
      · exact hlast id (by omega) hlt r hr ((hrest id r hlt hr).mp hdeliverable)
      · refine hnone id r (scanInt_eq_some.mpr ⟨?_, hr⟩) hdeliverable.2
        rw [hirqs, gicNumIrqs]
        omega

/-- Vcpu 0 enables the first `m` of its interrupts and makes them pending. -/
def raises (m : Nat) : List (VgicAction 2) :=
  (List.range m).flatMap fun i =>
    [.setField vcpu0 .isenabler (i + 1) 0 1, .setField vcpu0 .ispendr (i + 1) 0 1]

/-- The guest handles the interrupts in the first `m` list registers. -/
def handles (m : Nat) : List (VgicAction 2) :=
  (List.range m).flatMap fun k => [.guest vcpu0 k, .guest vcpu0 k]

/-- Six interrupts of vcpu 0 are pending beside one that the scans do not go through, and the guest
handles two of the four that have a list register. -/
def leavesTwo : List (VgicAction 2) :=
  raises 6 ++ [.setField vcpu0 .isenabler 40 0 1, .setField vcpu0 .irouter 40 0 0,
    .setField vcpu0 .ispendr 40 0 1] ++ handles 2

/-- The other two fill the empty registers. -/
theorem vgic_refill_two : ∃ s t,
    run (VgicSystem.step oneCluster) (initial oneCluster fun _ => false) leavesTwo = some s ∧
    emptyLrs oneCluster s.vgic vcpu0 = {0, 1} ∧ fillers oneCluster s.vgic vcpu0 = {5, 6} ∧
    run (VgicSystem.step oneCluster) s (.refill vcpu0 :: List.replicate 71 (.scan vcpu0)) = some t ∧
    t.scan vcpu0 = .idle ∧
    ((∀ k < oneCluster.numLrs, ((t.vgic.cpu vcpu0).lrs k).empty = false) ∨
      ∀ id < oneCluster.intNum, ∀ r, vgicGetInt oneCluster id vcpu0 = some r →
        ¬ Deliverable oneCluster t.vgic vcpu0 r) := by
  obtain ⟨s, hs, hempty, hfillers, t, ht, hidle⟩ :
      ∃ s ∈ run (VgicSystem.step oneCluster) (initial oneCluster fun _ => false) leavesTwo,
        emptyLrs oneCluster s.vgic vcpu0 = {0, 1} ∧ fillers oneCluster s.vgic vcpu0 = {5, 6} ∧
        ∃ t ∈ run (VgicSystem.step oneCluster) s
          (.refill vcpu0 :: List.replicate 71 (.scan vcpu0)), t.scan vcpu0 = .idle := by
    decide +kernel
  have hnum : oneCluster.intNum = 32 * (1 + 1) := rfl
  have hirqs : oneCluster.numIrqs = gicNumIrqs 1 := rfl
  refine ⟨s, t, hs, hempty, hfillers, ht, hidle,
    (vgic_refill_iff (ScanInv.run hs) hnum hirqs ht hidle).mpr (.inl ?_)⟩
  rw [hempty, hfillers]
  decide

/-- Five interrupts are pending, and the guest handles the four that get a list register. -/
def fillsLrs : List (VgicAction 2) := raises 5 ++ handles 4

/-- The fifth interrupt does not get one of the empty registers. -/
theorem vgic_refill_unscanned : ∃ s t r,
    run (VgicSystem.step oneLine) (initial oneLine fun _ => false) fillsLrs = some s ∧
    run (VgicSystem.step oneLine) s (.refill vcpu0 :: List.replicate 3 (.scan vcpu0)) = some t ∧
    t.scan vcpu0 = .idle ∧ ((t.vgic.cpu vcpu0).lrs 0).empty = true ∧
    vgicGetInt oneLine 5 vcpu0 = some r ∧ Deliverable oneLine t.vgic vcpu0 r := by
  obtain ⟨s, hs, t, ht, hidle, hempty, r, hr, hdeliverable⟩ :
      ∃ s ∈ run (VgicSystem.step oneLine) (initial oneLine fun _ => false) fillsLrs,
        ∃ t ∈ run (VgicSystem.step oneLine) s (.refill vcpu0 :: List.replicate 3 (.scan vcpu0)),
          t.scan vcpu0 = .idle ∧ ((t.vgic.cpu vcpu0).lrs 0).empty = true ∧
          ∃ r ∈ vgicGetInt oneLine 5 vcpu0, Deliverable oneLine t.vgic vcpu0 r := by
    decide +kernel
  exact ⟨s, t, r, hs, ht, hidle, hempty, hr, hdeliverable⟩

end VgicSystem

end Bao.Armv8
