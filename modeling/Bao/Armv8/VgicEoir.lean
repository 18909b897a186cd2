import Bao.Armv8.VgicRefill
import Bao.Armv8.VgicSpill

/-!
# The end of a spilled interrupt

When the guest ends an interrupt that is in no list register, `vgic_eoir_highest_spilled_active`
takes it for the best of the active interrupts among those that its scan goes through. The scan
keeps the one with the largest priority value, which has the lowest priority.

Whether an interrupt is active is said here by `vgic_get_state`, on the cpu of its owner. Writing
another interrupt to a list register, which may spill one, changes it for none.
-/

namespace Bao.Armv8

open Foundation

variable {n : Nat}

/-- The interrupt is active, in the list register of its owner that holds it or in its record. -/
def isActive (g : VgicConfig n) (s : VgicState n) (v : Fin n) (r : IntRef n) : Bool :=
  vgicGetState g s ((s.ints r).owner.getD v) r &&& act ≠ 0

/-- An interrupt that the vcpu may take, with an active record. -/
def Spilled (g : VgicConfig n) (s : VgicState n) (v : Fin n) (r : IntRef n) : Prop :=
  vgicGetInt g r.id v = some r ∧ (s.ints r).Mine v ∧ (s.ints r).state &&& act ≠ 0

/-- An interrupt in a list register has an owner and no state of its own. -/
def LrOnly (s : VgicState n) : Prop :=
  ∀ r, (s.ints r).inLr = true → (s.ints r).state = inv ∧ (s.ints r).owner ≠ none

/-- The records agree with the list registers of the vcpu: those in one of its registers are its
private and the shared ones, and what its registers hold is said to be in one. -/
structure LrRecords (g : VgicConfig n) (s : VgicState n) (v : Fin n) : Prop where
  inLr : LrOnly s
  own : ∀ r, (s.ints r).owner = some v → (s.ints r).inLr = true → vgicGetInt g r.id v = some r
  valid : ∀ k < g.numLrs, ((s.cpu v).lrs k).state ≠ inv →
    ∀ r, vgicGetInt g ((s.cpu v).lrs k).vid v = some r → (s.ints r).inLr = true

variable {g : VgicConfig n} {s t u : VgicState n} {v w : Fin n} {r r' : IntRef n} {k : Nat}

/-! ## Active interrupts -/

theorem gichGetLr_of_in (howner : (s.ints r).owner = some w) (hin : (s.ints r).inLr = true) :
    gichGetLr g s w r =
      if ((s.cpu w).lrs (s.ints r).lr).vid = r.id ∧ ((s.cpu w).lrs (s.ints r).lr).state ≠ inv then
        some ((s.cpu w).lrs (s.ints r).lr)
      else none := by
  simp [gichGetLr, howner, hin]

theorem vgicGetState_act : vgicGetState g s w r &&& act =
    (gichGetLr g s w r).elim (s.ints r).state ListReg.state &&& act := by
  have hpend : ∀ x : IntState, (x ||| pend) &&& act = x &&& act := by decide
  simp only [vgicGetState]
  cases gichGetLr g s w r with
  | none => split <;> simp [hpend]
  | some lr => split <;> simp [hpend]

theorem isActive_eq : isActive g s v r =
    decide ((gichGetLr g s ((s.ints r).owner.getD v) r).elim (s.ints r).state ListReg.state &&&
      act ≠ 0) := by
  rw [isActive, vgicGetState_act]

theorem isActive_of_out (hout : (s.ints r).inLr = false) :
    isActive g s v r = decide ((s.ints r).state &&& act ≠ 0) := by
  rw [isActive_eq, gichGetLr_of_out hout, Option.elim_none]

theorem isActive_of_in (howner : (s.ints r).owner = some w) (hin : (s.ints r).inLr = true)
    (hstate : (s.ints r).state = inv) : isActive g s v r =
      decide (((s.cpu w).lrs (s.ints r).lr).vid = r.id ∧
        ((s.cpu w).lrs (s.ints r).lr).state &&& act ≠ 0) := by
  have hinv : inv &&& act = 0 := by decide
  rw [isActive_eq, howner, Option.getD_some, gichGetLr_of_in howner hin, decide_eq_decide]
  split
  · rename_i hlr
    simp [hlr.1]
  · rename_i hlr
    simp only [Option.elim_none, hstate, hinv, ne_eq, not_true_eq_false, false_iff, not_and,
      not_not]
    intro hvid
    have hstate : ((s.cpu w).lrs (s.ints r).lr).state = inv := by
      by_contra hne
      exact hlr ⟨hvid, hne⟩
    rw [hstate, hinv]

theorem isActive_congr (hints : t.ints r = s.ints r)
    (hlrs : ∀ w, (s.ints r).owner = some w → (s.ints r).inLr = true →
      (t.cpu w).lrs (s.ints r).lr = (s.cpu w).lrs (s.ints r).lr) :
    isActive g t v r = isActive g s v r := by
  have hget : gichGetLr g t ((s.ints r).owner.getD v) r =
      gichGetLr g s ((s.ints r).owner.getD v) r := by
    cases hin : (s.ints r).inLr with
    | false => rw [gichGetLr_of_out hin, gichGetLr_of_out (hints ▸ hin)]
    | true =>
      cases howner : (s.ints r).owner with
      | none => simp [gichGetLr, hints, howner]
      | some w => simp only [gichGetLr, hints, howner, Option.getD_some, hlrs w howner hin]
  rw [isActive_eq, isActive_eq, hints, hget]

theorem OwnersOnly.isActive (h : OwnersOnly v s t) (hs : LrOnly s) (r : IntRef n) :
    isActive g t v r = isActive g s v r := by
  cases hin : (s.ints r).inLr with
  | false =>
    rw [isActive_of_out hin, isActive_of_out ((h.inLr r).trans hin), state_of_fields (h.fields r)]
  | true =>
    have hsame : t.ints r = s.ints r := by rw [h.ints r, h.kept r hin (hs r hin).2]
    exact isActive_congr hsame fun _ _ _ => by rw [h.cpu]

theorem OwnersOnly.lrOnly (h : OwnersOnly v s t) (hs : LrOnly s) : LrOnly t := by
  intro r hin
  rw [h.inLr] at hin
  obtain ⟨hstate, howner⟩ := hs r hin
  rw [state_of_fields (h.fields r), h.kept r hin howner]
  exact ⟨hstate, howner⟩

theorem OwnersOnly.lrRecords (h : OwnersOnly v s t) (hs : LrRecords g s v) : LrRecords g t v where
  inLr := h.lrOnly hs.inLr
  own r howner hin := by
    rw [h.inLr] at hin
    rw [h.kept r hin (hs.inLr r hin).2] at howner
    exact hs.own r howner hin
  valid k hk hstate r hr := by
    rw [h.cpu] at hstate hr
    rw [h.inLr]
    exact hs.valid k hk hstate r hr

/-! ## Writing to a list register -/

theorem lrOf_act {state : IntState} (x : VgicInt n) (h : state &&& act = 0) :
    (lrOf g r x state).1.state &&& act = 0 := by
  have hne : state ≠ pendact := by rintro rfl; exact absurd h (by decide)
  have hpend : pend &&& act = 0 := by decide
  have hinv : inv &&& act = 0 := by decide
  simp only [lrOf]
  split
  · simpa [hne] using h
  · split
    · simp only [h, ne_eq, not_true_eq_false, if_false]
      split
      · exact hpend
      · exact hinv
    · exact h

theorem writeLr_lrs (ht : vgicWriteLr g s v r k = some t) {j : Nat} (hne : w ≠ v ∨ j ≠ k) :
    (t.cpu w).lrs j = (s.cpu w).lrs j := by
  obtain ⟨u, hleave, rfl⟩ := vgicWriteLr_eq_some.mp ht
  have hcpu := (leaveLr_cases hleave).1
  by_cases hw : w = v
  · subst hw
    have hj : j ≠ k := hne.resolve_left fun h => h rfl
    simp [VgicState.setInt, VgicState.setCpu, hcpu, hj]
  · simp [VgicState.setInt, VgicState.setCpu, hcpu, hw]

/-- Writing an interrupt that is not active to a register which holds no active one leaves all of
them as active as they are. -/
theorem isActive_writeLr (hin : LrOnly s) (howner : (s.ints r).owner = some v)
    (hout : (s.ints r).inLr = false) (hact : (s.ints r).state &&& act = 0)
    (hfree : ∀ r', RecordedIn (s.ints r') v k → isActive g s v r' = false)
    (ht : vgicWriteLr g s v r k = some t) (r' : IntRef n) :
    isActive g t v r' = isActive g s v r' := by
  have hlrs {w : Fin n} {j : Nat} := writeLr_lrs (w := w) (j := j) ht
  obtain ⟨u, hleave, ht⟩ := vgicWriteLr_eq_some.mp ht
  obtain ⟨-, hself, hother⟩ := leaveLr_cases hleave
  have hinv : inv &&& act = 0 := by decide
  have hlrAct : (lrOf g r (u.ints r) (vgicGetState g u v r)).1.state &&& act = 0 := lrOf_act _ (by
    rw [vgicGetState_act, gichGetLr_of_out (by rw [hself, hout]), Option.elim_none, hself, hact])
  have hlr : ((t.cpu v).lrs k).state &&& act = 0 := by
    simpa [← ht, VgicState.setInt, VgicState.setCpu] using hlrAct
  by_cases hr : r' = r
  · subst hr
    have howner' : (t.ints r').owner = some v := by
      simp [← ht, VgicState.setInt, VgicState.setCpu, hself, howner]
    have hrec : (t.ints r').inLr = true ∧ (t.ints r').state = inv ∧ (t.ints r').lr = k := by
      simp [← ht, VgicState.setInt, VgicState.setCpu]
    rw [isActive_of_out hout, isActive_of_in howner' hrec.1 hrec.2.1, hrec.2.2]
    simp [hlr, hact]
  · have hints : t.ints r' = u.ints r' := by simp [← ht, VgicState.setInt, VgicState.setCpu, hr]
    rcases hother r' with hsame | ⟨hrec, hleft, -⟩
    · rw [hsame] at hints
      by_cases hrec : RecordedIn (s.ints r') v k
      · -- the register now holds the other one
        obtain ⟨howner', hin', hk⟩ := id hrec
        rw [hfree r' hrec, isActive_of_in (hints ▸ howner') (hints ▸ hin')
          (hints ▸ (hin r' hin').1), hints, hk]
        simp [hlr]
      · refine isActive_congr hints fun w hw hin' => hlrs ?_
        by_contra hnot
        simp only [not_or, not_not] at hnot
        exact hrec ⟨hnot.1 ▸ hw, hin', hnot.2⟩
    · -- the interrupt leaves the register
      have hstate : (t.ints r').state = inv := by
        rw [hints, state_of_fields (fields_leaveLr hleave r'), (hin r' hrec.2.1).1]
      rw [hfree r' hrec, isActive_of_out (hints ▸ hleft), hstate]
      simp [hinv]

/-! ## Spilling -/

theorem isActive_owned (howner : (s.ints r).owner = some v) : isActive g s v r =
    decide ((gichGetLr g s v r).elim (s.ints r).state ListReg.state &&& act ≠ 0) := by
  rw [isActive_eq, howner, Option.getD_some]

theorem vid_of_getLr (howner : (s.ints r).owner = some v) (hin : (s.ints r).inLr = true)
    {lr : ListReg} (hget : gichGetLr g s v r = some lr) :
    ((s.cpu v).lrs (s.ints r).lr).vid = r.id := by
  rw [gichGetLr_of_in howner hin] at hget
  split at hget
  · rename_i hlr
    exact hlr.1
  · cases hget

theorem isActive_removeLr_none (howner : (s.ints r).owner = some v) (hin : (s.ints r).inLr = true)
    (hget : gichGetLr g s v r = none) (r' : IntRef n) :
    isActive g (vgicRemoveLr g s v r) v r' = isActive g s v r' := by
  have hremove : vgicRemoveLr g s v r = s.setInt r { s.ints r with inLr := false } := by
    simp [vgicRemoveLr, vgicOwns, howner, hin, hget]
  rw [hremove]
  by_cases hr : r' = r
  · subst hr
    rw [isActive_owned howner, hget, Option.elim_none, isActive_of_out] <;> simp [VgicState.setInt]
  · exact isActive_congr (by simp [VgicState.setInt, hr]) fun _ _ _ => rfl

theorem isActive_removeLr_some (hs : LrRecords g s v) (hfree : s.locked r = false)
    (howner : (s.ints r).owner = some v) (hin : (s.ints r).inLr = true) {lr : ListReg}
    (hget : gichGetLr g s v r = some lr) (r' : IntRef n) :
    isActive g (vgicRemoveLr g s v r) v r' = isActive g s v r' := by
  obtain ⟨hints, hlrs⟩ := vgicRemoveLr_of_getLr howner hin hget
  by_cases hr : r' = r
  · subst hr
    rw [isActive_owned howner, hget, Option.elim_some, isActive_of_out] <;>
      simp [hints, removedInt_state, removedInt_owner]
  · have hsame : (vgicRemoveLr g s v r).ints r' = s.ints r' := by simp [hints, hr]
    by_cases hrec : RecordedIn (s.ints r') v (s.ints r).lr
    · -- the register was that of the one taken out
      obtain ⟨howner', hin', hk⟩ := hrec
      have hne : r.id ≠ r'.id := by
        intro hid
        have hget' := hs.own r' howner' hin'
        rw [← hid, hs.own r howner hin] at hget'
        exact hr (Option.some.inj hget').symm
      rw [isActive_of_in (s := s) howner' hin' (hs.inLr r' hin').1, isActive_of_in
        (hsame ▸ howner') (hsame ▸ hin') (hsame ▸ (hs.inLr r' hin').1), hsame, hk, hlrs,
        vid_of_getLr howner hin hget]
      simp [hne, inv]
    · refine isActive_congr hsame fun w hw hin' => ?_
      by_cases hwv : w = v
      · subst hwv
        have hk : (s.ints r').lr ≠ (s.ints r).lr := fun hk => hrec ⟨hw, hin', hk⟩
        simp [hlrs, hk]
      · rw [(VgicOp.remove (g := g) (v := v) hfree).opFrame.cpu w hwv]

theorem isActive_removeLr (hs : LrRecords g s v) (hfree : s.locked r = false) (r' : IntRef n) :
    isActive g (vgicRemoveLr g s v r) v r' = isActive g s v r' := by
  by_cases hrec : (s.ints r).owner = some v ∧ (s.ints r).inLr = true
  · cases hget : gichGetLr g s v r with
    | none => exact isActive_removeLr_none hrec.1 hrec.2 hget r'
    | some lr => exact isActive_removeLr_some hs hfree hrec.1 hrec.2 hget r'
  · rw [removeLr_of_not hrec]

theorem LrOnly.removeLr (hs : LrOnly s) : LrOnly (vgicRemoveLr g s v r) := by
  intro r' hin
  by_cases hrec : (s.ints r).owner = some v ∧ (s.ints r).inLr = true
  · by_cases hr : r' = r
    · subst hr
      rw [removeLr_self.2 hrec.1] at hin
      cases hin
    · rw [removeLr_other hr] at hin ⊢
      exact hs r' hin
  · rw [removeLr_of_not hrec] at hin ⊢
    exact hs r' hin

theorem not_active_of_recorded (hs : LrRecords g s v) (hrec : RecordedIn (s.ints r) v k)
    (hne : vgicGetInt g ((s.cpu v).lrs k).vid v ≠ some r) : isActive g s v r = false := by
  obtain ⟨howner, hin, rfl⟩ := hrec
  have hvid : ((s.cpu v).lrs (s.ints r).lr).vid ≠ r.id := by
    intro hvid
    rw [hvid, hs.own r howner hin] at hne
    exact hne rfl
  rw [isActive_of_in howner hin (hs.inLr r hin).1]
  simp [hvid]

/-- Spilling the occupant of a register leaves all interrupts as active as they are, and no active
one in the register. -/
theorem isActive_spill (hs : LrRecords g s v) (ht : vgicSpill g s v r k = some t) :
    LrOnly t ∧ (∀ r', isActive g t v r' = isActive g s v r') ∧
      ∀ r', RecordedIn (t.ints r') v k → isActive g t v r' = false := by
  simp only [vgicSpill] at ht
  split at ht
  · rename_i hnone
    cases ht
    exact ⟨hs.inLr, fun _ => rfl, fun r' hrec => not_active_of_recorded hs hrec (by simp [hnone])⟩
  · rename_i x hx
    split at ht
    · cases ht
    · rename_i hcond
      cases ht
      simp only [not_or, Bool.not_eq_true] at hcond
      have honly : LrOnly (vgicRemoveLr g s v x) := hs.inLr.removeLr
      have hyield : OwnersOnly v (vgicRemoveLr g s v x)
          (vgicYieldOwnership g (vgicRemoveLr g s v x) v x) := .yield
      have hactive : ∀ r', isActive g (vgicYieldOwnership g (vgicRemoveLr g s v x) v x) v r' =
          isActive g s v r' :=
        fun r' => (hyield.isActive honly r').trans (isActive_removeLr hs hcond.2 r')
      refine ⟨hyield.lrOnly honly, hactive, fun r' hrec => ?_⟩
      obtain ⟨howner, hin, hk⟩ := hrec
      rw [hyield.inLr] at hin
      rw [hyield.kept r' hin (honly r' hin).2] at howner
      have hlr : ((vgicRemoveLr g s v x).ints r').lr = k := by rw [← hk, hyield.ints r']
      -- the one that was in the register is not recorded there any more
      have hne : r' ≠ x := by
        rintro rfl
        rw [removeLr_self.1] at howner
        rw [removeLr_self.2 howner] at hin
        cases hin
      rw [removeLr_other hne] at howner hin hlr
      rw [hactive]
      refine not_active_of_recorded hs ⟨howner, hin, hlr⟩ ?_
      rw [hx]
      exact fun heq => hne (Option.some.inj heq).symm

theorem LrRecords.exists_spill (hs : LrRecords g s v) (hfree : ∀ w, s.held w = none)
    (hout : (s.ints r).inLr = false) (hk : k < g.numLrs)
    (hvalid : ((s.cpu v).lrs k).state ≠ inv) : ∃ u, vgicSpill g s v r k = some u := by
  simp only [vgicSpill]
  split
  · exact ⟨s, rfl⟩
  · rename_i x hx
    have hne : x ≠ r := by
      rintro rfl
      rw [hs.valid k hk hvalid x hx] at hout
      cases hout
    rw [if_neg (by simp [hne, not_locked_of_held hfree])]
    exact ⟨_, rfl⟩

theorem isActive_addLr (hs : LrRecords g s v) (hfree : ∀ w, s.held w = none)
    (howner : (s.ints r).owner = some v) (hout : (s.ints r).inLr = false)
    (hact : (s.ints r).state &&& act = 0) :
    ∃ t, vgicAddLr g s v r = some t ∧ ∀ r', isActive g t v r' = isActive g s v r' := by
  simp only [vgicAddLr]
  split
  · exact ⟨s, rfl, fun _ => rfl⟩
  · split
    · rename_i k hfind
      have hempty := List.find?_some hfind
      obtain ⟨t, ht⟩ := vgicWriteLr_isSome (g := g) hfree v r k
      refine ⟨t, ht, isActive_writeLr hs.inLr howner hout hact (fun r' hrec => ?_) ht⟩
      obtain ⟨howner', hin', rfl⟩ := hrec
      simp only [ListReg.empty, Bool.and_eq_true, decide_eq_true_eq] at hempty
      rw [isActive_of_in howner' hin' (hs.inLr r' hin').1, hempty.1]
      simp [inv]
    · split
      · rename_i k hspill
        obtain ⟨hk, hvalid⟩ := spillInd_valid hspill
        obtain ⟨u, hu⟩ := hs.exists_spill hfree hout hk hvalid
        obtain ⟨hops, hself⟩ := VgicOps.spill hu
        obtain ⟨honly, hactive, hnone⟩ := isActive_spill hs hu
        obtain ⟨t, ht⟩ := vgicWriteLr_isSome (g := g)
          (fun w => (congrFun hops.opFrame.held w).trans (hfree w)) v r k
        refine ⟨t, by rw [hu, Option.bind_some, ht], fun r' => ?_⟩
        rw [isActive_writeLr honly (hself ▸ howner) (hself ▸ hout) (hself ▸ hact) hnone ht, hactive]
      · split
        · refine ⟨_, rfl, fun r' => isActive_congr rfl fun w _ _ => ?_⟩
          by_cases hw : w = v
          · subst hw
            simp [VgicState.setNpie, VgicState.setCpu]
          · simp [VgicState.setNpie, VgicState.setCpu, hw]
        · exact ⟨s, rfl, fun _ => rfl⟩

/-! ## The scan -/

theorem isActive_of_spilled (hs : LrOnly s) (h : Spilled g s v r) :
    (s.ints r).inLr = false ∧ isActive g s v r = true := by
  have hout : (s.ints r).inLr = false := by
    by_contra hin
    have hinv := (hs r (Bool.eq_true_of_not_eq_false hin)).1
    exact h.2.2 (by rw [hinv]; decide)
  exact ⟨hout, by rw [isActive_of_out hout]; exact decide_eq_true h.2.2⟩

/-- What the scan has found below `i`, having started in `s`: the interrupt that it holds has the
largest priority value so far. -/
structure EoirInv (g : VgicConfig n) (v : Fin n) (s : VgicState n) (i : Nat) (u : VgicState n) :
    Prop where
  owners : OwnersOnly v s u
  others : ∀ w, w ≠ v → u.held w = none
  best : ∀ r, Spilled g s v r → r.id < i →
    ∃ b, u.held v = some b ∧ (s.ints r).prio ≤ (s.ints b).prio
  held : ∀ b, u.held v = some b →
    Spilled g s v b ∧ b.id < i ∧ b.id < g.numIrqs ∧ (u.ints b).owner = some v

/-- The scan takes the interrupt for the one it holds. -/
def EoirBetter (s : VgicState n) (v : Fin n) (r : IntRef n) : Prop :=
  (s.ints r).Mine v ∧ (s.ints r).state &&& act ≠ 0 ∧
    ∀ b, s.held v = some b → (s.ints b).prio < (s.ints r).prio

theorem OwnersOnly.prio (h : OwnersOnly v s t) (r : IntRef n) : (t.ints r).prio = (s.ints r).prio :=
  prio_of_config (config_of_fields (h.fields r))

theorem eoirRound_cases (hfree : s.locked r = false) (hne : s.held v ≠ some r) :
    ∃ u, eoirRound g s v r = some u ∧ OwnersOnly v s u ∧
      (EoirBetter s v r →
        u.held = Function.update s.held v (some r) ∧ (u.ints r).owner = some v) ∧
      (¬ EoirBetter s v r → u.held = s.held ∧ ∀ r', r' ≠ r → u.ints r' = s.ints r') := by
  have htake : OwnersOnly v s (vgicGetOwnership s v r).2 := .take
  have hcond : EoirBetter s v r ↔ (vgicGetOwnership s v r).1 = true ∧
      ((vgicGetOwnership s v r).2.ints r).state &&& act ≠ 0 ∧
      ((vgicGetOwnership s v r).2.held v).all (fun best =>
        decide (((vgicGetOwnership s v r).2.ints best).prio <
          ((vgicGetOwnership s v r).2.ints r).prio)) = true := by
    rw [EoirBetter, getOwnership_iff, state_of_fields (htake.fields r), getOwnership_held,
      Option.all_eq_true]
    simp only [htake.prio, decide_eq_true_eq]
  by_cases hbetter : EoirBetter s v r
  · refine ⟨swapHeld g (vgicGetOwnership s v r).2 v r, ?_, htake.trans .swapHeld,
      fun _ => ⟨by rw [swapHeld_held, getOwnership_held], ?_⟩, fun hnot => absurd hbetter hnot⟩
    · rw [eoirRound, hfree]
      exact if_pos (hcond.mp hbetter)
    · have howner := owner_of_getOwnership (getOwnership_iff.mpr hbetter.1)
      simp only [swapHeld, getOwnership_held]
      cases hold : s.held v with
      | none => exact howner
      | some old =>
        rw [Option.elim_some, yield_other (by rintro rfl; exact hne hold)]
        exact howner
  · refine ⟨vgicYieldOwnership g (vgicGetOwnership s v r).2 v r, ?_, htake.trans .yield,
      fun h => absurd h hbetter, fun _ => ⟨by rw [yield_frame.1, getOwnership_held], ?_⟩⟩
    · rw [eoirRound, hfree]
      exact if_neg fun h => hbetter (hcond.mpr h)
    · intro r' hr
      rw [yield_other hr]
      rcases getOwnership_cases s v r with ⟨heq, -⟩ | ⟨heq, -⟩ | ⟨heq, -⟩ <;>
        simp [heq, VgicState.setInt, hr]

theorem Spilled.eq_of_id (hspilled : Spilled g s v r') (hint : vgicGetInt g r.id v = some r)
    (hid : r'.id = r.id) : r' = r := by
  have hint' := hspilled.1
  rw [hid, hint] at hint'
  exact (Option.some.inj hint').symm

theorem EoirInv.take (h : EoirInv g v s r.id u) (hint : vgicGetInt g r.id v = some r)
    (hirqs : r.id < g.numIrqs) (hbetter : EoirBetter u v r) (howners : OwnersOnly v u t)
    (hheld : t.held = Function.update u.held v (some r)) (howner : (t.ints r).owner = some v) :
    EoirInv g v s (r.id + 1) t := by
  obtain ⟨hmine, hact, hprio⟩ := hbetter
  have hspilled : Spilled g s v r := by
    refine ⟨hint, (h.owners.mine_iff r).mp hmine, ?_⟩
    rwa [state_of_fields (h.owners.fields r)] at hact
  refine ⟨h.owners.trans howners, fun w hw => ?_, fun r' hr' hid => ⟨r, ?_, ?_⟩, fun b hb => ?_⟩
  · rw [hheld, Function.update_of_ne hw, h.others w hw]
  · rw [hheld, Function.update_self]
  · rcases Nat.lt_succ_iff_lt_or_eq.mp hid with hlt | heq
    · obtain ⟨b, hb, hle⟩ := h.best r' hr' hlt
      have hlt := hprio b hb
      rw [h.owners.prio, h.owners.prio, BitVec.lt_def] at hlt
      rw [BitVec.le_def] at hle ⊢
      omega
    · rw [hr'.eq_of_id hint heq]
      exact BitVec.le_refl _
  · rw [hheld, Function.update_self, Option.some.injEq] at hb
    subst hb
    exact ⟨hspilled, Nat.lt_succ_self _, hirqs, howner⟩

theorem EoirInv.skip (h : EoirInv g v s r.id u) (hint : vgicGetInt g r.id v = some r)
    (hnot : ¬ EoirBetter u v r) (howners : OwnersOnly v u t) (hheld : t.held = u.held)
    (hints : ∀ r', r' ≠ r → t.ints r' = u.ints r') : EoirInv g v s (r.id + 1) t := by
  refine ⟨h.owners.trans howners, fun w hw => by rw [hheld, h.others w hw], fun r' hr' hid => ?_,
    fun b hb => ?_⟩
  · rw [hheld]
    rcases Nat.lt_succ_iff_lt_or_eq.mp hid with hlt | heq
    · exact h.best r' hr' hlt
    · -- it is active, so one with at least its priority value is held
      obtain rfl := hr'.eq_of_id hint heq
      have hmine := (h.owners.mine_iff r').mpr hr'.2.1
      have hact : (u.ints r').state &&& act ≠ 0 := by
        rw [state_of_fields (h.owners.fields r')]
        exact hr'.2.2
      by_contra hnone
      refine hnot ⟨hmine, hact, fun b hb => ?_⟩
      rw [h.owners.prio, h.owners.prio]
      exact BitVec.not_le.mp fun hle => hnone ⟨b, hb, hle⟩
  · rw [hheld] at hb
    obtain ⟨hspilled, hlt, hirqs, howner⟩ := h.held b hb
    refine ⟨hspilled, by omega, hirqs, ?_⟩
    rw [hints b (by rintro rfl; exact lt_irrefl _ hlt), howner]

variable {i : Nat}

theorem EoirInv.round (h : EoirInv g v s i u) (hr : scanInt g v i = some r) :
    ∃ u', eoirRound g u v r = some u' ∧ EoirInv g v s (i + 1) u' := by
  have hi : i < g.numIrqs ∧ vgicGetInt g i v = some r := by
    simpa [scanInt, Option.ite_none_right_eq_some] using hr
  obtain ⟨hirqs, hint⟩ := hi
  obtain rfl : r.id = i := id_of_vgicGetInt hint
  have hne : u.held v ≠ some r := fun hheld => absurd (h.held r hheld).2.1 (lt_irrefl _)
  have hfree : u.locked r = false := VgicSystem.not_locked fun w hw => by
    by_cases hwv : w = v
    · exact hne (hwv ▸ hw)
    · rw [h.others w hwv] at hw
      cases hw
  obtain ⟨u', hu', howners, htaken, hkept⟩ := eoirRound_cases (g := g) hfree hne
  refine ⟨u', hu', ?_⟩
  by_cases hbetter : EoirBetter u v r
  · obtain ⟨hheld, howner⟩ := htaken hbetter
    exact h.take hint hirqs hbetter howners hheld howner
  · obtain ⟨hheld, hints⟩ := hkept hbetter
    exact h.skip hint hbetter howners hheld hints

/-! ## The end of the scan -/

/-- What is active at the end: nothing has changed if the scan goes through no spilled interrupt,
and else only for one of those with the largest priority value that it goes through. -/
def EoirPost (g : VgicConfig n) (v : Fin n) (s t : VgicState n) : Prop :=
  (∀ r, Spilled g s v r → g.numIrqs ≤ r.id) ∧ (∀ r, isActive g t v r = isActive g s v r) ∨
  ∃ b, Spilled g s v b ∧ b.id < g.numIrqs ∧
    (∀ r, Spilled g s v r → r.id < g.numIrqs → (s.ints r).prio ≤ (s.ints b).prio) ∧
    isActive g t v b = false ∧ ∀ r, r ≠ b → isActive g t v r = isActive g s v r

theorem LrRecords.setInt (hs : LrRecords g s v) (hout : (s.ints r).inLr = false) {x : VgicInt n}
    (hx : x.inLr = false) : LrRecords g (s.setInt r x) v where
  inLr r' hin := by
    by_cases hr : r' = r
    · subst hr; simp [VgicState.setInt, hx] at hin
    · simp only [VgicState.setInt, Function.update_of_ne hr] at hin ⊢
      exact hs.inLr r' hin
  own r' howner hin := by
    by_cases hr : r' = r
    · subst hr; simp [VgicState.setInt, hx] at hin
    · simp only [VgicState.setInt, Function.update_of_ne hr] at howner hin
      exact hs.own r' howner hin
  valid k hk hstate r' hr' := by
    have hin := hs.valid k hk hstate r' hr'
    have hr : r' ≠ r := by
      rintro rfl
      rw [hout] at hin
      cases hin
    simpa [VgicState.setInt, hr] using hin

theorem and_not_act (state : IntState) : state &&& ~~~act &&& act = 0 := by
  revert state
  decide

/-- The state in which the scan has let `b` go with its active bit cleared. -/
def clearAct (u : VgicState n) (v : Fin n) (b : IntRef n) : VgicState n :=
  (unlock u v).setInt b { (unlock u v).ints b with state := (u.ints b).state &&& ~~~act }

theorem clearAct_self (u : VgicState n) (b : IntRef n) :
    (clearAct u v b).ints b = { u.ints b with state := (u.ints b).state &&& ~~~act } := by
  simp [clearAct, VgicState.setInt, unlock]

theorem clearAct_other (u : VgicState n) {b : IntRef n} (hr : r ≠ b) :
    (clearAct u v b).ints r = u.ints r := by
  simp [clearAct, VgicState.setInt, unlock, hr]

theorem isActive_clearAct (hs : LrOnly s) (h : OwnersOnly v s u) {b : IntRef n}
    (hout : (u.ints b).inLr = false) : isActive g (clearAct u v b) v b = false ∧
      ∀ r, r ≠ b → isActive g (clearAct u v b) v r = isActive g s v r := by
  constructor
  · rw [isActive_of_out (by rw [clearAct_self]; exact hout), clearAct_self]
    simp [and_not_act]
  · intro r hr
    rw [← h.isActive hs r]
    exact isActive_congr (clearAct_other u hr) fun _ _ _ => rfl

theorem EoirInv.below (hend : scanInt g v i = none) (h : Spilled g s v r) (hlt : r.id < g.numIrqs) :
    r.id < i := by
  refine scanInt_lt (r := r) hend ?_
  rw [scanInt, if_pos hlt, h.1]

theorem EoirInv.eoirEnd (hs : LrRecords g s v) (h : EoirInv g v s i u)
    (hend : scanInt g v i = none) : ∃ t, eoirEnd g u v = some t ∧ EoirPost g v s t := by
  cases hheld : u.held v with
  | none =>
    simp only [Armv8.eoirEnd, hheld]
    refine ⟨u, rfl, .inl ⟨fun r hr => ?_, h.owners.isActive hs.inLr⟩⟩
    by_contra hlt
    obtain ⟨b, hb, -⟩ := h.best r hr (below hend hr (by omega))
    rw [hheld] at hb
    cases hb
  | some b =>
    obtain ⟨hspilled, -, hirqs, howner⟩ := h.held b hheld
    have hout : (u.ints b).inLr = false :=
      (h.owners.inLr b).trans (isActive_of_spilled hs.inLr hspilled).1
    have hmax : ∀ r, Spilled g s v r → r.id < g.numIrqs → (s.ints r).prio ≤ (s.ints b).prio := by
      intro r hr hlt
      obtain ⟨b', hb', hle⟩ := h.best r hr (below hend hr hlt)
      obtain rfl : b = b' := Option.some.inj (hheld.symm.trans hb')
      exact hle
    obtain ⟨hb, hothers⟩ := isActive_clearAct (g := g) hs.inLr h.owners hout
    have hpost : ∀ t, (∀ r, isActive g t v r = isActive g (clearAct u v b) v r) →
        EoirPost g v s t :=
      fun t heq => .inr ⟨b, hspilled, hirqs, hmax, (heq b).trans hb,
        fun r hr => (heq r).trans (hothers r hr)⟩
    have hunlock : OwnersOnly v s (unlock u v) := h.owners.trans (.setHeld _)
    have hrecords : LrRecords g (clearAct u v b) v := (hunlock.lrRecords hs).setInt hout hout
    have hfree : ∀ w, (clearAct u v b).held w = none := by
      intro w
      by_cases hw : w = v
      · subst hw; simp [clearAct, VgicState.setInt, unlock]
      · simp [clearAct, VgicState.setInt, unlock, hw, h.others w hw]
    obtain ⟨t, ht, heq⟩ := isActive_addLr hrecords hfree (r := b)
      (by rw [clearAct_self]; exact howner) (by rw [clearAct_self]; exact hout)
      (by rw [clearAct_self]; exact and_not_act _)
    simp only [Armv8.eoirEnd, hheld]
    split
    · exact ⟨t, ht, hpost t heq⟩
    · exact ⟨clearAct u v b, rfl, hpost _ fun _ => rfl⟩

namespace VgicSystem

variable {s t : VgicSystem n}

/-- Where the vcpu is in the function that started in the state `s₀`. -/
def EoirAt (g : VgicConfig n) (v : Fin n) (s₀ : VgicState n) (s : VgicSystem n) : Prop :=
  match s.scan v with
  | .idle => EoirPost g v s₀ s.vgic
  | .eoirScan i => EoirInv g v s₀ i s.vgic
  | .refill _ | .refillScan .. => False

variable {s₀ : VgicState n}

theorem EoirAt.scanStep (hs : LrRecords g s₀ v) (h : s.EoirAt g v s₀)
    (hscan : s.scan v = .eoirScan i) :
    ∃ t, s.scanStep g v = some t ∧ t.EoirAt g v s₀ ∧
      (t.scan v = .idle ∨ t.scan v = .eoirScan (i + 1) ∧ i < g.numIrqs) := by
  simp only [EoirAt, hscan] at h
  simp only [VgicSystem.scanStep, hscan]
  cases hint : scanInt g v i with
  | none =>
    obtain ⟨u, hu, hpost⟩ := h.eoirEnd hs hint
    refine ⟨s.goto v u .idle, by simp [hu], ?_, .inl (goto_scan ..)⟩
    simp only [EoirAt, goto_scan]
    exact hpost
  | some r =>
    obtain ⟨u, hu, hinv⟩ := h.round hint
    have hirqs : i < g.numIrqs := by
      by_contra hle
      rw [scanInt, if_neg hle] at hint
      cases hint
    refine ⟨s.goto v u (.eoirScan (i + 1)), by simp [hu], ?_, .inr ⟨goto_scan .., hirqs⟩⟩
    simp only [EoirAt, goto_scan]
    exact hinv

theorem EoirAt.scans {k : Nat} (hs : LrRecords g s₀ v) (h : s.EoirAt g v s₀)
    (ht : run (fun s _ => s.scanStep g v) s (List.replicate k ()) = some t) : t.EoirAt g v s₀ := by
  refine run_invariant (fun s _ t h ht => ?_) h ht
  cases hscan : s.scan v with
  | idle => simp [VgicSystem.scanStep, hscan] at ht
  | refill hp => simp [EoirAt, hscan] at h
  | refillScan hp lrInd i pp prio => simp [EoirAt, hscan] at h
  | eoirScan i =>
    obtain ⟨t', ht', hat, -⟩ := h.scanStep hs hscan
    rwa [Option.some.inj (ht.symm.trans ht')]

theorem EoirAt.returns (hs : LrRecords g s₀ v) (h : s.EoirAt g v s₀)
    (hscan : s.scan v = .eoirScan i) :
    ∃ k t, run (fun s _ => s.scanStep g v) s (List.replicate k ()) = some t ∧
      t.scan v = .idle := by
  -- the interrupts up to the end of the scan get fewer
  induction hleft : g.numIrqs - i generalizing s i with
  | zero =>
    obtain ⟨t, ht, -, hidle | ⟨-, hlt⟩⟩ := h.scanStep hs hscan
    · exact ⟨1, t, run_cons.mpr ⟨t, ht, rfl⟩, hidle⟩
    · omega
  | succ left ih =>
    obtain ⟨u, hu, hat, hidle | ⟨hnext, hlt⟩⟩ := h.scanStep hs hscan
    · exact ⟨1, u, run_cons.mpr ⟨u, hu, rfl⟩, hidle⟩
    · obtain ⟨k, t, ht, hidle⟩ := ih hat hnext (by omega)
      exact ⟨k + 1, t, run_cons.mpr ⟨u, hu, ht⟩, hidle⟩

/-- The trapped end of an interrupt ends one of the spilled active ones with the highest priority,
and no other, exactly when there is one below `gic_num_irqs()` and all of those have the smallest
priority value of all. -/
theorem vgic_eoir_iff (hs : LrRecords g s.vgic v) (hfree : ∀ w, s.vgic.held w = none)
    (hidle : s.scan v = .idle) :
    (∃ k t c, run (VgicSystem.step g) s (.eoirSpilled v :: List.replicate k (.scan v)) = some t ∧
      t.scan v = .idle ∧ Spilled g s.vgic v c ∧
      (∀ r, Spilled g s.vgic v r → (s.vgic.ints c).prio ≤ (s.vgic.ints r).prio) ∧
      isActive g t.vgic v c = false ∧
      ∀ r, r ≠ c → isActive g t.vgic v r = isActive g s.vgic v r) ↔
    (∃ r, Spilled g s.vgic v r ∧ r.id < g.numIrqs) ∧
      ∀ r r', Spilled g s.vgic v r → r.id < g.numIrqs → Spilled g s.vgic v r' →
        (s.vgic.ints r).prio ≤ (s.vgic.ints r').prio := by
  have hstep : VgicSystem.step g s (.eoirSpilled v) = some (s.goto v s.vgic (.eoirScan 0)) := by
    simp [VgicSystem.step, VgicAction.vcpu, hidle, vgicAct, VgicAction.next]
  have hstart : (s.goto v s.vgic (.eoirScan 0)).EoirAt g v s.vgic := by
    simp only [EoirAt, goto_scan]
    refine ⟨.refl _, fun w _ => hfree w, fun r _ hr => by omega, fun b hb => ?_⟩
    rw [show (s.goto v s.vgic (.eoirScan 0)).vgic.held v = none from hfree v] at hb
    cases hb
  have hactive : ∀ r, Spilled g s.vgic v r → isActive g s.vgic v r = true :=
    fun r hr => (isActive_of_spilled hs.inLr hr).2
  constructor
  · rintro ⟨k, t, c, ht, hend, hc, hmin, hcleared, -⟩
    rw [run_cons, hstep] at ht
    obtain ⟨u, hu, ht⟩ := ht
    cases hu
    rw [run_scans] at ht
    have hpost := EoirAt.scans hs hstart ht
    simp only [EoirAt, hend] at hpost
    rcases hpost with ⟨-, hsame⟩ | ⟨b, hb, hirqs, hmax, -, hsame⟩
    · rw [hsame, hactive c hc] at hcleared
      cases hcleared
    · obtain rfl : c = b := by
        by_contra hne
        rw [hsame c hne, hactive c hc] at hcleared
        cases hcleared
      exact ⟨⟨c, hc, hirqs⟩, fun r r' hr hlt hr' => BitVec.le_trans (hmax r hr hlt) (hmin r' hr')⟩
  · rintro ⟨⟨r, hr, hlt⟩, hmin⟩
    obtain ⟨k, t, ht, hend⟩ := EoirAt.returns hs hstart (goto_scan ..)
    have hpost := EoirAt.scans hs hstart ht
    simp only [EoirAt, hend] at hpost
    rw [← run_scans] at ht
    rcases hpost with ⟨hnone, -⟩ | ⟨b, hb, hirqs, -, hcleared, hsame⟩
    · exact absurd (hnone r hr) (by omega)
    · exact ⟨k, t, b, run_cons.mpr ⟨_, hstep, ht⟩, hend, hb, fun r' hr' => hmin b r' hb hirqs hr',
        hcleared, hsame⟩

/-- The first private interrupts of each vcpu are in its list registers, and others are active in
their records, with priorities. -/
def withSpilled (prios : Nat → Option (BitVec 8)) : VgicSystem 2 where
  vgic :=
    { ints := fun r => match r with
        | .priv v id =>
          if id.val < 4 then { owner := some v, inLr := true, lr := id }
          else (prios id).elim {} fun prio => { owner := some v, state := act, prio }
        | .spi id => (prios id).elim {} fun prio => { owner := some vcpu0, state := act, prio }
      cpu := fun _ =>
        { lrs := fun k => if k < 4 then { vid := k, prio := 0xa0, state := pend } else {}
          currLrs := fun k => k }
      held := fun _ => none
      queue := fun _ => [] }
  scan _ := .idle

theorem withSpilled_priv (prios : Nat → Option (BitVec 8)) (v : Fin 2) {id : Fin gicCpuPriv}
    (hid : id.val < 4) : (withSpilled prios).vgic.ints (.priv v id) =
      { owner := some v, inLr := true, lr := id } := by
  simp [withSpilled, hid]

/-- What is in no list register is active with its priority, or in its initial state. -/
theorem withSpilled_cases (prios : Nat → Option (BitVec 8)) (r : IntRef 2) :
    (∃ v id, r = .priv v id ∧ id.val < 4) ∨
      ((withSpilled prios).vgic.ints r).inLr = false ∧
        (((withSpilled prios).vgic.ints r).state &&& act ≠ 0 →
          prios r.id = some ((withSpilled prios).vgic.ints r).prio) := by
  cases r with
  | priv v id =>
    by_cases hid : id.val < 4
    · exact .inl ⟨v, id, rfl, hid⟩
    · refine .inr ?_
      cases hprio : prios id <;> simp [withSpilled, hid, hprio, IntRef.id, inv]
  | spi id =>
    refine .inr ?_
    cases hprio : prios id <;> simp [withSpilled, hprio, IntRef.id, inv]

theorem lrRecords_withSpilled (prios : Nat → Option (BitVec 8)) :
    LrRecords twoClusters (withSpilled prios).vgic vcpu0 where
  inLr r hin := by
    rcases withSpilled_cases prios r with ⟨v, id, rfl, hid⟩ | ⟨hout, -⟩
    · simp [withSpilled_priv prios v hid]
    · rw [hout] at hin; cases hin
  own r howner hin := by
    rcases withSpilled_cases prios r with ⟨v, id, rfl, hid⟩ | ⟨hout, -⟩
    · rw [withSpilled_priv prios v hid] at howner
      cases howner
      rw [IntRef.id, vgicGetInt, dif_pos id.isLt, dif_pos vcpu0.isLt]
    · rw [hout] at hin; cases hin
  valid k hk hstate r hr := by
    have hk4 : k < 4 := hk
    have hpriv : k < gicCpuPriv := Nat.lt_trans hk4 (by decide)
    have hvid : (((withSpilled prios).vgic.cpu vcpu0).lrs k).vid = k := by
      simp [withSpilled, hk4]
    rw [hvid, vgicGetInt, dif_pos hpriv, dif_pos vcpu0.isLt] at hr
    cases hr
    rw [withSpilled_priv prios vcpu0 hk4]

theorem spilled_withSpilled {prios : Nat → Option (BitVec 8)} {r : IntRef 2}
    (h : Spilled twoClusters (withSpilled prios).vgic vcpu0 r) :
    prios r.id = some ((withSpilled prios).vgic.ints r).prio := by
  obtain ⟨-, -, hact⟩ := h
  have hinv : inv &&& act = 0 := by decide
  rcases withSpilled_cases prios r with ⟨v, id, rfl, hid⟩ | ⟨-, hprio⟩
  · rw [withSpilled_priv prios v hid] at hact
    exact absurd hinv hact
  · exact hprio hact

/-- Interrupts 20 and 21 are active with one priority, and 40, which the scan does not go through,
with a lower one. -/
def threeSpilled : VgicSystem 2 :=
  withSpilled fun id => if id = 20 ∨ id = 21 then some 0x10 else if id = 40 then some 0x20 else none

/-- Of these three, one with the highest priority is ended. -/
theorem vgic_eoir_highest : ∃ k t c,
    run (VgicSystem.step twoClusters) threeSpilled
      (.eoirSpilled vcpu0 :: List.replicate k (.scan vcpu0)) = some t ∧
    t.scan vcpu0 = .idle ∧ Spilled twoClusters threeSpilled.vgic vcpu0 c ∧
    (∀ r, Spilled twoClusters threeSpilled.vgic vcpu0 r →
      (threeSpilled.vgic.ints c).prio ≤ (threeSpilled.vgic.ints r).prio) ∧
    isActive twoClusters t.vgic vcpu0 c = false ∧
    ∀ r, r ≠ c → isActive twoClusters t.vgic vcpu0 r =
      isActive twoClusters threeSpilled.vgic vcpu0 r := by
  refine (vgic_eoir_iff (s := threeSpilled) (lrRecords_withSpilled _) (fun _ => rfl) rfl).mpr
    ⟨⟨privRef vcpu0 20, ⟨by decide, .inr rfl, by decide⟩, by decide⟩, fun r r' hr hlt hr' => ?_⟩
  have hprio := spilled_withSpilled hr
  have hprio' := spilled_withSpilled hr'
  have hid : r.id ≠ 40 := fun h => by rw [h] at hlt; exact absurd hlt (by decide)
  have hlow : (threeSpilled.vgic.ints r).prio = 0x10 := by
    simp only [hid, if_false] at hprio
    split at hprio
    · exact (Option.some.inj hprio).symm
    · cases hprio
  rw [hlow]
  split at hprio'
  · rw [show (threeSpilled.vgic.ints r').prio = 0x10 from (Option.some.inj hprio').symm]
    exact BitVec.le_refl _
  · split at hprio'
    · rw [show (threeSpilled.vgic.ints r').prio = 0x20 from (Option.some.inj hprio').symm]
      decide
    · cases hprio'

/-- Interrupts 20 and 21 are active, and 21 has the higher priority. -/
def twoSpilled : VgicSystem 2 :=
  withSpilled fun id => if id = 20 then some 0x20 else if id = 21 then some 0x10 else none

/-- Of two active interrupts, the one with the lower priority is ended. -/
theorem vgic_eoir_lowest : ∃ t,
    run (VgicSystem.step twoClusters) twoSpilled
      (.eoirSpilled vcpu0 :: List.replicate 34 (.scan vcpu0)) = some t ∧
    t.scan vcpu0 = .idle ∧ LrRecords twoClusters twoSpilled.vgic vcpu0 ∧
    Spilled twoClusters twoSpilled.vgic vcpu0 (privRef vcpu0 20) ∧
    Spilled twoClusters twoSpilled.vgic vcpu0 (privRef vcpu0 21) ∧
    (twoSpilled.vgic.ints (privRef vcpu0 21)).prio <
      (twoSpilled.vgic.ints (privRef vcpu0 20)).prio ∧
    isActive twoClusters t.vgic vcpu0 (privRef vcpu0 20) = false ∧
    isActive twoClusters t.vgic vcpu0 (privRef vcpu0 21) = true := by
  refine exists_some_of (P := fun t => t.scan vcpu0 = .idle ∧
      isActive twoClusters t.vgic vcpu0 (privRef vcpu0 20) = false ∧
      isActive twoClusters t.vgic vcpu0 (privRef vcpu0 21) = true) (by decide +kernel)
    fun t _ h => ?_
  exact ⟨h.1, lrRecords_withSpilled _, ⟨by decide, .inr rfl, by decide⟩,
    ⟨by decide, .inr rfl, by decide⟩, by decide, h.2⟩

end VgicSystem

end Bao.Armv8
