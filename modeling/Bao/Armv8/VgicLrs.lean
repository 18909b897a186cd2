import Bao.Armv8.VgicMsg

/-!
# What the functions of the virtual GIC do to the list registers

A list register that holds a shared interrupt in a valid state is exact when the interrupt's record
says so: the cpu of the register is the owner, `in_lr` is set and `lr` is the register. The
elementary writes of the virtual GIC keep all registers exact.
-/

namespace Bao.Armv8

variable {n : Nat} (g : VgicConfig n)

/-- The list register `k` of vcpu `v` holds the id `i` in a valid state. -/
def HoldsLr (s : VgicState n) (v : Fin n) (k i : Nat) : Prop :=
  k < g.numLrs ∧ ((s.cpu v).lrs k).state ≠ inv ∧ ((s.cpu v).lrs k).vid = i

instance (s : VgicState n) (v : Fin n) (k i : Nat) : Decidable (HoldsLr g s v k i) :=
  inferInstanceAs (Decidable (_ ∧ _ ∧ _))

/-- The record of the shared interrupt `i` says that register `k` of `v` has it. -/
def RecordedIn (x : VgicInt n) (v : Fin n) (k : Nat) : Prop :=
  x.owner = some v ∧ x.inLr = true ∧ x.lr = k

def LrExact (s : VgicState n) : Prop :=
  ∀ v k i, gicCpuPriv ≤ i → HoldsLr g s v k i → RecordedIn (s.ints (.spi i)) v k

variable {g} {s t u : VgicState n} {v : Fin n} {r : IntRef n}

theorem locked_congr (h : t.held = s.held) (r : IntRef n) : t.locked r = s.locked r := by
  simp [VgicState.locked, h]

theorem holds_clearLr {w : Fin n} {k l i : Nat} :
    HoldsLr g (s.gichWriteLr v k {}) w l i ↔ HoldsLr g s w l i ∧ ¬ (w = v ∧ l = k) := by
  by_cases hw : w = v
  · subst hw
    by_cases hl : l = k
    · simp [HoldsLr, VgicState.gichWriteLr, VgicState.setCpu, hl]
    · simp [HoldsLr, VgicState.gichWriteLr, VgicState.setCpu, hl]
  · simp [HoldsLr, VgicState.gichWriteLr, VgicState.setCpu, hw]

/-! ## Ownership -/

theorem yield_other {r' : IntRef n} (hr : r' ≠ r) :
    (vgicYieldOwnership g s v r).ints r' = s.ints r' := by
  simp only [vgicYieldOwnership]
  split
  · rfl
  · simp [VgicState.setInt, hr]

theorem yield_inLr : ((vgicYieldOwnership g s v r).ints r).inLr = (s.ints r).inLr := by
  simp only [vgicYieldOwnership]
  split
  · rfl
  · simp [VgicState.setInt]

theorem getOwnership_cases (s : VgicState n) (v : Fin n) (r : IntRef n) :
    (vgicGetOwnership s v r = (true, s) ∧ (s.ints r).owner = some v) ∨
    (vgicGetOwnership s v r = (true, s.setInt r { s.ints r with owner := some v }) ∧
      (s.ints r).owner = none) ∨
    (vgicGetOwnership s v r = (false, s) ∧ ∃ w, w ≠ v ∧ (s.ints r).owner = some w) := by
  cases howner : (s.ints r).owner with
  | none => exact .inr (.inl ⟨by simp [vgicGetOwnership, vgicOwns, howner], rfl⟩)
  | some w =>
    by_cases hw : w = v
    · subst hw; exact .inl ⟨by simp [vgicGetOwnership, vgicOwns, howner], rfl⟩
    · exact .inr (.inr ⟨by simp [vgicGetOwnership, vgicOwns, howner, hw], w, hw, rfl⟩)

theorem owner_of_getOwnership (howns : (vgicGetOwnership s v r).1 = true) :
    ((vgicGetOwnership s v r).2.ints r).owner = some v := by
  rcases getOwnership_cases s v r with ⟨heq, howner⟩ | ⟨heq, -⟩ | ⟨heq, -⟩
  · rw [heq]; exact howner
  · rw [heq]; simp [VgicState.setInt]
  · rw [heq] at howns; cases howns

/-! ## Removing an interrupt from its register -/

theorem gichGetLr_of_holds {i k : Nat} (h : RecordedIn (s.ints (.spi i)) v k)
    (hk : HoldsLr g s v k i) : gichGetLr g s v (.spi i) = some ((s.cpu v).lrs k) := by
  obtain ⟨howner, hin, hlr⟩ := h
  simp [gichGetLr, howner, hin, hlr, IntRef.id, hk.2.1, hk.2.2]

theorem removedInt_owner (r : IntRef n) (i : VgicInt n) (lr : ListReg) :
    (removedInt g r i lr).owner = i.owner ∧ (removedInt g r i lr).inLr = false := by
  simp only [removedInt]
  split <;> (try split) <;> exact ⟨rfl, rfl⟩

theorem removeLr_other {r' : IntRef n} (hr : r' ≠ r) :
    (vgicRemoveLr g s v r).ints r' = s.ints r' := by
  simp only [vgicRemoveLr]
  split
  · rfl
  · split
    · simp [VgicState.setInt, hr]
    · split <;>
        simp [VgicState.setInt, VgicState.gichWriteLr, VgicState.setNpie, VgicState.setCpu, hr]

theorem removeLr_self :
    ((vgicRemoveLr g s v r).ints r).owner = (s.ints r).owner ∧
      ((s.ints r).owner = some v → ((vgicRemoveLr g s v r).ints r).inLr = false) := by
  simp only [vgicRemoveLr]
  split
  · rename_i hskip
    refine ⟨rfl, fun howner => ?_⟩
    simpa [vgicOwns, howner] using hskip
  · split
    · simp [VgicState.setInt]
    · split <;>
        simp [VgicState.setInt, VgicState.gichWriteLr, VgicState.setNpie, VgicState.setCpu,
          removedInt_owner]

/-! ## Writing a register -/

theorem id_of_vgicGetInt {id vgicrId : Nat} (h : vgicGetInt g id vgicrId = some r) : r.id = id := by
  simp only [vgicGetInt] at h
  split at h
  · split at h <;> cases h
    rfl
  · split at h <;> cases h
    rfl

theorem lrOf_vid (r : IntRef n) (i : VgicInt n) (state : IntState) :
    (lrOf g r i state).1.vid = r.id := by
  simp only [lrOf]
  split
  · rfl
  · split
    · split
      · rfl
      · split <;> rfl
    · rfl

/-- The interrupt that leaves the register `k` of `v` is the only one whose record changes. -/
structure LeftLr (s : VgicState n) (v : Fin n) (r : IntRef n) (k : Nat) (t : VgicState n) :
    Prop where
  held : t.held = s.held
  cpu : t.cpu = s.cpu
  queue : t.queue = s.queue
  frame : ∀ r, s.locked r = true → t.ints r = s.ints r
  self : t.ints r = s.ints r
  other : ∀ r', t.ints r' = s.ints r' ∨ RecordedIn (s.ints r') v k

theorem leftLr_refl (s : VgicState n) (v : Fin n) (r : IntRef n) (k : Nat) : LeftLr s v r k s :=
  ⟨rfl, rfl, rfl, fun _ _ => rfl, rfl, fun _ => .inl rfl⟩

theorem yield_frame :
    (vgicYieldOwnership g s v r).held = s.held ∧ (vgicYieldOwnership g s v r).cpu = s.cpu ∧
      (vgicYieldOwnership g s v r).queue = s.queue := by
  simp only [vgicYieldOwnership]
  split <;> exact ⟨rfl, rfl, rfl⟩

theorem leftLr_of_leave {k : Nat} (h : vgicLeaveLr g s v r k = some t) : LeftLr s v r k t := by
  simp only [vgicLeaveLr] at h
  split at h
  · rename_i hprev
    split at h
    · cases h; exact leftLr_refl s v r k
    · rename_i prev hint
      have hne : prev ≠ r := by
        rintro rfl
        exact hprev.1 (id_of_vgicGetInt hint).symm
      split at h
      · cases h
      · rename_i hfree
        split at h
        · rename_i hin
          cases h
          have hother : ∀ r', r' ≠ prev → (vgicYieldOwnership g
              (s.setInt prev { s.ints prev with inLr := false }) v prev).ints r' = s.ints r' := by
            intro r' hr'
            rw [yield_other hr']
            simp [VgicState.setInt, hr']
          refine ⟨yield_frame.1, yield_frame.2.1, yield_frame.2.2, ?_, hother r hne.symm, ?_⟩
          · intro r' hlocked
            refine hother r' ?_
            rintro rfl
            exact hfree hlocked
          · intro r'
            by_cases hr' : r' = prev
            · subst hr'
              exact .inr ⟨by simpa [vgicOwns] using hin.1, hin.2.1, hin.2.2⟩
            · exact .inl (hother r' hr')
        · cases h; exact leftLr_refl s v r k
  · cases h; exact leftLr_refl s v r k

theorem updateField_same (h : RegHandler) (v : Fin n) (r : IntRef n) (x : VgicInt n)
    (data : BitVec 64) :
    (h.updateField g v r x data).owner = x.owner ∧ (h.updateField g v r x data).inLr = x.inLr ∧
      (h.updateField g v r x data).lr = x.lr := by
  cases h <;> simp only [RegHandler.updateField, vgicIntUpdateEnable, vgicIntUpdatePend,
    vgicIntUpdateAct, vgicIntSetRoute, vgicdSetTrgt] <;> grind

/-- A shared interrupt that is linked to a physical one comes while no register holds it. -/
def InjectOk (g : VgicConfig n) (s : VgicState n) (id : Nat) : Prop :=
  gicCpuPriv ≤ id → (s.ints (.spi id)).hw = true → ∀ v, ∀ k < g.numLrs, ¬ HoldsLr g s v k id

instance (s : VgicState n) (id : Nat) : Decidable (InjectOk g s id) :=
  inferInstanceAs (Decidable (_ → _ → _))

theorem vgicGetInt_cases {id vgicrId : Nat} (h : vgicGetInt g id vgicrId = some r) :
    (∃ u j, r = .priv u j ∧ id < gicCpuPriv) ∨
      r = .spi id ∧ gicCpuPriv ≤ id ∧ id < g.intNum := by
  simp only [vgicGetInt] at h
  split at h
  · rename_i hid
    split at h <;> cases h
    exact .inl ⟨_, _, rfl, hid⟩
  · rename_i hid
    split at h <;> cases h
    rename_i hnum
    exact .inr ⟨rfl, not_lt.mp hid, hnum⟩

/-! ## Exact registers -/

namespace LrExact

section

variable (h : LrExact g s)

include h

theorem not_holds {i : Nat} (hin : (s.ints (.spi i)).inLr = false) (hi : gicCpuPriv ≤ i) (v : Fin n)
    (k : Nat) : ¬ HoldsLr g s v k i := by
  intro hk
  have := (h v k i hi hk).2.1
  rw [hin] at this
  cases this

theorem setInt {x : VgicInt n}
    (hx : ∀ i v k, r = .spi i → gicCpuPriv ≤ i → HoldsLr g s v k i → RecordedIn x v k) :
    LrExact g (s.setInt r x) := by
  intro v k i hi hk
  by_cases hr : IntRef.spi i = r
  · subst hr
    simpa [VgicState.setInt] using hx i v k rfl hi hk
  · simpa [VgicState.setInt, hr] using h v k i hi hk

theorem setInt_out (hin : (s.ints r).inLr = false) (x : VgicInt n) : LrExact g (s.setInt r x) :=
  h.setInt fun _ v k hr hi hk => absurd hk (h.not_holds (hr ▸ hin) hi v k)

theorem setCpu {c : VgicCpu} (hc : ∀ k, (c.lrs k).state ≠ inv →
      ((s.cpu v).lrs k).state ≠ inv ∧ (c.lrs k).vid = ((s.cpu v).lrs k).vid) :
    LrExact g (s.setCpu v c) := by
  intro w k i hi hk
  apply h w k i hi
  by_cases hw : w = v
  · subst hw
    obtain ⟨hlt, hstate, hvid⟩ := hk
    simp only [VgicState.setCpu, Function.update_self] at hstate hvid
    obtain ⟨hold, hsame⟩ := hc k hstate
    exact ⟨hlt, hold, hsame.symm.trans hvid⟩
  · simpa [HoldsLr, VgicState.setCpu, hw] using hk

theorem setNpie (npie : Bool) : LrExact g (s.setNpie v npie) :=
  h.setCpu fun _ hk => ⟨hk, rfl⟩

theorem setLr {k : Nat} {lr : ListReg}
    (hlr : lr.state ≠ inv → ((s.cpu v).lrs k).state ≠ inv ∧ lr.vid = ((s.cpu v).lrs k).vid) :
    LrExact g (s.gichWriteLr v k lr) := by
  refine h.setCpu fun l hl => ?_
  by_cases hkl : l = k
  · subst hkl
    simp only [Function.update_self] at hl ⊢
    exact hlr hl
  · simpa [hkl] using hl

theorem clearLr (k : Nat) : LrExact g (s.gichWriteLr v k {}) :=
  h.setLr fun hinv => absurd rfl hinv

theorem yield : LrExact g (vgicYieldOwnership g s v r) := by
  simp only [vgicYieldOwnership]
  split
  · exact h
  · rename_i hyield
    -- an interrupt that is given up is in no register
    simp only [not_or, Bool.not_eq_true] at hyield
    exact h.setInt_out hyield.2.2.1 _

theorem take : LrExact g (vgicGetOwnership s v r).2 := by
  rcases getOwnership_cases s v r with ⟨heq, -⟩ | ⟨heq, hnone⟩ | ⟨heq, -⟩
  · rw [heq]; exact h
  · rw [heq]
    refine h.setInt fun i w k hr hi hk => ?_
    subst hr
    rw [(h w k i hi hk).1] at hnone
    cases hnone
  · rw [heq]; exact h

theorem removeLr : LrExact g (vgicRemoveLr g s v r) := by
  simp only [vgicRemoveLr]
  split
  · exact h
  · rename_i hskip
    have howner : (s.ints r).owner = some v := by
      by_contra hne
      exact hskip (.inl (by simpa [vgicOwns] using hne))
    split
    · rename_i hget
      refine h.setInt fun i w k hr hi hk => ?_
      subst hr
      have hrec := h w k i hi hk
      obtain rfl : v = w := Option.some.inj (howner.symm.trans hrec.1)
      rw [gichGetLr_of_holds hrec hk] at hget
      cases hget
    · rename_i lr hget
      have hclear : LrExact g (s.gichWriteLr v (s.ints r).lr {}) := h.clearLr _
      have hset : LrExact g
          ((s.gichWriteLr v (s.ints r).lr {}).setInt r (removedInt g r (s.ints r) lr)) := by
        refine hclear.setInt fun i w k hr hi hk => ?_
        subst hr
        obtain ⟨hw, -, hlr⟩ := hclear w k i hi hk
        obtain rfl : v = w := Option.some.inj (howner.symm.trans hw)
        have hlr' : (s.ints (.spi i)).lr = k := hlr
        have hstate := hk.2.1
        simp [VgicState.gichWriteLr, VgicState.setCpu, hlr'] at hstate
      split
      · exact hset.setNpie true
      · exact hset

theorem writeLr {k : Nat} (howner : (s.ints r).owner = some v) (hin : (s.ints r).inLr = false)
    (ht : vgicWriteLr g s v r k = some t) : LrExact g t := by
  obtain ⟨u, hu, rfl⟩ := Option.map_eq_some_iff.mp ht
  have left := leftLr_of_leave hu
  intro w l i hi hl
  by_cases hwl : w = v ∧ l = k
  · -- the register just written
    obtain ⟨rfl, rfl⟩ := hwl
    have hvid : r.id = i := by
      have := hl.2.2
      simpa [VgicState.setInt, VgicState.setCpu, lrOf_vid] using this
    cases r with
    | priv u id =>
      simp only [IntRef.id] at hvid
      omega
    | spi j =>
      obtain rfl : j = i := hvid
      simp [RecordedIn, VgicState.setInt, VgicState.setCpu, left.self, howner]
  · have hold : HoldsLr g s w l i := by
      obtain ⟨hlt, hstate, hvid⟩ := hl
      by_cases hw : w = v
      · subst hw
        have hlk : l ≠ k := fun hlk => hwl ⟨rfl, hlk⟩
        refine ⟨hlt, ?_, ?_⟩
        · simpa [VgicState.setInt, VgicState.setCpu, hlk, left.cpu] using hstate
        · simpa [VgicState.setInt, VgicState.setCpu, hlk, left.cpu] using hvid
      · refine ⟨hlt, ?_, ?_⟩
        · simpa [VgicState.setInt, VgicState.setCpu, hw, left.cpu] using hstate
        · simpa [VgicState.setInt, VgicState.setCpu, hw, left.cpu] using hvid
    have hrec := h w l i hi hold
    have hne : IntRef.spi i ≠ r := by
      rintro rfl
      exact h.not_holds hin hi w l hold
    rcases left.other (.spi i) with hsame | hleft
    · simpa [VgicState.setInt, VgicState.setCpu, hne, hsame] using hrec
    · exact absurd
        ⟨Option.some.inj (hrec.1.symm.trans hleft.1), hrec.2.2.symm.trans hleft.2.2⟩ hwl

end

end LrExact

end Bao.Armv8
