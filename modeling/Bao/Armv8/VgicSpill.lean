import Bao.Armv8.VgicOps

/-!
# Spilling a list register

When no list register is empty, `vgic_add_lr` takes one whose interrupt goes back to the
distributor. One pass over the registers keeps the number of active and of pending ones, and of each
kind the one with the largest priority value. The two counters are swapped, so it is the number of
active registers that decides whether a pending one is spilled.
-/

namespace Bao.Armv8

variable {n : Nat}

/-! ## The write of `vgic_add_lr` -/

/-- The state in which `vgic_add_lr` calls `vgic_write_lr`, and the register. It returns true
exactly when it makes this call. -/
def addLrWrite (g : VgicConfig n) (s : VgicState n) (v : Fin n) (r : IntRef n) :
    Option (VgicState n × Nat) :=
  if (s.ints r).enabled = false ∨ (s.ints r).inLr then none
  else
    let lrs := (s.cpu v).lrs
    match (List.range g.numLrs).find? fun i => (lrs i).empty with
    | some lrInd => some (s, lrInd)
    | none =>
      (spillInd lrs g.numLrs).bind fun lrInd =>
        (vgicSpill g s v r lrInd).map fun s => (s, lrInd)

variable {g : VgicConfig n} {s t u : VgicState n} {v : Fin n} {r : IntRef n} {k : Nat}

theorem vgicAddLr_of_write (h : addLrWrite g s v r = some (u, k)) :
    vgicAddLr g s v r = vgicWriteLr g u v r k := by
  simp only [addLrWrite] at h
  simp only [vgicAddLr]
  split at h
  · cases h
  · rename_i hskip
    rw [if_neg hskip]
    generalize (List.range g.numLrs).find? _ = found at h ⊢
    cases found with
    | some lrInd => cases h; rfl
    | none =>
      obtain ⟨lrInd, hspill, h⟩ := Option.bind_eq_some_iff.mp h
      obtain ⟨u', hu, heq⟩ := Option.map_eq_some_iff.mp h
      cases heq
      simp only [hspill, hu, Option.bind_some]

theorem vgicAddLr_of_no_write (h : addLrWrite g s v r = none) (ht : vgicAddLr g s v r = some t) :
    t = s ∨ t = s.setNpie v true := by
  simp only [addLrWrite] at h
  simp only [vgicAddLr] at ht
  split at ht
  · exact .inl (Option.some.inj ht).symm
  · rename_i hskip
    rw [if_neg hskip] at h
    split at ht
    · rename_i hfind
      simp only [hfind] at h
      cases h
    · rename_i hfind
      simp only [hfind] at h
      split at ht
      · rename_i lrInd hspill
        obtain ⟨u, hu, -⟩ := Option.bind_eq_some_iff.mp ht
        simp [hspill, hu] at h
      · split at ht
        · exact .inr (Option.some.inj ht).symm
        · exact .inl (Option.some.inj ht).symm

/-! ## The choice of a register -/

/-- What the pass has found after the registers below `m`. -/
structure SpillSpec (lrs : Nat → ListReg) (m : Nat) (c : Spill) : Prop where
  pendFound : c.pendFound = ((List.range m).filter fun j => (lrs j).state &&& act ≠ 0).length
  le : ∀ j < m, (lrs j).state = pend → (lrs j).prio ≤ c.minPrioPend
  none_pend : c.pendInd = none → c.minPrioPend = 0
  some_pend : ∀ k, c.pendInd = some k →
    k < m ∧ (lrs k).state = pend ∧ (lrs k).prio = c.minPrioPend ∧ 0 < c.minPrioPend
  le_act : ∀ j < m, (lrs j).state &&& act ≠ 0 → (lrs j).prio ≤ c.minPrioAct
  none_act : c.actInd = none → c.minPrioAct = 0
  some_act : ∀ k, c.actInd = some k →
    k < m ∧ (lrs k).state &&& act ≠ 0 ∧ (lrs k).prio = c.minPrioAct ∧ 0 < c.minPrioAct

theorem pend_iff (state : IntState) : state = pend ↔ ¬ state &&& act ≠ 0 ∧ state &&& pend ≠ 0 := by
  revert state
  decide

variable {lrs : Nat → ListReg} {numLrs : Nat}

theorem SpillSpec.next {m : Nat} {c : Spill} (h : SpillSpec lrs m c) :
    SpillSpec lrs (m + 1) (c.next m (lrs m)) := by
  obtain ⟨hfound, hle, hnone, hsome, hleAct, hnoneAct, hsomeAct⟩ := h
  have hpend := pend_iff (lrs m).state
  have hcount : ((List.range (m + 1)).filter fun j => (lrs j).state &&& act ≠ 0).length =
      c.pendFound + if (lrs m).state &&& act ≠ 0 then 1 else 0 := by
    rw [List.range_succ, List.filter_append, List.length_append, ← hfound, List.filter_singleton]
    split <;> simp_all
  rw [Spill.next]
  by_cases hact : (lrs m).state &&& act ≠ 0
  · -- an active register counts, and leaves the pending ones as they are
    rw [if_pos hact] at hcount ⊢
    refine ⟨hcount.symm ▸ ?_, ?_, ?_, ?_, ?_, ?_, ?_⟩ <;> grind
  · rw [if_neg hact] at hcount ⊢
    by_cases hp : (lrs m).state &&& pend ≠ 0
    · rw [if_pos hp]
      refine ⟨hcount.symm ▸ ?_, ?_, ?_, ?_, ?_, ?_, ?_⟩ <;> grind
    · rw [if_neg hp]
      refine ⟨hcount.symm ▸ ?_, ?_, ?_, ?_, ?_, ?_, ?_⟩ <;> grind

theorem spillSpec (lrs : Nat → ListReg) (m : Nat) :
    SpillSpec lrs m ((List.range m).foldl (fun c i => c.next i (lrs i)) {}) := by
  induction m with
  | zero => exact ⟨rfl, by simp, by simp, by simp, by simp, by simp, by simp⟩
  | succ m ih =>
    rw [List.range_succ, List.foldl_append]
    exact ih.next

/-- The number of active list registers. -/
def activeLrs (lrs : Nat → ListReg) (numLrs : Nat) : Nat :=
  ((List.range numLrs).filter fun j => (lrs j).state &&& act ≠ 0).length

/-- A pending register is spilled exactly when two registers are active and some pending one has a
priority value other than 0. -/
theorem spillInd_pend_iff (lrs : Nat → ListReg) (numLrs : Nat) :
    (∃ k, spillInd lrs numLrs = some k ∧ (lrs k).state = pend) ↔
      1 < activeLrs lrs numLrs ∧ ∃ j < numLrs, (lrs j).state = pend ∧ 0 < (lrs j).prio := by
  have hspec := spillSpec lrs numLrs
  have hfound := hspec.pendFound
  simp only [spillInd]
  generalize (List.range numLrs).foldl _ ({} : Spill) = c at hspec hfound ⊢
  rw [activeLrs, ← hfound]
  constructor
  · rintro ⟨k, hk, hpend⟩
    split at hk
    · rename_i hcount
      obtain ⟨hlt, -, hprio, hpos⟩ := hspec.some_pend k hk
      exact ⟨hcount, k, hlt, hpend, by omega⟩
    · exact absurd (hspec.some_act k hk).2.1 ((pend_iff _).mp hpend).1
  · rintro ⟨hcount, j, hj, hpend, hpos⟩
    rw [if_pos hcount]
    cases hind : c.pendInd with
    | none =>
      have hle := hspec.le j hj hpend
      have hzero := hspec.none_pend hind
      omega
    | some k => exact ⟨k, rfl, (hspec.some_pend k hind).2.1⟩

/-- Otherwise an active register is spilled, unless none has a priority value other than 0. -/
theorem spillInd_act_iff (lrs : Nat → ListReg) (numLrs : Nat) :
    (∃ k, spillInd lrs numLrs = some k ∧ (lrs k).state &&& act ≠ 0) ↔
      activeLrs lrs numLrs ≤ 1 ∧ ∃ j < numLrs, (lrs j).state &&& act ≠ 0 ∧ 0 < (lrs j).prio := by
  have hspec := spillSpec lrs numLrs
  have hfound := hspec.pendFound
  simp only [spillInd]
  generalize (List.range numLrs).foldl _ ({} : Spill) = c at hspec hfound ⊢
  rw [activeLrs, ← hfound]
  constructor
  · rintro ⟨k, hk, hact⟩
    split at hk
    · exact absurd hact ((pend_iff _).mp (hspec.some_pend k hk).2.1).1
    · rename_i hcount
      obtain ⟨hlt, -, hprio, hpos⟩ := hspec.some_act k hk
      exact ⟨by omega, k, hlt, hact, by omega⟩
  · rintro ⟨hcount, j, hj, hact, hpos⟩
    rw [if_neg (by omega)]
    cases hind : c.actInd with
    | none =>
      have hle := hspec.le_act j hj hact
      have hzero := hspec.none_act hind
      omega
    | some k => exact ⟨k, rfl, (hspec.some_act k hind).2.1⟩

theorem spillInd_lowest (h : spillInd lrs numLrs = some k) (hk : (lrs k).state = pend) :
    k < numLrs ∧ ∀ j < numLrs, (lrs j).state = pend → (lrs j).prio ≤ (lrs k).prio := by
  have hspec := spillSpec lrs numLrs
  simp only [spillInd] at h
  generalize (List.range numLrs).foldl _ ({} : Spill) = c at hspec h
  split at h
  · obtain ⟨hlt, -, hprio, -⟩ := hspec.some_pend k h
    exact ⟨hlt, fun j hj hpend => by rw [hprio]; exact hspec.le j hj hpend⟩
  · exact absurd (hspec.some_act k h).2.1 ((pend_iff _).mp hk).1

theorem spillInd_valid (h : spillInd lrs numLrs = some k) : k < numLrs ∧ (lrs k).state ≠ inv := by
  have hspec := spillSpec lrs numLrs
  simp only [spillInd] at h
  generalize (List.range numLrs).foldl _ ({} : Spill) = c at hspec h
  split at h
  · obtain ⟨hlt, hpend, -⟩ := hspec.some_pend k h
    exact ⟨hlt, by rw [hpend]; decide⟩
  · obtain ⟨hlt, hact, -⟩ := hspec.some_act k h
    exact ⟨hlt, fun hinv => hact (by rw [hinv]; decide)⟩

/-- `vgic_add_lr` finds a register: an empty one, or one to spill. -/
def FindsLr (lrs : Nat → ListReg) (numLrs : Nat) : Prop :=
  (∃ k < numLrs, (lrs k).empty = true) ∨
    (1 < activeLrs lrs numLrs ∧ ∃ j < numLrs, (lrs j).state = pend ∧ 0 < (lrs j).prio) ∨
    activeLrs lrs numLrs ≤ 1 ∧ ∃ j < numLrs, (lrs j).state &&& act ≠ 0 ∧ 0 < (lrs j).prio

theorem findsLr_iff :
    FindsLr lrs numLrs ↔
      (∃ k < numLrs, (lrs k).empty = true) ∨ ∃ k, spillInd lrs numLrs = some k := by
  rw [FindsLr, ← spillInd_pend_iff, ← spillInd_act_iff]
  refine or_congr_right ⟨?_, fun ⟨k, hk⟩ => ?_⟩
  · rintro (⟨k, hk, -⟩ | ⟨k, hk, -⟩) <;> exact ⟨k, hk⟩
  · by_cases hact : (lrs k).state &&& act ≠ 0
    · exact .inr ⟨k, hk, hact⟩
    · refine .inl ⟨k, hk, (pend_iff _).mpr ⟨hact, ?_⟩⟩
      have hvalid : ∀ state : IntState, state ≠ inv → ¬ state &&& act ≠ 0 →
          state &&& pend ≠ 0 := by decide
      exact hvalid _ (spillInd_valid hk).2 hact

theorem exists_addLrWrite_iff (henabled : (s.ints r).enabled = true)
    (hin : (s.ints r).inLr = false) (ht : vgicAddLr g s v r = some t) :
    (∃ u k, addLrWrite g s v r = some (u, k)) ↔ FindsLr (s.cpu v).lrs g.numLrs := by
  simp only [vgicAddLr, henabled, hin, Bool.true_eq_false, Bool.false_eq_true, or_self, if_false]
    at ht
  simp only [addLrWrite, henabled, hin, Bool.true_eq_false, Bool.false_eq_true, or_self, if_false,
    findsLr_iff]
  cases hfind : (List.range g.numLrs).find? fun i => ((s.cpu v).lrs i).empty with
  | some lrInd =>
    have hmem := List.mem_of_find?_eq_some hfind
    have hempty := List.find?_some hfind
    exact ⟨fun _ => .inl ⟨lrInd, List.mem_range.mp hmem, hempty⟩, fun _ => ⟨s, lrInd, rfl⟩⟩
  | none =>
    have hfull : ¬ ∃ k < g.numLrs, ((s.cpu v).lrs k).empty = true := by
      rintro ⟨k, hk, hempty⟩
      exact List.find?_eq_none.mp hfind k (List.mem_range.mpr hk) hempty
    rw [or_iff_right hfull]
    simp only [hfind] at ht
    cases hspill : spillInd (s.cpu v).lrs g.numLrs with
    | none => simp
    | some lrInd =>
      simp only [hspill] at ht
      obtain ⟨u, hu, -⟩ := Option.bind_eq_some_iff.mp ht
      simp [hu]

/-! ## Nothing is locked -/

theorem not_locked_of_held (h : ∀ w, s.held w = none) (r : IntRef n) : s.locked r = false := by
  simp [VgicState.locked, h]

theorem vgicWriteLr_isSome (h : ∀ w, s.held w = none) (v : Fin n) (r : IntRef n) (k : Nat) :
    ∃ t, vgicWriteLr g s v r k = some t := by
  have hleave : ∃ u, vgicLeaveLr g s v r k = some u := by
    simp only [vgicLeaveLr]
    split
    · split
      · exact ⟨_, rfl⟩
      · rw [not_locked_of_held h, if_neg (by simp)]
        split <;> exact ⟨_, rfl⟩
    · exact ⟨_, rfl⟩
  obtain ⟨u, hu⟩ := hleave
  exact ⟨_, vgicWriteLr_eq_some.mpr ⟨u, hu, rfl⟩⟩

/-! ## The register that is spilled -/

theorem vgicSpill_eq_some {x : IntRef n} (hfree : ∀ w, s.held w = none)
    (hx : vgicGetInt g ((s.cpu v).lrs k).vid v = some x) (hrec : RecordedIn (s.ints x) v k)
    (hstate : ((s.cpu v).lrs k).state ≠ inv) (hin : (s.ints r).inLr = false) :
    ∃ u, vgicSpill g s v r k = some u ∧ x ≠ r ∧ u.ints r = s.ints r ∧
      (u.ints x).state = ((s.cpu v).lrs k).state ∧ u.held = s.held := by
  obtain ⟨howner, hinLr, hlr⟩ := hrec
  have hne : x ≠ r := by
    rintro rfl
    rw [hin] at hinLr
    cases hinLr
  have hlocked := not_locked_of_held hfree x
  have hget : gichGetLr g s v x = some ((s.cpu v).lrs k) := by
    simp [gichGetLr, howner, hinLr, hlr, hstate, id_of_vgicGetInt hx]
  have hspill : vgicSpill g s v r k =
      some (vgicYieldOwnership g (vgicRemoveLr g s v x) v x) := by
    simp only [vgicSpill, hx]
    exact if_neg (by simp [hne, hlocked])
  obtain ⟨hops, hself⟩ := VgicOps.spill hspill
  refine ⟨_, hspill, hne, hself, ?_, hops.opFrame.held⟩
  rw [state_of_fields (fields_yield x), (vgicRemoveLr_of_getLr howner hinLr hget).1,
    Function.update_self, removedInt_state]

/-- `vgic_add_lr` takes the register with the lowest priority among those that are only pending,
and the interrupt that was in it has its state again. -/
def SpillsLowest (g : VgicConfig n) (s : VgicState n) (v : Fin n) (r : IntRef n) : Prop :=
  ∃ u k t, addLrWrite g s v r = some (u, k) ∧ vgicAddLr g s v r = some t ∧
    (k < g.numLrs ∧ ((s.cpu v).lrs k).state = pend ∧
      ∀ j < g.numLrs, ((s.cpu v).lrs j).state = pend →
        ((s.cpu v).lrs j).prio ≤ ((s.cpu v).lrs k).prio) ∧
    (((t.cpu v).lrs k).vid = r.id ∧ (t.ints r).inLr = true ∧ (t.ints r).lr = k) ∧
    ∃ spilled, vgicGetInt g ((s.cpu v).lrs k).vid v = some spilled ∧
      (t.ints spilled).state = ((s.cpu v).lrs k).state

/-- All registers are occupied, and the records of the interrupts in the pending ones say so. -/
structure FullLrs (g : VgicConfig n) (s : VgicState n) (v : Fin n) : Prop where
  full : ∀ k < g.numLrs, ((s.cpu v).lrs k).empty = false
  recorded : ∀ k < g.numLrs, ((s.cpu v).lrs k).state = pend →
    ∃ x, vgicGetInt g ((s.cpu v).lrs k).vid v = some x ∧ RecordedIn (s.ints x) v k

theorem addLrWrite_full (h : FullLrs g s v) (henabled : (s.ints r).enabled = true)
    (hin : (s.ints r).inLr = false) :
    addLrWrite g s v r = (spillInd (s.cpu v).lrs g.numLrs).bind fun k =>
      (vgicSpill g s v r k).map fun u => (u, k) := by
  have hfind : ((List.range g.numLrs).find? fun i => ((s.cpu v).lrs i).empty) = none := by
    rw [List.find?_eq_none]
    intro k hk
    simp [h.full k (List.mem_range.mp hk)]
  simp [addLrWrite, henabled, hin, hfind]

/-- The right register is spilled exactly when two registers are active and some pending one has a
priority value other than 0. -/
theorem vgicAddLr_spills_iff (h : FullLrs g s v) (hfree : ∀ w, s.held w = none)
    (henabled : (s.ints r).enabled = true) (hin : (s.ints r).inLr = false) :
    SpillsLowest g s v r ↔ 1 < activeLrs (s.cpu v).lrs g.numLrs ∧
      ∃ j < g.numLrs, ((s.cpu v).lrs j).state = pend ∧ 0 < ((s.cpu v).lrs j).prio := by
  rw [← spillInd_pend_iff]
  have hwrite := addLrWrite_full h henabled hin
  constructor
  · rintro ⟨u, k, t, hcall, -, ⟨-, hpend, -⟩, -⟩
    rw [hwrite] at hcall
    obtain ⟨k', hspill, hmap⟩ := Option.bind_eq_some_iff.mp hcall
    obtain ⟨u', -, heq⟩ := Option.map_eq_some_iff.mp hmap
    cases heq
    exact ⟨k, hspill, hpend⟩
  · rintro ⟨k, hspill, hpend⟩
    obtain ⟨hlt, hlowest⟩ := spillInd_lowest hspill hpend
    obtain ⟨x, hx, hrec⟩ := h.recorded k hlt hpend
    have hstate : ((s.cpu v).lrs k).state ≠ inv := by rw [hpend]; decide
    obtain ⟨u, hu, hne, hself, hstate', hheld⟩ := vgicSpill_eq_some hfree hx hrec hstate hin
    have hcall : addLrWrite g s v r = some (u, k) := by
      rw [hwrite, hspill, Option.bind_some, hu, Option.map_some]
    have hfree' : ∀ w, u.held w = none := fun w => by rw [hheld, hfree]
    obtain ⟨t, ht⟩ := vgicWriteLr_isSome (g := g) hfree' v r k
    refine ⟨u, k, t, hcall, (vgicAddLr_of_write hcall).trans ht, ⟨hlt, hpend, hlowest⟩, ?_, x, hx,
      ?_⟩
    · obtain ⟨w, -, rfl⟩ := vgicWriteLr_eq_some.mp ht
      simp [VgicState.setInt, VgicState.setCpu, lrOf_vid]
    · obtain ⟨w, hw, rfl⟩ := vgicWriteLr_eq_some.mp ht
      simp only [VgicState.setInt, VgicState.setCpu, Function.update_of_ne hne]
      rw [state_of_fields (fields_leaveLr hw x), hstate']

/-- The interrupts 32 to 35 are in the registers of vcpu 0, in the given states. -/
def fourLrs (state : Nat → IntState) : VgicState 2 where
  ints r :=
    if gicCpuPriv ≤ r.id ∧ r.id < gicCpuPriv + 4 then
      { owner := some ⟨0, Nat.two_pos⟩, enabled := true, inLr := true, lr := r.id - gicCpuPriv }
    else { owner := some ⟨0, Nat.two_pos⟩, enabled := true, state := pend }
  cpu _ :=
    { lrs := fun k =>
        if k < 4 then { vid := gicCpuPriv + k, prio := 0xa0 + k, state := state k, eoi := true }
        else {} }
  held _ := none
  queue _ := []

theorem fullLrs_fourLrs {state : Nat → IntState} (h : ∀ k < 4, state k ≠ inv) :
    FullLrs twoClusters (fourLrs state) 0 where
  full k hk := by
    have hk : k < 4 := hk
    simp [fourLrs, hk, ListReg.empty, h k hk]
  recorded k hk _ := by
    have hk : k < 4 := hk
    refine ⟨.spi (gicCpuPriv + k), ?_, ?_⟩
    · have hlt : gicCpuPriv + k < twoClusters.intNum := by simp [gicCpuPriv, twoClusters]; omega
      simp [fourLrs, hk, vgicGetInt, hlt]
    · simp [fourLrs, RecordedIn, IntRef.id, hk]

/-- Two registers are active, and the last one is pending with the lowest priority. -/
theorem vgicAddLr_spills_two_active :
    SpillsLowest twoClusters (fourLrs fun k => if k < 2 then act else pend) 0 (.spi 36) :=
  (vgicAddLr_spills_iff (fullLrs_fourLrs (by decide)) (fun _ => rfl) (by decide) (by decide)).mpr
    ⟨by decide, 3, by decide, by decide, by decide⟩

/-- All registers are pending: none is spilled, and `vgic_add_lr` returns false. -/
theorem vgicAddLr_not_spills :
    FullLrs twoClusters (fourLrs fun _ => pend) 0 ∧
      ((fourLrs fun _ => pend).ints (.spi 36)).enabled = true ∧
      ((fourLrs fun _ => pend).ints (.spi 36)).inLr = false ∧
      addLrWrite twoClusters (fourLrs fun _ => pend) 0 (.spi 36) = none ∧
      ¬ SpillsLowest twoClusters (fourLrs fun _ => pend) 0 (.spi 36) := by
  have hcall : addLrWrite twoClusters (fourLrs fun _ => pend) 0 (.spi 36) = none := by
    have hnone : (addLrWrite twoClusters (fourLrs fun _ => pend) 0 (.spi 36)).isNone = true := by
      decide
    exact Option.isNone_iff_eq_none.mp hnone
  refine ⟨fullLrs_fourLrs (by decide), by decide, by decide, hcall, ?_⟩
  rintro ⟨u, k, t, hsome, -⟩
  rw [hcall] at hsome
  cases hsome

end Bao.Armv8
