import Mathlib.Logic.Relation
import Bao.Armv8.VgicLrs

/-!
# The elementary writes of the virtual GIC

Every function of the virtual GIC that works on interrupts in one locked section is a chain of a few
elementary writes by one vcpu. What all of them leave alone is said once here, for the chains: the
locks and what is locked, the other cpus, and those fields of an interrupt that only its registers
set. So is what they keep, `Sane`: an interrupt in a list register has no state of its own.
-/

namespace Bao.Armv8

variable {n : Nat}

/-- A private interrupt of a vcpu. -/
def privRef (v : Fin n) (id : Nat) : IntRef n :=
  .priv v ⟨id % gicCpuPriv, Nat.mod_lt id (Nat.succ_pos 31)⟩

/-- The fields of an interrupt that say nothing of who works on it. -/
def VgicInt.fields (x : VgicInt n) : VgicInt n := { x with owner := none, inLr := false }

/-- The fields of an interrupt that are set by its registers. -/
def VgicInt.config (x : VgicInt n) : VgicInt n :=
  { x with owner := none, inLr := false, lr := 0, state := inv, sgiAct := 0, sgiPend := 0 }

theorem VgicInt.config_fields (x : VgicInt n) : x.fields.config = x.config := rfl

variable {x y : VgicInt n}

theorem config_of_fields (h : x.fields = y.fields) : x.config = y.config := by
  rw [← x.config_fields, h, y.config_fields]

theorem state_of_fields (h : x.fields = y.fields) : x.state = y.state :=
  (congrArg VgicInt.state h :)

theorem prio_of_config (h : x.config = y.config) : x.prio = y.prio :=
  (congrArg VgicInt.prio h :)

theorem isTarget_of_config {g : VgicConfig n} (h : x.config = y.config) (v : Fin n) (r : IntRef n) :
    vgicIntVcpuIsTarget g v r x = vgicIntVcpuIsTarget g v r y := by
  have htargets : x.targets = y.targets := (congrArg VgicInt.targets h :)
  have hphys : x.phys = y.phys := (congrArg VgicInt.phys h :)
  have hroute : x.route = y.route := (congrArg VgicInt.route h :)
  simp only [vgicIntVcpuIsTarget, htargets, hphys, hroute]

/-- The vcpu owns the interrupt, or nobody does. -/
def VgicInt.Mine (v : Fin n) (x : VgicInt n) : Prop := x.owner = none ∨ x.owner = some v

instance (v : Fin n) (x : VgicInt n) : Decidable (x.Mine v) := inferInstanceAs (Decidable (_ ∨ _))

/-- A write by the vcpu `v`, in the locked section of the interrupt that it is about. -/
inductive VgicOp (g : VgicConfig n) (v : Fin n) (s : VgicState n) : VgicState n → Prop
  | take {r : IntRef n} (hfree : s.locked r = false) : VgicOp g v s (vgicGetOwnership s v r).2
  | yield {r : IntRef n} (hfree : s.locked r = false) : VgicOp g v s (vgicYieldOwnership g s v r)
  | remove {r : IntRef n} (hfree : s.locked r = false) : VgicOp g v s (vgicRemoveLr g s v r)
  | write {r : IntRef n} {k : Nat} {t : VgicState n} (hfree : s.locked r = false)
      (howner : (s.ints r).owner = some v) (hin : (s.ints r).inLr = false)
      (ht : vgicWriteLr g s v r k = some t) : VgicOp g v s t
  | setState {r : IntRef n} (hfree : s.locked r = false) (hin : (s.ints r).inLr = false)
      (state : IntState) (sgiPend : BitVec 8) :
      VgicOp g v s (s.setInt r { s.ints r with state, sgiPend })
  | setNpie (npie : Bool) : VgicOp g v s (s.setNpie v npie)
  | send {msg : VgicMsg} (hmsg : msg.event ≠ .inject) (p : Nat) :
      VgicOp g v s (s.cpuSendMsg msg p)

abbrev VgicOps (g : VgicConfig n) (v : Fin n) : VgicState n → VgicState n → Prop :=
  Relation.ReflTransGen (VgicOp g v)

variable {g : VgicConfig n} {s t u : VgicState n} {v : Fin n} {r : IntRef n} {k : Nat}

/-! ## What the writes leave alone -/

/-- The locks and what is locked, the other cpus and the fields that registers set are the same, and
no interrupt goes to another vcpu. -/
structure OpFrame (v : Fin n) (s t : VgicState n) : Prop where
  held : t.held = s.held
  frame : ∀ r, s.locked r = true → t.ints r = s.ints r
  cpu : ∀ w, w ≠ v → t.cpu w = s.cpu w
  config : ∀ r, (t.ints r).config = (s.ints r).config
  mine : ∀ r, (s.ints r).Mine v → (t.ints r).Mine v

namespace OpFrame

theorem refl (s : VgicState n) : OpFrame v s s :=
  ⟨rfl, fun _ _ => rfl, fun _ _ => rfl, fun _ => rfl, fun _ => id⟩

theorem trans (h : OpFrame v s t) (h' : OpFrame v t u) : OpFrame v s u where
  held := h'.held.trans h.held
  frame r hr := (h'.frame r (by rw [locked_congr h.held]; exact hr)).trans (h.frame r hr)
  cpu w hw := (h'.cpu w hw).trans (h.cpu w hw)
  config r := (h'.config r).trans (h.config r)
  mine r hr := h'.mine r (h.mine r hr)

theorem locked (h : OpFrame v s t) (hfree : s.locked r = false) : t.locked r = false := by
  rw [locked_congr h.held]; exact hfree

theorem setInt (hfree : s.locked r = false) (hx : x.config = (s.ints r).config)
    (hmine : (s.ints r).Mine v → x.Mine v) : OpFrame v s (s.setInt r x) where
  held := rfl
  frame r' hr' := by
    have hne : r' ≠ r := by rintro rfl; rw [hfree] at hr'; cases hr'
    simp [VgicState.setInt, hne]
  cpu _ _ := rfl
  config r' := by
    by_cases hr' : r' = r
    · subst hr'; simpa [VgicState.setInt] using hx
    · simp [VgicState.setInt, hr']
  mine r' hr' := by
    by_cases hr : r' = r
    · subst hr; simpa [VgicState.setInt] using hmine hr'
    · simpa [VgicState.setInt, hr] using hr'

theorem setCpu (c : VgicCpu) : OpFrame v s (s.setCpu v c) where
  held := rfl
  frame _ _ := rfl
  cpu w hw := by simp [VgicState.setCpu, hw]
  config _ := rfl
  mine _ := id

end OpFrame

theorem fields_yield (r' : IntRef n) :
    ((vgicYieldOwnership g s v r).ints r').fields = (s.ints r').fields := by
  by_cases hr : r' = r
  · subst hr
    simp only [vgicYieldOwnership]
    split
    · rfl
    · simp [VgicState.setInt, VgicInt.fields]
  · rw [yield_other hr]

theorem fields_leaveLr (h : vgicLeaveLr g s v r k = some t) (r' : IntRef n) :
    (t.ints r').fields = (s.ints r').fields := by
  simp only [vgicLeaveLr] at h
  split at h
  · split at h
    · cases h; rfl
    · rename_i prev _
      split at h
      · cases h
      · split at h
        · cases h
          rw [fields_yield]
          by_cases hr : r' = prev
          · subst hr; simp [VgicState.setInt, VgicInt.fields]
          · simp [VgicState.setInt, hr]
        · cases h; rfl
  · cases h; rfl

theorem mine_yield {r' : IntRef n} (h : (s.ints r').Mine v) :
    ((vgicYieldOwnership g s v r).ints r').Mine v := by
  by_cases hr : r' = r
  · subst hr
    simp only [vgicYieldOwnership]
    split
    · exact h
    · exact .inl (by simp [VgicState.setInt])
  · rwa [yield_other hr]

theorem mine_leaveLr (h : vgicLeaveLr g s v r k = some t) {r' : IntRef n}
    (hmine : (s.ints r').Mine v) : (t.ints r').Mine v := by
  simp only [vgicLeaveLr] at h
  split at h
  · split at h
    · cases h; exact hmine
    · rename_i prev _
      split at h
      · cases h
      · split at h
        · cases h
          refine mine_yield ?_
          by_cases hr : r' = prev
          · subst hr; simpa [VgicState.setInt, VgicInt.Mine] using hmine
          · simpa [VgicState.setInt, hr] using hmine
        · cases h; exact hmine
  · cases h; exact hmine

theorem vgicWriteLr_eq_some :
    vgicWriteLr g s v r k = some t ↔ ∃ u, vgicLeaveLr g s v r k = some u ∧
      (u.setInt r { u.ints r with
          state := inv, inLr := true, lr := k
          sgiPend := (lrOf g r (u.ints r) (vgicGetState g u v r)).2 }).setCpu v
        { u.cpu v with
          lrs := Function.update (u.cpu v).lrs k (lrOf g r (u.ints r) (vgicGetState g u v r)).1
          currLrs := Function.update (u.cpu v).currLrs k r.id } = t :=
  Option.map_eq_some_iff

theorem config_removedInt (r : IntRef n) (x : VgicInt n) (lr : ListReg) :
    (removedInt g r x lr).config = x.config := by
  simp only [removedInt]
  split
  · split <;> rfl
  · rfl

theorem removedInt_state (r : IntRef n) (x : VgicInt n) (lr : ListReg) :
    (removedInt g r x lr).state = lr.state := by
  simp only [removedInt]
  split
  · split <;> rfl
  · rfl

theorem removeLr_of_not (h : ¬ ((s.ints r).owner = some v ∧ (s.ints r).inLr = true)) :
    vgicRemoveLr g s v r = s := by
  have hskip : vgicOwns s v r = false ∨ (s.ints r).inLr = false := by
    by_contra hnot
    simp only [not_or, vgicOwns, Bool.not_eq_false, decide_eq_true_eq] at hnot
    exact h hnot
  rw [vgicRemoveLr, if_pos hskip]

theorem vgicRemoveLr_of_getLr {lr : ListReg} (howner : (s.ints r).owner = some v)
    (hin : (s.ints r).inLr = true) (hget : gichGetLr g s v r = some lr) :
    (vgicRemoveLr g s v r).ints = Function.update s.ints r (removedInt g r (s.ints r) lr) ∧
      ((vgicRemoveLr g s v r).cpu v).lrs =
        Function.update (s.cpu v).lrs (s.ints r).lr {} := by
  have hskip : ¬ (vgicOwns s v r = false ∨ (s.ints r).inLr = false) := by
    simp [vgicOwns, howner, hin]
  simp only [vgicRemoveLr, if_neg hskip, hget]
  split <;>
    simp [VgicState.setInt, VgicState.gichWriteLr, VgicState.setNpie, VgicState.setCpu]

namespace VgicOp

theorem opFrame_removeLr (hfree : s.locked r = false) : OpFrame v s (vgicRemoveLr g s v r) := by
  simp only [vgicRemoveLr]
  split
  · exact .refl s
  · split
    · exact .setInt hfree rfl id
    · rename_i lr _
      have hclear : OpFrame v s (s.gichWriteLr v (s.ints r).lr {}) := .setCpu _
      have hset : OpFrame v s
          ((s.gichWriteLr v (s.ints r).lr {}).setInt r (removedInt g r (s.ints r) lr)) :=
        hclear.trans (.setInt (hclear.locked hfree) (config_removedInt r _ lr) fun hmine => by
          rwa [VgicInt.Mine, (removedInt_owner r _ lr).1])
      split
      · exact hset.trans (.setCpu _)
      · exact hset

theorem opFrame_writeLr (hfree : s.locked r = false) (ht : vgicWriteLr g s v r k = some t) :
    OpFrame v s t := by
  obtain ⟨u, hu, rfl⟩ := vgicWriteLr_eq_some.mp ht
  have left := leftLr_of_leave hu
  have hleave : OpFrame v s u :=
    ⟨left.held, left.frame, fun w _ => by rw [left.cpu],
      fun r' => config_of_fields (fields_leaveLr hu r'), fun _ => mine_leaveLr hu⟩
  refine hleave.trans (.trans (.setInt (hleave.locked hfree) ?_ ?_) (.setCpu _))
  · rfl
  · exact id

theorem opFrame (h : VgicOp g v s t) : OpFrame v s t := by
  cases h with
  | @take r hfree =>
    rcases getOwnership_cases s v r with ⟨heq, -⟩ | ⟨heq, -⟩ | ⟨heq, -⟩
    · rw [heq]; exact .refl s
    · rw [heq]; exact .setInt hfree rfl fun _ => .inr rfl
    · rw [heq]; exact .refl s
  | @yield r hfree =>
    simp only [vgicYieldOwnership]
    split
    · exact .refl s
    · exact .setInt hfree rfl fun _ => .inl rfl
  | remove hfree => exact opFrame_removeLr hfree
  | write hfree _ _ ht => exact opFrame_writeLr hfree ht
  | setState hfree _ _ _ => exact .setInt hfree rfl id
  | setNpie npie => exact .setCpu _
  | send _ p => exact ⟨rfl, fun _ _ => rfl, fun _ _ => rfl, fun _ => rfl, fun _ => id⟩

end VgicOp

theorem VgicOps.opFrame (h : VgicOps g v s t) : OpFrame v s t := by
  induction h with
  | refl => exact .refl s
  | tail _ hop ih => exact ih.trans hop.opFrame

/-! ## The functions as chains -/

namespace VgicOps

theorem one (h : VgicOp g v s t) : VgicOps g v s t := .single h

theorem sendAll (s : VgicState n) {msg : VgicMsg} (hmsg : msg.event ≠ .inject) (ps : List Nat) :
    VgicOps g v s (ps.foldl (fun s i => s.cpuSendMsg msg i) s) := by
  induction ps generalizing s with
  | nil => exact .refl
  | cons p ps ih => exact .head (.send hmsg p) (ih _)

theorem spill (ht : vgicSpill g s v r k = some t) :
    VgicOps g v s t ∧ t.ints r = s.ints r := by
  simp only [vgicSpill] at ht
  split at ht
  · cases ht; exact ⟨.refl, rfl⟩
  · rename_i spilled _
    split at ht
    · cases ht
    · rename_i hspilled
      cases ht
      simp only [not_or, Bool.not_eq_true] at hspilled
      have hremove : VgicOp g v s (vgicRemoveLr g s v spilled) := .remove hspilled.2
      refine ⟨.tail (one hremove) (.yield (hremove.opFrame.locked hspilled.2)), ?_⟩
      rw [yield_other (Ne.symm hspilled.1), removeLr_other (Ne.symm hspilled.1)]

section

variable (hfree : s.locked r = false) (howner : (s.ints r).owner = some v)

include hfree howner

theorem addLr (ht : vgicAddLr g s v r = some t) : VgicOps g v s t := by
  simp only [vgicAddLr] at ht
  split at ht
  · cases ht; exact .refl
  · rename_i hskip
    simp only [not_or, Bool.not_eq_true] at hskip
    split at ht
    · exact one (.write hfree howner hskip.2 ht)
    · split at ht
      · obtain ⟨u, hu, hwrite⟩ := Option.bind_eq_some_iff.mp ht
        obtain ⟨hspill, hself⟩ := spill hu
        exact .tail hspill (.write (hspill.opFrame.locked hfree) (hself ▸ howner)
          (hself ▸ hskip.2) hwrite)
      · cases ht
        split
        · exact one (.setNpie true)
        · exact .refl

theorem addLr_if {b : Bool} (ht : (if b then vgicAddLr g s v r else some s) = some t) :
    VgicOps g v s t := by
  split at ht
  · exact addLr hfree howner ht
  · cases ht; exact .refl

theorem route (ht : vgicRoute g s v r = some t) : VgicOps g v s t := by
  simp only [vgicRoute] at ht
  split at ht
  · cases ht; exact .refl
  · obtain ⟨u, hu, rfl⟩ := Option.map_eq_some_iff.mp ht
    have hadd : VgicOps g v s u := addLr_if hfree howner hu
    split
    · exact (hadd.tail (.yield (hadd.opFrame.locked hfree))).trans (sendAll _ (by simp) _)
    · exact hadd

end

end VgicOps

/-! ## What the writes keep -/

/-- An interrupt in a list register has an owner and no state of its own, a private interrupt of
GICv2 is always owned by its vcpu, and in GICv3 only the end of shared interrupts is trapped. -/
structure Sane (g : VgicConfig n) (s : VgicState n) : Prop where
  inLr : ∀ r, (s.ints r).inLr = true → (s.ints r).state = inv ∧ (s.ints r).owner ≠ none
  priv : g.version = .gicv2 → ∀ w id, (s.ints (.priv w id)).owner = some w
  eoi : g.version = .gicv3 → ∀ w k, ((s.cpu w).lrs k).eoi = true →
    gicCpuPriv ≤ ((s.cpu w).lrs k).vid

theorem lrOf_eoi (hv : g.version = .gicv3) {r : IntRef n} (x : VgicInt n) (state : IntState)
    (h : (lrOf g r x state).1.eoi = true) : gicCpuPriv ≤ (lrOf g r x state).1.vid := by
  rw [lrOf_vid]
  simp only [lrOf, hv, reduceCtorEq, false_and, if_false] at h
  split at h
  · cases h
  · simpa [gicIsPriv] using h

namespace Sane

section

variable (h : Sane g s)

include h

theorem setInt (hin : x.inLr = true → x.state = inv ∧ x.owner ≠ none)
    (hpriv : g.version = .gicv2 → ∀ w id, r = .priv w id → x.owner = some w) :
    Sane g (s.setInt r x) where
  inLr r' hr' := by
    by_cases hr : r' = r
    · subst hr
      simp only [VgicState.setInt, Function.update_self] at hr' ⊢
      exact hin hr'
    · simp only [VgicState.setInt, Function.update_of_ne hr] at hr' ⊢
      exact h.inLr r' hr'
  priv hv w id := by
    by_cases hr : IntRef.priv w id = r
    · simpa [VgicState.setInt, hr] using hpriv hv w id hr.symm
    · simpa [VgicState.setInt, hr] using h.priv hv w id
  eoi := h.eoi

theorem setInt_out (howner : x.owner = (s.ints r).owner) (hin : x.inLr = false) :
    Sane g (s.setInt r x) := by
  refine h.setInt (fun hx => by rw [hin] at hx; cases hx) fun hv w id hr => ?_
  rw [howner, hr]
  exact h.priv hv w id

theorem setCpu {c : VgicCpu}
    (hc : g.version = .gicv3 → ∀ k, (c.lrs k).eoi = true → gicCpuPriv ≤ (c.lrs k).vid) :
    Sane g (s.setCpu v c) where
  inLr := h.inLr
  priv := h.priv
  eoi hv w k hk := by
    by_cases hw : w = v
    · subst hw
      simp only [VgicState.setCpu, Function.update_self] at hk ⊢
      exact hc hv k hk
    · simp only [VgicState.setCpu, Function.update_of_ne hw] at hk ⊢
      exact h.eoi hv w k hk

theorem setLr {lr : ListReg} {c : VgicCpu} (hc : c.lrs = Function.update (s.cpu v).lrs k lr)
    (hlr : g.version = .gicv3 → lr.eoi = true → gicCpuPriv ≤ lr.vid) : Sane g (s.setCpu v c) := by
  refine h.setCpu fun hv j hj => ?_
  rw [hc] at hj ⊢
  by_cases hjk : j = k
  · subst hjk
    simp only [Function.update_self] at hj ⊢
    exact hlr hv hj
  · simp only [Function.update_of_ne hjk] at hj ⊢
    exact h.eoi hv v j hj

theorem setNpie (npie : Bool) : Sane g (s.setNpie v npie) :=
  h.setCpu fun hv k hk => h.eoi hv v k hk

theorem clearLr (k : Nat) : Sane g (s.gichWriteLr v k {}) :=
  h.setLr rfl fun _ hk => by cases hk

theorem yield : Sane g (vgicYieldOwnership g s v r) := by
  simp only [vgicYieldOwnership]
  split
  · exact h
  · rename_i hyield
    simp only [not_or, Bool.not_eq_true] at hyield
    refine h.setInt (fun hin => ?_) fun hv w id hr => ?_
    · rw [hyield.2.2.1] at hin; cases hin
    · subst hr
      exact absurd ⟨hv, by simp [gicIsPriv, IntRef.id]⟩ hyield.1

theorem take : Sane g (vgicGetOwnership s v r).2 := by
  rcases getOwnership_cases s v r with ⟨heq, -⟩ | ⟨heq, hnone⟩ | ⟨heq, -⟩
  · rw [heq]; exact h
  · rw [heq]
    refine h.setInt (fun hin => absurd hnone (h.inLr r hin).2) fun hv w id hr => ?_
    rw [hr, h.priv hv w id] at hnone
    cases hnone
  · rw [heq]; exact h

theorem removeLr : Sane g (vgicRemoveLr g s v r) := by
  simp only [vgicRemoveLr]
  split
  · exact h
  · split
    · exact h.setInt_out rfl rfl
    · rename_i lr _
      obtain ⟨howner, hin⟩ := removedInt_owner (g := g) r (s.ints r) lr
      have hset : Sane g
          ((s.gichWriteLr v (s.ints r).lr {}).setInt r (removedInt g r (s.ints r) lr)) :=
        (h.clearLr _).setInt_out howner hin
      split
      · exact hset.setNpie true
      · exact hset

theorem leaveLr (ht : vgicLeaveLr g s v r k = some t) : Sane g t := by
  simp only [vgicLeaveLr] at ht
  split at ht
  · split at ht
    · cases ht; exact h
    · split at ht
      · cases ht
      · split at ht
        · cases ht
          refine yield (h.setInt_out ?_ ?_) <;> rfl
        · cases ht; exact h
  · cases ht; exact h

theorem writeLr (howner : (s.ints r).owner = some v) (ht : vgicWriteLr g s v r k = some t) :
    Sane g t := by
  obtain ⟨u, hu, rfl⟩ := vgicWriteLr_eq_some.mp ht
  have hself : (u.ints r).owner = some v := by rw [(leftLr_of_leave hu).self, howner]
  have hleft := h.leaveLr hu
  refine setLr (k := k) (hleft.setInt (fun _ => ⟨rfl, ?_⟩) fun hv w id hr => ?_) rfl
    fun hv => lrOf_eoi hv _ _
  · exact fun hnone => by rw [hself] at hnone; cases hnone
  · subst hr
    exact hleft.priv hv w id

end

end Sane

theorem VgicOp.sane (hs : Sane g s) (h : VgicOp g v s t) : Sane g t := by
  cases h with
  | take _ => exact hs.take
  | yield _ => exact hs.yield
  | remove _ => exact hs.removeLr
  | write _ howner _ ht => exact hs.writeLr howner ht
  | setState _ hin _ _ => exact hs.setInt_out rfl hin
  | setNpie npie => exact hs.setNpie npie
  | send _ p => exact ⟨hs.inLr, hs.priv, hs.eoi⟩

/-! ## Whole functions -/

theorem vgicGetInt_self {id : Nat} (h : vgicGetInt g id v = some r) (w : Fin n)
    (j : Fin gicCpuPriv) (hr : r = .priv w j) : w = v := by
  simp only [vgicGetInt] at h
  split at h
  · split at h
    · cases h
      cases hr
      rfl
    · cases h
  · split at h
    · cases h
      cases hr
    · cases h

theorem vgicGetInt_sgi {id : Nat} (h : vgicGetInt g id v = some r) (hid : id < gicMaxSgis) :
    ∃ j, r = .priv v j := by
  rcases vgicGetInt_cases h with ⟨w, j, rfl, -⟩ | ⟨-, hge, -⟩
  · exact ⟨j, by rw [vgicGetInt_self h w j rfl]⟩
  · simp only [gicCpuPriv, gicMaxSgis] at hge hid
    omega

/-- What every elementary write keeps, the update of an interrupt that is in no register and the
taking and letting go of locks too. -/
structure OpsKeep (g : VgicConfig n) (P : VgicState n → Prop) : Prop where
  sane : ∀ {s}, P s → Sane g s
  lock : ∀ {s} (held : Fin n → Option (IntRef n)), P s → P { s with held }
  op : ∀ {v s t}, P s → VgicOp g v s t → P t
  update : ∀ {s r} {x : VgicInt n}, P s → (s.ints r).inLr = false → x.owner = (s.ints r).owner →
    x.inLr = false → P (s.setInt r x)

theorem Sane.opsKeep : OpsKeep g (Sane g) where
  sane := id
  lock _ h := ⟨h.inLr, h.priv, h.eoi⟩
  op h hop := hop.sane h
  update h _ := h.setInt_out

/-- What a function does to a state with `P` in which nothing it works on is locked. -/
structure LockedSection (P : VgicState n → Prop) (s t : VgicState n) : Prop where
  held : t.held = s.held
  frame : ∀ r, s.locked r = true → t.ints r = s.ints r
  kept : P t

/-- The record of an interrupt that is injected and linked to a physical one. -/
def Injectable (g : VgicConfig n) (P : VgicState n → Prop) (s : VgicState n) (v : Fin n)
    (id : Nat) : Prop :=
  ∀ r, vgicGetInt g id v = some r → vgicIntIsHw s r = true →
    P (s.setInt r { s.ints r with owner := some v, state := pend, inLr := false })

theorem Sane.injectable (hs : Sane g s) (v : Fin n) (id : Nat) : Injectable g (Sane g) s v id := by
  refine fun r hint _ => hs.setInt (fun hin => by cases hin) fun _ w j hr => ?_
  rw [vgicGetInt_self hint w j hr]

namespace LockedSection

variable {P : VgicState n → Prop}

theorem refl (hs : P s) : LockedSection P s s := ⟨rfl, fun _ _ => rfl, hs⟩

theorem trans (h : LockedSection P s t) (h' : LockedSection P t u) : LockedSection P s u where
  held := h'.held.trans h.held
  frame r hr := (h'.frame r (by rw [locked_congr h.held]; exact hr)).trans (h.frame r hr)
  kept := h'.kept

theorem locked (h : LockedSection P s t) (hfree : s.locked r = false) : t.locked r = false := by
  rw [locked_congr h.held]; exact hfree

theorem setInt (hfree : s.locked r = false) (hx : P (s.setInt r x)) :
    LockedSection P s (s.setInt r x) where
  held := rfl
  frame r' hr' := by
    have hne : r' ≠ r := by rintro rfl; rw [hfree] at hr'; cases hr'
    simp [VgicState.setInt, hne]
  kept := hx

variable (keep : OpsKeep g P)
include keep

theorem ops (hs : P s) (h : VgicOps g v s t) : LockedSection P s t := by
  refine ⟨h.opFrame.held, h.opFrame.frame, ?_⟩
  induction h with
  | refl => exact hs
  | tail _ hop ih => exact keep.op ih hop

theorem op (hs : P s) (h : VgicOp g v s t) : LockedSection P s t := ops keep hs (.one h)

theorem setField {h' : RegHandler} {data : BitVec 64} (hs : P s)
    (ht : vgicIntSetField g s v h' r data = some t) : LockedSection P s t := by
  simp only [vgicIntSetField] at ht
  split at ht
  · cases ht
  · rename_i hlocked
    have hfree : s.locked r = false := by simpa using hlocked
    have htake : LockedSection P s (vgicGetOwnership s v r).2 := op keep hs (.take hfree)
    have howner := owner_of_getOwnership (s := s) (v := v) (r := r)
    split at ht
    · rename_i s₁ howns
      rw [howns] at htake howner
      obtain ⟨u, hu, rfl⟩ := Option.map_eq_some_iff.mp ht
      -- the interrupt leaves its register, is updated, routed and given up
      have hremove := htake.trans (op keep htake.kept (.remove (v := v) (htake.locked hfree)))
      obtain ⟨hown, hin⟩ := removeLr_self (g := g) (s := s₁) (v := v) (r := r)
      obtain ⟨hsame, hinLr, -⟩ := updateField_same (g := g) h' v r
        ((vgicRemoveLr g s₁ v r).ints r) data
      have hout := hin (howner rfl)
      have hupdate := hremove.trans (.setInt (hremove.locked hfree)
        (keep.update hremove.kept hout hsame (hinLr.trans hout)))
      have hroute := hupdate.trans (ops keep hupdate.kept
        (.route (hupdate.locked hfree) (by simpa [VgicState.setInt, hsame, hown] using howner rfl)
          hu))
      exact hroute.trans (op keep hroute.kept (.yield (hroute.locked hfree)))
    · rename_i s₁ howns
      rw [howns] at htake
      simp only [Option.some.injEq] at ht
      subst ht
      cases (s₁.ints r).owner with
      | none => exact htake
      | some w => exact htake.trans (op (v := v) keep htake.kept (.send (by simp) _))

theorem injectSgi {source : BitVec 64} (hs : P s) (howner : (s.ints r).owner = some v)
    (ht : vgicInjectSgi g s v r source = some t) : LockedSection P s t := by
  simp only [vgicInjectSgi] at ht
  split at ht
  · cases ht
  · rename_i hlocked
    have hfree : s.locked r = false := by simpa using hlocked
    have hremove : LockedSection P s (vgicRemoveLr g s v r) := op keep hs (.remove hfree)
    obtain ⟨hown, hin⟩ := removeLr_self (g := g) (s := s) (v := v) (r := r)
    split at ht
    · cases ht; exact hremove
    · have hset : ∀ state sgiPend, LockedSection P s ((vgicRemoveLr g s v r).setInt r
          { (vgicRemoveLr g s v r).ints r with state, sgiPend }) := fun state sgiPend =>
        hremove.trans (op (v := v) keep hremove.kept
          (.setState (hremove.locked hfree) (hin howner) state sgiPend))
      have hadd : ∀ u, LockedSection P s u → (u.ints r).owner = some v →
          (if (u.ints r).state ≠ inv then vgicAddLr g u v r else some u) = some t →
          LockedSection P s t := by
        intro u hu howner ht
        split at ht
        · exact hu.trans (ops keep hu.kept (.addLr (hu.locked hfree) howner ht))
        · cases ht; exact hu
      exact hadd _ (hset _ _) (by simpa [VgicState.setInt] using hown.trans howner) ht

theorem handleRoute {intId : Nat} (hs : P s) (ht : vgicHandleRoute g s v intId = some t) :
    LockedSection P s t := by
  simp only [vgicHandleRoute] at ht
  split at ht
  · cases ht; exact refl hs
  · rename_i r _
    split at ht
    · cases ht
    · rename_i hlocked
      have hfree : s.locked r = false := by simpa using hlocked
      have htake : LockedSection P s (vgicGetOwnership s v r).2 := op keep hs (.take hfree)
      have howner := owner_of_getOwnership (s := s) (v := v) (r := r)
      split at ht
      · rename_i s₁ howns
        rw [howns] at htake howner
        obtain ⟨u, hu, rfl⟩ := Option.map_eq_some_iff.mp ht
        have hadd := htake.trans
          (ops keep htake.kept (.addLr_if (htake.locked hfree) (howner rfl) hu))
        exact hadd.trans (op keep hadd.kept (.yield (hadd.locked hfree)))
      · rename_i s₁ howns
        cases ht
        rw [howns] at htake
        exact htake

theorem inject {id : Nat} {source : BitVec 64} (hs : P s) (hinject : Injectable g P s v id)
    (ht : vgicInject g s v id source = some t) : LockedSection P s t := by
  simp only [vgicInject] at ht
  split at ht
  · cases ht; exact refl hs
  · rename_i r hint
    split at ht
    · rename_i hhw
      split at ht
      · cases ht
      · rename_i hlocked
        have hfree : s.locked r = false := by simpa using hlocked
        have hset := LockedSection.setInt hfree (hinject r hint hhw)
        exact hset.trans (ops keep hset.kept
          (.route (hset.locked hfree) (by simp [VgicState.setInt]) ht))
    · split at ht
      · rename_i hsgi
        refine injectSgi keep hs ?_ ht
        obtain ⟨j, rfl⟩ := vgicGetInt_sgi hint (by simpa [gicIsSgi] using hsgi.2)
        exact (keep.sane hs).priv hsgi.1 v j
      · exact setField keep hs ht

theorem ipiHandler {msg : VgicMsg} (hs : P s)
    (hinject : msg.event = .inject → Injectable g P s v (vgicMsgIntid msg.data))
    (ht : vgicIpiHandler g s v msg = some t) : LockedSection P s t := by
  simp only [vgicIpiHandler] at ht
  split at ht
  · cases ht
  · split at ht
    · cases ht; exact refl hs
    · exact handleRoute keep hs ht
    · rename_i hevent
      exact inject keep hs (hinject hevent) ht
    · split at ht
      · exact setField keep hs ht
      · cases ht; exact refl hs

end LockedSection

/-! ## Taking and yielding -/

theorem getOwnership_held : (vgicGetOwnership s v r).2.held = s.held := by
  rcases getOwnership_cases s v r with ⟨heq, -⟩ | ⟨heq, -⟩ | ⟨heq, -⟩
  all_goals rw [heq]
  rfl

theorem getOwnership_iff : (vgicGetOwnership s v r).1 = true ↔ (s.ints r).Mine v := by
  rcases getOwnership_cases s v r with ⟨heq, howner⟩ | ⟨heq, hnone⟩ | ⟨heq, w, hw, howner⟩
  · simp [heq, VgicInt.Mine, howner]
  · simp [heq, VgicInt.Mine, hnone]
  · simp [heq, VgicInt.Mine, howner, hw]

/-- Only owners change, of interrupts that the vcpu may take, and that are not in a list register
of their owner. -/
structure OwnersOnly (v : Fin n) (s t : VgicState n) : Prop where
  cpu : t.cpu = s.cpu
  ints : ∀ r, t.ints r = { s.ints r with owner := (t.ints r).owner }
  owner : ∀ r, (t.ints r).owner = (s.ints r).owner ∨ (s.ints r).Mine v ∧ (t.ints r).Mine v
  kept : ∀ r, (s.ints r).inLr = true → (s.ints r).owner ≠ none →
    (t.ints r).owner = (s.ints r).owner

theorem mine_congr (h : x.owner = y.owner) : x.Mine v ↔ y.Mine v := by
  rw [VgicInt.Mine, VgicInt.Mine, h]

theorem gichGetLr_of_out {w : Fin n} (hout : (s.ints r).inLr = false) :
    gichGetLr g s w r = none := by
  simp only [gichGetLr, hout, true_or, if_true]
  split <;> rfl

theorem vgicGetState_congr {w w' : Fin n} (hs : (s.ints r).inLr = false)
    (h : (t.ints r).fields = (s.ints r).fields) (ht : (t.ints r).inLr = false) :
    vgicGetState g t w r = vgicGetState g s w' r := by
  have hsgi : (t.ints r).sgiPend = (s.ints r).sgiPend := (congrArg VgicInt.sgiPend h :)
  simp only [vgicGetState, gichGetLr_of_out ht, gichGetLr_of_out hs, state_of_fields h, hsgi]

namespace OwnersOnly

theorem refl (s : VgicState n) : OwnersOnly v s s :=
  ⟨rfl, fun _ => rfl, fun _ => .inl rfl, fun _ _ _ => rfl⟩

theorem mine_iff (h : OwnersOnly v s t) (r : IntRef n) :
    (t.ints r).Mine v ↔ (s.ints r).Mine v := by
  rcases h.owner r with heq | ⟨hs, ht⟩
  · exact mine_congr heq
  · exact ⟨fun _ => hs, fun _ => ht⟩

theorem inLr (h : OwnersOnly v s t) (r : IntRef n) : (t.ints r).inLr = (s.ints r).inLr := by
  rw [h.ints r]

theorem fields (h : OwnersOnly v s t) (r : IntRef n) : (t.ints r).fields = (s.ints r).fields := by
  rw [h.ints r]; rfl

theorem trans (h : OwnersOnly v s t) (h' : OwnersOnly v t u) : OwnersOnly v s u where
  cpu := h'.cpu.trans h.cpu
  ints r := by rw [h'.ints r, h.ints r]
  owner r := by
    rcases h'.owner r with heq' | ⟨hmine, hmine'⟩
    · rcases h.owner r with heq | ⟨hmine, hmine'⟩
      · exact .inl (heq'.trans heq)
      · exact .inr ⟨hmine, (mine_congr heq').mpr hmine'⟩
    · exact .inr ⟨(h.mine_iff r).mp hmine, hmine'⟩
  kept r hin howner := by
    have heq := h.kept r hin howner
    rw [← heq]
    exact h'.kept r ((h.inLr r).trans hin) (heq ▸ howner)

theorem setOwner (hmine : (s.ints r).Mine v) {w : Option (Fin n)} (hw : w = none ∨ w = some v)
    (hkept : (s.ints r).inLr = true → (s.ints r).owner = none) :
    OwnersOnly v s (s.setInt r { s.ints r with owner := w }) := by
  refine ⟨rfl, fun r' => ?_, fun r' => ?_, fun r' hin howner => ?_⟩ <;> by_cases hr : r' = r
  · subst hr; simp [VgicState.setInt]
  · simp [VgicState.setInt, hr]
  · subst hr
    exact .inr ⟨hmine, by simpa [VgicState.setInt, VgicInt.Mine] using hw⟩
  · exact .inl (by simp [VgicState.setInt, hr])
  · subst hr
    exact absurd (hkept hin) howner
  · simp [VgicState.setInt, hr]

theorem yield : OwnersOnly v s (vgicYieldOwnership g s v r) := by
  simp only [vgicYieldOwnership]
  split
  · exact refl s
  · rename_i hcond
    simp only [not_or, vgicOwns] at hcond
    refine setOwner (.inr (by simpa using hcond.2.1)) (.inl rfl) fun hin => ?_
    exact absurd hin hcond.2.2.1

theorem take : OwnersOnly v s (vgicGetOwnership s v r).2 := by
  rcases getOwnership_cases s v r with ⟨heq, -⟩ | ⟨heq, hnone⟩ | ⟨heq, -⟩
  · rw [heq]; exact refl s
  · rw [heq]; exact setOwner (.inl hnone) (.inr rfl) fun _ => hnone
  · rw [heq]; exact refl s

theorem setHeld (held : Fin n → Option (IntRef n)) : OwnersOnly v s { s with held } :=
  ⟨rfl, fun _ => rfl, fun _ => .inl rfl, fun _ _ _ => rfl⟩

end OwnersOnly

end Bao.Armv8
