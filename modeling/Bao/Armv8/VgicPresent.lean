import Bao.Armv8.VgicRefill
import Bao.Armv8.VgicSpill

/-!
# What is presented to a vcpu

An interrupt is presented when `vgic_write_lr` puts it into a list register with its pending bit.
Register writes, injections, messages, ends of interrupts and the refill get there by way of
different checks. `presented` is the call of `vgic_write_lr` that a step of the machine makes, with
the state at that moment; there is at most one.
-/

namespace Bao.Armv8

open Foundation

variable {n : Nat}

/-! ## Calls of `vgic_add_lr` -/

section Calls

variable (g : VgicConfig n)

/-- The state in which `vgic_route` calls `vgic_add_lr`. -/
def routeAdd (s : VgicState n) (v : Fin n) (r : IntRef n) : Option (VgicState n) :=
  if (s.ints r).state = inv ∨ (s.ints r).enabled = false then none
  else if vgicIntVcpuIsTarget g v r (s.ints r) then some s else none

def setFieldAdd (s : VgicState n) (v : Fin n) (h : RegHandler) (r : IntRef n) (data : BitVec 64) :
    Option (VgicState n) :=
  match vgicGetOwnership s v r with
  | (true, s) =>
    let s := vgicRemoveLr g s v r
    routeAdd g (s.setInt r (h.updateField g v r (s.ints r) data)) v r
  | (false, _) => none

def injectSgiAdd (s : VgicState n) (v : Fin n) (r : IntRef n) (source : BitVec 64) :
    Option (VgicState n) :=
  let s := vgicRemoveLr g s v r
  let i := s.ints r
  let sgiPend := i.sgiPend ||| (1 : BitVec 8) <<< source.toNat
  if i.sgiPend = sgiPend then none
  else
    let s := s.setInt r { i with
      sgiPend
      state := if sgiPend ≠ 0 then i.state ||| pend else i.state &&& ~~~pend }
    if (s.ints r).state ≠ inv then some s else none

/-- The state in which `vgic_inject` calls `vgic_add_lr`, and the interrupt. -/
def injectAdd (s : VgicState n) (v : Fin n) (id : Nat) (source : BitVec 64) :
    Option (VgicState n × IntRef n) :=
  (vgicGetInt g id v).bind fun r =>
    (if vgicIntIsHw s r then
      routeAdd g (s.setInt r { s.ints r with owner := some v, state := pend, inLr := false }) v r
    else if g.version = .gicv2 ∧ gicIsSgi id then injectSgiAdd g s v r source
    else setFieldAdd g s v .ispendr r 1).map fun s => (s, r)

def handleRouteAdd (s : VgicState n) (v : Fin n) (intId : Nat) :
    Option (VgicState n × IntRef n) :=
  (vgicGetInt g intId v).bind fun r =>
    match vgicGetOwnership s v r with
    | (true, s) => if vgicIntVcpuIsTarget g v r (s.ints r) then some (s, r) else none
    | (false, _) => none

def ipiHandlerAdd (s : VgicState n) (v : Fin n) (msg : VgicMsg) :
    Option (VgicState n × IntRef n) :=
  match msg.event with
  | .updateEnable => none
  | .route => handleRouteAdd g s v (vgicMsgIntid msg.data)
  | .inject => injectAdd g s v (vgicMsgIntid msg.data) (vgicMsgVal msg.data)
  | .setReg => (setRegCall g msg.data).bind fun call =>
      (setFieldAdd g s v call.1 call.2.1 call.2.2).map fun s => (s, call.2.1)

def trappedEoirAdd (s : VgicState n) (v : Fin n) : Option (VgicState n × IntRef n) :=
  (bitmapFindNth (fun k => ((s.cpu v).lrs k).eois) g.numLrs 1 0 true).bind fun lrInd =>
    let lr := (s.cpu v).lrs lrInd
    let s := s.gichWriteLr v lrInd {}
    (vgicGetInt g lr.vid v).bind fun r =>
      if r.id < gicMaxSgis then some (s.setInt r { s.ints r with inLr := false }, r) else none

def eoirEndAdd (s : VgicState n) (v : Fin n) : Option (VgicState n × IntRef n) :=
  (s.held v).bind fun r =>
    let s := unlock s v
    let s := s.setInt r { s.ints r with state := (s.ints r).state &&& ~~~act }
    if !vgicIntIsHw s r ∧ (s.ints r).state &&& pend ≠ 0 then some (s, r) else none

/-- The call of `vgic_add_lr` of a vcpu that is in no scan. -/
def vgicActAdd (s : VgicState n) : VgicAction n → Option (VgicState n × IntRef n)
  | .setField v h intId vgicrId data =>
    (vgicGetInt g intId vgicrId).bind fun r =>
      (setFieldAdd g s v h r data).map fun s => (s, r)
  | .inject v id source => injectAdd g s v id source
  | .deliver v =>
    match s.queue (g.physId v) with
    | [] => none
    | msg :: rest =>
      ipiHandlerAdd g { s with queue := Function.update s.queue (g.physId v) rest } v msg
  | .trappedEoir v => trappedEoirAdd g s v
  | .sgi .. | .refill _ | .eoirSpilled _ | .scan _ | .guest .. => none

/-- The write of a call of `vgic_add_lr`. -/
def writeOf (v : Fin n) (call : VgicState n × IntRef n) : Option (VgicState n × IntRef n × Nat) :=
  (addLrWrite g call.1 v call.2).map fun write => (write.1, call.2, write.2)

/-- The call of `vgic_write_lr` that a step makes: the state at that moment, the interrupt and the
register. -/
def VgicSystem.presented (s : VgicSystem n) (a : VgicAction n) :
    Option (VgicState n × IntRef n × Nat) :=
  match a with
  | .scan v =>
    match s.scan v with
    | .refillScan _ lrInd i _ _ =>
      if scanInt g v i = none then (s.vgic.held v).map fun r => (unlock s.vgic v, r, lrInd)
      else none
    | .eoirScan i =>
      if scanInt g v i = none then (eoirEndAdd s.vgic v).bind (writeOf g v) else none
    | .idle | .refill _ => none
  | a => (vgicActAdd g s.vgic a).bind (writeOf g a.vcpu)

end Calls

variable {g : VgicConfig n} {s t u : VgicState n} {v : Fin n} {r : IntRef n}
  {call : VgicState n × IntRef n}

/-! ## What the callers have checked -/

/-- The vcpu owns the interrupt and is one of its targets. -/
def OwnTarget (g : VgicConfig n) (v : Fin n) (call : VgicState n × IntRef n) : Prop :=
  (call.1.ints call.2).owner = some v ∧
    vgicIntVcpuIsTarget g v call.2 (call.1.ints call.2) = true

theorem isTarget_priv (hv : g.version = .gicv2) (v : Fin n) (j : Fin gicCpuPriv) (x : VgicInt n) :
    vgicIntVcpuIsTarget g v (.priv v j) x = true := by
  simp [vgicIntVcpuIsTarget, hv, gicIsPriv, IntRef.id]

/-- Before `vgic_add_lr` writes a register, it has seen that the interrupt is enabled, and it has
only spilled another one. -/
theorem addLrWrite_spec {k : Nat} (h : addLrWrite g s v r = some (u, k)) :
    (s.ints r).enabled = true ∧ u.ints r = s.ints r := by
  simp only [addLrWrite] at h
  split at h
  · cases h
  · rename_i hskip
    simp only [not_or, Bool.not_eq_false] at hskip
    refine ⟨hskip.1, ?_⟩
    split at h
    · cases h; rfl
    · obtain ⟨lrInd, -, h⟩ := Option.bind_eq_some_iff.mp h
      obtain ⟨u', hu, heq⟩ := Option.map_eq_some_iff.mp h
      cases heq
      exact (VgicOps.spill hu).2

/-! ## Only the call writes a register -/

/-- Every register is as it was or cleared. -/
def LrsKept (s t : VgicState n) : Prop :=
  ∀ w k, (t.cpu w).lrs k = (s.cpu w).lrs k ∨ (t.cpu w).lrs k = {}

theorem LrsKept.refl (s : VgicState n) : LrsKept s s := fun _ _ => .inl rfl

theorem LrsKept.trans (h : LrsKept s t) (h' : LrsKept t u) : LrsKept s u := by
  intro w k
  rcases h' w k with hsame | hclear
  · rw [hsame]; exact h w k
  · exact .inr hclear

theorem LrsKept.of_cpu (h : t.cpu = s.cpu) : LrsKept s t := fun w k => .inl (by rw [h])

theorem LrsKept.setNpie (npie : Bool) : LrsKept s (s.setNpie v npie) := by
  intro w k
  by_cases hw : w = v
  · subst hw; exact .inl (by simp [VgicState.setNpie, VgicState.setCpu])
  · exact .inl (by simp [VgicState.setNpie, VgicState.setCpu, hw])

theorem LrsKept.clearLr (k : Nat) : LrsKept s (s.gichWriteLr v k {}) := by
  intro w l
  by_cases hw : w = v
  · subst hw
    by_cases hl : l = k
    · subst hl; exact .inr (by simp [VgicState.gichWriteLr, VgicState.setCpu])
    · exact .inl (by simp [VgicState.gichWriteLr, VgicState.setCpu, hl])
  · exact .inl (by simp [VgicState.gichWriteLr, VgicState.setCpu, hw])

theorem LrsKept.removeLr : LrsKept s (vgicRemoveLr g s v r) := by
  simp only [vgicRemoveLr]
  split
  · exact .refl s
  · split
    · exact .of_cpu rfl
    · split
      · exact (clearLr _).trans (LrsKept.trans (.of_cpu rfl) (.setNpie true))
      · exact (clearLr _).trans (.of_cpu rfl)

theorem LrsKept.spill {k : Nat} (h : vgicSpill g s v r k = some t) : LrsKept s t := by
  simp only [vgicSpill] at h
  split at h
  · cases h; exact .refl s
  · split at h
    · cases h
    · cases h
      exact removeLr.trans (.of_cpu yield_frame.2.1)

theorem lrsKept_addLrWrite {k : Nat} (h : addLrWrite g s v r = some (u, k)) : LrsKept s u := by
  simp only [addLrWrite] at h
  split at h
  · cases h
  · split at h
    · cases h; exact .refl s
    · obtain ⟨lrInd, -, h⟩ := Option.bind_eq_some_iff.mp h
      obtain ⟨u', hu, heq⟩ := Option.map_eq_some_iff.mp h
      cases heq
      exact .spill hu

/-- A function that makes the call, if any, after which the registers stay as they are. Under `P`,
the vcpu then owns the interrupt and is one of its targets. -/
structure AddsBy (g : VgicConfig n) (v : Fin n) (P : Prop) (s t : VgicState n)
    (call : Option (VgicState n × IntRef n)) : Prop where
  kept : call = none → LrsKept s t
  adds : ∀ u r, call = some (u, r) → LrsKept s u ∧ ∃ w, vgicAddLr g u v r = some w ∧ t.cpu = w.cpu
  checked : P → ∀ c, call = some c → OwnTarget g v c

namespace AddsBy

variable {P P' : Prop} {calls : Option (VgicState n × IntRef n)}

theorem of_none (h : LrsKept s t) : AddsBy g v P s t none :=
  ⟨fun _ => h, fun _ _ hcall => (by cases hcall), fun _ _ hcall => (by cases hcall)⟩

theorem of_some (h : vgicAddLr g s v r = some t) (hown : P → OwnTarget g v (s, r)) :
    AddsBy g v P s t (some (s, r)) := by
  refine ⟨fun hcall => ?_, fun _ _ hcall => ?_, fun hP _ hcall => ?_⟩ <;> cases hcall
  · exact ⟨.refl s, t, h, rfl⟩
  · exact hown hP

theorem head (hadds : AddsBy g v P u t calls) (h : LrsKept s u) (hP : P' → P) :
    AddsBy g v P' s t calls := by
  refine ⟨fun hcall => h.trans (hadds.kept hcall), fun w r hcall => ?_,
    fun hP' => hadds.checked (hP hP')⟩
  obtain ⟨hkept, hw⟩ := hadds.adds w r hcall
  exact ⟨h.trans hkept, hw⟩

theorem tail (hadds : AddsBy g v P s u calls) (h : t.cpu = u.cpu) : AddsBy g v P s t calls := by
  refine ⟨fun hcall => (hadds.kept hcall).trans (.of_cpu h), fun w r hcall => ?_, hadds.checked⟩
  obtain ⟨hkept, w', hw', hcpu⟩ := hadds.adds w r hcall
  exact ⟨hkept, w', hw', h.trans hcpu⟩

theorem addLr_if {b : Prop} [Decidable b] (hown : P → b → OwnTarget g v (s, r))
    (h : (if b then vgicAddLr g s v r else some s) = some t) :
    AddsBy g v P s t (if b then some (s, r) else none) := by
  split at h
  · rename_i hb
    rw [if_pos hb]
    exact of_some h fun hP => hown hP hb
  · rename_i hb
    cases h
    rw [if_neg hb]
    exact of_none (.refl s)

theorem route (h : vgicRoute g s v r = some t) :
    AddsBy g v ((s.ints r).owner = some v) s t ((routeAdd g s v r).map fun u => (u, r)) := by
  simp only [vgicRoute] at h
  simp only [routeAdd]
  split at h
  · rename_i hskip
    cases h
    rw [if_pos hskip]
    exact of_none (.refl s)
  · rename_i hskip
    rw [if_neg hskip]
    obtain ⟨u, hu, rfl⟩ := Option.map_eq_some_iff.mp h
    rw [apply_ite (Option.map fun u => (u, r))]
    refine (addLr_if (fun howner htarget => ⟨howner, htarget⟩) hu).tail ?_
    split
    · exact (VgicSystem.sendAll_frame _ _ _).2.1.trans yield_frame.2.1
    · rfl

theorem setField {h' : RegHandler} {data : BitVec 64}
    (h : vgicIntSetField g s v h' r data = some t) :
    AddsBy g v P s t ((setFieldAdd g s v h' r data).map fun u => (u, r)) := by
  simp only [vgicIntSetField] at h
  simp only [setFieldAdd]
  have hcpu : (vgicGetOwnership s v r).2.cpu = s.cpu := OwnersOnly.take.cpu
  have howner := owner_of_getOwnership (s := s) (v := v) (r := r)
  split at h
  · cases h
  · generalize vgicGetOwnership s v r = owns at h hcpu howner ⊢
    obtain ⟨owned, s₁⟩ := owns
    cases owned with
    | true =>
      obtain ⟨u, hu, rfl⟩ := Option.map_eq_some_iff.mp h
      have hkept : LrsKept s₁ (vgicRemoveLr g s₁ v r) := .removeLr
      refine ((route hu).tail yield_frame.2.1).head
        ((LrsKept.of_cpu hcpu).trans (hkept.trans (.of_cpu rfl))) fun _ => ?_
      simpa [VgicState.setInt, updateField_same, removeLr_self] using howner rfl
    | false =>
      simp only [Option.some.injEq] at h
      subst h
      refine of_none (.of_cpu (Eq.trans ?_ hcpu))
      cases (s₁.ints r).owner <;> rfl

theorem injectSgi {source : BitVec 64} (h : vgicInjectSgi g s v r source = some t) :
    AddsBy g v ((s.ints r).owner = some v ∧ ∀ x, vgicIntVcpuIsTarget g v r x = true) s t
      ((injectSgiAdd g s v r source).map fun u => (u, r)) := by
  simp only [vgicInjectSgi] at h
  simp only [injectSgiAdd]
  split at h
  · cases h
  · split at h
    · rename_i hsame
      cases h
      rw [if_pos hsame]
      exact of_none .removeLr
    · rename_i hsame
      rw [if_neg hsame, apply_ite (Option.map fun u => (u, r))]
      refine (addLr_if (fun hown _ => ⟨?_, hown.2 _⟩) h).head
        (LrsKept.removeLr.trans (.of_cpu rfl)) id
      simpa [VgicState.setInt] using removeLr_self.1.trans hown.1

theorem inject {id : Nat} {source : BitVec 64} (h : vgicInject g s v id source = some t) :
    AddsBy g v (Sane g s) s t (injectAdd g s v id source) := by
  simp only [vgicInject] at h
  simp only [injectAdd]
  split at h
  · rename_i hint
    cases h
    rw [hint]
    exact of_none (.refl s)
  · rename_i r hint
    rw [hint, Option.bind_some]
    split at h
    · rename_i hhw
      rw [if_pos hhw]
      split at h
      · cases h
      · exact (route h).head (.of_cpu rfl) fun _ => by simp [VgicState.setInt]
    · rename_i hhw
      rw [if_neg hhw]
      split at h
      · rename_i hsgi
        rw [if_pos hsgi]
        obtain ⟨j, rfl⟩ := vgicGetInt_sgi hint (by simpa [gicIsSgi] using hsgi.2)
        exact (injectSgi h).head (.refl s) fun hs => ⟨hs.priv hsgi.1 v j, isTarget_priv hsgi.1 v j⟩
      · rename_i hsgi
        rw [if_neg hsgi]
        exact setField h

theorem handleRoute {intId : Nat} (h : vgicHandleRoute g s v intId = some t) :
    AddsBy g v P s t (handleRouteAdd g s v intId) := by
  simp only [vgicHandleRoute] at h
  simp only [handleRouteAdd]
  split at h
  · rename_i hint
    cases h
    rw [hint]
    exact of_none (.refl s)
  · rename_i r hint
    rw [hint, Option.bind_some]
    have hcpu : (vgicGetOwnership s v r).2.cpu = s.cpu := OwnersOnly.take.cpu
    have howner := owner_of_getOwnership (s := s) (v := v) (r := r)
    split at h
    · cases h
    · generalize vgicGetOwnership s v r = owns at h hcpu howner ⊢
      obtain ⟨owned, s₁⟩ := owns
      cases owned with
      | true =>
        obtain ⟨u, hu, rfl⟩ := Option.map_eq_some_iff.mp h
        exact ((addLr_if (fun _ htarget => ⟨howner rfl, htarget⟩) hu).tail yield_frame.2.1).head
          (.of_cpu hcpu) id
      | false =>
        cases h
        exact of_none (.of_cpu hcpu)

theorem ipiHandler {msg : VgicMsg} (h : vgicIpiHandler g s v msg = some t) :
    AddsBy g v (Sane g s) s t (ipiHandlerAdd g s v msg) := by
  simp only [vgicIpiHandler] at h
  simp only [ipiHandlerAdd]
  split at h
  · cases h
  · cases hevent : msg.event with
    | updateEnable =>
      simp only [hevent] at h
      cases h
      exact of_none (.refl s)
    | route =>
      simp only [hevent] at h
      exact handleRoute h
    | inject =>
      simp only [hevent] at h
      exact inject h
    | setReg =>
      simp only [hevent] at h
      split at h
      · rename_i hcall
        simp only [hcall, Option.bind_some]
        exact setField h
      · rename_i hcall
        cases h
        simp only [hcall, Option.bind_none]
        exact of_none (.refl s)

theorem trappedEoir (h : vgicHandleTrappedEoir g s v = some t) :
    AddsBy g v (Sane g s) s t (trappedEoirAdd g s v) := by
  obtain ⟨lrInd, hfind, h⟩ := Option.bind_eq_some_iff.mp h
  simp only [trappedEoirAdd, hfind, Option.bind_some]
  have hclear : LrsKept s (s.gichWriteLr v lrInd {}) := .clearLr lrInd
  simp only at h
  split at h
  · rename_i hint
    cases h
    rw [hint]
    exact of_none hclear
  · rename_i r hint
    rw [hint, Option.bind_some]
    split at h
    · cases h
    · split at h
      · rename_i hsgi
        rw [if_pos hsgi]
        refine (of_some h fun hs => ?_).head (hclear.trans (.of_cpu rfl)) id
        obtain ⟨hv, j, rfl⟩ := hs.eois_sgi hfind hint hsgi
        refine ⟨?_, isTarget_priv hv v j _⟩
        simpa [VgicState.setInt, VgicState.gichWriteLr, VgicState.setCpu] using hs.priv hv v j
      · rename_i hsgi
        cases h
        rw [if_neg hsgi]
        exact of_none (hclear.trans (.of_cpu yield_frame.2.1))

theorem eoirEnd (h : eoirEnd g s v = some t) : AddsBy g v False s t (eoirEndAdd s v) := by
  simp only [Armv8.eoirEnd] at h
  simp only [eoirEndAdd]
  split at h
  · rename_i hheld
    cases h
    rw [hheld]
    exact of_none (.refl s)
  · rename_i r hheld
    rw [hheld, Option.bind_some]
    exact (addLr_if False.elim h).head (.of_cpu rfl) id

theorem vgicAct {a : VgicAction n} (hguest : ∀ v k, a ≠ .guest v k) (h : vgicAct g s a = some t) :
    AddsBy g a.vcpu (Sane g s) s t (vgicActAdd g s a) := by
  cases a with
  | setField v h' intId vgicrId data =>
    obtain ⟨r, hint, h⟩ := Option.bind_eq_some_iff.mp h
    simp only [vgicActAdd, hint, Option.bind_some]
    exact setField h
  | inject v id source =>
    simp only [Armv8.vgicAct] at h
    split at h
    · exact inject h
    · cases h
  | sgi v mask id => cases h; exact of_none (.of_cpu (VgicSystem.sendAll_frame _ _ _).2.1)
  | deliver v =>
    simp only [Armv8.vgicAct] at h
    simp only [vgicActAdd]
    cases hqueue : s.queue (g.physId v) with
    | nil => rw [hqueue] at h; cases h
    | cons msg rest =>
      rw [hqueue] at h
      exact (ipiHandler h).head (.of_cpu rfl) fun hs => ⟨hs.inLr, hs.priv, hs.eoi⟩
  | trappedEoir v => exact trappedEoir h
  | refill v => cases h; exact of_none (.refl s)
  | eoirSpilled v => cases h; exact of_none (.refl s)
  | scan v => cases h; exact of_none (.refl s)
  | guest v k => exact absurd rfl (hguest v k)

theorem writes (hadds : AddsBy g v P s t calls) :
    (calls.bind (writeOf g v) = none → LrsKept s t) ∧
      ∀ u r k, calls.bind (writeOf g v) = some (u, r, k) →
        LrsKept s u ∧ ∃ w, vgicWriteLr g u v r k = some w ∧ t.cpu = w.cpu := by
  refine ⟨fun hnone => ?_, fun u r k hsome => ?_⟩
  · cases hcall : calls with
    | none => exact hadds.kept hcall
    | some call =>
      obtain ⟨u, r⟩ := call
      obtain ⟨hkept, w, hw, hcpu⟩ := hadds.adds u r hcall
      rw [hcall, Option.bind_some, writeOf, Option.map_eq_none_iff] at hnone
      refine hkept.trans (.trans ?_ (.of_cpu hcpu))
      rcases vgicAddLr_of_no_write hnone hw with rfl | rfl
      · exact .refl w
      · exact .setNpie true
  · obtain ⟨⟨u', r'⟩, hcall, hwrite⟩ := Option.bind_eq_some_iff.mp hsome
    obtain ⟨⟨u'', k'⟩, hadd, heq⟩ := Option.map_eq_some_iff.mp hwrite
    cases heq
    obtain ⟨hkept, w, hw, hcpu⟩ := hadds.adds u' r' hcall
    refine ⟨hkept.trans ?_, w, (vgicAddLr_of_write hadd).symm.trans hw, hcpu⟩
    exact lrsKept_addLrWrite hadd

end AddsBy

theorem writeOf_spec {k : Nat} (h : writeOf g v call = some (u, r, k)) :
    call.2 = r ∧ (u.ints r).enabled = true ∧ u.ints r = call.1.ints r := by
  obtain ⟨⟨w, l⟩, hwrite, heq⟩ := Option.map_eq_some_iff.mp h
  cases heq
  obtain ⟨henabled, hsame⟩ := addLrWrite_spec hwrite
  exact ⟨rfl, hsame ▸ henabled, hsame⟩

/-! ## Pending registers -/

/-- The register is pending to which `vgic_write_lr` writes an interrupt in that state. -/
def LrPends (g : VgicConfig n) (r : IntRef n) (x : VgicInt n) (state : IntState) : Prop :=
  if !(r.id < gicMaxSgis) && x.hw then state = pend
  else if g.version = .gicv2 ∧ r.id < gicMaxSgis then state &&& act = 0 ∧ x.sgiPend ≠ 0
  else state &&& pend ≠ 0

theorem sgiSource_eq_none : ∀ {sgiPend : BitVec 8}, sgiSource sgiPend = none ↔ sgiPend = 0 := by
  decide +kernel

theorem lrOf_pend_iff {x : VgicInt n} {state : IntState} :
    (lrOf g r x state).1.state &&& pend ≠ 0 ↔ LrPends g r x state := by
  have hhw : (if state = pendact then act else state) &&& pend ≠ 0 ↔ state = pend := by
    revert state
    decide
  have hactPend : act &&& pend = 0 := by decide
  have hinvPend : inv &&& pend = 0 := by decide
  have hpendPend : pend &&& pend ≠ 0 := by decide
  simp only [lrOf, LrPends]
  split
  · exact hhw
  · split
    · split
      · rename_i hact
        exact ⟨fun h => absurd hactPend h, fun h => absurd h.1 hact⟩
      · rename_i hact
        cases hsource : sgiSource x.sgiPend with
        | none =>
          exact ⟨fun h => absurd hinvPend h, fun h => absurd (sgiSource_eq_none.mp hsource) h.2⟩
        | some source =>
          refine ⟨fun _ => ⟨not_not.mp hact, fun hzero => ?_⟩, fun _ => hpendPend⟩
          rw [sgiSource_eq_none.mpr hzero] at hsource
          cases hsource
    · rfl

theorem lrs_pend_iff {w : VgicState n} {k : Nat} (hw : vgicWriteLr g u v r k = some w) :
    ((w.cpu v).lrs k).state &&& pend ≠ 0 ↔ LrPends g r (u.ints r) (vgicGetState g u v r) := by
  rw [(wroteLr_of_write hw).lrs, Function.update_self, lrOf_pend_iff]

/-- The interrupt whose end the scan has looked for, after the end. -/
def endedInt (x : VgicInt n) : VgicInt n := { x with state := x.state &&& ~~~act }

theorem ended_pend (state : IntState) : (state &&& ~~~act) &&& pend = state &&& pend := by
  revert state
  decide

theorem eoirEndAdd_eq_some : eoirEndAdd s v = some (u, r) ↔ s.held v = some r ∧
    vgicIntIsHw s r = false ∧ (s.ints r).state &&& pend ≠ 0 ∧
    (unlock s v).setInt r (endedInt (s.ints r)) = u := by
  have hcond (r : IntRef n) :
      (!vgicIntIsHw ((unlock s v).setInt r (endedInt (s.ints r))) r) = true ∧
        (((unlock s v).setInt r (endedInt (s.ints r))).ints r).state &&& pend ≠ 0 ↔
      vgicIntIsHw s r = false ∧ (s.ints r).state &&& pend ≠ 0 := by
    simp only [vgicIntIsHw, VgicState.setInt, endedInt, Function.update_self, ended_pend,
      Bool.not_eq_true']
  constructor
  · intro h
    obtain ⟨r', hheld, h⟩ := Option.bind_eq_some_iff.mp h
    obtain ⟨hif, heq⟩ := Option.ite_none_right_eq_some.mp h
    cases heq
    exact ⟨hheld, ((hcond r).mp hif).1, ((hcond r).mp hif).2, rfl⟩
  · rintro ⟨hheld, hhw, hpend, rfl⟩
    refine Option.bind_eq_some_iff.mpr ⟨r, hheld, ?_⟩
    exact Option.ite_none_right_eq_some.mpr ⟨(hcond r).mpr ⟨hhw, hpend⟩, rfl⟩

namespace VgicSystem

variable {s t : VgicSystem n} {a : VgicAction n}

/-- `write` is the only call of `vgic_write_lr` on the way from `s` to `t`. -/
def WritesBy (g : VgicConfig n) (v : Fin n) (s t : VgicState n)
    (write : Option (VgicState n × IntRef n × Nat)) : Prop :=
  (write = none → LrsKept s t) ∧ ∀ u r k, write = some (u, r, k) →
    LrsKept s u ∧ ∃ w, vgicWriteLr g u v r k = some w ∧ t.cpu = w.cpu

theorem swapHeld_cpu {u : VgicState n} : (swapHeld g u v r).cpu = u.cpu := by
  simp only [swapHeld]
  cases u.held v with
  | none => rfl
  | some old => exact yield_frame.2.1

theorem refillRound_cpu {u : VgicState n} {hp pp : Bool} {prio : BitVec 8}
    {w : VgicState n × Bool × BitVec 8} (h : refillRound g u v hp pp prio r = some w) :
    w.1.cpu = u.cpu := by
  obtain ⟨-, heq | ⟨heq, -⟩⟩ := refillRound_spec h
  · rw [heq]
    exact yield_frame.2.1.trans OwnersOnly.take.cpu
  · rw [heq]
    exact swapHeld_cpu.trans OwnersOnly.take.cpu

theorem eoirRound_cpu {u w : VgicState n} (h : eoirRound g u v r = some w) : w.cpu = u.cpu := by
  obtain ⟨-, rfl | ⟨rfl, -⟩⟩ := eoirRound_spec h
  · exact yield_frame.2.1.trans OwnersOnly.take.cpu
  · exact swapHeld_cpu.trans OwnersOnly.take.cpu

theorem writesBy_none {u w : VgicState n} (h : LrsKept u w) : WritesBy g v u w none :=
  ⟨fun _ => h, fun _ _ _ hwrite => by cases hwrite⟩

theorem writesBy_scanStep (ht : s.scanStep g v = some t) :
    WritesBy g v s.vgic t.vgic (s.presented g (.scan v)) := by
  cases scanStep_cases ht with
  | full hscan =>
    simp only [presented, hscan]
    exact writesBy_none (.refl _)
  | start hscan =>
    simp only [presented, hscan]
    exact writesBy_none (.refl _)
  | refillRound hscan hint hu =>
    simp only [presented, hscan, hint, reduceCtorEq, if_false]
    exact writesBy_none (.of_cpu (refillRound_cpu hu))
  | refillWrite hscan hend hheld hu =>
    simp only [presented, hscan, hend, hheld, if_true, Option.map_some]
    refine ⟨fun hwrite => ?_, fun u r' k hwrite => ?_⟩
    · cases hwrite
    · cases hwrite
      exact ⟨.of_cpu rfl, _, hu, rfl⟩
  | refillNone hscan hend hheld =>
    simp only [presented, hscan, hend, hheld, if_true, Option.map_none]
    exact writesBy_none (.setNpie false)
  | eoirRound hscan hint hu =>
    simp only [presented, hscan, hint, reduceCtorEq, if_false]
    exact writesBy_none (.of_cpu (eoirRound_cpu hu))
  | eoirEnd hscan hend hu =>
    simp only [presented, hscan, hend, if_true]
    exact (AddsBy.eoirEnd hu).writes

/-- In a step other than one of the guest, registers are written by the one call of `vgic_write_lr`
that `presented` gives, and cleared. -/
theorem writesBy_step (hguest : ∀ v k, a ≠ .guest v k) (ht : s.step g a = some t) :
    WritesBy g a.vcpu s.vgic t.vgic (s.presented g a) := by
  rcases step_cases ht with ⟨v, rfl, ht⟩ | ⟨-, u, hu, rfl⟩
  · exact writesBy_scanStep ht
  · have hspec := (AddsBy.vgicAct hguest hu).writes
    cases a with
    | scan v => exact writesBy_scanStep ht
    | setField | inject | sgi | deliver | trappedEoir | refill | eoirSpilled | guest => exact hspec

/-- Making an enabled interrupt pending writes a register. -/
theorem writesBy_step_pending : ∃ s t : VgicSystem 2,
    s.step oneLine (.setField vcpu0 .ispendr 0 0 1) = some t ∧
      (s.presented oneLine (.setField vcpu0 .ispendr 0 0 1)).isSome ∧
      WritesBy oneLine vcpu0 s.vgic t.vgic
        (s.presented oneLine (.setField vcpu0 .ispendr 0 0 1)) := by
  obtain ⟨s, -, ⟨t, ht, -⟩, hsome⟩ :
      ∃ s ∈ (initial oneLine fun _ => false).step oneLine (.setField vcpu0 .isenabler 0 0 1),
        (∃ t ∈ s.step oneLine (.setField vcpu0 .ispendr 0 0 1), True) ∧
        (s.presented oneLine (.setField vcpu0 .ispendr 0 0 1)).isSome := by
    decide +kernel
  exact ⟨s, t, ht, hsome, writesBy_step (by simp) ht⟩

/-! ## What is presented -/

/-- In the step, the interrupt `r` is put into the register `k` with its pending bit, in the
state `u`. -/
def Presents (g : VgicConfig n) (s : VgicSystem n) (a : VgicAction n) (u : VgicState n)
    (r : IntRef n) (k : Nat) : Prop :=
  s.presented g a = some (u, r, k) ∧
    ∃ w, vgicWriteLr g u a.vcpu r k = some w ∧ ((w.cpu a.vcpu).lrs k).state &&& pend ≠ 0

theorem presented_act {k : Nat} (hs : Sane g s.vgic) (ha : ∀ v, a ≠ .scan v)
    (ht : s.step g a = some t) (h : s.presented g a = some (u, r, k)) : (u.ints r).enabled = true ∧
      vgicIntVcpuIsTarget g a.vcpu r (u.ints r) = true ∧ (u.ints r).owner = some a.vcpu := by
  have hbind : (vgicActAdd g s.vgic a).bind (writeOf g a.vcpu) = some (u, r, k) := by
    cases a with
    | scan v => exact absurd rfl (ha v)
    | setField | inject | sgi | deliver | trappedEoir | refill | eoirSpilled | guest => exact h
  obtain ⟨call, hcall, hwrite⟩ := Option.bind_eq_some_iff.mp hbind
  obtain ⟨rfl, henabled, hsame⟩ := writeOf_spec hwrite
  obtain ⟨v, rfl, -⟩ | ⟨-, w, hw, -⟩ := step_cases ht
  · exact absurd rfl (ha v)
  have hguest : ∀ v k, a ≠ .guest v k := by
    rintro v k rfl
    cases hcall
  obtain ⟨howner, htarget⟩ := (AddsBy.vgicAct hguest hw).checked hs _ hcall
  rw [hsame] at henabled ⊢
  exact ⟨henabled, htarget, howner⟩

/-- What the last round of a scan may present: an interrupt that the refill holds is enabled if its
register is pending, and one whose end the scan has looked for has the vcpu as a target if it is to
get a register. -/
def MayPresent (g : VgicConfig n) (s : VgicSystem n) : VgicAction n → Prop
  | .scan v => ∀ r, s.vgic.held v = some r →
      match s.scan v with
      | .refillScan _ _ i _ _ => scanInt g v i = none →
          LrPends g r (s.vgic.ints r) (vgicGetState g s.vgic v r) →
            (s.vgic.ints r).enabled = true
      | .eoirScan i => scanInt g v i = none → vgicIntIsHw s.vgic r = false →
          (s.vgic.ints r).enabled = true → (s.vgic.ints r).state &&& pend ≠ 0 →
            FindsLr (s.vgic.cpu v).lrs g.numLrs →
              vgicIntVcpuIsTarget g v r (s.vgic.ints r) = true
      | _ => True
  | _ => True

section Scans

variable {hp pp : Bool} {lrInd i : Nat} {prio : BitVec 8} {k : Nat}

theorem presents_refill_iff (hscan : s.scan v = .refillScan hp lrInd i pp prio)
    (ht : s.scanStep g v = some t) : Presents g s (.scan v) u r k ↔
      u = unlock s.vgic v ∧ k = lrInd ∧ scanInt g v i = none ∧ s.vgic.held v = some r ∧
        LrPends g r (s.vgic.ints r) (vgicGetState g s.vgic v r) := by
  have hwrites := (writesBy_scanStep ht).2
  constructor
  · rintro ⟨hpresented, w, hw, hpend⟩
    simp only [presented, hscan] at hpresented
    obtain ⟨hend, hsome⟩ := Option.ite_none_right_eq_some.mp hpresented
    obtain ⟨r', hheld, heq⟩ := Option.map_eq_some_iff.mp hsome
    cases heq
    exact ⟨rfl, rfl, hend, hheld, (lrs_pend_iff hw).mp hpend⟩
  · rintro ⟨rfl, rfl, hend, hheld, hpends⟩
    have hpresented : s.presented g (.scan v) = some (unlock s.vgic v, r, k) := by
      simp [presented, hscan, hend, hheld]
    obtain ⟨-, w, hw, -⟩ := hwrites _ _ _ hpresented
    exact ⟨hpresented, w, hw, (lrs_pend_iff hw).mpr hpends⟩

theorem presented_eoir (hscan : s.scan v = .eoirScan i) :
    s.presented g (.scan v) = some (u, r, k) ↔ scanInt g v i = none ∧ s.vgic.held v = some r ∧
      vgicIntIsHw s.vgic r = false ∧ (s.vgic.ints r).state &&& pend ≠ 0 ∧
      addLrWrite g ((unlock s.vgic v).setInt r (endedInt (s.vgic.ints r))) v r = some (u, k) := by
  simp only [presented, hscan, Option.ite_none_right_eq_some]
  refine and_congr_right fun _ => ⟨fun h => ?_, fun ⟨hheld, hhw, hpend, hwrite⟩ => ?_⟩
  · obtain ⟨⟨u', r'⟩, hcall, hwrite⟩ := Option.bind_eq_some_iff.mp h
    obtain ⟨write, hadd, heq⟩ := Option.map_eq_some_iff.mp hwrite
    cases heq
    obtain ⟨hheld, hhw, hpend, rfl⟩ := eoirEndAdd_eq_some.mp hcall
    exact ⟨hheld, hhw, hpend, hadd⟩
  · refine Option.bind_eq_some_iff.mpr ⟨_, eoirEndAdd_eq_some.mpr ⟨hheld, hhw, hpend, rfl⟩, ?_⟩
    rw [writeOf, hwrite, Option.map_some]

theorem ended_ints : ((unlock s.vgic v).setInt r (endedInt (s.vgic.ints r))).ints r =
    endedInt (s.vgic.ints r) := Function.update_self ..

theorem ended_isTarget (x : VgicInt n) :
    vgicIntVcpuIsTarget g v r (endedInt x) = vgicIntVcpuIsTarget g v r x := rfl

section

variable (hs : s.ScanInv g) (hscan : s.scan v = .eoirScan i) (ht : s.scanStep g v = some t)
  (hend : scanInt g v i = none) (hheld : s.vgic.held v = some r)
  (hhw : vgicIntIsHw s.vgic r = false) (henabled : (s.vgic.ints r).enabled = true)
  (hpend : (s.vgic.ints r).state &&& pend ≠ 0)

include hs hscan ht hend hheld hhw henabled hpend

/-- `vgic_add_lr` gets the interrupt with its end made, and finds a register for it or not. -/
theorem eoir_write_iff :
    (∃ u k, addLrWrite g ((unlock s.vgic v).setInt r (endedInt (s.vgic.ints r))) v r =
      some (u, k)) ↔ FindsLr (s.vgic.cpu v).lrs g.numLrs := by
  obtain ⟨e, he⟩ : ∃ e, eoirEnd g s.vgic v = some e := by
    simp only [scanStep, hscan, hend] at ht
    exact ⟨_, (Option.map_eq_some_iff.mp ht).choose_spec.1⟩
  obtain ⟨-, w, hadd, -⟩ :=
    (AddsBy.eoirEnd he).adds _ _ (eoirEndAdd_eq_some.mpr ⟨hheld, hhw, hpend, rfl⟩)
  refine exists_addLrWrite_iff ?_ ?_ hadd
  · rw [ended_ints]
    exact henabled
  · rw [ended_ints]
    exact hs.out v r hheld

/-- An interrupt that is handed to `vgic_add_lr` after its end is presented if there is a register
for it, unless the vcpu is one of its targets anyway. -/
theorem presents_eoir (hfinds : FindsLr (s.vgic.cpu v).lrs g.numLrs)
    (htarget : vgicIntVcpuIsTarget g v r (s.vgic.ints r) = false) :
    ∃ u k, Presents g s (.scan v) u r k ∧ u.ints r = endedInt (s.vgic.ints r) := by
  obtain ⟨u, k, hwrite⟩ := (eoir_write_iff hs hscan ht hend hheld hhw henabled hpend).mpr hfinds
  have hpresented := (presented_eoir hscan).mpr ⟨hend, hheld, hhw, hpend, hwrite⟩
  have hsame : u.ints r = endedInt (s.vgic.ints r) := (addLrWrite_spec hwrite).2.trans ended_ints
  have hout : (u.ints r).inLr = false := by rw [hsame]; exact hs.out v r hheld
  obtain ⟨-, w', hw', -⟩ := (writesBy_scanStep ht).2 _ _ _ hpresented
  refine ⟨u, k, ⟨hpresented, w', hw', (lrs_pend_iff hw').mpr ?_⟩, hsame⟩
  -- a private interrupt of a GICv2 would have the vcpu as a target
  have hnotSgi : ¬ (g.version = .gicv2 ∧ r.id < gicMaxSgis) := by
    rintro ⟨hv, hsgi⟩
    have hpriv : gicIsPriv r.id = true := decide_eq_true (Nat.lt_trans hsgi (by decide))
    simp [vgicIntVcpuIsTarget, hv, hpriv] at htarget
  have hstate : vgicGetState g u v r = (s.vgic.ints r).state &&& ~~~act := by
    rw [vgicGetState, gichGetLr_of_out hout, if_neg fun h => hnotSgi ⟨h.1, h.2.1⟩, hsame]
    rfl
  have hnotHw : (!(decide (r.id < gicMaxSgis)) && (u.ints r).hw) = false := by rw [hsame]; exact hhw
  rw [LrPends, hnotHw, if_neg Bool.false_ne_true, if_neg hnotSgi, hstate, ended_pend]
  exact hpend

end

end Scans

theorem presents_scan_iff (hs : s.ScanInv g) (ht : s.scanStep g v = some t) :
    (∀ u r k, Presents g s (.scan v) u r k → (u.ints r).enabled = true ∧
      vgicIntVcpuIsTarget g v r (u.ints r) = true ∧ (u.ints r).owner = some v) ↔
      MayPresent g s (.scan v) := by
  simp only [MayPresent]
  cases hscan : s.scan v with
  | idle => simp [Presents, presented, hscan]
  | refill hp => simp [Presents, presented, hscan]
  | refillScan hp lrInd i pp prio =>
    simp only [presents_refill_iff hscan ht]
    constructor
    · intro hall r hheld hend hpends
      exact (hall _ r _ ⟨rfl, rfl, hend, hheld, hpends⟩).1
    · rintro hmay u r k ⟨rfl, rfl, hend, hheld, hpends⟩
      exact ⟨hmay r hheld hend hpends, hs.target v r hheld (by rw [hscan]; rfl),
        hs.owner v r hheld⟩
  | eoirScan i =>
    constructor
    · intro hall r hheld hend hhw henabled hpend hfinds
      by_contra hnot
      obtain ⟨u, k, hpresents, hsame⟩ := presents_eoir hs hscan ht hend hheld hhw henabled hpend
        hfinds (Bool.eq_false_of_not_eq_true hnot)
      refine hnot ?_
      rw [← ended_isTarget, ← hsame]
      exact (hall u r k hpresents).2.1
    · intro hmay u r k hpresents
      obtain ⟨hend, hheld, hhw, hpend, hwrite⟩ := (presented_eoir hscan).mp hpresents.1
      obtain ⟨henabled, hsame⟩ := addLrWrite_spec hwrite
      rw [ended_ints] at henabled hsame
      rw [hsame]
      refine ⟨henabled, hmay r hheld hend hhw henabled hpend ?_, hs.owner v r hheld⟩
      exact (eoir_write_iff hs hscan ht hend hheld hhw henabled hpend).mp ⟨u, k, hwrite⟩

/-- The first private interrupt of vcpu 0. -/
def firstPriv : IntRef 2 := .priv vcpu0 ⟨0, Nat.succ_pos 31⟩

/-- Vcpu 0 has five pending interrupts, the guest handles the first of them, and the refill has gone
through its scan. -/
def refillsFifth : List (VgicAction 2) :=
  raises 5 ++ handles 1 ++ .refill vcpu0 :: List.replicate 34 (.scan vcpu0)

/-- Vcpu 0 makes interrupt 0 pending, and looks for interrupts to present. -/
def refillsFirst : List (VgicAction 2) :=
  [.setField vcpu0 .ispendr 0 0 1, .refill vcpu0, .scan vcpu0, .scan vcpu0]

end VgicSystem

end Bao.Armv8
