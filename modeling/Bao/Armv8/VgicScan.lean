import Bao.Armv8.VgicOps
import Bao.Armv8.VgicSystem

/-!
# What the virtual GIC keeps over whole runs

In every run, the vcpu of a scan owns the interrupt whose lock the scan holds, and that interrupt is
in no list register. What the other functions do is a locked section of the interrupt they work on,
so they leave what a scan holds alone. The steps are followed once, for any property of the virtual
GIC that the elementary writes keep. One is that the state is sane. Another is that the list
registers are exact, which the end of an interrupt may break.
-/

namespace Bao.Armv8

open Foundation

variable {n : Nat} {g : VgicConfig n} {s t u : VgicState n} {v : Fin n} {r : IntRef n}

theorem Sane.eois_sgi (hs : Sane g s) {lrInd : Nat}
    (hfind : bitmapFindNth (fun k => ((s.cpu v).lrs k).eois) g.numLrs 1 0 true = some lrInd)
    (hint : vgicGetInt g ((s.cpu v).lrs lrInd).vid v = some r) (hsgi : r.id < gicMaxSgis) :
    g.version = .gicv2 ∧ ∃ j, r = .priv v j := by
  have hid := id_of_vgicGetInt hint
  refine ⟨?_, vgicGetInt_sgi hint (hid ▸ hsgi)⟩
  cases hv : g.version with
  | gicv2 => rfl
  | gicv3 =>
    obtain ⟨-, -, heois, -⟩ := (bitmapFindNth_spec (by decide)).mp hfind
    simp only [ListReg.eois, Bool.and_eq_true] at heois
    have hge := hs.eoi hv v lrInd heois.2
    simp only [gicCpuPriv, gicMaxSgis] at hge hsgi
    omega

/-- A round of `vgic_handle_trapped_eoir` keeps `P` where it clears `in_lr`. -/
def EndKept (g : VgicConfig n) (P : VgicState n → Prop) (s : VgicState n) (v : Fin n) : Prop :=
  ∀ lrInd r, bitmapFindNth (fun k => ((s.cpu v).lrs k).eois) g.numLrs 1 0 true = some lrInd →
    vgicGetInt g ((s.cpu v).lrs lrInd).vid v = some r →
    P ((s.gichWriteLr v lrInd {}).setInt r
      { (s.gichWriteLr v lrInd {}).ints r with inLr := false })

/-- What all actions keep, as far as the end of an interrupt does. -/
structure ActsKeep (g : VgicConfig n) (P : VgicState n → Prop) : Prop extends OpsKeep g P where
  clear : ∀ {s v} (k : Nat), P s → P (s.gichWriteLr v k {})
  guest : ∀ {s v k lr}, P s → ((s.cpu v).lrs k).guestStep = some lr → P (s.gichWriteLr v k lr)
  pop : ∀ {s p msg rest}, P s → s.queue p = msg :: rest →
    P { s with queue := Function.update s.queue p rest }
  sgi : ∀ {s} (v : Fin n) (mask : Nat) (id : Fin gicMaxSgis), P s →
    P (vgicSendSgiMsg g s v mask id)
  inject : ∀ {s id} (v : Fin n), P s → InjectOk g s id → Injectable g P s v id
  message : ∀ {s p msg} (v : Fin n), P s → msg ∈ s.queue p → msg.event = .inject →
    Injectable g P s v (vgicMsgIntid msg.data)

section Acts

variable {P : VgicState n → Prop} (keep : ActsKeep g P)
include keep

theorem LockedSection.trappedEoir (hs : P s) (hend : EndKept g P s v)
    (ht : vgicHandleTrappedEoir g s v = some t) : LockedSection P s t := by
  obtain ⟨lrInd, hfind, ht⟩ := Option.bind_eq_some_iff.mp ht
  have hclear : LockedSection P s (s.gichWriteLr v lrInd {}) :=
    ⟨rfl, fun _ _ => rfl, keep.clear lrInd hs⟩
  simp only at ht
  split at ht
  · cases ht; exact hclear
  · rename_i r hint
    split at ht
    · cases ht
    · rename_i hlocked
      have hfree : (s.gichWriteLr v lrInd {}).locked r = false := by simpa using hlocked
      have hset := hclear.trans (.setInt hfree (hend lrInd r hfind hint))
      split at ht
      · rename_i hsgi
        obtain ⟨hv, j, rfl⟩ := (keep.sane hs).eois_sgi hfind hint hsgi
        exact hset.trans (.ops keep.toOpsKeep hset.kept
          (.addLr (hset.locked hfree) ((keep.sane hset.kept).priv hv v j) ht))
      · cases ht
        exact hset.trans (.op keep.toOpsKeep hset.kept (.yield (hset.locked hfree)))

theorem LockedSection.vgicAct {a : VgicAction n} (hs : P s)
    (hend : ∀ v, a = .trappedEoir v → EndKept g P s v) (ht : vgicAct g s a = some t) :
    LockedSection P s t := by
  cases a with
  | setField v h' intId vgicrId data =>
    obtain ⟨r, -, ht⟩ := Option.bind_eq_some_iff.mp ht
    exact .setField keep.toOpsKeep hs ht
  | inject v id source =>
    simp only [Armv8.vgicAct] at ht
    split at ht
    · rename_i hok
      exact .inject keep.toOpsKeep hs (keep.inject v hs hok) ht
    · cases ht
  | sgi v mask id =>
    cases ht
    obtain ⟨hints, -, hheld⟩ := VgicSystem.sendAll_frame s
      ⟨.inject, vgicMsgData g.vmId 0 id 0 (BitVec.ofNat 64 v)⟩
      ((List.range g.cpuNum).filter mask.testBit)
    exact ⟨hheld, fun r _ => by rw [vgicSendSgiMsg, hints], keep.sgi v mask id hs⟩
  | deliver v =>
    simp only [Armv8.vgicAct] at ht
    split at ht
    · cases ht
    · rename_i msg rest hqueue
      have hpop : LockedSection P s { s with queue := Function.update s.queue (g.physId v) rest } :=
        ⟨rfl, fun _ _ => rfl, keep.pop hs hqueue⟩
      refine hpop.trans (.ipiHandler keep.toOpsKeep hpop.kept (fun hevent r hint hhw => ?_) ht)
      exact keep.pop (keep.message v hs (by rw [hqueue]; exact .head _) hevent r hint hhw) hqueue
  | trappedEoir v => exact .trappedEoir keep hs (hend v rfl) ht
  | refill v => cases ht; exact .refl hs
  | eoirSpilled v => cases ht; exact .refl hs
  | scan v => cases ht; exact .refl hs
  | guest v k =>
    simp only [Armv8.vgicAct] at ht
    split at ht
    · obtain ⟨lr, hlr, rfl⟩ := Option.map_eq_some_iff.mp ht
      exact ⟨rfl, fun _ _ => rfl, keep.guest hs hlr⟩
    · cases ht

end Acts

namespace VgicSystem

/-- What a scan has checked: the interrupt is in no register, and if it is to be written to one, the
vcpu is a target. -/
def Checked (g : VgicConfig n) (c : Scan) (v : Fin n) (r : IntRef n) (x : VgicInt n) : Prop :=
  x.inLr = false ∧ (c.refills = true → vgicIntVcpuIsTarget g v r x = true)

/-- The virtual GIC has `P`, only a scan holds a lock, and it owns the interrupt it holds and has
checked it. -/
structure Scanned (g : VgicConfig n) (P : VgicState n → Prop) (s : VgicSystem n) : Prop where
  kept : P s.vgic
  locks : s.Locks (Checked g)

namespace Scanned

variable {P : VgicState n → Prop} {s t : VgicSystem n} {c : Scan}

theorem none_of_idle (h : s.Scanned g P) (hidle : (s.scan v).scans = false) :
    s.vgic.held v = none := h.locks.idle v hidle

theorem lockedSection (h : s.Scanned g P) {u : VgicState n} (hu : LockedSection P s.vgic u)
    (hidle : c.scans = false → s.vgic.held v = none)
    (hrefills : c.refills = true → (s.scan v).refills = true ∨ s.vgic.held v = none) :
    (s.goto v u c).Scanned g P := by
  refine ⟨hu.kept, h.locks.kept hu.held hu.frame hidle fun r hheld => ?_⟩
  obtain ⟨hout, htarget⟩ := h.locks.known v r hheld
  refine ⟨hout, fun hc => htarget ((hrefills hc).resolve_right ?_)⟩
  rw [hheld]; simp

theorem lockedSection_of_none (h : s.Scanned g P) {u : VgicState n}
    (hu : LockedSection P s.vgic u) (hnone : s.vgic.held v = none) (c : Scan) :
    (s.goto v u c).Scanned g P :=
  h.lockedSection hu (fun _ => hnone) fun _ => .inr hnone

variable (keep : ActsKeep g P)
include keep

section

variable (h : s.Scanned g P)

include h

theorem swap (hfree : s.vgic.locked r = false) (howner : (s.vgic.ints r).owner = some v)
    (hchecked : Checked g c v r (s.vgic.ints r)) (hc : c.scans = true) :
    (s.goto v (swapHeld g s.vgic v r) c).Scanned g P := by
  have hhold :
      (s.goto v { s.vgic with held := Function.update s.vgic.held v (some r) } c).Scanned g P :=
    ⟨keep.lock _ h.kept, h.locks.hold howner hchecked hc⟩
  rcases h.locks.swapHeld_cases (g := g) hfree with heq | ⟨old, heq, hunlocked⟩
  · rw [heq]
    exact hhold
  · have hyield := hhold.lockedSection (v := v) (c := c)
      (.op keep.toOpsKeep hhold.kept (.yield (v := v) hunlocked))
      (fun hidle => by rw [hc] at hidle; cases hidle)
      (fun hrefills => .inl (by rw [goto_scan]; exact hrefills))
    rw [heq]
    rwa [goto_goto] at hyield

theorem pass (hfree : s.vgic.locked r = false) (hc : c.scans = true)
    (hsame : c.refills = true → (s.scan v).refills = true) :
    (s.goto v (vgicYieldOwnership g (vgicGetOwnership s.vgic v r).2 v r) c).Scanned g P := by
  have htake : LockedSection P s.vgic (vgicGetOwnership s.vgic v r).2 :=
    .op keep.toOpsKeep h.kept (.take (v := v) hfree)
  refine h.lockedSection (htake.trans (.op keep.toOpsKeep htake.kept (.yield (htake.locked hfree))))
    (fun hidle => ?_) fun hrefills => .inl (hsame hrefills)
  rw [hc] at hidle; cases hidle

theorem best (hfree : s.vgic.locked r = false) (howned : (vgicGetOwnership s.vgic v r).1 = true)
    (hchecked : Checked g c v r ((vgicGetOwnership s.vgic v r).2.ints r)) (hc : c.scans = true)
    (hsame : c.refills = true → (s.scan v).refills = true) :
    (s.goto v (swapHeld g (vgicGetOwnership s.vgic v r).2 v r) c).Scanned g P := by
  have htake : LockedSection P s.vgic (vgicGetOwnership s.vgic v r).2 :=
    .op keep.toOpsKeep h.kept (.take (v := v) hfree)
  have htaken : (s.goto v (vgicGetOwnership s.vgic v r).2 c).Scanned g P := by
    refine h.lockedSection htake (fun hidle => ?_) fun hrefills => .inl (hsame hrefills)
    rw [hc] at hidle; cases hidle
  have hswap := htaken.swap keep (htake.locked hfree) (owner_of_getOwnership howned) hchecked hc
  rwa [goto_goto] at hswap

theorem refillRound {hp pp : Bool} {prio : BitVec 8} {u : VgicState n × Bool × BitVec 8}
    (hu : refillRound g s.vgic v hp pp prio r = some u) (hc : c.scans = true)
    (hsame : (s.scan v).refills = true) : (s.goto v u.1 c).Scanned g P := by
  obtain ⟨hfree, heq | ⟨heq, howned, htarget, hout⟩⟩ := refillRound_spec hu
  · rw [heq]
    exact h.pass keep hfree hc fun _ => hsame
  · rw [heq]
    exact h.best keep hfree howned ⟨hout, fun _ => htarget⟩ hc fun _ => hsame

theorem eoirRound {u : VgicState n} (hu : eoirRound g s.vgic v r = some u) (hc : c.scans = true)
    (hnot : c.refills = false) : (s.goto v u c).Scanned g P := by
  have hnever : c.refills = true → False := fun hrefills => by rw [hnot] at hrefills; cases hrefills
  obtain ⟨hfree, rfl | ⟨rfl, howned, hact⟩⟩ := eoirRound_spec hu
  · exact h.pass keep hfree hc fun hrefills => (hnever hrefills).elim
  · have hout : ((vgicGetOwnership s.vgic v r).2.ints r).inLr = false := by
      by_contra hin
      have hinv := ((keep.sane h.kept).take.inLr r (by simpa using hin)).1
      exact hact (by rw [hinv]; decide)
    exact h.best keep hfree howned ⟨hout, fun hrefills => (hnever hrefills).elim⟩ hc
      fun hrefills => (hnever hrefills).elim

theorem letGo {u : VgicState n} (hu : P (unlock s.vgic v) → LockedSection P (unlock s.vgic v) u)
    (c : Scan) : (s.goto v u c).Scanned g P := by
  have hunlock : (s.goto v (unlock s.vgic v) .idle).Scanned g P :=
    ⟨keep.lock _ h.kept, h.locks.unlock⟩
  have hsection := hunlock.lockedSection_of_none (v := v) (hu hunlock.kept)
    (Function.update_self ..) c
  rwa [goto_goto] at hsection

theorem eoirEnd {u : VgicState n} (hu : eoirEnd g s.vgic v = some u) :
    (s.goto v u .idle).Scanned g P := by
  simp only [Armv8.eoirEnd] at hu
  split at hu
  · rename_i hheld
    cases hu
    exact h.lockedSection_of_none (.refl h.kept) hheld _
  · rename_i r hheld
    have hfree := h.locks.unlock_free hheld
    have hout := (h.locks.known v r hheld).1
    refine h.letGo keep (fun hunlock => ?_) _
    have hset : ∀ state, LockedSection P (unlock s.vgic v)
        ((unlock s.vgic v).setInt r { (unlock s.vgic v).ints r with state }) := fun _ =>
      .setInt hfree (keep.update hunlock hout rfl hout)
    split at hu
    · exact (hset _).trans (.ops keep.toOpsKeep (hset _).kept (.addLr ((hset _).locked hfree)
        (by simpa [VgicState.setInt, unlock] using h.locks.owner v r hheld) hu))
    · cases hu; exact hset _

theorem scanStep (ht : s.scanStep g v = some t) : t.Scanned g P := by
  cases scanStep_cases ht with
  | full hscan | start hscan =>
    exact h.lockedSection_of_none (.refl h.kept) (h.none_of_idle (by rw [hscan]; rfl)) _
  | refillRound hscan _ hu => exact h.refillRound keep hu rfl (by rw [hscan]; rfl)
  | refillWrite _ _ hheld hu =>
    exact h.letGo keep (fun hunlock => .op keep.toOpsKeep hunlock (.write
      (h.locks.unlock_free hheld) (h.locks.owner v _ hheld) (h.locks.known v _ hheld).1 hu)) _
  | refillNone _ _ hheld =>
    exact h.lockedSection_of_none (.op keep.toOpsKeep h.kept (.setNpie (v := v) false)) hheld _
  | eoirRound _ _ hu => exact h.eoirRound keep hu rfl rfl
  | eoirEnd _ _ hu => exact h.eoirEnd keep hu

theorem step {a : VgicAction n} (hend : ∀ v, a = .trappedEoir v → EndKept g P s.vgic v)
    (ht : s.step g a = some t) : t.Scanned g P := by
  rcases step_cases ht with ⟨v, rfl, ht⟩ | ⟨hidle, u, hu, rfl⟩
  · exact h.scanStep keep ht
  · exact h.lockedSection_of_none (.vgicAct keep h.kept hend hu)
      (h.none_of_idle (by rw [hidle]; rfl)) _

end

end Scanned

end VgicSystem

/-! ## Sane states -/

theorem Sane.congr (h : Sane g s) (hints : t.ints = s.ints) (hcpu : t.cpu = s.cpu) : Sane g t :=
  ⟨hints ▸ h.inLr, hints ▸ h.priv, hcpu ▸ h.eoi⟩

theorem Sane.actsKeep : ActsKeep g (Sane g) where
  toOpsKeep := Sane.opsKeep
  clear k h := h.clearLr k
  guest h hlr := h.setLr rfl fun hv heoi => by
    obtain ⟨-, hvid, hsame⟩ := VgicSystem.guestStep_same hlr
    rw [hvid]
    exact h.eoi hv _ _ (hsame ▸ heoi)
  pop h _ := h.congr rfl rfl
  sgi v mask id h := by
    obtain ⟨hints, hcpu, -⟩ := VgicSystem.sendAll_frame _ _ _
    exact h.congr hints hcpu
  inject v h _ := h.injectable v _
  message v h _ _ := h.injectable v _

/-- The state is sane, only a scan holds a lock, and it owns the interrupt it holds, which is in no
register and, if it is to be written to one, has the vcpu as a target. -/
structure VgicSystem.ScanInv (g : VgicConfig n) (s : VgicSystem n) : Prop where
  sane : Sane g s.vgic
  idle : ∀ v, (s.scan v).scans = false → s.vgic.held v = none
  owner : ∀ v r, s.vgic.held v = some r → (s.vgic.ints r).owner = some v
  out : ∀ v r, s.vgic.held v = some r → (s.vgic.ints r).inLr = false
  target : ∀ v r, s.vgic.held v = some r → (s.scan v).refills = true →
    vgicIntVcpuIsTarget g v r (s.vgic.ints r) = true

namespace VgicSystem.ScanInv

variable {s t : VgicSystem n}

theorem scanned (h : s.ScanInv g) : s.Scanned g (Sane g) :=
  ⟨h.sane, h.idle, h.owner, fun v r hv => ⟨h.out v r hv, h.target v r hv⟩⟩

theorem of_scanned (h : s.Scanned g (Sane g)) : s.ScanInv g :=
  ⟨h.kept, h.locks.idle, h.locks.owner, fun v r hv => (h.locks.known v r hv).1,
    fun v r hv => (h.locks.known v r hv).2⟩

theorem initial (hw : Nat → Bool) : (VgicSystem.initial g hw).ScanInv g where
  sane :=
    { inLr := fun r h => by
        cases r with
        | spi id => cases h
        | priv w id =>
          simp only [VgicSystem.initial, initialInt] at h
          split at h <;> cases h
      priv := fun hv w id => by simp [VgicSystem.initial, initialInt, hv]
      eoi := fun _ w k h => by cases h }
  idle _ _ := rfl
  owner v r h := by cases h
  out v r h := by cases h
  target v r h := by cases h

theorem step {a : VgicAction n} (h : s.ScanInv g) (ht : s.step g a = some t) : t.ScanInv g := by
  refine of_scanned (h.scanned.step Sane.actsKeep (fun v _ lrInd r _ _ => ?_) ht)
  exact (h.sane.clearLr lrInd).setInt_out rfl rfl

theorem run {hw : Nat → Bool} {as : List (VgicAction n)}
    (h : run (VgicSystem.step g) (VgicSystem.initial g hw) as = some s) : s.ScanInv g :=
  run_invariant (fun _ _ _ hs ht => hs.step ht) (initial hw) h

end VgicSystem.ScanInv

/-! ## Exact registers -/

/-- The list registers are exact, and only SGIs are injected through messages. -/
structure Exact (g : VgicConfig n) (s : VgicState n) : Prop where
  sane : Sane g s
  lrs : LrExact g s
  sgis : ∀ p m, m ∈ s.queue p → m.event = .inject → vgicMsgIntid m.data < gicMaxSgis

theorem VgicOp.lrExact (hs : LrExact g s) (h : VgicOp g v s t) : LrExact g t := by
  cases h with
  | take _ => exact hs.take
  | yield _ => exact hs.yield
  | remove _ => exact hs.removeLr
  | write _ howner hin ht => exact hs.writeLr howner hin ht
  | setState _ hin _ _ => exact hs.setInt_out hin _
  | setNpie npie => exact hs.setNpie npie
  | send _ _ => exact hs

theorem VgicOp.sent (h : VgicOp g v s t) {p : Nat} {m : VgicMsg} (hm : m ∈ t.queue p) :
    m ∈ s.queue p ∨ m.event ≠ .inject := by
  cases h with
  | @take r _ =>
    rcases getOwnership_cases s v r with ⟨heq, -⟩ | ⟨heq, -⟩ | ⟨heq, -⟩ <;>
      · rw [heq] at hm
        exact .inl hm
  | yield _ => exact .inl (yield_frame.2.2 ▸ hm)
  | remove _ =>
    refine .inl ?_
    simp only [vgicRemoveLr] at hm
    split at hm
    · exact hm
    · split at hm
      · exact hm
      · split at hm <;> exact hm
  | write _ _ _ ht =>
    obtain ⟨u, hu, rfl⟩ := Option.map_eq_some_iff.mp ht
    exact .inl ((leftLr_of_leave hu).queue ▸ hm)
  | setState _ _ _ _ => exact .inl hm
  | setNpie _ => exact .inl hm
  | @send msg hmsg q =>
    by_cases hpq : p = q
    · subst hpq
      simp only [VgicState.cpuSendMsg, Function.update_self, List.mem_append,
        List.mem_singleton] at hm
      exact hm.imp_right fun heq => by rw [heq]; exact hmsg
    · exact .inl (by simpa [VgicState.cpuSendMsg, hpq] using hm)

theorem Exact.injectable (h : Exact g s) (v : Fin n) {id : Nat}
    (hnone : gicCpuPriv ≤ id → (s.ints (.spi id)).hw = true → ∀ w, ∀ k < g.numLrs,
      ¬ HoldsLr g s w k id) : Injectable g (Exact g) s v id := by
  intro r hint hhw
  refine ⟨h.sane.injectable v id r hint hhw, h.lrs.setInt fun i w k hr hi hk => ?_, h.sgis⟩
  subst hr
  rcases vgicGetInt_cases hint with ⟨_, _, heq, -⟩ | ⟨heq, -⟩
  · cases heq
  · obtain rfl := IntRef.spi.inj heq
    simp only [vgicIntIsHw, Bool.and_eq_true] at hhw
    exact absurd hk (hnone hi hhw.2 w k hk.1)

theorem Exact.actsKeep : ActsKeep g (Exact g) where
  sane h := h.sane
  lock held h := ⟨Sane.opsKeep.lock held h.sane, h.lrs, h.sgis⟩
  op h hop := ⟨hop.sane h.sane, hop.lrExact h.lrs, fun p m hm hevent =>
    h.sgis p m ((hop.sent hm).resolve_right (not_not.mpr hevent)) hevent⟩
  update h hin howner hx := ⟨h.sane.setInt_out howner hx, h.lrs.setInt_out hin _, h.sgis⟩
  clear k h := ⟨h.sane.clearLr k, h.lrs.clearLr k, h.sgis⟩
  guest h hlr := ⟨Sane.actsKeep.guest h.sane hlr, h.lrs.setLr fun _ =>
    ⟨(VgicSystem.guestStep_same hlr).1, (VgicSystem.guestStep_same hlr).2.1⟩, h.sgis⟩
  pop {s p _ rest} h hqueue := by
    refine ⟨Sane.actsKeep.pop h.sane hqueue, h.lrs, fun q m hm => h.sgis q m ?_⟩
    by_cases hq : q = p
    · subst hq
      rw [hqueue]
      exact List.mem_cons_of_mem _ (by simpa using hm)
    · simpa [hq] using hm
  sgi {s} v mask id h := by
    obtain ⟨hints, hcpu, -⟩ := VgicSystem.sendAll_frame s
      ⟨.inject, vgicMsgData g.vmId 0 id 0 (BitVec.ofNat 64 v)⟩
      ((List.range g.cpuNum).filter mask.testBit)
    refine ⟨h.sane.congr hints hcpu, fun w k i hi hk => ?_, fun p m hm hevent => ?_⟩
    · simp only [vgicSendSgiMsg, HoldsLr, hints, hcpu] at hk ⊢
      exact h.lrs w k i hi hk
    · rcases VgicSystem.mem_sendAll hm with hold | hnew
      · exact h.sgis p m hold hevent
      · rw [hnew, vgicMsgIntid_data]
        exact (Nat.mod_le _ _).trans_lt id.isLt
  inject v h hok := h.injectable v hok
  message v h hm hevent := h.injectable v fun hge => by
    have hlt := h.sgis _ _ hm hevent
    simp only [gicCpuPriv, gicMaxSgis] at hge hlt
    omega

namespace VgicSystem

variable {s t : VgicSystem n}

/-! ### The end of an interrupt -/

/-- No register has the interrupt any more whose end the next round of `vgic_handle_trapped_eoir`
handles. -/
def LastEoi (g : VgicConfig n) (u : VgicState n) (v : Fin n) : Prop :=
  ∀ lrInd ∈ bitmapFindNth (fun k => ((u.cpu v).lrs k).eois) g.numLrs 1 0 true,
    gicCpuPriv ≤ ((u.cpu v).lrs lrInd).vid → ((u.cpu v).lrs lrInd).vid < g.intNum →
    ∀ w, ∀ k < g.numLrs, ¬ HoldsLr g u w k ((u.cpu v).lrs lrInd).vid

instance (u : VgicState n) : Decidable (LastEoi g u v) :=
  inferInstanceAs (Decidable (∀ _ ∈ _, _ → _ → ∀ _, ∀ _ < _, ¬ _))

theorem LastEoi.endKept {u : VgicState n} (hlast : LastEoi g u v) (h : Exact g u) :
    EndKept g (Exact g) u v := by
  intro lrInd r hfind hint
  refine ⟨(h.sane.clearLr lrInd).setInt_out rfl rfl, (h.lrs.clearLr lrInd).setInt
    fun i w k hr hi hk => ?_, h.sgis⟩
  rcases vgicGetInt_cases hint with ⟨_, _, heq, -⟩ | ⟨heq, hge, hlt⟩
  · rw [heq] at hr; cases hr
  · have hi : ((u.cpu v).lrs lrInd).vid = i := IntRef.spi.inj (heq.symm.trans hr)
    have hk := (holds_clearLr.mp hk).1
    exact absurd (hi ▸ hk) (hlast lrInd hfind hge hlt w k hk.1)

/-- The record of an interrupt that is still in another register is cleared. -/
theorem not_exact_trappedEoir {u u' : VgicState n} (hlast : ¬ LastEoi g u v)
    (ht : vgicHandleTrappedEoir g u v = some u') : ¬ LrExact g u' := by
  simp only [LastEoi, not_forall, not_not] at hlast
  obtain ⟨lrInd, hfind, hge, hlt, w, k, hk, hholds⟩ := hlast
  obtain ⟨lrInd', hfind', ht⟩ := Option.bind_eq_some_iff.mp ht
  obtain rfl : lrInd = lrInd' := Option.some.inj (hfind.symm.trans hfind')
  have hint : vgicGetInt g ((u.cpu v).lrs lrInd).vid v =
      some (.spi ((u.cpu v).lrs lrInd).vid) := by
    simp [vgicGetInt, hge.not_gt, hlt]
  have hsgi : ¬ (IntRef.spi (n := n) ((u.cpu v).lrs lrInd).vid).id < gicMaxSgis := by
    simp only [IntRef.id, gicCpuPriv, gicMaxSgis] at hge ⊢; omega
  simp only [hint] at ht
  split at ht
  · cases ht
  · cases ht
    have hne : ¬ (w = v ∧ k = lrInd) := by
      rintro ⟨rfl, rfl⟩
      obtain ⟨-, -, heois, -⟩ := (bitmapFindNth_spec (by decide)).mp hfind
      simp only [ListReg.eois, Bool.and_eq_true, decide_eq_true_eq] at heois
      exact hholds.2.1 heois.1.1
    have hstill := holds_clearLr.mpr ⟨hholds, hne⟩
    intro hexact
    have hrec := hexact w k _ hge (by
      simpa only [HoldsLr, yield_frame.2.1, VgicState.setInt] using hstill)
    have hin := hrec.2.1
    rw [yield_inLr] at hin
    simp [VgicState.setInt] at hin

/-! ### Runs -/

/-- A round of `vgic_handle_trapped_eoir` handles the last register that had the interrupt. -/
def EoiAlone (g : VgicConfig n) (s : VgicSystem n) : VgicAction n → Prop
  | .trappedEoir v => LastEoi g s.vgic v
  | _ => True

instance (g : VgicConfig n) (s : VgicSystem n) (a : VgicAction n) : Decidable (s.EoiAlone g a) :=
  match a with
  | .trappedEoir v => inferInstanceAs (Decidable (LastEoi g s.vgic v))
  | .setField .. | .inject .. | .sgi .. | .deliver _ | .refill _ | .eoirSpilled _ | .scan _
  | .guest .. => .isTrue trivial

theorem Scanned.step_exact (h : s.Scanned g (Exact g)) {a : VgicAction n}
    (halone : s.EoiAlone g a) (ht : s.step g a = some t) : t.Scanned g (Exact g) :=
  h.step Exact.actsKeep (by rintro v rfl; exact LastEoi.endKept halone h.kept) ht

theorem Scanned.initial (hw : Nat → Bool) : (initial g hw).Scanned g (Exact g) :=
  have h := (ScanInv.initial (g := g) hw).scanned
  ⟨⟨h.kept, fun _ _ _ _ hk => absurd rfl hk.2.1, fun _ _ hm => by cases hm⟩, h.locks⟩

/-- A shared interrupt is in at most one list register, and its record says in which. -/
structure OneLr (g : VgicConfig n) (u : VgicState n) : Prop where
  unique : ∀ i, gicCpuPriv ≤ i → ∀ v k w l, HoldsLr g u v k i → HoldsLr g u w l i → v = w ∧ k = l
  recorded : ∀ i, gicCpuPriv ≤ i → ∀ v k, HoldsLr g u v k i →
    (u.ints (.spi i)).owner = some v ∧ (u.ints (.spi i)).inLr = true ∧ (u.ints (.spi i)).lr = k

theorem oneLr_iff {u : VgicState n} : OneLr g u ↔ LrExact g u := by
  constructor
  · intro h v k i hi hk
    exact h.recorded i hi v k hk
  · intro h
    refine ⟨fun i hi v k w l hv hw => ?_, fun i hi v k hk => h v k i hi hk⟩
    obtain ⟨howner, -, hlr⟩ := h v k i hi hv
    obtain ⟨howner', -, hlr'⟩ := h w l i hi hw
    exact ⟨Option.some.inj (howner.symm.trans howner'), hlr.symm.trans hlr'⟩

theorem step_broken {a : VgicAction n} (halone : ¬ s.EoiAlone g a)
    (ht : s.step g a = some t) : ¬ OneLr g t.vgic := by
  cases a with
  | trappedEoir v =>
    rcases step_cases ht with ⟨_, heq, -⟩ | ⟨-, u, hu, rfl⟩
    · cases heq
    · rw [oneLr_iff]
      exact not_exact_trappedEoir halone hu
  | setField | inject | sgi | deliver | refill | eoirSpilled | scan | guest =>
    exact absurd trivial halone

/-- A shared interrupt is in at most one list register, with its record saying in which, throughout
exactly those runs in which `vgic_handle_trapped_eoir` never handles the end of an interrupt that is
already in a register again. -/
theorem vgic_oneLr_iff {hw : Nat → Bool} {as : List (VgicAction n)}
    (h : run (VgicSystem.step g) (initial g hw) as = some s) :
    Always (VgicSystem.step g) (fun s => OneLr g s.vgic) (initial g hw) as ↔
      Along (VgicSystem.step g) (EoiAlone g) (initial g hw) as :=
  always_iff_along (fun _ hs => oneLr_iff.mpr hs.kept.lrs)
    (fun _ _ _ hs halone ht => hs.step_exact halone ht)
    (fun _ _ _ _ halone ht => step_broken halone ht) (Scanned.initial hw) h

/-- Vcpu 0 enables interrupt 32 and routes it to vcpu 1, where it is injected twice; its first end
is handled before it comes again. -/
def routesOver : List (VgicAction 2) :=
  [.setField vcpu0 .isenabler 32 0 1, .setField vcpu0 .irouter 32 0 1, .inject vcpu0 32 0,
    .deliver vcpu1, .guest vcpu1 0, .guest vcpu1 0, .trappedEoir vcpu1, .inject vcpu0 32 0,
    .deliver vcpu1]

theorem vgic_oneLr_routesOver : ∃ s,
    run (VgicSystem.step oneCluster) (initial oneCluster fun _ => false) routesOver = some s ∧
      HoldsLr oneCluster s.vgic 1 0 32 ∧
      Always (VgicSystem.step oneCluster) (fun s => OneLr oneCluster s.vgic)
        (initial oneCluster fun _ => false) routesOver := by
  refine exists_some_of (by decide +kernel) fun s hs hlr => ⟨hlr, (vgic_oneLr_iff hs).mpr ?_⟩
  decide +kernel

/-- The guest ends interrupt 32, which comes again before its end is handled; `in_lr` is then
cleared while the second register holds it, and the next injection puts it into the first one
too. -/
theorem vgic_twoLrs : ∃ s,
    run (VgicSystem.step oneCluster) (initial oneCluster fun _ => false)
      [.setField 0 .isenabler 32 0 1, .setField 0 .irouter 32 0 0, .inject 0 32 0, .guest 0 0,
        .guest 0 0, .inject 0 32 0, .trappedEoir 0, .inject 0 32 0] = some s ∧
      HoldsLr oneCluster s.vgic 0 0 32 ∧ HoldsLr oneCluster s.vgic 0 1 32 ∧
      ¬ OneLr oneCluster s.vgic := by
  refine exists_some_of_and (by decide +kernel) fun s _ hfirst hsecond hone => ?_
  exact absurd (hone.unique 32 (by decide) 0 0 0 1 hfirst hsecond).2 (by decide)

end VgicSystem

end Bao.Armv8
