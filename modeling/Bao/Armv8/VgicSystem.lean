import Bao.Foundation.Run
import Bao.Armv8.VgicLrs
import Bao.Armv8.VgicMsg

/-!
# Shared interrupts and list registers over whole runs

The vcpus of a VM with their virtual GIC as a machine: register writes, injections, messages and the
handlers of the maintenance interrupt, interleaved with the guests that acknowledge and end the
interrupts in their list registers. A step goes from the lock of an interrupt to its unlock. The two
scans go through the interrupts one by one and keep the lock of the best one found so far, so each
of their rounds is a step; a vcpu in a scan does nothing else.
-/

namespace Bao.Armv8

open Foundation

variable {n : Nat}

/-- Where a vcpu is in `vgic_refill_lrs` or `vgic_eoir_highest_spilled_active`. The best interrupt
found so far is the one whose lock it holds. -/
inductive Scan where
  | idle
  | refill (hasPend : Bool)
  | refillScan (hasPend : Bool) (lrInd i : Nat) (prevPend : Bool) (prevPrio : BitVec 8)
  | eoirScan (i : Nat)
  deriving DecidableEq

structure VgicSystem (n : Nat) where
  vgic : VgicState n
  scan : Fin n → Scan

section Steps

variable (g : VgicConfig n)

/-- `vgic_init` and `vgic_cpu_init`, and `vgic_set_hw` for the interrupts that are linked to
physical ones. -/
def initialInt (hw : Nat → Bool) : IntRef n → VgicInt n
  | .spi id => { hw := hw id }
  | .priv v id =>
    match g.version with
    | .gicv2 => { owner := some v, enabled := gicIsSgi id, hw := !gicIsSgi id && hw id }
    | .gicv3 =>
      { phys := BitVec.ofNat 64 (g.physId v), cfg := if gicIsSgi id then 0b10 else 0
        hw := !gicIsSgi id && hw id }

def VgicSystem.initial (hw : Nat → Bool) : VgicSystem n where
  vgic :=
    { ints := initialInt g hw, cpu := fun _ => {}, held := fun _ => none, queue := fun _ => [] }
  scan _ := .idle

/-- A round of the loop of `vgic_handle_trapped_eoir`. -/
def vgicHandleTrappedEoir (s : VgicState n) (v : Fin n) : Option (VgicState n) :=
  (bitmapFindNth (fun k => ((s.cpu v).lrs k).eois) g.numLrs 1 0 true).bind fun lrInd =>
    let lr := (s.cpu v).lrs lrInd
    let s := s.gichWriteLr v lrInd {}
    match vgicGetInt g lr.vid v with
    | none => some s
    | some r =>
      if s.locked r then none
      else
        let s := s.setInt r { s.ints r with inLr := false }
        if r.id < gicMaxSgis then vgicAddLr g s v r else some (vgicYieldOwnership g s v r)

/-- The scan goes on with the lock of `r`; the interrupt it held before is given up and unlocked. -/
def swapHeld (s : VgicState n) (v : Fin n) (r : IntRef n) : VgicState n :=
  let t := { s with held := Function.update s.held v (some r) }
  (s.held v).elim t fun old => vgicYieldOwnership g t v old

def unlock (s : VgicState n) (v : Fin n) : VgicState n :=
  { s with held := Function.update s.held v none }

/-- The start of `vgic_refill_lrs`: whether a register is pending. -/
def hasPend (s : VgicState n) (v : Fin n) : Bool :=
  (List.range g.numLrs).any fun k => ((s.cpu v).lrs k).state &&& pend ≠ 0

/-- A round of the scan of `vgic_refill_lrs`, with the new `prev_pend` and `prev_prio`. -/
def refillRound (s : VgicState n) (v : Fin n) (hasPend prevPend : Bool) (prevPrio : BitVec 8)
    (r : IntRef n) : Option (VgicState n × Bool × BitVec 8) :=
  if s.locked r then none
  else
    let owned := (vgicGetOwnership s v r).1
    let s := (vgicGetOwnership s v r).2
    let state := vgicGetState g s v r
    let isAct := state &&& act ≠ 0
    let isPend : Bool := state &&& pend ≠ 0
    if owned ∧ vgicIntVcpuIsTarget g v r (s.ints r) ∧ state ≠ inv ∧ (s.ints r).inLr = false ∧
        (s.held v = none ∨ (!hasPend ∧ isPend ∧ !prevPend) ∨ (hasPend ∧ isAct ∧ prevPend) ∨
          (s.ints r).prio < prevPrio) then
      some (swapHeld g s v r, isPend, (s.ints r).prio)
    else some (vgicYieldOwnership g s v r, prevPend, prevPrio)

/-- A round of the scan of `vgic_eoir_highest_spilled_active`. -/
def eoirRound (s : VgicState n) (v : Fin n) (r : IntRef n) : Option (VgicState n) :=
  if s.locked r then none
  else
    let owned := (vgicGetOwnership s v r).1
    let s := (vgicGetOwnership s v r).2
    if owned ∧ (s.ints r).state &&& act ≠ 0 ∧
        (s.held v).all (fun best => (s.ints best).prio < (s.ints r).prio) then
      some (swapHeld g s v r)
    else some (vgicYieldOwnership g s v r)

/-- The end of `vgic_eoir_highest_spilled_active`. -/
def eoirEnd (s : VgicState n) (v : Fin n) : Option (VgicState n) :=
  match s.held v with
  | none => some s
  | some r =>
    let s := unlock s v
    let s := s.setInt r { s.ints r with state := (s.ints r).state &&& ~~~act }
    if !vgicIntIsHw s r ∧ (s.ints r).state &&& pend ≠ 0 then vgicAddLr g s v r else some s

/-- The interrupt of round `i` of a scan; none ends it. -/
def scanInt (v : Fin n) (i : Nat) : Option (IntRef n) :=
  if i < g.numIrqs then vgicGetInt g i v else none

def VgicSystem.goto (s : VgicSystem n) (v : Fin n) (vgic : VgicState n) (c : Scan) : VgicSystem n :=
  { vgic, scan := Function.update s.scan v c }

/-- The next round of the scan that the vcpu is in. -/
def VgicSystem.scanStep (s : VgicSystem n) (v : Fin n) : Option (VgicSystem n) :=
  match s.scan v with
  | .idle => none
  | .refill hp =>
    match bitmapFindNth (fun k => ((s.vgic.cpu v).lrs k).empty) g.numLrs 1 0 true with
    | none => some (s.goto v s.vgic .idle)
    | some lrInd => some (s.goto v s.vgic (.refillScan hp lrInd 0 false gicLowestPrio))
  | .refillScan hp lrInd i prevPend prevPrio =>
    match scanInt g v i with
    | some r => (refillRound g s.vgic v hp prevPend prevPrio r).map fun t =>
        s.goto v t.1 (.refillScan hp lrInd (i + 1) t.2.1 t.2.2)
    | none =>
      match s.vgic.held v with
      | some r => (vgicWriteLr g (unlock s.vgic v) v r lrInd).map fun t =>
          s.goto v t (.refill (hp || prevPend))
      | none => some (s.goto v (s.vgic.setNpie v false) .idle)
  | .eoirScan i =>
    match scanInt g v i with
    | some r => (eoirRound g s.vgic v r).map fun t => s.goto v t (.eoirScan (i + 1))
    | none => (eoirEnd g s.vgic v).map fun t => s.goto v t .idle

/-- The guest acknowledges or ends the interrupt in a register. -/
def ListReg.guestStep (lr : ListReg) : Option ListReg :=
  if lr.state = pend then some { lr with state := act }
  else if lr.state &&& act ≠ 0 then some { lr with state := lr.state &&& pend }
  else none

/-- `setField` is a write to the register of an interrupt, `inject` is `vgic_inject`, `sgi` is
`vgic_send_sgi_msg`, `deliver` takes the next message, `trappedEoir` is a round of
`vgic_handle_trapped_eoir`, `refill` and `eoirSpilled` begin a scan, and `scan` goes on with it. -/
inductive VgicAction (n : Nat) where
  | setField (v : Fin n) (h : RegHandler) (intId vgicrId : Nat) (data : BitVec 64)
  | inject (v : Fin n) (id : Nat) (source : BitVec 64)
  | sgi (v : Fin n) (pcpuMask : Nat) (intId : Fin gicMaxSgis)
  | deliver (v : Fin n)
  | trappedEoir (v : Fin n)
  | refill (v : Fin n)
  | eoirSpilled (v : Fin n)
  | scan (v : Fin n)
  | guest (v : Fin n) (k : Nat)

/-- The vcpu that acts. -/
def VgicAction.vcpu : VgicAction n → Fin n
  | .setField v .. | .inject v .. | .sgi v .. | .deliver v | .trappedEoir v | .refill v
  | .eoirSpilled v | .scan v | .guest v _ => v

/-- What a vcpu that is in no scan does to the virtual GIC. -/
def vgicAct (s : VgicState n) : VgicAction n → Option (VgicState n)
  | .setField v h intId vgicrId data =>
    (vgicGetInt g intId vgicrId).bind fun r => vgicIntSetField g s v h r data
  | .inject v id source => if InjectOk g s id then vgicInject g s v id source else none
  | .sgi v pcpuMask intId => some (vgicSendSgiMsg g s v pcpuMask intId)
  | .deliver v =>
    match s.queue (g.physId v) with
    | [] => none
    | msg :: rest =>
      vgicIpiHandler g { s with queue := Function.update s.queue (g.physId v) rest } v msg
  | .trappedEoir v => vgicHandleTrappedEoir g s v
  | .guest v k =>
    if k < g.numLrs then
      ((s.cpu v).lrs k).guestStep.map fun lr => s.gichWriteLr v k lr
    else none
  | .refill _ | .eoirSpilled _ | .scan _ => some s

/-- Where the vcpu is afterwards. -/
def VgicAction.next (s : VgicState n) : VgicAction n → Scan
  | .refill v => .refill (hasPend g s v)
  | .eoirSpilled _ => .eoirScan 0
  | _ => .idle

def VgicSystem.step (s : VgicSystem n) : VgicAction n → Option (VgicSystem n)
  | .scan v => s.scanStep g v
  | a =>
    if s.scan a.vcpu = .idle then
      (vgicAct g s.vgic a).map fun t => s.goto a.vcpu t (a.next g s.vgic)
    else none

end Steps

/-! ## Locks -/

/-- The scan goes through the interrupts. -/
def Scan.scans : Scan → Bool
  | .refillScan .. | .eoirScan _ => true
  | _ => false

/-- The scan looks for an interrupt to write to a register. -/
def Scan.refills : Scan → Bool
  | .refillScan .. => true
  | _ => false

/-- Only a scan holds a lock, and it owns the interrupt that it holds, of which it knows `knows`. -/
structure VgicSystem.Locks (knows : Scan → Fin n → IntRef n → VgicInt n → Prop)
    (s : VgicSystem n) : Prop where
  idle : ∀ v, (s.scan v).scans = false → s.vgic.held v = none
  owner : ∀ v r, s.vgic.held v = some r → (s.vgic.ints r).owner = some v
  known : ∀ v r, s.vgic.held v = some r → knows (s.scan v) v r (s.vgic.ints r)

namespace VgicSystem

variable {g : VgicConfig n} {s t : VgicSystem n} {v : Fin n} {r : IntRef n} {c : Scan}

theorem locked_of_held {u : VgicState n} (h : u.held v = some r) : u.locked r = true := by
  simp only [VgicState.locked, decide_eq_true_eq]
  exact ⟨v, h⟩

theorem not_locked {u : VgicState n} (h : ∀ w, u.held w ≠ some r) : u.locked r = false := by
  simpa [VgicState.locked] using h

theorem goto_scan (s : VgicSystem n) (v : Fin n) (u : VgicState n) (c : Scan) :
    (s.goto v u c).scan v = c := Function.update_self ..

theorem goto_vgic (s : VgicSystem n) (v : Fin n) (u : VgicState n) (c : Scan) :
    (s.goto v u c).vgic = u := rfl

theorem goto_scan_of_ne {w : Fin n} (h : w ≠ v) (u : VgicState n) :
    (s.goto v u c).scan w = s.scan w := Function.update_of_ne h ..

theorem goto_goto (s : VgicSystem n) (v : Fin n) (u u' : VgicState n) (c c' : Scan) :
    (s.goto v u c).goto v u' c' = s.goto v u' c' := by
  simp [goto]

namespace Locks

variable {knows : Scan → Fin n → IntRef n → VgicInt n → Prop}

section

variable (h : s.Locks knows)

include h

theorem kept {u : VgicState n} (hheld : u.held = s.vgic.held)
    (hframe : ∀ r, s.vgic.locked r = true → u.ints r = s.vgic.ints r)
    (hidle : c.scans = false → s.vgic.held v = none)
    (hknown : ∀ r, s.vgic.held v = some r → knows c v r (s.vgic.ints r)) :
    (s.goto v u c).Locks knows where
  idle w hw := by
    simp only [goto, hheld]
    by_cases hwv : w = v
    · subst hwv
      exact hidle (by rwa [goto_scan] at hw)
    · exact h.idle w (by rwa [goto_scan_of_ne hwv] at hw)
  owner w r hw := by
    have hw' : s.vgic.held w = some r := hheld ▸ hw
    simp only [goto, hframe r (locked_of_held hw')]
    exact h.owner w r hw'
  known w r hw := by
    have hw' : s.vgic.held w = some r := hheld ▸ hw
    have hsame : (s.goto v u c).vgic.ints r = s.vgic.ints r := hframe r (locked_of_held hw')
    rw [hsame]
    by_cases hwv : w = v
    · subst hwv
      rw [goto_scan]
      exact hknown r hw'
    · rw [goto_scan_of_ne hwv]
      exact h.known w r hw'

theorem held_unique (hv : s.vgic.held v = some r) {w : Fin n} (hw : s.vgic.held w = some r) :
    w = v :=
  Option.some.inj ((h.owner w r hw).symm.trans (h.owner v r hv))

theorem setHeld {o : Option (IntRef n)} (hidle : c.scans = false → o = none)
    (howner : ∀ r, o = some r → (s.vgic.ints r).owner = some v)
    (hknown : ∀ r, o = some r → knows c v r (s.vgic.ints r)) :
    (s.goto v { s.vgic with held := Function.update s.vgic.held v o } c).Locks knows where
  idle w hw := by
    by_cases hwv : w = v
    · subst hwv
      rw [goto_scan] at hw
      simpa [goto] using hidle hw
    · rw [goto_scan_of_ne hwv] at hw
      simpa [goto, hwv] using h.idle w hw
  owner w r hw := by
    by_cases hwv : w = v
    · subst hwv
      exact howner r (by simpa [goto] using hw)
    · exact h.owner w r (by simpa [goto, hwv] using hw)
  known w r hw := by
    by_cases hwv : w = v
    · subst hwv
      rw [goto_scan]
      exact hknown r (by simpa [goto] using hw)
    · rw [goto_scan_of_ne hwv]
      exact h.known w r (by simpa [goto, hwv] using hw)

theorem hold (howner : (s.vgic.ints r).owner = some v) (hknown : knows c v r (s.vgic.ints r))
    (hc : c.scans = true) :
    (s.goto v { s.vgic with held := Function.update s.vgic.held v (some r) } c).Locks knows := by
  refine h.setHeld (fun hidle => ?_) ?_ ?_
  · rw [hc] at hidle; cases hidle
  · rintro _ ⟨⟩; exact howner
  · rintro _ ⟨⟩; exact hknown

theorem unlock : (s.goto v (unlock s.vgic v) .idle).Locks knows := by
  refine h.setHeld (fun _ => rfl) ?_ ?_
  · rintro _ ⟨⟩
  · rintro _ ⟨⟩

theorem unlock_free (hv : s.vgic.held v = some r) : (Armv8.unlock s.vgic v).locked r = false := by
  refine not_locked fun w hw => ?_
  by_cases hwv : w = v
  · subst hwv; simp [Armv8.unlock] at hw
  · exact hwv (h.held_unique hv (by simpa [Armv8.unlock, hwv] using hw))

/-- Beside taking the new lock, the swap gives up the interrupt that was held, if any, which nobody
has locked then. -/
theorem swapHeld_cases (hfree : s.vgic.locked r = false) :
    swapHeld g s.vgic v r = { s.vgic with held := Function.update s.vgic.held v (some r) } ∨
    ∃ old, swapHeld g s.vgic v r = vgicYieldOwnership g
        { s.vgic with held := Function.update s.vgic.held v (some r) } v old ∧
      VgicState.locked { s.vgic with held := Function.update s.vgic.held v (some r) } old =
        false := by
  simp only [swapHeld]
  cases hold : s.vgic.held v with
  | none => exact .inl rfl
  | some old =>
    refine .inr ⟨old, rfl, not_locked fun w hw => ?_⟩
    by_cases hwv : w = v
    · subst hwv
      obtain rfl : r = old := by simpa using hw
      rw [locked_of_held hold] at hfree; cases hfree
    · exact hwv (h.held_unique hold (by simpa [hwv] using hw))

end

end Locks

/-! ### Rounds -/

theorem refillRound_spec {s : VgicState n} {hp pp : Bool} {prio : BitVec 8}
    {u : VgicState n × Bool × BitVec 8} (h : refillRound g s v hp pp prio r = some u) :
    s.locked r = false ∧
      (u.1 = vgicYieldOwnership g (vgicGetOwnership s v r).2 v r ∨
        u.1 = swapHeld g (vgicGetOwnership s v r).2 v r ∧ (vgicGetOwnership s v r).1 = true ∧
          vgicIntVcpuIsTarget g v r ((vgicGetOwnership s v r).2.ints r) = true ∧
          ((vgicGetOwnership s v r).2.ints r).inLr = false) := by
  simp only [refillRound] at h
  split at h
  · cases h
  · rename_i hlocked
    refine ⟨by simpa using hlocked, ?_⟩
    split at h
    · rename_i hbest
      cases h
      exact .inr ⟨rfl, hbest.1, hbest.2.1, hbest.2.2.2.1⟩
    · cases h
      exact .inl rfl

theorem eoirRound_spec {s u : VgicState n} (h : eoirRound g s v r = some u) :
    s.locked r = false ∧
      (u = vgicYieldOwnership g (vgicGetOwnership s v r).2 v r ∨
        u = swapHeld g (vgicGetOwnership s v r).2 v r ∧ (vgicGetOwnership s v r).1 = true ∧
          ((vgicGetOwnership s v r).2.ints r).state &&& act ≠ 0) := by
  simp only [eoirRound] at h
  split at h
  · cases h
  · rename_i hlocked
    refine ⟨by simpa using hlocked, ?_⟩
    split at h
    · rename_i hbest
      cases h
      exact .inr ⟨rfl, hbest.1, hbest.2.1⟩
    · cases h
      exact .inl rfl

/-- What the next round of a scan does. -/
inductive ScanStep (g : VgicConfig n) (s : VgicSystem n) (v : Fin n) : VgicSystem n → Prop
  | full {hp : Bool} (hscan : s.scan v = .refill hp)
      (hfind : bitmapFindNth (fun k => ((s.vgic.cpu v).lrs k).empty) g.numLrs 1 0 true = none) :
      ScanStep g s v (s.goto v s.vgic .idle)
  | start {hp : Bool} {lrInd : Nat} (hscan : s.scan v = .refill hp)
      (hfind : bitmapFindNth (fun k => ((s.vgic.cpu v).lrs k).empty) g.numLrs 1 0 true =
        some lrInd) :
      ScanStep g s v (s.goto v s.vgic (.refillScan hp lrInd 0 false gicLowestPrio))
  | refillRound {hp pp : Bool} {lrInd i : Nat} {prio : BitVec 8} {r : IntRef n}
      {u : VgicState n × Bool × BitVec 8} (hscan : s.scan v = .refillScan hp lrInd i pp prio)
      (hint : scanInt g v i = some r) (hu : refillRound g s.vgic v hp pp prio r = some u) :
      ScanStep g s v (s.goto v u.1 (.refillScan hp lrInd (i + 1) u.2.1 u.2.2))
  | refillWrite {hp pp : Bool} {lrInd i : Nat} {prio : BitVec 8} {r : IntRef n} {u : VgicState n}
      (hscan : s.scan v = .refillScan hp lrInd i pp prio) (hend : scanInt g v i = none)
      (hheld : s.vgic.held v = some r)
      (hu : vgicWriteLr g (unlock s.vgic v) v r lrInd = some u) :
      ScanStep g s v (s.goto v u (.refill (hp || pp)))
  | refillNone {hp pp : Bool} {lrInd i : Nat} {prio : BitVec 8}
      (hscan : s.scan v = .refillScan hp lrInd i pp prio) (hend : scanInt g v i = none)
      (hheld : s.vgic.held v = none) : ScanStep g s v (s.goto v (s.vgic.setNpie v false) .idle)
  | eoirRound {i : Nat} {r : IntRef n} {u : VgicState n} (hscan : s.scan v = .eoirScan i)
      (hint : scanInt g v i = some r) (hu : eoirRound g s.vgic v r = some u) :
      ScanStep g s v (s.goto v u (.eoirScan (i + 1)))
  | eoirEnd {i : Nat} {u : VgicState n} (hscan : s.scan v = .eoirScan i)
      (hend : scanInt g v i = none) (hu : eoirEnd g s.vgic v = some u) :
      ScanStep g s v (s.goto v u .idle)

theorem scanStep_cases (ht : s.scanStep g v = some t) : ScanStep g s v t := by
  simp only [VgicSystem.scanStep] at ht
  split at ht
  · cases ht
  · rename_i hp hscan
    split at ht
    · rename_i hfind
      cases ht
      exact .full hscan hfind
    · rename_i hfind
      cases ht
      exact .start hscan hfind
  · rename_i hp lrInd i pp prio hscan
    split at ht
    · rename_i r hint
      obtain ⟨u, hu, rfl⟩ := Option.map_eq_some_iff.mp ht
      exact .refillRound hscan hint hu
    · rename_i hend
      split at ht
      · rename_i r hheld
        obtain ⟨u, hu, rfl⟩ := Option.map_eq_some_iff.mp ht
        exact .refillWrite hscan hend hheld hu
      · rename_i hheld
        cases ht
        exact .refillNone hscan hend hheld
  · rename_i i hscan
    split at ht
    · rename_i r hint
      obtain ⟨u, hu, rfl⟩ := Option.map_eq_some_iff.mp ht
      exact .eoirRound hscan hint hu
    · rename_i hend
      obtain ⟨u, hu, rfl⟩ := Option.map_eq_some_iff.mp ht
      exact .eoirEnd hscan hend hu

/-! ### Steps outside the scans -/

theorem guestStep_same {lr lr' : ListReg} (h : lr.guestStep = some lr') :
    lr.state ≠ inv ∧ lr'.vid = lr.vid ∧ lr'.eoi = lr.eoi := by
  simp only [ListReg.guestStep] at h
  split at h
  · rename_i hpend
    cases h
    exact ⟨by rw [hpend]; decide, rfl, rfl⟩
  · split at h
    · rename_i hact
      cases h
      refine ⟨?_, rfl, rfl⟩
      rintro hinv
      rw [hinv] at hact
      exact hact (by decide)
    · cases h

theorem mem_sendAll {u : VgicState n} {msg m : VgicMsg} {ps : List Nat} {p : Nat}
    (h : m ∈ (ps.foldl (fun s i => s.cpuSendMsg msg i) u).queue p) : m ∈ u.queue p ∨ m = msg := by
  induction ps generalizing u with
  | nil => exact .inl h
  | cons q ps ih =>
    rcases ih h with hq | hm
    · by_cases hpq : p = q
      · subst hpq
        simpa [VgicState.cpuSendMsg] using hq
      · exact .inl (by simpa [VgicState.cpuSendMsg, hpq] using hq)
    · exact .inr hm

theorem sendAll_frame (u : VgicState n) (msg : VgicMsg) (ps : List Nat) :
    (ps.foldl (fun s i => s.cpuSendMsg msg i) u).ints = u.ints ∧
      (ps.foldl (fun s i => s.cpuSendMsg msg i) u).cpu = u.cpu ∧
      (ps.foldl (fun s i => s.cpuSendMsg msg i) u).held = u.held := by
  induction ps generalizing u with
  | nil => exact ⟨rfl, rfl, rfl⟩
  | cons p ps ih => exact ih _

theorem step_cases {a : VgicAction n} (ht : s.step g a = some t) :
    (∃ v, a = .scan v ∧ s.scanStep g v = some t) ∨
    (s.scan a.vcpu = .idle ∧
      ∃ u, vgicAct g s.vgic a = some u ∧ s.goto a.vcpu u (a.next g s.vgic) = t) := by
  cases a with
  | scan v => exact .inl ⟨v, rfl, ht⟩
  | setField | inject | sgi | deliver | trappedEoir | refill | eoirSpilled | guest =>
    simp only [VgicSystem.step] at ht
    split at ht
    · rename_i hidle
      exact .inr ⟨hidle, Option.map_eq_some_iff.mp ht⟩
    · cases ht

/-- A VM with two vcpus on a GICv3 platform with one cluster. -/
def oneCluster : VgicConfig 2 where
  __ := twoClusters
  vmpidr v := 0x80000000 ||| BitVec.ofNat 64 v
  cpuIdToMpidr i := 0x80000000 ||| BitVec.ofNat 64 i

/-- A GIC with the lines of one register only: the interrupts are the private ones, and the scans go
through the first of them. -/
def oneLine : VgicConfig 2 where
  __ := oneCluster
  intNum := 32
  numIrqs := 1
  intNum_le := by decide

def vcpu0 : Fin 2 := ⟨0, Nat.two_pos⟩

def vcpu1 : Fin 2 := ⟨1, Nat.one_lt_two⟩

end VgicSystem

end Bao.Armv8
