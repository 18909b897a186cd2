import Bao.Foundation.Gateway
import Bao.Riscv.VplicFrame

/-!
# Claims and injections

Each interrupt of the virtual controller is a gateway: its pending bit is the request that waits,
its active bit the one that is being served. Whatever the harts of the VM do, the history of the
controller, seen by one interrupt, is a run of that gateway.
-/

namespace Bao

open Foundation

inductive VplicEvent where
  | injected (id : Nat)
  | claimed (id : Nat)
  | completed (id : Nat)
  deriving DecidableEq

/-- What an action shows: an injection that found the interrupt not pending, a claim with the id
that the guest loads, or a completion with the id that the guest stores. -/
def vplicEvent (vm : VplicVm) (s : VplicSystem) : VplicAction → List VplicEvent
  | .access cpu acc =>
    if (claimAccessCntxt vm acc).isSome then
      if acc.write then [.completed (intArg acc.regVal)]
      else (((vplicEmul vm cpu acc s.state).bind fun x => x.val.val).map
        fun val => VplicEvent.claimed val.toNat).toList
    else []
  | .inject _ _ id =>
    if (0 < id ∧ id ≤ plicMaxInterrupts) ∧ memBit s.state.mem (pendAt id) = false then
      [.injected id]
    else []
  | _ => []

def vplicHistory (vm : VplicVm) : VplicSystem → List VplicAction → List VplicEvent :=
  history (vplicStep vm) (vplicEvent vm)

/-- The events of one interrupt, as events of its gateway. -/
def VplicEvent.onId (id : Nat) : VplicEvent → Option GatewayEvent
  | .injected id' => if id' = id then some .inject else none
  | .claimed id' => if id' = id then some .claim else none
  | .completed id' => if id' = id then some .complete else none

def VplicEvent.ofGateway (id : Nat) : GatewayEvent → VplicEvent
  | .inject => .injected id
  | .claim => .claimed id
  | .complete => .completed id

theorem VplicEvent.onId_eq_some {id : Nat} {e : VplicEvent} {g : GatewayEvent} :
    e.onId id = some g ↔ e = .ofGateway id g := by
  cases e <;> cases g <;> simp [onId, ofGateway]

theorem VplicEvent.mem_filterMap_onId {id : Nat} {es : List VplicEvent} {g : GatewayEvent} :
    g ∈ es.filterMap (onId id) ↔ .ofGateway id g ∈ es := by
  simp [List.mem_filterMap, onId_eq_some]

theorem VplicEvent.count_filterMap_onId (id : Nat) (es : List VplicEvent) (g : GatewayEvent) :
    (es.filterMap (onId id)).count g = es.count (.ofGateway id g) := by
  rw [List.count_filterMap, List.count]
  refine List.countP_congr fun e _ => ?_
  rw [beq_iff_eq, beq_iff_eq, onId_eq_some]

/-- The pending and active bits of an interrupt. -/
def gatewayOf (id : Nat) (s : VplicSystem) : Gateway :=
  ⟨memBit s.state.mem (pendAt id), memBit s.state.mem (actAt id)⟩

section Refinement

variable {vm : VplicVm} {s t : VplicSystem} {a : VplicAction} {id : Nat}

theorem vplicClaim_refines {cpu c : Nat} {acc : EmulAccess} (hid : 0 < id)
    (hmax : id < plicMaxInterrupts) (hc : claimAccessCntxt vm acc = some c)
    (hwrite : acc.write = false)
    (hx : vplicEmul vm cpu acc s.state = some (vplicClaim vm c s.state))
    (ht : t.state = (vplicClaim vm c s.state).val.state) :
    run Gateway.step (gatewayOf id s)
      ((vplicEvent vm s (.access cpu acc)).filterMap (VplicEvent.onId id)) =
        some (gatewayOf id t) := by
  have hevent : vplicEvent vm s (.access cpu acc) =
      [.claimed (BitVec.ofNat 64 (vplicNextPending vm.plat s.state.mem c).val).toNat] := by
    simp [vplicEvent, hc, hwrite, hx, vplicClaim]
  simp only [vplicClaim, Logged.val_bind, Logged.val_touch, Logged.val_pure] at ht
  rw [hevent, gatewayOf, gatewayOf, ht]
  generalize hnext : (vplicNextPending vm.plat s.state.mem c).val = next
  have hspec := vplicNextPending_spec hnext
  have hle : next ≤ plicMaxInterrupts := by
    by_cases hzero : next = 0
    · rw [hzero]; exact Nat.zero_le _
    · exact (hspec hzero).1
  simp only [plicMaxInterrupts] at hle hmax
  have hval : (BitVec.ofNat 64 next).toNat = next := by
    rw [BitVec.toNat_ofNat, Nat.mod_eq_of_lt (by omega)]
  rw [hval]
  by_cases heq : next = id
  · subst heq
    obtain ⟨-, hdel⟩ := hspec (by omega)
    have hne : pendAt next ≠ actAt next := by simp only [pendAt, actAt, plicMaxInterrupts]; omega
    simp [VplicEvent.onId, run, Gateway.step, hdel.pend, hdel.act, memBit_memWriteBit, hne]
  · have h₁ : pendAt id ≠ pendAt next := by simp only [pendAt]; omega
    have h₂ : pendAt id ≠ actAt next := by simp only [pendAt, actAt, plicMaxInterrupts]; omega
    have h₃ : actAt id ≠ pendAt next := by simp only [pendAt, actAt, plicMaxInterrupts]; omega
    have h₄ : actAt id ≠ actAt next := by simp only [actAt]; omega
    simp [VplicEvent.onId, heq, memBit_memWriteBit, h₁, h₂, h₃, h₄]

theorem vplicStep_refines (hid : 0 < id) (hmax : id < plicMaxInterrupts)
    (h : vplicStep vm s a = some t) :
    run Gateway.step (gatewayOf id s) ((vplicEvent vm s a).filterMap (VplicEvent.onId id)) =
      some (gatewayOf id t) := by
  have hhw : HwExact (fun id => memBit s.state.mem id = true) s.state.mem := fun _ _ => Iff.rfl
  obtain ⟨cpu, acc, c, rfl, hc, hwrite, ht⟩ | ⟨cpu, acc, c, rfl, hc, hwrite, hx, ht⟩ |
    ⟨cpu, vcpuId, id', rfl, hinj⟩ | ⟨hacc, hninj, hstore⟩ := vplicStep_cases hhw h
  · simp only [vplicComplete, Logged.val_bind, Logged.val_touch, Logged.val_pure] at ht
    rw [gatewayOf, gatewayOf, ht]
    simp only [vplicEvent, hc, hwrite, Option.isSome_some, if_true]
    generalize intArg acc.regVal = done
    have hne : pendAt id ≠ actAt done := by
      simp only [pendAt, actAt, plicMaxInterrupts] at *
      omega
    have hiff : actAt id = actAt done ↔ done = id := by simp only [actAt]; omega
    by_cases heq : done = id
    · subst heq
      simp [VplicEvent.onId, run, Gateway.step, memBit_memWriteBit, hne]
    · simp [VplicEvent.onId, memBit_memWriteBit, hne, hiff, heq]
  · exact vplicClaim_refines hid hmax hc hwrite hx ht
  · rw [gatewayOf, gatewayOf, hinj.mem]
    simp only [vplicEvent]
    split
    · next hset =>
      have hact : actAt id ≠ pendAt id' := by
        simp only [pendAt, actAt, plicMaxInterrupts] at *
        omega
      have hiff : pendAt id = pendAt id' ↔ id' = id := by simp only [pendAt]; omega
      by_cases heq : id' = id
      · subst heq
        simp [VplicEvent.onId, run, Gateway.step, memBit_memWriteBit, hact, hset.2]
      · simp [VplicEvent.onId, memBit_memWriteBit, hact, hiff, heq]
    · rfl
  · have hnone : vplicEvent vm s a = [] := by
      cases a with
      | access cpu acc => simp [vplicEvent, hacc cpu acc rfl]
      | inject cpu vcpuId id => exact absurd rfl (hninj cpu vcpuId id)
      | _ => rfl
    rw [hnone, gatewayOf, gatewayOf,
      hstore.bitmaps.memBit (by simp only [pendAt, plicMaxInterrupts] at *; omega),
      hstore.bitmaps.memBit (by simp only [actAt, plicMaxInterrupts] at *; omega)]
    rfl

/-- Seen by one interrupt, a run of the virtual controller is a run of its gateway. -/
theorem vplic_run_refines {as : List VplicAction} (hid : 0 < id) (hmax : id < plicMaxInterrupts)
    (h : run (vplicStep vm) s as = some t) :
    run Gateway.step (gatewayOf id s) ((vplicHistory vm s as).filterMap (VplicEvent.onId id)) =
      some (gatewayOf id t) := by
  rw [vplicHistory, filterMap_history]
  exact run_history (fun s a t => vplicStep_refines hid hmax) h

end Refinement

/-- Each injection is claimed at most once, in every run from a state in which the interrupt is not
pending; and between two claims of an interrupt it is injected anew and completed. -/
theorem vplic_claimed_once {vm : VplicVm} {s t : VplicSystem} {as : List VplicAction} {id : Nat}
    (hid : 1 ≤ id) (hmax : id ≤ 1023) (hpend : memBit s.state.mem (pendAt id) = false)
    (h : run (vplicStep vm) s as = some t) :
    (vplicHistory vm s as).count (.claimed id) ≤ (vplicHistory vm s as).count (.injected id) ∧
      ∀ es₁ es₂ es₃,
        vplicHistory vm s as = es₁ ++ .claimed id :: (es₂ ++ .claimed id :: es₃) →
          .injected id ∈ es₂ ∧ .completed id ∈ es₂ := by
  have hrun := vplic_run_refines hid (show id < plicMaxInterrupts from Nat.lt_succ_of_le hmax) h
  constructor
  · have hcount := Gateway.count_claim_add hrun
    simp only [VplicEvent.count_filterMap_onId, VplicEvent.ofGateway, gatewayOf, hpend,
      Bool.toNat_false] at hcount
    omega
  · intro es₁ es₂ es₃ hsplit
    have hclaim : VplicEvent.onId id (.claimed id) = some .claim := if_pos rfl
    rw [hsplit, List.filterMap_append, List.filterMap_cons_some hclaim, List.filterMap_append,
      List.filterMap_cons_some hclaim] at hrun
    obtain ⟨hinject, hcomplete⟩ := Gateway.mem_between_claims hrun
    exact ⟨VplicEvent.mem_filterMap_onId.mp hinject, VplicEvent.mem_filterMap_onId.mp hcomplete⟩

def guestLoad (cpu : Nat) (addr : Word) : VplicAction :=
  .access cpu { addr := addr, width := 4, write := false }

/-- The guest of a VM with one cpu sets up interrupt 5, claims and completes it, and claims it again
when it is injected again. -/
theorem vplic_claimed_once_twice :
    let vm : VplicVm := { plat := virtPlat, cpus := 1, cntxtNum := 2 }
    let as := [guestStore 0 0xc000014 7, guestStore 0 0xc002080 0x20, .inject 0 0 5, .inject 0 0 5,
      guestLoad 0 0xc201004, .updateLine 0, guestStore 0 0xc201004 5, .updateLine 0, .inject 0 0 5,
      guestLoad 0 0xc201004]
    vplicHistory vm (vplicInit []) as =
        [.injected 5, .claimed 5, .completed 5, .injected 5, .claimed 5] ∧
      (vplicHistory vm (vplicInit []) as).count (.claimed 5) ≤
        (vplicHistory vm (vplicInit []) as).count (.injected 5) := by
  intro vm as
  obtain ⟨t, ht⟩ : ∃ t, run (vplicStep vm) (vplicInit []) as = some t :=
    Option.isSome_iff_exists.mp (by decide +kernel)
  refine ⟨by decide +kernel, (vplic_claimed_once ?_ ?_ ?_ ht).1⟩ <;> decide +kernel

end Bao
