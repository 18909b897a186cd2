import Bao.Core.Config
import Bao.Core.CpuMsg
import Bao.Riscv.Vplic

/-!
# Notifications between VMs

A guest names one of its ipc objects and an event. The hypervisor sends a message to the master cpus
of the other VMs that share the object's memory, and each of these injects the interrupt that its
own object for that memory lists for the event. The message carries the number of the shared memory
and the event in one byte each.
-/

namespace Bao

/-- `IPC_NOTIFY`. -/
def ipcNotifyEvent : BitVec 32 := 0

/-- The structure in `ipc_msg_data_t`. -/
structure IpcMsgData where
  shmemId : BitVec 8
  eventId : BitVec 8
  deriving DecidableEq

/-- The member `raw` of the union, with the bytes `pad` that the two fields do not cover. -/
def IpcMsgData.raw (data : IpcMsgData) (pad : BitVec 48) : Word :=
  pad.setWidth 64 <<< 16 ||| data.eventId.setWidth 64 <<< 8 ||| data.shmemId.setWidth 64

def IpcMsgData.ofRaw (raw : Word) : IpcMsgData where
  shmemId := raw.extractLsb' 0 8
  eventId := raw.extractLsb' 8 8

theorem IpcMsgData.ofRaw_raw (data : IpcMsgData) (pad : BitVec 48) :
    ofRaw (data.raw pad) = data := by
  obtain ⟨shmemId, eventId⟩ := data
  simp only [ofRaw, raw, IpcMsgData.mk.injEq]
  constructor
  · ext i hi
    have h₁ : i < 16 := by omega
    have h₂ : i < 64 := by omega
    simp [hi, h₁, h₂]
  · ext i hi
    have h₁ : 8 + i < 16 := by omega
    have h₂ : 8 + i < 64 := by omega
    simp [hi, h₁, h₂]

/-- The members of `vm_t` that notifications use. -/
structure IpcVm where
  cpus : Word
  ipcs : List Ipc

/-- The platform's cpus, the table of shared memories, and `IPC_CPUSMG_ID`. -/
structure IpcEnv where
  cpuNum : Nat
  shmemTable : List Shmem
  handlerId : BitVec 32

def ipcGetShmem (env : IpcEnv) (shmemId : Word) : Option Shmem :=
  env.shmemTable[shmemId.toNat]?

def ipcFindByShmemid (vm : IpcVm) (shmemId : Word) : Option Ipc :=
  vm.ipcs.find? fun ipc => ipc.shmemId = shmemId

/-- `ipc_notify`: the id that is passed to `interrupts_vm_inject`, if one is. It goes through the
`int` variable `irq_id`. -/
def ipcNotify (vm : IpcVm) (shmemId eventId : Word) : Option Word := do
  let ipcObj ← ipcFindByShmemid vm shmemId
  let irq ← ipcObj.interrupts[eventId.toNat]?
  pure ((irq.setWidth 32).signExtend 64)

def ipcHandler (vm : IpcVm) (event : BitVec 32) (data : Word) : Option Word :=
  let ipcData := IpcMsgData.ofRaw data
  if event = ipcNotifyEvent then
    ipcNotify vm (ipcData.shmemId.setWidth 64) (ipcData.eventId.setWidth 64)
  else none

/-- `ipc_hypercall`: the result, and the messages in the order in which they are sent. The shift of
`1ULL` takes its count modulo 64. -/
def ipcHypercall (env : IpcEnv) (vm : IpcVm) (pad : BitVec 48) (ipcId ipcEvent : Word) :
    Int × List (Nat × CpuMsg) :=
  match vm.ipcs[ipcId.toNat]? with
  | some ipc =>
    match ipcGetShmem env ipc.shmemId with
    | some shmem =>
      let ipcCpuMasters := shmem.cpuMasters &&& ~~~vm.cpus
      let data : IpcMsgData := ⟨ipc.shmemId.setWidth 8, ipcEvent.setWidth 8⟩
      let msg : CpuMsg := ⟨env.handlerId, ipcNotifyEvent, data.raw pad⟩
      (0, ((List.range env.cpuNum).filter fun i => ipcCpuMasters.getLsbD (i % 64)).map (·, msg))
    | none => (-3, [])
  | none => (-3, [])

/-! ### What a notification injects -/

/-- The interrupt that a VM's ipc object for a shared memory lists for an event. -/
def ipcInterrupt (vm : IpcVm) (shmemId event : Word) : Option Word :=
  (ipcFindByShmemid vm shmemId).bind fun ipc => ipc.interrupts[event.toNat]?

section Notify

variable {vm : IpcVm} {pad : BitVec 48} {ipcId : Word} {ipc : Ipc} {shmem : Shmem}

theorem ipcHypercall_valid (env : IpcEnv) (pad : BitVec 48) (ipcEvent : Word)
    (hipc : vm.ipcs[ipcId.toNat]? = some ipc)
    (hshmem : ipcGetShmem env ipc.shmemId = some shmem) :
    (ipcHypercall env vm pad ipcId ipcEvent).2 =
      ((List.range env.cpuNum).filter fun i =>
        (shmem.cpuMasters &&& ~~~vm.cpus).getLsbD (i % 64)).map (·, ⟨env.handlerId, ipcNotifyEvent,
          IpcMsgData.raw ⟨ipc.shmemId.setWidth 8, ipcEvent.setWidth 8⟩ pad⟩) := by
  simp only [ipcHypercall, hipc, hshmem]

/-- The controller takes an `int`, so that going through one before makes no difference. -/
theorem intArg_signExtend (irq : Word) : intArg ((irq.setWidth 32).signExtend 64) = intArg irq := by
  have h : ((irq.setWidth 32).signExtend 64).setWidth 32 = irq.setWidth 32 := by
    ext i hi
    have hlt : i < 64 := by omega
    simp [BitVec.getElem_signExtend, hi, hlt]
  rw [intArg, intArg, h]

theorem ipcHandler_map_intArg (vm : IpcVm) (shmemId event : Word) :
    (ipcHandler vm ipcNotifyEvent
      (IpcMsgData.raw ⟨shmemId.setWidth 8, event.setWidth 8⟩ pad)).map intArg =
        (ipcInterrupt vm ((shmemId.setWidth 8).setWidth 64)
          ((event.setWidth 8).setWidth 64)).map intArg := by
  simp only [ipcHandler, IpcMsgData.ofRaw_raw, if_true, ipcNotify, ipcInterrupt]
  generalize ((event.setWidth 8).setWidth 64).toNat = k
  cases ipcFindByShmemid vm ((shmemId.setWidth 8).setWidth 64) with
  | none => rfl
  | some ipc =>
    cases h : ipc.interrupts[k]? with
    | none => simp [h]
    | some irq => simp [h, intArg_signExtend]

theorem toNat_setWidth_byte (w : Word) : ((w.setWidth 8).setWidth 64).toNat = w.toNat % 256 := by
  simp only [BitVec.toNat_setWidth]
  omega

theorem setWidth_byte_eq {w : Word} (h : w.toNat < 256) : (w.setWidth 8).setWidth 64 = w := by
  rw [← BitVec.toNat_inj, toNat_setWidth_byte, Nat.mod_eq_of_lt h]

end Notify

/-- A notification is delivered faithfully to every VM that shares the memory exactly when the
number of the memory and the event fit in a byte, or there is no cpu to notify. -/
theorem ipc_notify_faithful_iff (env : IpcEnv) (vm : IpcVm) (pad : BitVec 48)
    (ipcId ipcEvent : Word) {ipc : Ipc} {shmem : Shmem}
    (hipc : vm.ipcs[ipcId.toNat]? = some ipc)
    (hshmem : ipcGetShmem env ipc.shmemId = some shmem) :
    (∀ cpu msg, (cpu, msg) ∈ (ipcHypercall env vm pad ipcId ipcEvent).2 →
      ∀ target : IpcVm, (ipcFindByShmemid target ipc.shmemId).isSome →
        (ipcHandler target msg.event msg.data).map intArg =
          (ipcInterrupt target ipc.shmemId ipcEvent).map intArg) ↔
      (∀ cpu < env.cpuNum, (shmem.cpuMasters &&& ~~~vm.cpus).getLsbD (cpu % 64) = false) ∨
        ipc.shmemId.toNat < 256 ∧ ipcEvent.toNat < 256 := by
  rw [ipcHypercall_valid env pad ipcEvent hipc hshmem]
  simp only [List.mem_map, List.mem_filter, List.mem_range, Prod.mk.injEq]
  generalize ipc.shmemId = shmemId
  constructor
  · intro hall
    by_contra hnot
    simp only [not_or, not_forall, Bool.not_eq_false] at hnot
    obtain ⟨⟨cpu, hcpu, hbit⟩, hbytes⟩ := hnot
    have hall (target : IpcVm) (ht : (ipcFindByShmemid target shmemId).isSome) :=
      (ipcHandler_map_intArg target shmemId ipcEvent).symm.trans
        (hall cpu _ ⟨cpu, ⟨hcpu, hbit⟩, rfl, rfl⟩ target ht)
    by_cases hshort : shmemId.toNat < 256
    · -- An object with fewer interrupts than the event, but more than its low byte.
      have hevent : ¬ ipcEvent.toNat < 256 := fun h => hbytes ⟨hshort, h⟩
      have := hall ⟨0, [⟨shmemId, List.replicate (ipcEvent.toNat % 256 + 1) 1, 0, 0⟩]⟩
        (by simp [ipcFindByShmemid])
      rw [setWidth_byte_eq hshort] at this
      have hlen : ¬ ipcEvent.toNat < ipcEvent.toNat % 256 + 1 := by omega
      simp [ipcInterrupt, ipcFindByShmemid, List.getElem?_replicate, hlen] at this
      omega
    · -- An object for the memory and none for the low byte of its number.
      have := hall ⟨0, [⟨shmemId, List.replicate (ipcEvent.toNat + 1) 1, 0, 0⟩]⟩
        (by simp [ipcFindByShmemid])
      have hne : shmemId ≠ (shmemId.setWidth 8).setWidth 64 := fun h => by
        have := congrArg BitVec.toNat h
        rw [toNat_setWidth_byte] at this
        omega
      simp [ipcInterrupt, ipcFindByShmemid, hne] at this
  · rintro (hnone | ⟨hshmemId, hevent⟩) cpu msg ⟨i, ⟨hi, hbit⟩, -, rfl⟩ target -
    · rw [hnone i hi] at hbit
      cases hbit
    · rw [ipcHandler_map_intArg, setWidth_byte_eq hshmemId, setWidth_byte_eq hevent]

/-! Two VMs on the cpus 0 and 1 share the memory 0, with one interrupt each. -/

def pairEnv : IpcEnv where
  cpuNum := 2
  shmemTable := [{ size := 0x1000, cpuMasters := 3 }]
  handlerId := 1

def pairSender : IpcVm where
  cpus := 1
  ipcs := [{ shmemId := 0, interrupts := [52] }]

def pairReceiver : IpcVm where
  cpus := 2
  ipcs := [{ shmemId := 0, interrupts := [53] }]

/-- The event 0 is delivered: cpu 1 injects the one interrupt of its object. -/
theorem ipc_notify_faithful_zero :
    ∃ msg, (ipcHypercall pairEnv pairSender 0 0 0).2 = [(1, msg)] ∧
      (ipcHandler pairReceiver msg.event msg.data).map intArg = some 53 ∧
      ipcInterrupt pairReceiver 0 0 = some 53 := by
  have hsent : (ipcHypercall pairEnv pairSender 0 0 0).2 = [(1, ⟨1, ipcNotifyEvent, 0⟩)] := by
    decide +kernel
  refine ⟨_, hsent, ?_, by decide⟩
  have hall := (ipc_notify_faithful_iff pairEnv pairSender 0 0 0 rfl rfl).mpr (.inr (by decide))
  rw [hall 1 _ (hsent ▸ List.mem_singleton_self _) pairReceiver (by decide)]
  decide

/-- The event 256 is beyond the one interrupt of the receiving object, and that interrupt is
injected nevertheless. -/
theorem ipc_notify_unfaithful :
    ∃ msg, (ipcHypercall pairEnv pairSender 0 0 256).2 = [(1, msg)] ∧
      (ipcHandler pairReceiver msg.event msg.data).map intArg = some 53 ∧
      ipcInterrupt pairReceiver 0 256 = none := by
  have hsent : (ipcHypercall pairEnv pairSender 0 0 256).2 = [(1, ⟨1, ipcNotifyEvent, 0⟩)] := by
    decide +kernel
  exact ⟨_, hsent, by decide +kernel, by decide⟩

end Bao
