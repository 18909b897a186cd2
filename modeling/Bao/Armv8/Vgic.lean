import Mathlib.Data.Fintype.Basic
import Bao.Lib.Bitmap
import Bao.Core.Vm
import Bao.Armv8.Vm

/-!
# The virtual GIC of the ARM port

The functions of `vgic.c`, `vgicv2.c` and `vgicv3.c` that move virtual interrupts between the
distributor's table, the list registers of the cpus and their owners, for both versions of the GIC.

A vcpu is named by its id; `vm_vcpu_init` numbers the vcpus of a VM from 0. An interrupt is locked
while it is worked on. A function here runs from the lock of its interrupt to the unlock, and
`held v` is the interrupt whose lock the vcpu `v` keeps from one such section to the next, which
only the scans of `vgic_refill_lrs` and `vgic_eoir_highest_spilled_active` do. A function that needs
a lock which is held gives `none`: it waits.

Writes to the physical GIC are left out, and so are the results of `vgic_add_lr` and
`vgic_remove_lr`, which no caller reads.
-/

namespace Bao.Armv8

inductive GicVersion where
  | gicv2
  | gicv3
  deriving DecidableEq, Repr

def gicMaxSgis : Nat := 16
def gicCpuPriv : Nat := 32
def gicLowestPrio : BitVec 8 := 0xff

def gicIsSgi (intId : Nat) : Bool := intId < gicMaxSgis
def gicIsPriv (intId : Nat) : Bool := intId < gicCpuPriv

/-- `enum int_state`; `PENDACT` is the union of the two bits. -/
abbrev IntState := BitVec 2

def inv : IntState := 0
def pend : IntState := 1
def act : IntState := 2
def pendact : IntState := 3

def gicdIrouterInv : BitVec 64 := ~~~mpidrAffMsk
def gicdIrouterRes0Msk : BitVec 64 := (1 <<< 40) - 1
def gicdIrouterIrmBit : BitVec 64 := 1 <<< 31

/-- What a VM and its platform fix: the version of the GIC, the VM's id and its cpus, the number of
cpus, of interrupts of the virtual distributor (`vgicd.int_num`), of interrupts that the scans go
through (`gic_num_irqs()`) and of list registers; the physical cpus and the MPIDRs of the vcpus, and
the MPIDRs of the physical cpus. -/
structure VgicConfig (n : Nat) where
  version : GicVersion
  vmId : Nat
  cpus : Nat
  cpuNum : Nat
  intNum : Nat
  numIrqs : Nat
  numLrs : Nat
  physId : Fin n → Nat
  vmpidr : Fin n → BitVec 64
  cpuIdToMpidr : Nat → BitVec 64
  vmId_lt : vmId < 2 ^ 16
  intNum_le : intNum ≤ 1024

/-- An interrupt of the VM: a private one of a vcpu, or one of the distributor. -/
inductive IntRef (n : Nat) where
  | priv (vcpu : Fin n) (id : Fin gicCpuPriv)
  | spi (id : Nat)
  deriving DecidableEq

def IntRef.id {n : Nat} : IntRef n → Nat
  | .priv _ id => id
  | .spi id => id

/-- `vgic_int_t`. The field `phys` is the union of `redist` and `route`. -/
structure VgicInt (n : Nat) where
  owner : Option (Fin n) := none
  route : BitVec 64 := gicdIrouterInv
  phys : BitVec 64 := gicdIrouterInv
  state : IntState := inv
  prio : BitVec 8 := gicLowestPrio
  cfg : BitVec 8 := 0
  lr : Nat := 0
  targets : BitVec 8 := 0
  sgiAct : BitVec 8 := 0
  sgiPend : BitVec 8 := 0
  hw : Bool := false
  inLr : Bool := false
  enabled : Bool := false

/-- The fields of a list register that software reads back or the hardware acts on. -/
structure ListReg where
  vid : Nat := 0
  prio : Nat := 0
  state : IntState := inv
  hw : Bool := false
  eoi : Bool := false
  cpuid : Nat := 0
  deriving DecidableEq

/-- A bit of `gich_get_elrsr()`: the register can be used. -/
def ListReg.empty (lr : ListReg) : Bool := lr.state = inv && (lr.hw || !lr.eoi)

/-- A bit of `gich_get_eisr()`: the end of the interrupt is to be handled by the hypervisor. -/
def ListReg.eois (lr : ListReg) : Bool := lr.state = inv && !lr.hw && lr.eoi

/-- The interface of a cpu with `curr_lrs`, and the bit `NPIE` of its control register. -/
structure VgicCpu where
  lrs : Nat → ListReg := fun _ => {}
  currLrs : Nat → Nat := fun _ => 0
  npie : Bool := false

inductive VgicEvent where
  | updateEnable
  | route
  | inject
  | setReg
  deriving DecidableEq, Repr

structure VgicMsg where
  event : VgicEvent
  data : BitVec 64
  deriving DecidableEq

/-- `VGIC_MSG_DATA`. -/
def vgicMsgData (vmId vgicrId intId reg : Nat) (val : BitVec 64) : BitVec 64 :=
  BitVec.ofNat 64 vmId <<< 48 ||| (BitVec.ofNat 16 vgicrId).setWidth 64 <<< 32 |||
    (BitVec.ofNat 15 intId).setWidth 64 <<< 16 ||| (BitVec.ofNat 8 reg).setWidth 64 <<< 8 |||
    (val.setWidth 8).setWidth 64

def vgicMsgVm (data : BitVec 64) : Nat := (data.extractLsb' 48 16).toNat
def vgicMsgVgicrid (data : BitVec 64) : Nat := (data.extractLsb' 32 16).toNat
def vgicMsgIntid (data : BitVec 64) : Nat := (data.extractLsb' 16 15).toNat
def vgicMsgReg (data : BitVec 64) : Nat := (data.extractLsb' 8 8).toNat
def vgicMsgVal (data : BitVec 64) : BitVec 64 := (data.extractLsb' 0 8).setWidth 64

structure VgicState (n : Nat) where
  ints : IntRef n → VgicInt n
  cpu : Fin n → VgicCpu
  held : Fin n → Option (IntRef n)
  queue : Nat → List VgicMsg

variable {n : Nat}

namespace VgicState

def setInt (s : VgicState n) (r : IntRef n) (i : VgicInt n) : VgicState n :=
  { s with ints := Function.update s.ints r i }

def setCpu (s : VgicState n) (v : Fin n) (c : VgicCpu) : VgicState n :=
  { s with cpu := Function.update s.cpu v c }

def gichWriteLr (s : VgicState n) (v : Fin n) (k : Nat) (lr : ListReg) : VgicState n :=
  s.setCpu v { s.cpu v with lrs := Function.update (s.cpu v).lrs k lr }

def setNpie (s : VgicState n) (v : Fin n) (npie : Bool) : VgicState n :=
  s.setCpu v { s.cpu v with npie }

def cpuSendMsg (s : VgicState n) (msg : VgicMsg) (pcpuid : Nat) : VgicState n :=
  { s with queue := Function.update s.queue pcpuid (s.queue pcpuid ++ [msg]) }

/-- Some vcpu keeps the lock of `r`. -/
def locked (s : VgicState n) (r : IntRef n) : Bool := decide (∃ v, s.held v = some r)

end VgicState

section Functions

variable (g : VgicConfig n)

/-- `vgic_get_int`; a private interrupt is one of the vcpu with id `vgicrId`. -/
def vgicGetInt (intId vgicrId : Nat) : Option (IntRef n) :=
  if hpriv : intId < gicCpuPriv then
    if hvcpu : vgicrId < n then some (.priv ⟨vgicrId, hvcpu⟩ ⟨intId, hpriv⟩) else none
  else if intId < g.intNum then some (.spi intId) else none

def vgicIntIsHw (s : VgicState n) (r : IntRef n) : Bool :=
  !(r.id < gicMaxSgis) && (s.ints r).hw

/-- `gich_get_lr` on the cpu of `v`, with the register it reads. -/
def gichGetLr (s : VgicState n) (v : Fin n) (r : IntRef n) : Option ListReg :=
  match (s.ints r).owner with
  | none => none
  | some w =>
    if (s.ints r).inLr = false ∨ g.physId w ≠ g.physId v then none
    else
      let lr := (s.cpu v).lrs (s.ints r).lr
      if lr.vid = r.id ∧ lr.state ≠ inv then some lr else none

def vgicGetState (s : VgicState n) (v : Fin n) (r : IntRef n) : IntState :=
  let state := match gichGetLr g s v r with
    | some lr => lr.state
    | none => (s.ints r).state
  if g.version = .gicv2 ∧ r.id < gicMaxSgis ∧ (s.ints r).sgiPend ≠ 0 then state ||| pend else state

def vgicOwns (s : VgicState n) (v : Fin n) (r : IntRef n) : Bool := (s.ints r).owner = some v

def vgicGetOwnership (s : VgicState n) (v : Fin n) (r : IntRef n) : Bool × VgicState n :=
  if vgicOwns s v r then (true, s)
  else if (s.ints r).owner = none then (true, s.setInt r { s.ints r with owner := some v })
  else (false, s)

def vgicYieldOwnership (s : VgicState n) (v : Fin n) (r : IntRef n) : VgicState n :=
  if (g.version = .gicv2 ∧ gicIsPriv r.id) ∨ vgicOwns s v r = false ∨ (s.ints r).inLr = true ∨
      vgicGetState g s v r &&& act ≠ 0 then s
  else s.setInt r { s.ints r with owner := none }

/-- `vgic_int_vcpu_is_target` on the cpu of `v`. -/
def vgicIntVcpuIsTarget (v : Fin n) (r : IntRef n) (i : VgicInt n) : Bool :=
  let priv := gicIsPriv r.id
  match g.version with
  | .gicv2 => priv || i.targets.toNat.testBit (g.physId v)
  | .gicv3 =>
    (priv && i.phys.toNat = g.physId v) ||
    (!priv && i.phys = g.cpuIdToMpidr (g.physId v) &&& mpidrAffMsk) ||
    (!priv && i.route &&& gicdIrouterIrmBit ≠ 0)

def vgicIntHasOtherTarget (v : Fin n) (r : IntRef n) (i : VgicInt n) : Bool :=
  let priv := gicIsPriv r.id
  match g.version with
  | .gicv2 => !priv && i.targets &&& ~~~((1 : BitVec 8) <<< g.physId v) ≠ 0
  | .gicv3 =>
    (!priv && i.route &&& gicdIrouterIrmBit ≠ 0) ||
    (!(!priv && i.phys = g.cpuIdToMpidr (g.physId v) &&& mpidrAffMsk) && i.phys ≠ gicdIrouterInv)

/-- `vgic_int_ptarget_mask`, as the test of a bit. The shift of the 64-bit one by the route uses the
low six bits of the route; the mask against the own cpu has 32 bits. -/
def vgicIntPtarget (v : Fin n) (i : VgicInt n) (pcpuid : Nat) : Bool :=
  match g.version with
  | .gicv2 => i.targets.toNat.testBit pcpuid
  | .gicv3 =>
    if i.route &&& gicdIrouterIrmBit ≠ 0 then
      g.cpus.testBit pcpuid && pcpuid < 32 && pcpuid ≠ g.physId v % 32
    else pcpuid = i.phys.toNat % 64

/-- The highest source of a pending SGI, which is the one `vgic_write_lr` takes. -/
def sgiSource (sgiPend : BitVec 8) : Option (Fin 8) :=
  (List.finRange 8).reverse.find? fun i => sgiPend.getLsb i

/-- The register that `vgic_write_lr` writes for an interrupt in that state, and the sources of an
SGI that stay pending. -/
def lrOf (r : IntRef n) (i : VgicInt n) (state : IntState) : ListReg × BitVec 8 :=
  let prio := match g.version with
    | .gicv2 => (i.prio >>> 3).toNat
    | .gicv3 => i.prio.toNat
  let lr : ListReg := { vid := r.id, prio }
  if !(r.id < gicMaxSgis) && i.hw then
    ({ lr with hw := true, state := if state = pendact then act else state }, i.sgiPend)
  else if g.version = .gicv2 ∧ r.id < gicMaxSgis then
    if state &&& act ≠ 0 then
      ({ lr with cpuid := i.sgiAct.toNat % 8, state := act, eoi := i.sgiPend ≠ 0 }, i.sgiPend)
    else
      match sgiSource i.sgiPend with
      | some source =>
        let sgiPend := i.sgiPend &&& ~~~((1 : BitVec 8) <<< source.val)
        ({ lr with cpuid := source, state := pend, eoi := sgiPend ≠ 0 }, sgiPend)
      | none => ({ lr with eoi := i.sgiPend ≠ 0 }, i.sgiPend)
  else ({ lr with eoi := !gicIsPriv r.id, state }, i.sgiPend)

/-- What `vgic_write_lr` does first: the interrupt that was in the register before leaves it. -/
def vgicLeaveLr (s : VgicState n) (v : Fin n) (r : IntRef n) (lrInd : Nat) :
    Option (VgicState n) :=
  let prevIntId := (s.cpu v).currLrs lrInd
  if prevIntId ≠ r.id ∧ gicIsPriv prevIntId = false then
    match vgicGetInt g prevIntId v with
    | none => some s
    | some prev =>
      if s.locked prev then none
      else if vgicOwns s v prev ∧ (s.ints prev).inLr ∧ (s.ints prev).lr = lrInd then
        some (vgicYieldOwnership g (s.setInt prev { s.ints prev with inLr := false }) v prev)
      else some s
  else some s

def vgicWriteLr (s : VgicState n) (v : Fin n) (r : IntRef n) (lrInd : Nat) :
    Option (VgicState n) :=
  (vgicLeaveLr g s v r lrInd).map fun s =>
    let (lr, sgiPend) := lrOf g r (s.ints r) (vgicGetState g s v r)
    let s := s.setInt r { s.ints r with state := inv, inLr := true, lr := lrInd, sgiPend }
    s.setCpu v { s.cpu v with
      lrs := Function.update (s.cpu v).lrs lrInd lr
      currLrs := Function.update (s.cpu v).currLrs lrInd r.id }

/-- The record of an interrupt that was in the register `lr` and is taken out. -/
def removedInt (r : IntRef n) (i : VgicInt n) (lr : ListReg) : VgicInt n :=
  let i := { i with inLr := false, state := lr.state }
  if g.version = .gicv2 ∧ r.id < gicMaxSgis then
    if lr.state &&& act ≠ 0 then { i with sgiAct := BitVec.ofNat 8 lr.cpuid }
    else { i with sgiPend := i.sgiPend ||| (1 : BitVec 8) <<< lr.cpuid }
  else i

def vgicRemoveLr (s : VgicState n) (v : Fin n) (r : IntRef n) : VgicState n :=
  let i := s.ints r
  if vgicOwns s v r = false ∨ i.inLr = false then s
  else
    match gichGetLr g s v r with
    | none => s.setInt r { i with inLr := false }
    | some lr =>
      let s := s.gichWriteLr v i.lr {}
      let s := s.setInt r (removedInt g r i lr)
      if lr.state &&& pend ≠ 0 ∧ i.enabled then s.setNpie v true else s

/-- What the loop of `vgic_add_lr` over the full list registers has found. The two counters are
incremented in each other's branch. -/
structure Spill where
  minPrioPend : Nat := 0
  minPrioAct : Nat := 0
  pendFound : Nat := 0
  actFound : Nat := 0
  pendInd : Option Nat := none
  actInd : Option Nat := none

def Spill.next (c : Spill) (i : Nat) (lr : ListReg) : Spill :=
  if lr.state &&& act ≠ 0 then
    let c := if c.minPrioAct < lr.prio then { c with minPrioAct := lr.prio, actInd := some i }
      else c
    { c with pendFound := c.pendFound + 1 }
  else if lr.state &&& pend ≠ 0 then
    let c := if c.minPrioPend < lr.prio then { c with minPrioPend := lr.prio, pendInd := some i }
      else c
    { c with actFound := c.actFound + 1 }
  else c

/-- The list register that `vgic_add_lr` spills. -/
def spillInd (lrs : Nat → ListReg) (numLrs : Nat) : Option Nat :=
  let c := (List.range numLrs).foldl (fun c i => c.next i (lrs i)) ({} : Spill)
  if 1 < c.pendFound then c.pendInd else c.actInd

/-- The interrupt in the register `lrInd` gives it up for `r`. -/
def vgicSpill (s : VgicState n) (v : Fin n) (r : IntRef n) (lrInd : Nat) : Option (VgicState n) :=
  match vgicGetInt g ((s.cpu v).lrs lrInd).vid v with
  | none => some s
  | some spilled =>
    if spilled = r ∨ s.locked spilled then none
    else some (vgicYieldOwnership g (vgicRemoveLr g s v spilled) v spilled)

def vgicAddLr (s : VgicState n) (v : Fin n) (r : IntRef n) : Option (VgicState n) :=
  if (s.ints r).enabled = false ∨ (s.ints r).inLr then some s
  else
    let lrs := (s.cpu v).lrs
    match (List.range g.numLrs).find? fun i => (lrs i).empty with
    | some lrInd => vgicWriteLr g s v r lrInd
    | none =>
      match spillInd lrs g.numLrs with
      | some lrInd => (vgicSpill g s v r lrInd).bind fun s => vgicWriteLr g s v r lrInd
      | none => some (if vgicGetState g s v r &&& pend ≠ 0 then s.setNpie v true else s)

def vgicRoute (s : VgicState n) (v : Fin n) (r : IntRef n) : Option (VgicState n) :=
  if (s.ints r).state = inv ∨ (s.ints r).enabled = false then some s
  else
    (if vgicIntVcpuIsTarget g v r (s.ints r) then vgicAddLr g s v r else some s).map fun s =>
      if (s.ints r).inLr = false ∧ vgicIntHasOtherTarget g v r (s.ints r) then
        let msg : VgicMsg := ⟨.route, vgicMsgData g.vmId v r.id 0 0⟩
        let s := vgicYieldOwnership g s v r
        let targets := (List.range g.cpuNum).filter fun i =>
          vgicIntPtarget g v (s.ints r) i && i ≠ g.physId v
        targets.foldl (fun s i => s.cpuSendMsg msg i) s
      else s

/-! ## Fields -/

/-- The entries of `reg_handler_info_table`. The one for `IROUTER` is of GICv3 only and the one for
`ITARGETSR` of GICv2 only; in the other version the register ignores writes. -/
inductive RegHandler where
  | isenabler
  | ispendr
  | isactiver
  | icenabler
  | icpendr
  | icactiver
  | icfgr
  | irouter
  | ipriorityr
  | itargetsr
  deriving DecidableEq, Repr

namespace RegHandler

def table : List RegHandler :=
  [isenabler, ispendr, isactiver, icenabler, icpendr, icactiver, icfgr, irouter, ipriorityr,
    itargetsr]

/-- The index of a handler in the table. -/
def regid : RegHandler → Nat
  | isenabler => 0
  | ispendr => 1
  | isactiver => 2
  | icenabler => 3
  | icpendr => 4
  | icactiver => 5
  | icfgr => 6
  | irouter => 7
  | ipriorityr => 8
  | itargetsr => 9

def fieldWidth : RegHandler → Nat
  | isenabler | ispendr | isactiver | icenabler | icpendr | icactiver => 1
  | icfgr => 2
  | ipriorityr | itargetsr => 8
  | irouter => 64

end RegHandler

def vgicGetRegHandlerInfo (id : Nat) : Option RegHandler := RegHandler.table[id]?

def vgicIntUpdateEnable (r : IntRef n) (i : VgicInt n) (enable : Bool) : VgicInt n :=
  if g.version = .gicv2 ∧ gicIsSgi r.id then i else { i with enabled := enable }

def vgicIntUpdatePend (r : IntRef n) (i : VgicInt n) (set : Bool) : VgicInt n :=
  if g.version = .gicv2 ∧ gicIsSgi r.id then i
  else { i with state := if set then i.state ||| pend else i.state &&& ~~~pend }

def vgicIntUpdateAct (i : VgicInt n) (set : Bool) : VgicInt n :=
  { i with state := if set then i.state ||| act else i.state &&& ~~~act }

def vgicIntSetRoute (v : Fin n) (r : IntRef n) (i : VgicInt n) (route : BitVec 64) : VgicInt n :=
  if gicIsPriv r.id then i
  else
    let phys :=
      if route &&& gicdIrouterIrmBit ≠ 0 then g.cpuIdToMpidr (g.physId v)
      else match vmGetVcpuByMpidr g.vmpidr (route &&& mpidrAffMsk) with
        | some w => g.cpuIdToMpidr (g.physId w) &&& mpidrAffMsk
        | none => gicdIrouterInv
    { i with phys, route := route &&& gicdIrouterRes0Msk }

def vgicdSetTrgt (r : IntRef n) (i : VgicInt n) (targets : BitVec 64) : VgicInt n :=
  if gicIsPriv r.id then i
  else { i with targets := BitVec.ofNat 8 (vmTranslateToPcpuMask g.cpus targets.toNat 8) }

/-- `update_field` of each handler, called on the cpu of `v`. -/
def RegHandler.updateField (h : RegHandler) (v : Fin n) (r : IntRef n) (i : VgicInt n)
    (data : BitVec 64) : VgicInt n :=
  match h with
  | .isenabler => if data = 0 then i else vgicIntUpdateEnable g r i true
  | .icenabler => if data = 0 then i else vgicIntUpdateEnable g r i false
  | .ispendr => if data = 0 then i else vgicIntUpdatePend g r i true
  | .icpendr => if data = 0 then i else vgicIntUpdatePend g r i false
  | .isactiver => if data = 0 then i else vgicIntUpdateAct i true
  | .icactiver => if data = 0 then i else vgicIntUpdateAct i false
  | .icfgr => { i with cfg := data.setWidth 8 }
  | .ipriorityr => { i with prio := data.setWidth 8 }
  | .irouter => vgicIntSetRoute g v r i data
  | .itargetsr => vgicdSetTrgt g r i data

def vgicIntSetField (s : VgicState n) (v : Fin n) (h : RegHandler) (r : IntRef n)
    (data : BitVec 64) : Option (VgicState n) :=
  if s.locked r then none
  else
    match vgicGetOwnership s v r with
    | (true, s) =>
      let s := vgicRemoveLr g s v r
      let s := s.setInt r (h.updateField g v r (s.ints r) data)
      (vgicRoute g s v r).map fun s => vgicYieldOwnership g s v r
    | (false, s) =>
      let msg : VgicMsg := ⟨.setReg, vgicMsgData g.vmId 0 r.id h.regid data⟩
      -- the owner is another vcpu
      some ((s.ints r).owner.elim s fun w => s.cpuSendMsg msg (g.physId w))

/-! ## Injection and messages -/

def vgicInjectSgi (s : VgicState n) (v : Fin n) (r : IntRef n) (source : BitVec 64) :
    Option (VgicState n) :=
  if s.locked r then none
  else
    let s := vgicRemoveLr g s v r
    let i := s.ints r
    let sgiPend := i.sgiPend ||| (1 : BitVec 8) <<< source.toNat
    if i.sgiPend = sgiPend then some s
    else
      let s := s.setInt r { i with
        sgiPend
        state := if sgiPend ≠ 0 then i.state ||| pend else i.state &&& ~~~pend }
      if (s.ints r).state ≠ inv then vgicAddLr g s v r else some s

/-- `vgic_inject` on the cpu of `v`. -/
def vgicInject (s : VgicState n) (v : Fin n) (id : Nat) (source : BitVec 64) :
    Option (VgicState n) :=
  match vgicGetInt g id v with
  | none => some s
  | some r =>
    if vgicIntIsHw s r then
      if s.locked r then none
      else vgicRoute g
        (s.setInt r { s.ints r with owner := some v, state := pend, inLr := false }) v r
    else if g.version = .gicv2 ∧ gicIsSgi id then vgicInjectSgi g s v r source
    else vgicIntSetField g s v .ispendr r 1

/-- The case `VGIC_ROUTE` of `vgic_ipi_handler`. -/
def vgicHandleRoute (s : VgicState n) (v : Fin n) (intId : Nat) : Option (VgicState n) :=
  match vgicGetInt g intId v with
  | none => some s
  | some r =>
    if s.locked r then none
    else
      match vgicGetOwnership s v r with
      | (true, s) =>
        (if vgicIntVcpuIsTarget g v r (s.ints r) then vgicAddLr g s v r else some s).map fun s =>
          vgicYieldOwnership g s v r
      | (false, s) => some s

/-- The call of `vgic_int_set_field` in the case `VGIC_SET_REG` of `vgic_ipi_handler`. -/
def setRegCall (data : BitVec 64) : Option (RegHandler × IntRef n × BitVec 64) :=
  match vgicGetRegHandlerInfo (vgicMsgReg data),
    vgicGetInt g (vgicMsgIntid data) (vgicMsgVgicrid data) with
  | some h, some r => some (h, r, vgicMsgVal data)
  | _, _ => none

/-- `vgic_ipi_handler` on the cpu of `v`; a message for another VM ends in `ERROR`. The enable bit
that `VGIC_UPDATE_ENABLE` copies is no part of the state here. -/
def vgicIpiHandler (s : VgicState n) (v : Fin n) (msg : VgicMsg) : Option (VgicState n) :=
  if vgicMsgVm msg.data ≠ g.vmId then none
  else
    match msg.event with
    | .updateEnable => some s
    | .route => vgicHandleRoute g s v (vgicMsgIntid msg.data)
    | .inject => vgicInject g s v (vgicMsgIntid msg.data) (vgicMsgVal msg.data)
    | .setReg =>
      match setRegCall g msg.data with
      | some (h, r, val) => vgicIntSetField g s v h r val
      | none => some s

def vgicSendSgiMsg (s : VgicState n) (v : Fin n) (pcpuMask intId : Nat) : VgicState n :=
  let msg : VgicMsg := ⟨.inject, vgicMsgData g.vmId 0 intId 0 (BitVec.ofNat 64 v)⟩
  ((List.range g.cpuNum).filter pcpuMask.testBit).foldl (fun s i => s.cpuSendMsg msg i) s

end Functions

end Bao.Armv8
