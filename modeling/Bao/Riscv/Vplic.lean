import Mathlib.Data.BitVec
import Bao.Foundation.Logged
import Bao.Riscv.Plic

/-!
# The virtual platform-level interrupt controller

The state of a VM's virtual controller and the functions of `arch/riscv/vplic.c` that work on it.

The arrays of `vplic_t` follow each other in memory without gaps, so they are modelled as one
memory of 32-bit words: an index beyond the end of one array is a location of the next one. Each
function records the array elements it uses, in the order in which it uses them.

An interrupt id is an `int` in the source. Here it is the 64-bit number it is converted to when it
becomes an index, so that the negative ids are those from `2 ^ 63` on.
-/

namespace Bao

/-- `PLIC_MAX_INTERRUPTS`. -/
def plicMaxInterrupts : Nat := 1024

/-- An element of one of the arrays of `vplic_t`. -/
inductive Access where
  | hw (id : Nat)
  | pend (id : Nat)
  | act (id : Nat)
  | prio (id : Nat)
  | enbl (vcntxt id : Nat)
  | threshold (vcntxt : Nat)
  deriving DecidableEq

/-- The words of `vplic_t` from the start of `hw` on. -/
abbrev VplicMem := Nat → BitVec 32

/-! The bit addresses of the bitmaps, and the word addresses of `prio` and `threshold`. -/

def pendAt (id : Nat) : Nat := plicMaxInterrupts + id
def actAt (id : Nat) : Nat := 2 * plicMaxInterrupts + id
def prioAt (id : Nat) : Nat := 96 + id
def enblAt (vcntxt id : Nat) : Nat :=
  32 * (96 + plicMaxInterrupts) + plicMaxInterrupts * vcntxt + id
def thresholdAt (plat : PlicPlat) (vcntxt : Nat) : Nat :=
  96 + plicMaxInterrupts + 32 * plat.cntxtNum + vcntxt

def memBit (mem : VplicMem) (k : Nat) : Bool := (mem (k / 32)).getLsbD (k % 32)

def memWriteBit (mem : VplicMem) (k : Nat) (v : Bool) : VplicMem :=
  Function.update mem (k / 32)
    (if v then mem (k / 32) ||| 1#32 <<< (k % 32) else mem (k / 32) &&& ~~~ (1#32 <<< (k % 32)))

/-- The test `id <= PLIC_MAX_INTERRUPTS` on `int`s. -/
def IdLe (id : Nat) : Prop := id ≤ plicMaxInterrupts ∨ 2 ^ 63 ≤ id

instance : DecidablePred IdLe := fun _ => inferInstanceAs (Decidable (_ ∨ _))

/-- What the virtual controller of a VM is configured with: `vm->cpus` and `cntxt_num`. -/
structure VplicVm where
  plat : PlicPlat
  cpus : Nat
  cntxtNum : Nat

/-- The virtual controller with what its functions change outside it: the CSRs of the harts, the
contexts in the `UPDATE_HART_LINE` messages that each hart still has to handle, and the physical
controller. -/
structure VplicState where
  mem : VplicMem := fun _ => 0
  csrs : Nat → Csrs := fun _ => {}
  msgs : Nat → List Nat := fun _ => []
  plic : Plic := {}

/-- What a guest access leaves: the state, the value for the guest's register when it was a load,
and the context whose line is still to be updated once the lock is released. -/
structure VplicResult where
  state : VplicState
  val : Option Word := none
  line : Option Nat := none

/-- `emul_access_t`, with the contents of the register `reg` in place of its number. -/
structure EmulAccess where
  addr : Word
  width : Nat
  write : Bool
  regVal : Word := 0

def vplicVcntxtToPcntxt (vm : VplicVm) (vcntxtId : Nat) : Option Nat :=
  let vcntxt := plicPlatIdToCntxt vm.plat (some vcntxtId)
  match vmTranslateToPcpuid vm.cpus vcntxt.hartId with
  | some hartId => plicPlatCntxtToId ⟨hartId, vcntxt.mode⟩
  | none => none

def vplicVcntxtValid (vm : VplicVm) (vcntxtId : Nat) : Bool :=
  vcntxtId < vm.cntxtNum && (plicPlatIdToCntxt vm.plat (some vcntxtId)).mode ≠ .m

def vplicGetPend (mem : VplicMem) (id : Nat) : Logged Access Bool :=
  if IdLe id then .touch (.pend id) (memBit mem (pendAt id)) else pure false

def vplicGetAct (mem : VplicMem) (id : Nat) : Logged Access Bool :=
  if IdLe id then .touch (.act id) (memBit mem (actAt id)) else pure false

def vplicGetEnbl (mem : VplicMem) (vcntxt id : Nat) : Logged Access Bool :=
  if IdLe id then .touch (.enbl vcntxt id) (memBit mem (enblAt vcntxt id)) else pure false

def vplicGetPrio (mem : VplicMem) (id : Nat) : Logged Access (BitVec 32) :=
  if IdLe id then .touch (.prio id) (mem (prioAt id)) else pure 0

def vplicGetHw (mem : VplicMem) (id : Nat) : Logged Access Bool :=
  if IdLe id then .touch (.hw id) (memBit mem id) else pure false

def vplicGetTheshold (plat : PlicPlat) (mem : VplicMem) (vcntxt : Nat) :
    Logged Access (BitVec 32) :=
  .touch (.threshold vcntxt) (mem (thresholdAt plat vcntxt))

def vplicSetHw (mem : VplicMem) (id : Nat) : Logged Access VplicMem :=
  if IdLe id then .touch (.hw id) (memWriteBit mem id true) else pure mem

/-- The body of the loop of `vplic_next_pending`, on `max_prio` and `int_id`. -/
def vplicNextPendingBody (mem : VplicMem) (vcntxt : Nat) (best : BitVec 32 × Nat) (i : Nat) :
    Logged Access (BitVec 32 × Nat) := do
  let pend ← vplicGetPend mem i
  if pend then
    let act ← vplicGetAct mem i
    if act then pure best
    else
      let enbl ← vplicGetEnbl mem vcntxt i
      if enbl then
        let prio ← vplicGetPrio mem i
        pure (if best.1 < prio then (prio, i) else best)
      else pure best
  else pure best

def vplicNextPending (plat : PlicPlat) (mem : VplicMem) (vcntxt : Nat) : Logged Access Nat := do
  -- The loop runs up to and including `PLIC_MAX_INTERRUPTS`.
  let best ← (List.range (plicMaxInterrupts + 1)).foldlM (vplicNextPendingBody mem vcntxt) (0, 0)
  let threshold ← vplicGetTheshold plat mem vcntxt
  pure (if threshold < best.1 then best.2 else 0)

def VplicState.setVseip (s : VplicState) (hart : Nat) (v : Bool) : VplicState :=
  let hvip := (s.csrs hart).hvip
  let hvip := if v then hvip ||| hipVseip else hvip &&& ~~~ hipVseip
  { s with csrs := Function.update s.csrs hart { s.csrs hart with hvip := hvip } }

/-- `cpu_send_msg` of an `UPDATE_HART_LINE` message. -/
def VplicState.sendMsg (s : VplicState) (hart vcntxt : Nat) : VplicState :=
  { s with msgs := Function.update s.msgs hart (s.msgs hart ++ [vcntxt]) }

/-- The physical hart that `vplic_update_hart_line` takes for that of a context. -/
def lineHart (vm : VplicVm) (vcntxt : Nat) : Nat :=
  (plicPlatIdToCntxt vm.plat (vplicVcntxtToPcntxt vm vcntxt)).hartId

/-- `vplic_update_hart_line` on the physical cpu `cpu`. -/
def vplicUpdateHartLine (vm : VplicVm) (cpu vcntxt : Nat) (s : VplicState) :
    Logged Access VplicState :=
  if lineHart vm vcntxt = cpu then do
    let id ← vplicNextPending vm.plat s.mem vcntxt
    pure (s.setVseip cpu (id ≠ 0))
  else
    pure (s.sendMsg (lineHart vm vcntxt) vcntxt)

/-- `vplic_set_threshold` up to the release of the lock. -/
def vplicSetThreshold (vm : VplicVm) (vcntxt : Nat) (threshold : BitVec 32) (s : VplicState) :
    Logged Access VplicResult := do
  let s ← .touch (.threshold vcntxt)
    { s with mem := Function.update s.mem (thresholdAt vm.plat vcntxt) threshold }
  let plic := plicSetThreshold vm.plat s.plic (vplicVcntxtToPcntxt vm vcntxt) threshold
  pure { state := { s with plic := plic }, line := some vcntxt }

def vplicSetEnbl (vm : VplicVm) (cpu vcntxt id : Nat) (set : Bool) (s : VplicState) :
    Logged Access VplicState :=
  if IdLe id then do
    let enbl ← vplicGetEnbl s.mem vcntxt id
    if enbl ≠ set then
      let s ← .touch (.enbl vcntxt id) { s with mem := memWriteBit s.mem (enblAt vcntxt id) set }
      let hw ← vplicGetHw s.mem id
      if hw then
        pure { s with plic := plicSetEnbl vm.plat s.plic (vplicVcntxtToPcntxt vm vcntxt) id set }
      else vplicUpdateHartLine vm cpu vcntxt s
    else pure s
  else pure s

/-- The body of the loop of `vplic_set_prio` over the contexts. -/
def vplicSetPrioBody (vm : VplicVm) (cpu id : Nat) (s : VplicState) (i : Nat) :
    Logged Access VplicState :=
  if (plicPlatIdToCntxt vm.plat (some i)).mode ≠ .s then pure s
  else do
    let enbl ← vplicGetEnbl s.mem i id
    if enbl then vplicUpdateHartLine vm cpu i s else pure s

def vplicSetPrio (vm : VplicVm) (cpu id : Nat) (prio : BitVec 32) (s : VplicState) :
    Logged Access VplicState :=
  if IdLe id then do
    let old ← vplicGetPrio s.mem id
    if old ≠ prio then
      let s ← .touch (.prio id) { s with mem := Function.update s.mem (prioAt id) prio }
      let hw ← vplicGetHw s.mem id
      if hw then pure { s with plic := plicSetPrio vm.plat s.plic id prio }
      else (List.range vm.cntxtNum).foldlM (vplicSetPrioBody vm cpu id) s
    else pure s
  else pure s

/-- `vplic_claim` up to the release of the lock. -/
def vplicClaim (vm : VplicVm) (vcntxt : Nat) (s : VplicState) : Logged Access VplicResult := do
  let intId ← vplicNextPending vm.plat s.mem vcntxt
  let mem ← .touch (.pend intId) (memWriteBit s.mem (pendAt intId) false)
  let mem ← .touch (.act intId) (memWriteBit mem (actAt intId) true)
  pure { state := { s with mem := mem }, val := some (BitVec.ofNat 64 intId), line := some vcntxt }

/-- `vplic_complete` up to the release of the lock. The id is whatever the guest stored. -/
def vplicComplete (cpu vcntxt intId : Nat) (s : VplicState) : Logged Access VplicResult := do
  let hw ← vplicGetHw s.mem intId
  let plic := if hw then { s.plic with complete := (cpu * 2 + 1, intId) :: s.plic.complete }
    else s.plic
  let mem ← .touch (.act intId) (memWriteBit s.mem (actAt intId) false)
  pure { state := { s with mem := mem, plic := plic }, line := some vcntxt }

/-- The body of the loop of `vplic_inject` over the contexts. -/
def vplicInjectBody (vm : VplicVm) (cpu id : Nat) (s : VplicState) (i : Nat) :
    Logged Access VplicState :=
  if (plicPlatIdToCntxt vm.plat (some i)).mode ≠ .s then pure s
  else do
    let enbl ← vplicGetEnbl s.mem i id
    if enbl then
      let prio ← vplicGetPrio s.mem id
      let threshold ← vplicGetTheshold vm.plat s.mem i
      if threshold < prio then vplicUpdateHartLine vm cpu i s else pure s
    else pure s

/-- `vplic_inject` for the vcpu with number `vcpuId`, on the physical cpu `cpu`. -/
def vplicInject (vm : VplicVm) (cpu vcpuId id : Nat) (s : VplicState) :
    Logged Access VplicState :=
  if 0 < id ∧ id ≤ plicMaxInterrupts then do
    let pend ← vplicGetPend s.mem id
    if pend then pure s
    else
      let s ← .touch (.pend id) { s with mem := memWriteBit s.mem (pendAt id) true }
      let hw ← vplicGetHw s.mem id
      if hw then vplicUpdateHartLine vm cpu (vcpuId * 2 + 1) s
      else (List.range vm.cntxtNum).foldlM (vplicInjectBody vm cpu id) s
  else pure s

/-! The register, context and first interrupt that the handlers decode from an address. -/

def globalAccessReg (vm : VplicVm) (acc : EmulAccess) : Nat :=
  ((acc.addr - vm.plat.plicBase) &&& 0xfff).toNat / 4

def enblAccessCntxt (vm : VplicVm) (acc : EmulAccess) : Nat :=
  ((acc.addr - vm.plat.plicBase - 0x2000) &&& 0x1fffff).toNat / 4 / 32

def enblAccessFirst (vm : VplicVm) (acc : EmulAccess) : Nat :=
  ((acc.addr - vm.plat.plicBase) &&& 0x7f).toNat / 4 * 32

def hartAccessCntxt (vm : VplicVm) (acc : EmulAccess) : Nat :=
  (((acc.addr - vm.plat.plicBase - 0x200000) >>> 12) &&& 0x3ff).toNat

/-- The sign extension of the low half of a register: an `int` argument as an index. -/
def intArg (val : Word) : Nat := ((val.setWidth 32).signExtend 64).toNat

def vplicEmulPrioAccess (vm : VplicVm) (cpu : Nat) (acc : EmulAccess) (s : VplicState) :
    Logged Access VplicResult :=
  let intId := globalAccessReg vm acc
  if acc.write then do
    let s ← vplicSetPrio vm cpu intId (acc.regVal.setWidth 32) s
    pure { state := s }
  else do
    let prio ← vplicGetPrio s.mem intId
    pure { state := s, val := some (prio.setWidth 64) }

/-- The loop of `vplic_emul_pend_access`. -/
def vplicPendWord (mem : VplicMem) (firstInt : Nat) : Logged Access (BitVec 32) :=
  (List.range 32).foldlM (fun val i => do
    let pend ← vplicGetPend mem (firstInt + i)
    pure (if pend then val ||| 1#32 <<< i else val)) 0

def vplicEmulPendAccess (vm : VplicVm) (acc : EmulAccess) (s : VplicState) :
    Logged Access VplicResult :=
  if acc.write then pure { state := s }
  else do
    let val ← vplicPendWord s.mem (globalAccessReg vm acc * 32)
    pure { state := s, val := some (val.setWidth 64) }

/-- The loop of `vplic_emul_enbl_access` for a load. -/
def vplicEnblWord (mem : VplicMem) (vcntxt firstInt : Nat) : Logged Access Word :=
  (List.range 32).foldlM (fun val i => do
    let enbl ← vplicGetEnbl mem vcntxt (firstInt + i)
    pure (if enbl then val ||| 1#64 <<< i else val)) 0

/-- The loop of `vplic_emul_enbl_access` for a store. -/
def vplicSetEnblWord (vm : VplicVm) (cpu vcntxt firstInt : Nat) (val : Word) (s : VplicState) :
    Logged Access VplicState :=
  (List.range 32).foldlM
    (fun s i => vplicSetEnbl vm cpu vcntxt (firstInt + i) (val.getLsbD i) s) s

def vplicEmulEnblAccess (vm : VplicVm) (cpu : Nat) (acc : EmulAccess) (s : VplicState) :
    Logged Access VplicResult :=
  let vcntxtId := enblAccessCntxt vm acc
  let firstInt := enblAccessFirst vm acc
  if acc.write then
    if vplicVcntxtValid vm vcntxtId then do
      let s ← vplicSetEnblWord vm cpu vcntxtId firstInt acc.regVal s
      pure { state := s }
    else pure { state := s }
  else if vplicVcntxtValid vm vcntxtId then do
    let val ← vplicEnblWord s.mem vcntxtId firstInt
    pure { state := s, val := some val }
  else pure { state := s, val := some 0 }

/-- `vplic_global_emul_handler`, with `none` for the result `false`. -/
def vplicGlobalEmulHandler (vm : VplicVm) (cpu : Nat) (acc : EmulAccess) (s : VplicState) :
    Option (Logged Access VplicResult) :=
  if acc.width ≠ 4 ∨ acc.addr &&& 3 ≠ 0 then none
  else match ((acc.addr >>> 12) &&& 3).toNat with
    | 0 => some (vplicEmulPrioAccess vm cpu acc s)
    | 1 => some (vplicEmulPendAccess vm acc s)
    | _ => some (vplicEmulEnblAccess vm cpu acc s)

/-- `vplic_hart_emul_handler`, with `none` for the result `false`. -/
def vplicHartEmulHandler (vm : VplicVm) (cpu : Nat) (acc : EmulAccess) (s : VplicState) :
    Option (Logged Access VplicResult) :=
  let vcntxt := hartAccessCntxt vm acc
  if 4 < acc.width ∨ acc.addr &&& 3 ≠ 0 then none
  else if vplicVcntxtValid vm vcntxt = false then
    some (pure { state := s, val := if acc.write then none else some 0 })
  else match (acc.addr &&& 0xf).toNat with
    | 0 =>
      if acc.write then some (vplicSetThreshold vm vcntxt (acc.regVal.setWidth 32) s)
      else some do
        let threshold ← vplicGetTheshold vm.plat s.mem vcntxt
        pure { state := s, val := some (threshold.setWidth 64) }
    | 4 =>
      if acc.write then some (vplicComplete cpu vcntxt (intArg acc.regVal) s)
      else some (vplicClaim vm vcntxt s)
    | _ => some (pure { state := s })

/-! ### Reading and writing the memory -/

theorem memBit_memWriteBit (mem : VplicMem) (k j : Nat) (v : Bool) :
    memBit (memWriteBit mem k v) j = if j = k then v else memBit mem j := by
  unfold memBit memWriteBit
  by_cases hword : j / 32 = k / 32
  · rw [hword, Function.update_self]
    cases v <;> simp <;> grind
  · have hne : j ≠ k := fun h => hword (h ▸ rfl)
    rw [Function.update_of_ne hword, if_neg hne]

variable {mem : VplicMem} {vcntxt id k j n : Nat} {best : BitVec 32 × Nat} {plat : PlicPlat}

theorem memWriteBit_word {v : Bool} (h : k / 32 ≠ j) : memWriteBit mem k v j = mem j :=
  Function.update_of_ne h.symm ..

theorem memBit_update_word {w : BitVec 32} (h : k / 32 ≠ j) :
    memBit (Function.update mem j w) k = memBit mem k := by
  rw [memBit, Function.update_of_ne h, memBit]

/-! ### The next pending interrupt -/

/-- `id` is pending, not active, and enabled for the context. -/
structure Candidate (mem : VplicMem) (vcntxt id : Nat) : Prop where
  pend : memBit mem (pendAt id) = true
  act : memBit mem (actAt id) = false
  enbl : memBit mem (enblAt vcntxt id) = true

theorem candidate_iff : Candidate mem vcntxt id ↔
    memBit mem (pendAt id) = true ∧ memBit mem (actAt id) = false ∧
      memBit mem (enblAt vcntxt id) = true :=
  ⟨fun h => ⟨h.pend, h.act, h.enbl⟩, fun ⟨hpend, hact, henbl⟩ => ⟨hpend, hact, henbl⟩⟩

instance (mem : VplicMem) (vcntxt id : Nat) : Decidable (Candidate mem vcntxt id) :=
  decidable_of_iff _ candidate_iff.symm

/-- `id` is a candidate for the context and its priority exceeds the context's threshold. -/
structure Deliverable (plat : PlicPlat) (mem : VplicMem) (vcntxt id : Nat) : Prop
    extends Candidate mem vcntxt id where
  prio : mem (thresholdAt plat vcntxt) < mem (prioAt id)

theorem idLe_of_le (h : id ≤ plicMaxInterrupts) : IdLe id := .inl h

theorem vplicNextPendingBody_val {i : Nat} (hi : i ≤ plicMaxInterrupts) :
    (vplicNextPendingBody mem vcntxt best i).val =
      if Candidate mem vcntxt i ∧ best.1 < mem (prioAt i) then (mem (prioAt i), i) else best := by
  have hle := idLe_of_le hi
  simp only [vplicNextPendingBody, vplicGetPend, vplicGetAct, vplicGetEnbl, vplicGetPrio, hle,
    if_true, Logged.val_bind, Logged.val_touch, Logged.val_ite, Logged.val_pure]
  grind [candidate_iff]

/-- What the loop of `vplic_next_pending` has found after the ids below `n`: nothing, if no
candidate has a priority, and otherwise the first candidate of the greatest priority. -/
structure BestPending (mem : VplicMem) (vcntxt n : Nat) (best : BitVec 32 × Nat) : Prop where
  none : best.1 = 0 → best.2 = 0
  some : 0 < best.1 → best.2 < n ∧ Candidate mem vcntxt best.2 ∧ mem (prioAt best.2) = best.1
  max : ∀ i < n, Candidate mem vcntxt i → mem (prioAt i) ≤ best.1
  first : ∀ i < best.2, Candidate mem vcntxt i → mem (prioAt i) < best.1

theorem BestPending.body (h : BestPending mem vcntxt n best) (hn : n ≤ plicMaxInterrupts) :
    BestPending mem vcntxt (n + 1) (vplicNextPendingBody mem vcntxt best n).val := by
  rw [vplicNextPendingBody_val hn]
  split
  · next hbetter =>
    obtain ⟨hc, hlt⟩ := hbetter
    refine ⟨fun h0 => ?_, fun _ => ⟨by simp, hc, rfl⟩, fun i hi hci => ?_, fun i hi hci => ?_⟩
    · simp only at h0; rw [h0] at hlt; exact absurd hlt (BitVec.not_lt_zero)
    · rcases Nat.lt_succ_iff_lt_or_eq.mp hi with hi | rfl
      · have := h.max i hi hci
        bv_omega
      · exact BitVec.le_refl _
    · have := h.max i hi hci
      bv_omega
  · next hworse =>
    refine ⟨h.none, fun hpos => ?_, fun i hi hci => ?_, h.first⟩
    · obtain ⟨hlt, hrest⟩ := h.some hpos
      exact ⟨by omega, hrest⟩
    · rcases Nat.lt_succ_iff_lt_or_eq.mp hi with hi | rfl
      · exact h.max i hi hci
      · exact BitVec.not_lt.mp fun hlt => hworse ⟨hci, hlt⟩

theorem bestPending_foldl (hn : n ≤ plicMaxInterrupts + 1) :
    BestPending mem vcntxt n
      ((List.range n).foldl (fun best i => (vplicNextPendingBody mem vcntxt best i).val)
        (0, 0)) := by
  induction n with
  | zero =>
    exact ⟨fun _ => rfl, fun h => absurd h (BitVec.lt_irrefl _), fun i hi => absurd hi (by omega),
      fun i hi => absurd hi (Nat.not_lt_zero i)⟩
  | succ n ih =>
    rw [List.range_succ, List.foldl_concat]
    exact (ih (by omega)).body (by omega)

theorem vplicNextPending_eq (plat : PlicPlat) (mem : VplicMem) (vcntxt : Nat) :
    ∃ best, BestPending mem vcntxt (plicMaxInterrupts + 1) best ∧
      (vplicNextPending plat mem vcntxt).val =
        if mem (thresholdAt plat vcntxt) < best.1 then best.2 else 0 := by
  refine ⟨_, bestPending_foldl (le_refl _), ?_⟩
  simp only [vplicNextPending, vplicGetTheshold, Logged.val_bind, Logged.val_foldlM,
    Logged.val_touch, Logged.val_pure]

theorem vplicNextPending_spec (h : (vplicNextPending plat mem vcntxt).val = id) (hid : id ≠ 0) :
    id ≤ plicMaxInterrupts ∧ Deliverable plat mem vcntxt id := by
  obtain ⟨best, hbest, hval⟩ := vplicNextPending_eq plat mem vcntxt
  rw [hval] at h
  split at h
  · next hlt =>
    obtain ⟨hbound, hc, hprio⟩ := hbest.some (by bv_omega)
    subst h
    exact ⟨Nat.lt_succ_iff.mp hbound, hc, hprio ▸ hlt⟩
  · exact absurd h.symm hid

/-- `vplic_next_pending` returns an interrupt exactly when one can be delivered to the context,
provided that the id 0 is not pending: the loop would take it for the absence of an interrupt. -/
theorem vplicNextPending_ne_zero_iff (h0 : memBit mem (pendAt 0) = false) :
    (vplicNextPending plat mem vcntxt).val ≠ 0 ↔
      ∃ id ≤ plicMaxInterrupts, Deliverable plat mem vcntxt id := by
  refine ⟨fun hne => ⟨_, vplicNextPending_spec rfl hne⟩, ?_⟩
  rintro ⟨id, hid, hd⟩
  obtain ⟨best, hbest, hval⟩ := vplicNextPending_eq plat mem vcntxt
  have hmax := hbest.max id (by omega) hd.toCandidate
  have hlt : mem (thresholdAt plat vcntxt) < best.1 := by
    have := hd.prio
    bv_omega
  rw [hval, if_pos hlt]
  obtain ⟨-, hc, -⟩ := hbest.some (by bv_omega)
  intro hzero
  rw [hzero, candidate_iff, h0] at hc
  exact absurd hc.1 (by decide)

/-! ### The claim rule -/

/-- The memory once the interrupt `id` has been claimed: no longer pending, and active. -/
def claimedMem (mem : VplicMem) (id : Nat) : VplicMem :=
  memWriteBit (memWriteBit mem (pendAt id) false) (actAt id) true

/-- `id` is the interrupt that a claim has to return: the lowest one of the greatest priority
among the ids that can be delivered to the context. -/
structure FirstDeliverable (plat : PlicPlat) (mem : VplicMem) (vcntxt id : Nat) : Prop
    extends Deliverable plat mem vcntxt id where
  pos : 0 < id
  lt : id < plicMaxInterrupts
  max : ∀ j, 0 < j → j < plicMaxInterrupts → Deliverable plat mem vcntxt j →
    mem (prioAt j) ≤ mem (prioAt id)
  first : ∀ j, 0 < j → j < id → Deliverable plat mem vcntxt j → mem (prioAt j) < mem (prioAt id)

/-- No interrupt of the controller can be delivered to the context. -/
def NoneDeliverable (plat : PlicPlat) (mem : VplicMem) (vcntxt : Nat) : Prop :=
  ∀ id, 0 < id → id < plicMaxInterrupts → ¬ Deliverable plat mem vcntxt id

/-- The claim rule: the first deliverable interrupt is returned and becomes active, and without
one the claim returns 0 and changes nothing. -/
def ClaimRule (vm : VplicVm) (vcntxt : Nat) (s : VplicState) : Prop :=
  let r := (vplicClaim vm vcntxt s).val
  (∃ id, FirstDeliverable vm.plat s.mem vcntxt id ∧ r.val = some (BitVec.ofNat 64 id) ∧
    r.state.mem = claimedMem s.mem id) ∨
  (NoneDeliverable vm.plat s.mem vcntxt ∧ r.val = some 0 ∧ r.state.mem = s.mem)

theorem vplicClaim_val (vm : VplicVm) (vcntxt : Nat) (s : VplicState) :
    (vplicClaim vm vcntxt s).val.val =
        some (BitVec.ofNat 64 (vplicNextPending vm.plat s.mem vcntxt).val) ∧
      (vplicClaim vm vcntxt s).val.state.mem =
        claimedMem s.mem (vplicNextPending vm.plat s.mem vcntxt).val := by
  simp only [vplicClaim, Logged.val_bind, Logged.val_touch, Logged.val_pure, claimedMem, and_self]

/-- What `vplic_next_pending` returns when the id 0 is not pending: the id
`PLIC_MAX_INTERRUPTS`, which lies past the arrays, the first deliverable interrupt, or 0. -/
theorem vplicNextPending_cases (plat : PlicPlat) (vcntxt : Nat)
    (h0 : memBit mem (pendAt 0) = false) :
    ((vplicNextPending plat mem vcntxt).val = plicMaxInterrupts ∧
      Deliverable plat mem vcntxt plicMaxInterrupts ∧
      ∀ j, 0 < j → j < plicMaxInterrupts → Deliverable plat mem vcntxt j →
        mem (prioAt j) < mem (prioAt plicMaxInterrupts)) ∨
    (FirstDeliverable plat mem vcntxt (vplicNextPending plat mem vcntxt).val ∧
      (Deliverable plat mem vcntxt plicMaxInterrupts → mem (prioAt plicMaxInterrupts) ≤
        mem (prioAt (vplicNextPending plat mem vcntxt).val))) ∨
    ((vplicNextPending plat mem vcntxt).val = 0 ∧
      ∀ j ≤ plicMaxInterrupts, ¬ Deliverable plat mem vcntxt j) := by
  obtain ⟨best, hbest, hval⟩ := vplicNextPending_eq plat mem vcntxt
  by_cases hlt : mem (thresholdAt plat vcntxt) < best.1
  · rw [hval, if_pos hlt]
    obtain ⟨hbound, hc, hprio⟩ := hbest.some (by bv_omega)
    have hd : Deliverable plat mem vcntxt best.2 := ⟨hc, hprio ▸ hlt⟩
    have hpos : best.2 ≠ 0 := by
      intro hzero
      rw [hzero, candidate_iff, h0] at hc
      exact absurd hc.1 (by decide)
    have hmax : ∀ j ≤ plicMaxInterrupts, Deliverable plat mem vcntxt j →
        mem (prioAt j) ≤ mem (prioAt best.2) := fun j hj hdj =>
      hprio ▸ hbest.max j (by omega) hdj.toCandidate
    have hfirst : ∀ j < best.2, Deliverable plat mem vcntxt j →
        mem (prioAt j) < mem (prioAt best.2) := fun j hj hdj =>
      hprio ▸ hbest.first j hj hdj.toCandidate
    rcases Nat.lt_or_ge best.2 plicMaxInterrupts with hin | hout
    · exact .inr (.inl ⟨⟨hd, by omega, hin, fun j _ hj => hmax j (by omega),
        fun j _ hj => hfirst j hj⟩, hmax _ (le_refl _)⟩)
    · have hid : best.2 = plicMaxInterrupts := by omega
      rw [hid] at hd hfirst ⊢
      exact .inl ⟨rfl, hd, fun j _ hj => hfirst j hj⟩
  · refine .inr (.inr ⟨by rw [hval, if_neg hlt], fun j hj hd => hlt ?_⟩)
    have hle := hbest.max j (by omega) hd.toCandidate
    have hprio := hd.prio
    bv_omega

theorem memBit_claimedMem_act (mem : VplicMem) (id : Nat) :
    memBit (claimedMem mem id) (actAt id) = true := by
  rw [claimedMem, memBit_memWriteBit, if_pos rfl]

theorem mem_ext_memBit {mem' : VplicMem} (h : ∀ k, memBit mem k = memBit mem' k) : mem = mem' := by
  funext w
  refine BitVec.eq_of_getLsbD_eq fun i hi => ?_
  have hbit := h (32 * w + i)
  rwa [memBit, memBit, show (32 * w + i) / 32 = w by omega, show (32 * w + i) % 32 = i by omega]
    at hbit

/-- Clearing a clear bit and setting another one changes the memory unless that one is set. -/
theorem claimedMem_eq_self_iff (h0 : memBit mem (pendAt 0) = false) :
    claimedMem mem 0 = mem ↔ memBit mem (actAt 0) = true := by
  refine ⟨fun h => ?_, fun hact => ?_⟩
  · have hset := memBit_claimedMem_act mem 0
    rwa [h] at hset
  · refine mem_ext_memBit fun j => ?_
    rw [claimedMem, memBit_memWriteBit, memBit_memWriteBit]
    split
    · next hj => rw [hj, hact]
    · split
      · next hj => rw [hj, h0]
      · rfl

/-- `vplic_claim` follows the claim rule exactly in the states in which the id
`PLIC_MAX_INTERRUPTS`, read past the ends of the arrays, does not win the scan, and in which
either there is something to claim or the id 0 is already active: without anything to claim the
function clears and sets the bits of the id 0. -/
theorem vplicClaim_rule_iff (vm : VplicVm) (vcntxt : Nat) (s : VplicState)
    (h0 : memBit s.mem (pendAt 0) = false) : ClaimRule vm vcntxt s ↔
      ¬ (Deliverable vm.plat s.mem vcntxt plicMaxInterrupts ∧
        ∀ id, 0 < id → id < plicMaxInterrupts → Deliverable vm.plat s.mem vcntxt id →
          s.mem (prioAt id) < s.mem (prioAt plicMaxInterrupts)) ∧
      ((∃ id, 0 < id ∧ id < plicMaxInterrupts ∧ Deliverable vm.plat s.mem vcntxt id) ∨
        memBit s.mem (actAt 0) = true) := by
  obtain ⟨hval, hmem⟩ := vplicClaim_val vm vcntxt s
  simp only [ClaimRule, hval, hmem, Option.some.injEq]
  rcases vplicNextPending_cases vm.plat vcntxt h0 with
    ⟨hnext, hd, hlt⟩ | ⟨hfirst, hle⟩ | ⟨hnext, hnone⟩
  · -- The id past the arrays is returned, which is neither 0 nor the id of an interrupt.
    rw [hnext]
    refine iff_of_false ?_ fun h => h.1 ⟨hd, hlt⟩
    rintro (⟨id, hid, heq, -⟩ | ⟨-, heq, -⟩)
    · have hlt := hid.lt
      simp only [plicMaxInterrupts] at heq hlt
      bv_omega
    · exact absurd heq (by decide)
  · refine iff_of_true (.inl ⟨_, hfirst, rfl, rfl⟩)
      ⟨fun h => ?_, .inl ⟨_, hfirst.pos, hfirst.lt, hfirst.toDeliverable⟩⟩
    have hwins := h.2 _ hfirst.pos hfirst.lt hfirst.toDeliverable
    have hloses := hle h.1
    bv_omega
  · have hno : NoneDeliverable vm.plat s.mem vcntxt := fun id _ hid => hnone id (by omega)
    rw [hnext, claimedMem_eq_self_iff h0]
    constructor
    · rintro (⟨id, hid, -⟩ | ⟨-, -, hact⟩)
      · exact absurd hid.toDeliverable (hno id hid.pos hid.lt)
      · exact ⟨fun h => hnone _ (le_refl _) h.1, .inr hact⟩
    · rintro ⟨-, ⟨id, hpos, hlt, hd⟩ | hact⟩
      · exact absurd hd (hno id hpos hlt)
      · exact .inr ⟨hno, rfl, hact⟩

/-- The interrupts 5, 9 and 33 are pending and enabled for context 1, two of them with the same
priority, 3 is active, and the context has a threshold. -/
def threePending : VplicState where
  mem w :=
    if w = 32 then 0x220 else if w = 33 then 0x2 else if w = 64 then 0x8
    else if w = 101 then 2 else if w = 105 ∨ w = 129 then 3
    else if w = 1152 then 0x228 else if w = 1153 then 0x2 else if w = 5217 then 1 else 0

/-- A claim of context 1 among these. -/
theorem vplicClaim_rule_three_pending :
    let vm : VplicVm := { plat := ⟨8, 128, 0xc000000⟩, cpus := 1, cntxtNum := 2 }
    memBit threePending.mem (pendAt 0) = false ∧
      (∀ id ∈ [5, 9, 33], Deliverable vm.plat threePending.mem 1 id) ∧
      ClaimRule vm 1 threePending := by
  intro vm
  have h0 : memBit threePending.mem (pendAt 0) = false := by decide
  have hall : ∀ id ∈ [5, 9, 33], Deliverable vm.plat threePending.mem 1 id := by
    intro id hid
    simp only [List.mem_cons, List.not_mem_nil, or_false] at hid
    rcases hid with rfl | rfl | rfl
    all_goals exact ⟨⟨by decide, by decide, by decide⟩, by decide⟩
  have hend : memBit threePending.mem (pendAt plicMaxInterrupts) = false := by decide
  refine ⟨h0, hall, (vplicClaim_rule_iff vm 1 threePending h0).mpr ⟨fun h => ?_,
    .inl ⟨9, by decide, by decide, hall 9 (by decide)⟩⟩⟩
  have hpend := h.1.pend
  rw [hend] at hpend
  exact absurd hpend (by decide)

/-- In the state in which a controller starts, where nothing is pending, a claim returns 0 but
sets the active bit of the id 0. -/
theorem vplicClaim_idle_breaks_rule :
    let vm : VplicVm := { plat := ⟨8, 128, 0xc000000⟩, cpus := 1, cntxtNum := 2 }
    memBit ({} : VplicState).mem (pendAt 0) = false ∧ ¬ ClaimRule vm 1 {} := by
  intro vm
  have hclear : ∀ k, memBit ({} : VplicState).mem k = false := fun k => by simp [memBit]
  refine ⟨hclear _, ?_⟩
  rintro (⟨id, hid, -⟩ | ⟨-, -, hmem⟩)
  · have hpend := hid.pend
    rw [hclear] at hpend
    exact absurd hpend (by decide)
  · rw [(vplicClaim_val vm 1 {}).2] at hmem
    have hset := memBit_claimedMem_act ({} : VplicState).mem
      (vplicNextPending vm.plat ({} : VplicState).mem 1).val
    rw [hmem, hclear] at hset
    exact absurd hset (by decide)

end Bao
