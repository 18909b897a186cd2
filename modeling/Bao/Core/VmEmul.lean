import Mathlib.Data.List.Basic
import Bao.Lib.Util

/-!
# Emulated regions and registers

A VM has one list of what is emulated for it: memory regions, added by `vm_emul_add_mem`, and system
registers, added by `vm_emul_add_reg`. Both kinds of lookup go through the whole list and ignore
which kind was asked for. What a lookup ought to return is said over the history of additions.
-/

namespace Bao

/-- `emul_mem_t`, without what the lookup does not read. A handler is a function pointer, so it may
be `NULL`. -/
structure EmulMem (H : Type) where
  vaBase : Nat
  size : Nat
  handler : Option H

/-- `emul_reg_t`. -/
structure EmulReg (H : Type) where
  addr : Nat
  handler : Option H

/-- `struct emul_node`, whose `type` says which member of the union is meant. -/
inductive EmulNode (H : Type) where
  | mem (emu : EmulMem H)
  | reg (emu : EmulReg H)

/-- `enum emul_type`. -/
inductive EmulType where
  | mem
  | reg
  deriving DecidableEq, Repr

variable {H : Type}

/-- `vm_emul_add_mem` and `vm_emul_add_reg` on `vm->emul_list`; `ptr` says whether `objcache_alloc`
returned a node. -/
def vmEmulAdd (list : List (EmulNode H)) (node : EmulNode H) (ptr : Bool) : List (EmulNode H) :=
  if ptr then list ++ [node] else list

def vmEmulAddMem (list : List (EmulNode H)) (emu : EmulMem H) (ptr : Bool) : List (EmulNode H) :=
  vmEmulAdd list (.mem emu) ptr

def vmEmulAddReg (list : List (EmulNode H)) (emu : EmulReg H) (ptr : Bool) : List (EmulNode H) :=
  vmEmulAdd list (.reg emu) ptr

/-- The loop of `vm_emul_get`. It never looks at `type`. -/
def vmEmulGet (type : EmulType) (addr : Nat) : List (EmulNode H) → Option H
  | [] => none
  | .mem emu :: nodes =>
    if emu.vaBase ≤ addr ∧ addr < u64 (emu.vaBase + emu.size) then emu.handler
    else vmEmulGet type addr nodes
  | .reg emu :: nodes =>
    if emu.addr = addr then emu.handler else vmEmulGet type addr nodes

def vmEmulGetMem (list : List (EmulNode H)) (addr : Nat) : Option H := vmEmulGet .mem addr list

def vmEmulGetReg (list : List (EmulNode H)) (addr : Nat) : Option H := vmEmulGet .reg addr list

namespace EmulNode

def type : EmulNode H → EmulType
  | mem _ => .mem
  | reg _ => .reg

def handler : EmulNode H → Option H
  | mem emu => emu.handler
  | reg emu => emu.handler

/-- The address is that of the register, or one of the region. -/
def At (addr : Nat) : EmulNode H → Prop
  | mem emu => emu.vaBase ≤ addr ∧ addr < emu.vaBase + emu.size
  | reg emu => emu.addr = addr

instance (addr : Nat) : (node : EmulNode H) → Decidable (node.At addr)
  | mem _ => inferInstanceAs (Decidable (_ ∧ _))
  | reg _ => inferInstanceAs (Decidable (_ = _))

/-- A region ends below `2 ^ 64`. -/
def NoWrap : EmulNode H → Prop
  | mem emu => emu.vaBase + emu.size < 2 ^ 64
  | reg _ => True

end EmulNode

/-- A call of `vm_emul_add_mem` or `vm_emul_add_reg`, and whether there was a node for it. -/
inductive EmulAdd (H : Type) where
  | mem (emu : EmulMem H) (ptr : Bool)
  | reg (emu : EmulReg H) (ptr : Bool)

/-- The effect of a call on the list. -/
def EmulAdd.apply (list : List (EmulNode H)) : EmulAdd H → List (EmulNode H)
  | mem emu ptr => vmEmulAddMem list emu ptr
  | reg emu ptr => vmEmulAddReg list emu ptr

/-- What a call adds. -/
def EmulAdd.node : EmulAdd H → Option (EmulNode H)
  | mem emu ptr => if ptr then some (.mem emu) else none
  | reg emu ptr => if ptr then some (.reg emu) else none

/-- `vm->emul_list` after the calls. -/
def vmEmulList (adds : List (EmulAdd H)) : List (EmulNode H) := adds.foldl EmulAdd.apply []

/-- What was added by the calls, the earliest first. -/
def emulAdded (adds : List (EmulAdd H)) : List (EmulNode H) := adds.filterMap EmulAdd.node

/-- The first addition of either kind at the address. -/
def firstAt (adds : List (EmulAdd H)) (addr : Nat) : Option (EmulNode H) :=
  (emulAdded adds).find? fun node => decide (node.At addr)

/-- The first addition of the kind at the address: what a lookup is meant to find. -/
def firstOfType (adds : List (EmulAdd H)) (type : EmulType) (addr : Nat) : Option (EmulNode H) :=
  (emulAdded adds).find? fun node => decide (node.type = type ∧ node.At addr)

section Lookup

variable {adds : List (EmulAdd H)} {list : List (EmulNode H)} {type : EmulType} {addr : Nat}

theorem foldl_emulAdd (adds : List (EmulAdd H)) (list : List (EmulNode H)) :
    adds.foldl EmulAdd.apply list = list ++ emulAdded adds := by
  induction adds generalizing list with
  | nil => simp [emulAdded]
  | cons add adds ih =>
    rw [List.foldl_cons, ih]
    cases add with
    | mem emu ptr =>
      cases ptr <;> simp [EmulAdd.apply, vmEmulAddMem, vmEmulAdd, emulAdded, EmulAdd.node]
    | reg emu ptr =>
      cases ptr <;> simp [EmulAdd.apply, vmEmulAddReg, vmEmulAdd, emulAdded, EmulAdd.node]

theorem vmEmulList_eq (adds : List (EmulAdd H)) : vmEmulList adds = emulAdded adds :=
  foldl_emulAdd adds []

theorem vmEmulGet_cons (type : EmulType) {node : EmulNode H} (h : node.NoWrap) :
    vmEmulGet type addr (node :: list) =
      if node.At addr then node.handler else vmEmulGet type addr list := by
  cases node with
  | mem emu => rw [vmEmulGet, u64_of_lt h]; rfl
  | reg emu => rfl

theorem vmEmulGet_eq (type : EmulType) (h : ∀ node ∈ list, node.NoWrap) :
    vmEmulGet type addr list =
      (list.find? fun node => decide (node.At addr)).bind EmulNode.handler := by
  induction list with
  | nil => rfl
  | cons node nodes ih =>
    rw [vmEmulGet_cons type (h node List.mem_cons_self), List.find?_cons]
    by_cases hat : node.At addr
    · simp [hat]
    · simp [hat, ih fun n hn => h n (List.mem_cons_of_mem _ hn)]

theorem firstOfType_of_firstAt {node : EmulNode H} (h : firstAt adds addr = some node)
    (htype : node.type = type) : firstOfType adds type addr = some node := by
  obtain ⟨hat, before, after, hsplit, hnot⟩ := List.find?_eq_some_iff_append.mp h
  refine List.find?_eq_some_iff_append.mpr ⟨by simpa [htype] using hat, before, after, hsplit, ?_⟩
  intro n hn
  simp_all

theorem firstOfType_of_none (h : firstAt adds addr = none) :
    firstOfType adds type addr = none := by
  rw [firstAt, List.find?_eq_none] at h
  rw [firstOfType, List.find?_eq_none]
  intro node hnode hat
  exact h node hnode (by simpa using (of_decide_eq_true hat).2)

/-- A lookup is right exactly when the first entry of either kind at the address is of the kind that
was asked for, or has the handler anyway that should have been found. -/
theorem vmEmulGet_right_iff (type : EmulType) (hwrap : ∀ node ∈ emulAdded adds, node.NoWrap) :
    vmEmulGet type addr (vmEmulList adds) = (firstOfType adds type addr).bind EmulNode.handler ↔
      ∀ node, firstAt adds addr = some node → node.type ≠ type →
        node.handler = (firstOfType adds type addr).bind EmulNode.handler := by
  rw [vmEmulList_eq, vmEmulGet_eq type hwrap, ← firstAt]
  cases hfirst : firstAt adds addr with
  | none => simp [firstOfType_of_none hfirst]
  | some node =>
    by_cases htype : node.type = type
    · simp [firstOfType_of_firstAt hfirst htype, htype]
    · simp [htype]

end Lookup

/-- The lookups of both kinds are right for an address exactly when the first entry of either kind
there is of the kind that is asked for, or has the same handler as the right one. -/
theorem vmEmul_lookup_iff (adds : List (EmulAdd H))
    (hwrap : ∀ node ∈ emulAdded adds, node.NoWrap) (addr : Nat) :
    (vmEmulGetMem (vmEmulList adds) addr = (firstOfType adds .mem addr).bind EmulNode.handler ↔
      ∀ node, firstAt adds addr = some node → node.type = .reg →
        node.handler = (firstOfType adds .mem addr).bind EmulNode.handler) ∧
    (vmEmulGetReg (vmEmulList adds) addr = (firstOfType adds .reg addr).bind EmulNode.handler ↔
      ∀ node, firstAt adds addr = some node → node.type = .mem →
        node.handler = (firstOfType adds .reg addr).bind EmulNode.handler) := by
  constructor
  · rw [vmEmulGetMem, vmEmulGet_right_iff .mem hwrap]
    refine forall_congr' fun node => imp_congr_right fun _ => ?_
    cases node <;> simp [EmulNode.type]
  · rw [vmEmulGetReg, vmEmulGet_right_iff .reg hwrap]
    refine forall_congr' fun node => imp_congr_right fun _ => ?_
    cases node <;> simp [EmulNode.type]

/-- A distributor at `0x8000000` and the register that sends software interrupts, as `vgic_init`
adds them for a GICv3. -/
def gicAdds : List (EmulAdd Nat) :=
  [.mem ⟨0x8000000, 0x10000, some 1⟩ true, .reg ⟨0x3a3016, some 2⟩ true]

theorem vmEmul_lookup_gic : vmEmulGetMem (vmEmulList gicAdds) 0x8000100 = some 1 ∧
    vmEmulGetReg (vmEmulList gicAdds) 0x3a3016 = some 2 := by
  have hwrap : ∀ node ∈ emulAdded gicAdds, node.NoWrap := by
    simp [emulAdded, gicAdds, EmulAdd.node, EmulNode.NoWrap]
  have hmem := (vmEmul_lookup_iff gicAdds hwrap 0x8000100).1.mpr (by
    simp [firstAt, emulAdded, gicAdds, EmulAdd.node, EmulNode.At, EmulNode.type])
  have hreg := (vmEmul_lookup_iff gicAdds hwrap 0x3a3016).2.mpr (by
    simp [firstAt, emulAdded, gicAdds, EmulAdd.node, EmulNode.At, EmulNode.type])
  exact ⟨hmem.trans (by decide), hreg.trans (by decide)⟩

/-- A fault at `0x3a3016`, where no memory is emulated, is given to the handler of the register with
that number, and an access to the register `0x8000100`, which is not emulated, to the handler of the
region. -/
theorem vmEmul_lookup_mixed :
    vmEmulGetMem (vmEmulList gicAdds) 0x3a3016 = some 2 ∧
      firstOfType gicAdds .mem 0x3a3016 = none ∧
    vmEmulGetReg (vmEmulList gicAdds) 0x8000100 = some 1 ∧
      firstOfType gicAdds .reg 0x8000100 = none := by
  refine ⟨by decide, ?_, by decide, ?_⟩ <;>
    simp [firstOfType, emulAdded, gicAdds, EmulAdd.node, EmulNode.At, EmulNode.type]

end Bao
