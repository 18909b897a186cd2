import Mathlib.Data.List.Basic

/-!
# Configuration data

The fields of `struct mem_region`, `shmem_t`, `ipc_t`, `struct dev_region`, `vm_config_t` and
`struct platform_desc` that the modelled functions use, under the names the sources give them.
-/

namespace Bao

/-- `struct mem_region`. -/
structure MemRegion where
  base : Nat
  size : Nat
  placePhys : Bool := false
  phys : Nat := 0
  deriving DecidableEq, Repr

/-- `shmem_t`. -/
structure Shmem where
  size : Nat
  placePhys : Bool := false
  phys : Nat := 0
  cpuMasters : BitVec 64 := 0
  colors : Nat := 0
  deriving DecidableEq, Repr

/-- `ipc_t`, with the `interrupt_num` elements of `interrupts`. -/
structure Ipc where
  shmemId : BitVec 64
  interrupts : List (BitVec 64)
  base : Nat := 0
  size : Nat := 0
  deriving DecidableEq, Repr

/-- `struct dev_region`, of which the assignment of interrupts uses the list of ids. -/
structure DevRegion where
  interrupts : List Nat
  deriving DecidableEq, Repr

/-- The `image` member of `vm_config_t`: where the guest sees its image, where it was loaded. -/
structure VmImage where
  baseAddr : Nat
  loadAddr : Nat
  size : Nat
  deriving DecidableEq, Repr

/-- `vm_config_t`, with the `platform` members used here flattened into it. -/
structure VmConfig where
  image : VmImage := ⟨0, 0, 0⟩
  cpuAffinity : Nat := 0
  cpuNum : Nat
  regions : List MemRegion := []
  deriving DecidableEq, Repr

end Bao
