import Mathlib.Logic.Function.Basic
import Bao.Core.Vm
import Bao.Riscv.Vcpu

/-!
# The platform-level interrupt controller

Interrupt contexts and the setters of `arch/riscv/plic.c` that the virtual controller forwards to.
A platform has two contexts for each hart, the machine context `2 * hart` and the supervisor
context `2 * hart + 1`.
-/

namespace Bao

/-- The modes of `plic_cntxt_t`: `PRIV_U = 0`, `PRIV_S = 2` and `PRIV_M = 3`. -/
inductive PrivMode where
  | u
  | s
  | m
  deriving DecidableEq

/-- `plic_cntxt_t`. The hart is compared with, and sent as, a 64-bit cpu number, so that the
hart `-1` is `2 ^ 64 - 1`. -/
structure PlicCntxt where
  hartId : Nat
  mode : PrivMode
  deriving DecidableEq

def noHart : Nat := 2 ^ 64 - 1

/-- The constants of a platform: `PLIC_PLAT_CNTXT_NUM`, `PLIC_IMPL_INTERRUPTS` and
`platform.arch.plic_base`. -/
structure PlicPlat where
  cntxtNum : Nat
  implInterrupts : Nat
  plicBase : Word

/-- `plic_plat_cntxt_to_id`, with `none` for the result `-1`. -/
def plicPlatCntxtToId (cntxt : PlicCntxt) : Option Nat :=
  match cntxt.mode with
  | .u => none
  | .m => some (cntxt.hartId * 2)
  | .s => some (cntxt.hartId * 2 + 1)

/-- `plic_plat_id_to_cntxt`. The context `-1` passes the test against `PLIC_PLAT_CNTXT_NUM`, and
its halves `-1 / 2 = 0` and `-1 % 2 ≠ 0` are the supervisor context of hart 0. -/
def plicPlatIdToCntxt (plat : PlicPlat) : Option Nat → PlicCntxt
  | none => ⟨0, .s⟩
  | some id =>
    if id < plat.cntxtNum then ⟨id / 2, if id % 2 = 0 then .m else .s⟩ else ⟨noHart, .u⟩

/-- The registers of the physical controller that the virtual one writes. `complete` lists the
stores to the complete registers of the contexts, the latest first. -/
structure Plic where
  prio : Nat → BitVec 32 := fun _ => 0
  enbl : Nat → Nat → Bool := fun _ _ => false
  threshold : Nat → BitVec 32 := fun _ => 0
  complete : List (Nat × Nat) := []

/-- `plic_cntxt_valid`. The argument is unsigned, so the context `-1` is too large. -/
def plicCntxtValid (plat : PlicPlat) : Option Nat → Bool
  | none => false
  | some id => id < plat.cntxtNum && (plicPlatIdToCntxt plat (some id)).mode ≠ .m

def plicSetEnbl (plat : PlicPlat) (plic : Plic) (cntxt : Option Nat) (intId : Nat) (en : Bool) :
    Plic :=
  match cntxt with
  | none => plic
  | some c =>
    if intId ≤ plat.implInterrupts ∧ plicCntxtValid plat (some c) then
      { plic with enbl := Function.update plic.enbl c (Function.update (plic.enbl c) intId en) }
    else plic

def plicSetPrio (plat : PlicPlat) (plic : Plic) (intId : Nat) (prio : BitVec 32) : Plic :=
  if intId ≤ plat.implInterrupts then
    { plic with prio := Function.update plic.prio intId prio }
  else plic

def plicSetThreshold (plat : PlicPlat) (plic : Plic) (cntxt : Option Nat)
    (threshold : BitVec 32) : Plic :=
  match cntxt with
  | none => plic
  | some c =>
    if plicCntxtValid plat (some c) then
      { plic with threshold := Function.update plic.threshold c threshold }
    else plic

theorem plicPlatIdToCntxt_supervisor {plat : PlicPlat} {hart : Nat}
    (h : hart * 2 + 1 < plat.cntxtNum) :
    plicPlatIdToCntxt plat (some (hart * 2 + 1)) = ⟨hart, .s⟩ := by
  have hdiv : (hart * 2 + 1) / 2 = hart := by omega
  simp [plicPlatIdToCntxt, h, hdiv]

theorem plicPlatIdToCntxt_mode_s {plat : PlicPlat} {id : Nat}
    (h : (plicPlatIdToCntxt plat (some id)).mode = .s) :
    id < plat.cntxtNum ∧ id = id / 2 * 2 + 1 := by
  unfold plicPlatIdToCntxt at h
  grind

end Bao
