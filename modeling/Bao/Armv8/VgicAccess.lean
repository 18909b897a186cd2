import Bao.Foundation.Run
import Bao.Armv8.VgicMsg
import Bao.Armv8.VgicOps

/-!
# Accesses to the registers of the virtual GIC

The guest's loads and stores in the frames of the distributor and the redistributors. Each frame
finds the description of the register at an address, and `vgic_emul_generic_access` goes through the
fields that the access covers, which belong to consecutive interrupts.

The vcpu's register that an access reads or writes is an argument or the result here. Writes to the
control and SGI registers of the distributor are left out.
-/

namespace Bao.Armv8

open Foundation

variable {n : Nat}

/-! ## Fields -/

namespace RegHandler

/-- `regroup_base`. -/
def regroupBase : RegHandler → Nat
  | isenabler => 0x100
  | icenabler => 0x180
  | ispendr => 0x200
  | icpendr => 0x280
  | isactiver => 0x300
  | icactiver => 0x380
  | ipriorityr => 0x400
  | itargetsr => 0x800
  | icfgr => 0xc00
  | irouter => 0x6000

/-- `read_field` of each handler. -/
def readField (g : VgicConfig n) (h : RegHandler) (v : Fin n) (r : IntRef n) (i : VgicInt n) :
    BitVec 64 :=
  match h with
  | isenabler | icenabler => if i.enabled then 1 else 0
  | ispendr | icpendr => if i.state &&& pend ≠ 0 then 1 else 0
  | isactiver | icactiver => if i.state &&& act ≠ 0 then 1 else 0
  | icfgr => i.cfg.setWidth 64
  | ipriorityr => i.prio.setWidth 64
  | irouter => if gicIsPriv r.id then 0 else i.route
  | itargetsr =>
    if gicIsPriv r.id then 1 <<< v.val
    else BitVec.ofNat 64 (vmTranslateToVcpuMask g.cpus i.targets.toNat 8 % 2 ^ 8)

/-- `mask` of `vgic_emul_generic_access`; the shift of the 64-bit one uses the low six bits. -/
def fieldMask (h : RegHandler) : BitVec 64 := 1 <<< (h.fieldWidth % 64) - 1

end RegHandler

def gicdRegMask (version : GicVersion) (addr : Nat) : Nat :=
  match version with
  | .gicv2 => addr % 0x1000
  | .gicv3 => addr % 0x10000

section Accesses

variable (g : VgicConfig n)

def firstInt (h : RegHandler) (addr : Nat) : Nat :=
  u64 (u64 (gicdRegMask g.version addr + 2 ^ 64 - h.regroupBase) * 8) / h.fieldWidth

def validAccess (gicrAccess : Bool) (firstInt : Nat) : Bool :=
  g.version = .gicv2 || !(gicrAccess ^^ gicIsPriv firstInt)

/-- The interrupts that the loop of `vgic_emul_generic_access` goes through, with the numbers of
their fields, from field `i` on; the first one that is not there ends it. -/
def accessLoop (vgicrId first : Nat) : (left i : Nat) → List (Nat × IntRef n)
  | 0, _ => []
  | left + 1, i =>
    match vgicGetInt g (u64 (first + i)) vgicrId with
    | none => []
    | some r => (i, r) :: accessLoop vgicrId first left (i + 1)

/-- The fields of an access. -/
def accessInts (h : RegHandler) (gicrAccess : Bool) (vgicrId addr width : Nat) :
    List (Nat × IntRef n) :=
  let first := firstInt g h addr
  if validAccess g gicrAccess first then
    accessLoop g vgicrId first (width * 8 / h.fieldWidth) 0
  else []

/-- A write through `vgic_emul_generic_access`. -/
def vgicEmulGenericWrite (s : VgicState n) (v : Fin n) (h : RegHandler) (gicrAccess : Bool)
    (vgicrId addr width : Nat) (val : BitVec 64) : Option (VgicState n) :=
  run (fun s field =>
    vgicIntSetField g s v h field.2 (bitExtract val (field.1 * h.fieldWidth) h.fieldWidth))
    s (accessInts g h gicrAccess vgicrId addr width)

/-- A read through `vgic_emul_generic_access`. -/
def vgicEmulGenericRead (s : VgicState n) (v : Fin n) (h : RegHandler) (gicrAccess : Bool)
    (vgicrId addr width : Nat) : BitVec 64 :=
  (accessInts g h gicrAccess vgicrId addr width).foldl (fun val field =>
    val ||| (h.readField g v field.2 (s.ints field.2) &&& h.fieldMask) <<<
      (field.1 * h.fieldWidth)) 0#64

end Accesses

/-! ## Frames -/

/-- The descriptions of registers: those with a field per interrupt, and the others. -/
inductive RegInfo where
  | field (h : RegHandler)
  | vgicdMisc
  | vgicdPidr
  | sgir
  | razwi
  | vgicrCtrl
  | vgicrTyper
  | vgicrPidr
  deriving DecidableEq

/-- Both versions have `irouter_info` and `itargetr_info`, but only one makes a field of each. -/
def RegInfo.alignment (version : GicVersion) : RegInfo → Nat
  | .field .irouter => if version = .gicv3 then 0b1000 else 0b0100
  | .field .ipriorityr | .field .itargetsr => 0b0101
  | .vgicrTyper => 0b1000
  | .field _ | .vgicdMisc | .vgicdPidr | .sgir | .razwi | .vgicrCtrl | .vgicrPidr => 0b0100

def vgicCheckRegAlignment (version : GicVersion) (info : RegInfo) (addr width : Nat) : Bool :=
  info.alignment version &&& width ≠ 0 && addr &&& (width - 1) = 0

/-- The description that `vgicd_emul_handler` finds for an offset in the distributor. -/
def vgicdInfo (off : Nat) : RegInfo :=
  if off / 0x80 = 0 then .vgicdMisc
  else if off / 0x80 = 0x100 / 0x80 then .field .isenabler
  else if off / 0x80 = 0x200 / 0x80 then .field .ispendr
  else if off / 0x80 = 0x300 / 0x80 then .field .isactiver
  else if off / 0x80 = 0x180 / 0x80 then .field .icenabler
  else if off / 0x80 = 0x280 / 0x80 then .field .icpendr
  else if off / 0x80 = 0x380 / 0x80 then .field .icactiver
  else if off / 0x80 = 0xc00 / 0x80 then .field .icfgr
  else if off / 0x80 = 0xf00 / 0x80 then .sgir
  else if 0x400 ≤ off ∧ off < 0x800 then .field .ipriorityr
  else if 0x800 ≤ off ∧ off < 0xc00 then .field .itargetsr
  else if 0x6000 ≤ off ∧ off < 0x8000 then .field .irouter
  else if 0xffd0 ≤ off ∧ off < 0x10000 then .vgicdPidr
  else .razwi

def gicrSize : Nat := 0x20000

/-- The description that `vgicr_emul_handler` finds for an address. -/
def vgicrInfo (vgicrAddr addr : Nat) : RegInfo :=
  if addr % gicrSize = 0 then .vgicrCtrl
  else if addr % gicrSize = 0x8 then .vgicrTyper
  else if addr % gicrSize = 0x10100 then .field .isenabler
  else if addr % gicrSize = 0x10200 then .field .ispendr
  else if addr % gicrSize = 0x10300 then .field .icactiver
  else if addr % gicrSize = 0x10180 then .field .icenabler
  else if addr % gicrSize = 0x10280 then .field .icpendr
  else if addr % gicrSize = 0x10380 then .field .icfgr
  else if addr % gicrSize = 0x10c00 ∨ addr % gicrSize = 0x10c04 then .field .icfgr
  else
    let accOffset := (addr - vgicrAddr) % gicrSize
    if 0x10400 ≤ accOffset ∧ accOffset < 0x10420 then .field .ipriorityr
    else if 0xffd0 ≤ accOffset ∧ accOffset < 0x10000 then .vgicrPidr
    else .razwi

/-- The registers of the frames that are no fields of interrupts, with the address of the first
redistributor. -/
structure VgicRegs (n : Nat) where
  vgicrAddr : Nat
  ctlr : BitVec 64
  typer : BitVec 64
  iidr : BitVec 64
  gicdId : Nat → BitVec 64
  vgicrTyper : Fin n → BitVec 64
  gicrId : Nat → Nat → BitVec 64

/-- Frames with a redistributor region at 0x2f100000. -/
def regsAt2f1 : VgicRegs 2 where
  vgicrAddr := 0x2f100000
  ctlr := 0
  typer := 0
  iidr := 0
  gicdId _ := 0
  vgicrTyper _ := 0
  gicrId _ _ := 0

section Handlers

variable (g : VgicConfig n) (regs : VgicRegs n)

/-- `reg_access` of each description for a read: the value that the vcpu's register gets, if it gets
one. -/
def RegInfo.read (s : VgicState n) (v : Fin n) (info : RegInfo) (gicrAccess : Bool)
    (vgicrId addr width : Nat) : Option (BitVec 64) :=
  match info with
  | .field .irouter =>
    if g.version = .gicv3 then
      some (vgicEmulGenericRead g s v .irouter gicrAccess vgicrId addr width)
    else some 0
  | .field .itargetsr =>
    if g.version = .gicv2 then
      some (vgicEmulGenericRead g s v .itargetsr gicrAccess vgicrId addr width)
    else some 0
  | .field h => some (vgicEmulGenericRead g s v h gicrAccess vgicrId addr width)
  | .vgicdMisc =>
    if addr % 0x80 = 0 then some (regs.ctlr ||| 0x10)
    else if addr % 0x80 = 4 then some regs.typer
    else if addr % 0x80 = 8 then some regs.iidr
    else none
  | .vgicdPidr => some (regs.gicdId ((addr % 0x100 - 0xd0) / 4))
  | .sgir => if g.version = .gicv3 then some 0 else none
  | .razwi | .vgicrCtrl => some 0
  | .vgicrTyper => if h : vgicrId < n then some (regs.vgicrTyper ⟨vgicrId, h⟩) else none
  | .vgicrPidr =>
    (vmTranslateToPcpuid g.cpus vgicrId).map fun pgicrId =>
      regs.gicrId pgicrId ((addr % 0x100 - 0xd0) / 4)

/-- A read through `vgicd_emul_handler`; `none` is the result false. -/
def vgicdEmulRead (s : VgicState n) (v : Fin n) (addr width : Nat) :
    Option (Option (BitVec 64)) :=
  let info := vgicdInfo (gicdRegMask g.version addr)
  if vgicCheckRegAlignment g.version info addr width then
    some (info.read g regs s v false v addr width)
  else none

def vgicrGetId (addr : Nat) : Nat := (addr - regs.vgicrAddr) / gicrSize % 2 ^ 32

/-- A read through `vgicr_emul_handler`. -/
def vgicrEmulRead (s : VgicState n) (v : Fin n) (addr width : Nat) :
    Option (Option (BitVec 64)) :=
  let info := vgicrInfo regs.vgicrAddr addr
  if vgicCheckRegAlignment g.version info addr width then
    some (info.read g regs s v true (vgicrGetId regs addr) addr width)
  else none

/-- A write through `vgicr_emul_handler`, with its result. The registers that are no fields ignore
writes. -/
def vgicrEmulWrite (s : VgicState n) (v : Fin n) (addr width : Nat) (val : BitVec 64) :
    Option (Bool × VgicState n) :=
  let info := vgicrInfo regs.vgicrAddr addr
  if vgicCheckRegAlignment g.version info addr width then
    (match info with
      | .field h => vgicEmulGenericWrite g s v h true (vgicrGetId regs addr) addr width val
      | _ => some s).map fun s => (true, s)
  else some (false, s)

end Handlers

/-! ## Fields of a word -/

theorem fieldWidth_bounds (h : RegHandler) : 0 < h.fieldWidth ∧ h.fieldWidth ≤ 64 := by
  cases h <;> decide

theorem getLsbD_fieldMask {h : RegHandler} (hh : h ≠ .irouter) (b : Nat) :
    h.fieldMask.getLsbD b = decide (b < h.fieldWidth) := by
  have hmask : h.fieldMask = BitVec.ofNat 64 (2 ^ h.fieldWidth - 1) := by
    cases h <;> first | rfl | exact absurd rfl hh
  rw [hmask, getLsbD_low_ones (fieldWidth_bounds h).2]

theorem fieldMask_irouter : RegHandler.irouter.fieldMask = 0#64 := rfl

theorem getLsbD_foldl_or {α : Type*} (f : α → BitVec 64) (l : List α) (x : BitVec 64) (b : Nat) :
    (l.foldl (fun val a => val ||| f a) x).getLsbD b =
      (x.getLsbD b || l.any fun a => (f a).getLsbD b) := by
  induction l generalizing x with
  | nil => simp
  | cons a l ih => rw [List.foldl_cons, ih, BitVec.getLsbD_or, List.any_cons, Bool.or_assoc]

/-! ## Reads -/

section Reads

variable {g : VgicConfig n} {s t : VgicState n} {v : Fin n} {r r' : IntRef n} {h h' : RegHandler}
  {gicr : Bool} {vgicrId addr width i j first left k : Nat} {val data : BitVec 64} {x y : VgicInt n}

theorem mem_accessLoop (hmem : (i, r) ∈ accessLoop g vgicrId first left k) :
    k ≤ i ∧ i < k + left ∧ vgicGetInt g (u64 (first + i)) vgicrId = some r := by
  induction left generalizing k with
  | zero => simp [accessLoop] at hmem
  | succ left ih =>
    rw [accessLoop] at hmem
    split at hmem
    · simp at hmem
    · rename_i r₀ hint
      rcases List.mem_cons.mp hmem with heq | hrest
      · cases heq
        exact ⟨le_rfl, by omega, hint⟩
      · obtain ⟨hle, hlt, hint⟩ := ih hrest
        exact ⟨by omega, by omega, hint⟩

theorem mem_accessInts (hmem : (i, r) ∈ accessInts g h gicr vgicrId addr width) :
    (i + 1) * h.fieldWidth ≤ width * 8 ∧
      vgicGetInt g (u64 (firstInt g h addr + i)) vgicrId = some r := by
  simp only [accessInts] at hmem
  split at hmem
  · obtain ⟨-, hlt, hint⟩ := mem_accessLoop hmem
    rw [Nat.zero_add] at hlt
    exact ⟨(Nat.le_div_iff_mul_le (fieldWidth_bounds h).1).mp hlt, hint⟩
  · simp at hmem

theorem mem_accessLoop_of_getInt (hvcpu : vgicrId < n) (hle : k ≤ i) (hlt : i < k + left)
    (hfirst : first + i < 2 ^ 64) (hint : vgicGetInt g (first + i) vgicrId = some r) :
    (i, r) ∈ accessLoop g vgicrId first left k := by
  induction left generalizing k with
  | zero => omega
  | succ left ih =>
    rw [accessLoop, u64_of_lt (by omega)]
    rcases Nat.eq_or_lt_of_le hle with rfl | hlt'
    · simp [hint]
    · have hsome : (vgicGetInt g (first + k) vgicrId).isSome = true := by
        have hnum := vgicGetInt_cases hint
        simp only [vgicGetInt, gicCpuPriv] at hnum ⊢
        grind
      obtain ⟨r₀, hr₀⟩ := Option.isSome_iff_exists.mp hsome
      rw [hr₀]
      exact List.mem_cons_of_mem _ (ih hlt' (by omega))

/-- Where the field of an interrupt is: field `i` of the word at an address of the register's
group, in the frame that has the register of its word. -/
structure FieldAt (g : VgicConfig n) (h : RegHandler) (gicr : Bool) (vgicrId addr width i : Nat)
    (r : IntRef n) : Prop where
  vcpu : vgicrId < n
  int : vgicGetInt g r.id vgicrId = some r
  base : h.regroupBase ≤ gicdRegMask g.version addr
  field : (gicdRegMask g.version addr - h.regroupBase) * 8 + i * h.fieldWidth =
    r.id * h.fieldWidth
  fits : (i + 1) * h.fieldWidth ≤ width * 8
  frame : g.version = .gicv2 ∨ gicr = gicIsPriv (r.id - i)

theorem gicdRegMask_lt (version : GicVersion) (addr : Nat) :
    gicdRegMask version addr < 0x10000 := by
  cases version <;> simp only [gicdRegMask] <;> omega

theorem FieldAt.firstInt (hat : FieldAt g h gicr vgicrId addr width i r) :
    firstInt g h addr + i = r.id := by
  have hpos := (fieldWidth_bounds h).1
  have hlt := gicdRegMask_lt g.version addr
  have hbase := hat.base
  have hfield := hat.field
  have hi : i ≤ r.id := Nat.le_of_mul_le_mul_right (by omega) hpos
  have hoff : (gicdRegMask g.version addr - h.regroupBase) * 8 = (r.id - i) * h.fieldWidth := by
    rw [Nat.sub_mul r.id]
    omega
  have hsub : u64 (gicdRegMask g.version addr + 2 ^ 64 - h.regroupBase) =
      gicdRegMask g.version addr - h.regroupBase := by
    simp only [u64]
    omega
  rw [Armv8.firstInt, hsub, u64_of_lt (by omega), hoff, Nat.mul_div_cancel _ hpos]
  omega

theorem FieldAt.mem (hat : FieldAt g h gicr vgicrId addr width i r) :
    (i, r) ∈ accessInts g h gicr vgicrId addr width := by
  have hfirst := hat.firstInt
  have hid : r.id < 2 ^ 64 := by
    have hnum := g.intNum_le
    rcases vgicGetInt_cases hat.int with ⟨_, _, -, hlt⟩ | ⟨-, -, hlt⟩
    · exact hlt.trans (by decide)
    · omega
  have hvalid : validAccess g gicr (Armv8.firstInt g h addr) = true := by
    rw [validAccess, Nat.eq_sub_of_add_eq hfirst]
    rcases hat.frame with hv2 | heq
    · simp [hv2]
    · simp [heq]
  simp only [accessInts, hvalid, if_true]
  refine mem_accessLoop_of_getInt hat.vcpu (Nat.zero_le i) ?_ (by omega) (by rw [hfirst, hat.int])
  rw [Nat.zero_add]
  exact (Nat.le_div_iff_mul_le (fieldWidth_bounds h).1).mpr hat.fits

theorem bitExtract_read (hh : h ≠ .irouter) (hwidth : width ≤ 8)
    (hmem : (i, r) ∈ accessInts g h gicr vgicrId addr width) :
    bitExtract (vgicEmulGenericRead g s v h gicr vgicrId addr width) (i * h.fieldWidth)
      h.fieldWidth = h.readField g v r (s.ints r) &&& h.fieldMask := by
  obtain ⟨hpos, hle⟩ := fieldWidth_bounds h
  have hfit := (mem_accessInts hmem).1
  rw [Nat.add_mul, Nat.one_mul] at hfit
  apply BitVec.eq_of_getLsbD_eq
  intro b hb
  rw [getLsbD_bitExtract hpos hle, vgicEmulGenericRead, getLsbD_foldl_or, BitVec.getLsbD_zero,
    Bool.false_or, BitVec.getLsbD_and, getLsbD_fieldMask hh, Bool.and_comm]
  by_cases hbw : b < h.fieldWidth
  · simp only [hbw, decide_true, Bool.and_true]
    rw [Bool.eq_iff_iff, List.any_eq_true]
    constructor
    · -- only the field `i` reaches the bit
      rintro ⟨⟨j, r'⟩, hmem', hbit⟩
      simp only [BitVec.getLsbD_shiftLeft, BitVec.getLsbD_and, getLsbD_fieldMask hh,
        Bool.and_eq_true, decide_eq_true_eq, Bool.not_eq_true', decide_eq_false_iff_not] at hbit
      obtain ⟨⟨-, hge⟩, hread, hlt⟩ := hbit
      have hji : j < i + 1 := by
        apply Nat.lt_of_mul_lt_mul_right (a := h.fieldWidth)
        rw [Nat.add_mul, Nat.one_mul]
        omega
      have hij : i < j + 1 := by
        apply Nat.lt_of_mul_lt_mul_right (a := h.fieldWidth)
        rw [Nat.add_mul, Nat.one_mul]
        omega
      obtain rfl : j = i := by omega
      obtain rfl : r' = r := Option.some.inj
        ((mem_accessInts hmem').2.symm.trans (mem_accessInts hmem).2)
      rwa [Nat.add_sub_cancel_left] at hread
    · intro hread
      refine ⟨(i, r), hmem, ?_⟩
      have hin : i * h.fieldWidth + b < 64 := by omega
      simp [getLsbD_fieldMask hh, hbw, hread, hin]
  · simp [hbw]

theorem read_irouter : vgicEmulGenericRead g s v .irouter gicr vgicrId addr width = 0#64 := by
  apply BitVec.eq_of_getLsbD_eq
  intro b _
  rw [vgicEmulGenericRead, getLsbD_foldl_or, fieldMask_irouter]
  simp

/-! ## Decoding -/

theorem regroupBase_le (h : RegHandler) : h.regroupBase ≤ 0x6000 := by cases h <;> decide

theorem accessInts_of_lt (hv3 : g.version = .gicv3)
    (hlt : gicdRegMask g.version addr < h.regroupBase) :
    accessInts g h true vgicrId addr width = [] := by
  obtain ⟨hpos, hle⟩ := fieldWidth_bounds h
  have hbase := regroupBase_le h
  have hfirst : gicCpuPriv ≤ firstInt g h addr := by
    rw [firstInt, Nat.le_div_iff_mul_le hpos]
    simp only [gicCpuPriv, u64]
    omega
  have hvalid : validAccess g true (firstInt g h addr) = false := by
    simp [validAccess, hv3, gicIsPriv, hfirst]
  simp [accessInts, hvalid]

theorem vgicdInfo_field (hone : h.fieldWidth = 1) {off : Nat} (hoff : off < 0x80) :
    vgicdInfo (h.regroupBase + off) = .field h := by
  have hdiv : (h.regroupBase + off) / 0x80 = h.regroupBase / 0x80 := by
    cases h <;> simp only [RegHandler.regroupBase] <;> omega
  simp only [vgicdInfo, hdiv]
  cases h <;> first | exact absurd hone (by decide) | rfl

theorem vgicCheckRegAlignment_word (hone : h.fieldWidth ≤ 2) (haddr : addr % 4 = 0) :
    vgicCheckRegAlignment g.version (.field h) addr 4 = true := by
  have hand : addr &&& 3 = 0 := (Nat.and_two_pow_sub_one_eq_mod addr 2).trans haddr
  cases h <;> first
    | exact absurd hone (by decide)
    | simp [vgicCheckRegAlignment, RegInfo.alignment, hand]

/-! ## Writes -/

theorem updateField_config (hxy : x.config = y.config) (data : BitVec 64) :
    (h.updateField g v r x data).config = (h.updateField g v r y data).config := by
  simp only [VgicInt.config, VgicInt.mk.injEq] at hxy
  cases h <;> simp only [RegHandler.updateField, vgicIntUpdateEnable, vgicIntUpdatePend,
    vgicIntUpdateAct, vgicIntSetRoute, vgicdSetTrgt] <;> grind [VgicInt.config]

/-- What a write does to the fields that registers set: it updates them for its interrupt, if it is
not another vcpu's. -/
structure FieldWrite (g : VgicConfig n) (s : VgicState n) (v : Fin n) (h : RegHandler)
    (r : IntRef n) (data : BitVec 64) (t : VgicState n) : Prop where
  other : ∀ r', r' ≠ r → (t.ints r').config = (s.ints r').config
  mine : ∀ r', (s.ints r').Mine v → (t.ints r').Mine v
  self : (s.ints r).Mine v → (t.ints r).config = (h.updateField g v r (s.ints r) data).config
  forwarded : ¬ (s.ints r).Mine v → (t.ints r).config = (s.ints r).config

theorem fieldWrite_mine (hfree : s.locked r = false) (hmine : (s.ints r).Mine v)
    (ht : vgicRoute g ((vgicRemoveLr g (vgicGetOwnership s v r).2 v r).setInt r (h.updateField g v r
      ((vgicRemoveLr g (vgicGetOwnership s v r).2 v r).ints r) data)) v r = some t) :
    FieldWrite g s v h r data (vgicYieldOwnership g t v r) := by
  have htake : OpFrame v s (vgicGetOwnership s v r).2 := (VgicOp.take (g := g) hfree).opFrame
  have hremove : OpFrame v s (vgicRemoveLr g (vgicGetOwnership s v r).2 v r) :=
    htake.trans (VgicOp.remove (g := g) (htake.locked hfree)).opFrame
  have howner : ((vgicRemoveLr g (vgicGetOwnership s v r).2 v r).ints r).owner = some v :=
    removeLr_self.1.trans (owner_of_getOwnership (getOwnership_iff.mpr hmine))
  generalize vgicRemoveLr g (vgicGetOwnership s v r).2 v r = u at ht hremove howner
  obtain ⟨hsame, -, -⟩ := updateField_same (g := g) h v r (u.ints r) data
  have hself : ((u.setInt r (h.updateField g v r (u.ints r) data)).ints r).owner = some v := by
    simp [VgicState.setInt, hsame, howner]
  -- after the update, nothing changes what registers set
  have hfree' : (u.setInt r (h.updateField g v r (u.ints r) data)).locked r = false :=
    hremove.locked hfree
  have hroute := (VgicOps.route hfree' hself ht).opFrame
  have hlast := hroute.trans (VgicOp.yield (g := g) (hroute.locked hfree')).opFrame
  refine ⟨fun r' hr' => ?_, fun r' hr' => hlast.mine r' ?_, fun _ => ?_, fun hnot => ?_⟩
  · rw [hlast.config]
    simpa [VgicState.setInt, hr'] using hremove.config r'
  · by_cases hr : r' = r
    · subst hr
      exact .inr hself
    · simpa [VgicState.setInt, hr] using hremove.mine r' hr'
  · rw [hlast.config]
    simpa [VgicState.setInt] using updateField_config (hremove.config r) data
  · exact absurd hmine hnot

theorem fieldWrite (ht : vgicIntSetField g s v h r data = some t) :
    FieldWrite g s v h r data t := by
  simp only [vgicIntSetField] at ht
  split at ht
  · cases ht
  · rename_i hlocked
    have hfree : s.locked r = false := by simpa using hlocked
    rcases getOwnership_cases s v r with ⟨heq, hown⟩ | ⟨heq, hnone⟩ | ⟨heq, w, hw, howner⟩
    · rw [heq] at ht
      obtain ⟨u, hu, rfl⟩ := Option.map_eq_some_iff.mp ht
      exact fieldWrite_mine hfree (.inr hown) (by rw [heq]; exact hu)
    · rw [heq] at ht
      obtain ⟨u, hu, rfl⟩ := Option.map_eq_some_iff.mp ht
      exact fieldWrite_mine hfree (.inl hnone) (by rw [heq]; exact hu)
    · -- the write is forwarded to the owner
      rw [heq] at ht
      simp only [howner, Option.elim_some, Option.some.injEq] at ht
      subst ht
      refine ⟨fun _ _ => rfl, fun _ => id, fun hmine => ?_, fun _ => rfl⟩
      simp [VgicInt.Mine, howner, hw] at hmine

theorem run_fieldWrite {fields : List (Nat × IntRef n)} (data : Nat → BitVec 64)
    (hnodup : (fields.map Prod.snd).Nodup)
    (ht : run (fun s field => vgicIntSetField g s v h field.2 (data field.1)) s fields = some t) :
    (∀ r', r' ∉ fields.map Prod.snd → (t.ints r').config = (s.ints r').config) ∧
      ∀ i r, (i, r) ∈ fields → (s.ints r).Mine v →
        (t.ints r).config = (h.updateField g v r (s.ints r) (data i)).config := by
  induction fields generalizing s with
  | nil =>
    cases ht
    exact ⟨fun _ _ => rfl, by simp⟩
  | cons field rest ih =>
    obtain ⟨u, hu, ht⟩ := run_cons.mp ht
    obtain ⟨hnot, hrest⟩ := List.nodup_cons.mp hnodup
    have hwrite := fieldWrite hu
    obtain ⟨hother, hself⟩ := ih hrest ht
    refine ⟨fun r' hr' => ?_, fun i r hmem hmine => ?_⟩
    · simp only [List.map_cons, List.mem_cons, not_or] at hr'
      rw [hother r' hr'.2, hwrite.other r' hr'.1]
    · rcases List.mem_cons.mp hmem with heq | hmem
      · cases heq
        rw [hother r hnot, hwrite.self hmine]
      · have hne : r ≠ field.2 := by
          rintro rfl
          exact hnot (List.mem_map.mpr ⟨_, hmem, rfl⟩)
        rw [hself i r hmem (hwrite.mine r hmine)]
        exact updateField_config (hwrite.other r hne) _

theorem accessLoop_nodup (first left k : Nat) (hleft : k + left ≤ 2 ^ 64) :
    ((accessLoop g vgicrId first left k).map Prod.snd).Nodup := by
  induction left generalizing k with
  | zero => simp [accessLoop]
  | succ left ih =>
    rw [accessLoop]
    split
    · simp
    · rename_i r₀ hint
      rw [List.map_cons, List.nodup_cons]
      refine ⟨fun hrest => ?_, ih (k + 1) (by omega)⟩
      obtain ⟨⟨j, r'⟩, hmem, rfl⟩ := List.mem_map.mp hrest
      obtain ⟨hle, hlt, hint'⟩ := mem_accessLoop hmem
      have hid := (id_of_vgicGetInt hint).symm.trans (id_of_vgicGetInt hint')
      simp only [u64] at hid
      omega

theorem accessInts_nodup (hwidth : width ≤ 8) :
    ((accessInts g h gicr vgicrId addr width).map Prod.snd).Nodup := by
  simp only [accessInts]
  split
  · refine accessLoop_nodup _ _ 0 ?_
    have := Nat.div_le_self (width * 8) h.fieldWidth
    omega
  · simp

/-- The registers that configure interrupts. -/
def RegHandler.Configures (h : RegHandler) : Prop := h = .ipriorityr ∨ h = .icfgr ∨ h = .irouter

theorem readField_config (hh : h.Configures) (hxy : x.config = y.config) :
    h.readField g v r x = h.readField g v r y := by
  simp only [VgicInt.config, VgicInt.mk.injEq] at hxy
  rcases hh with rfl | rfl | rfl <;> grind [RegHandler.readField]

theorem readField_updateField (hh : h.Configures) (hh' : h'.Configures) (hne : h' ≠ h)
    (x : VgicInt n) (data : BitVec 64) :
    h'.readField g v r (h.updateField g v r x data) = h'.readField g v r x := by
  rcases hh with rfl | rfl | rfl <;> rcases hh' with rfl | rfl | rfl <;>
    grind [RegHandler.readField, RegHandler.updateField, vgicIntSetRoute]

theorem FieldWrite.readField (hwrite : FieldWrite g s v h r data t) (hh : h.Configures)
    (hh' : h'.Configures) (hne : h' ≠ h) (r' : IntRef n) :
    h'.readField g v r' (t.ints r') = h'.readField g v r' (s.ints r') := by
  by_cases hr : r' = r
  · subst hr
    by_cases hmine : (s.ints r').Mine v
    · rw [readField_config hh' (hwrite.self hmine), readField_updateField hh hh' hne]
    · exact readField_config hh' (hwrite.forwarded hmine)
  · exact readField_config hh' (hwrite.other r' hr)

/-! ## Reading back -/

/-- The value that is to be read back: of a route, the low 40 bits. -/
def RegHandler.written (h : RegHandler) (data : BitVec 64) : BitVec 64 :=
  if h = .irouter then data &&& gicdIrouterRes0Msk else data

theorem setWidth_byte_and_fieldMask (hh : h ≠ .irouter) (word : BitVec 64) (off : Nat) :
    ((bitExtract word off h.fieldWidth).setWidth 8).setWidth 64 &&& h.fieldMask =
      bitExtract word off h.fieldWidth := by
  obtain ⟨hpos, hle⟩ := fieldWidth_bounds h
  have hbyte : h.fieldWidth ≤ 8 := by cases h <;> first | decide | exact absurd rfl hh
  apply BitVec.eq_of_getLsbD_eq
  intro b hb
  rw [BitVec.getLsbD_and, getLsbD_fieldMask hh, BitVec.getLsbD_setWidth, BitVec.getLsbD_setWidth,
    getLsbD_bitExtract hpos hle]
  grind

theorem readField_written (hh : h.Configures) (hroute : h ≠ .irouter) (x : VgicInt n)
    (data : BitVec 64) :
    h.readField g v r (h.updateField g v r x data) = (data.setWidth 8).setWidth 64 := by
  rcases hh with rfl | rfl | rfl
  · rfl
  · rfl
  · exact absurd rfl hroute

/-- After a write to a register that configures interrupts, the field of an interrupt reads back
exactly when it is no route, or a route of zeros; and no other field of these registers changes. -/
theorem vgic_readback_iff (hh : h.Configures) (hwidth : width ≤ 8)
    (hat : FieldAt g h gicr vgicrId addr width i r) (hmine : (s.ints r).Mine v)
    (ht : vgicEmulGenericWrite g s v h gicr vgicrId addr width val = some t) :
    (bitExtract (vgicEmulGenericRead g t v h gicr vgicrId addr width) (i * h.fieldWidth)
        h.fieldWidth = h.written (bitExtract val (i * h.fieldWidth) h.fieldWidth) ↔
      (h = .irouter → h.written (bitExtract val (i * h.fieldWidth) h.fieldWidth) = 0#64)) ∧
    ∀ h' r', h'.Configures →
      (h' ≠ h ∨ r' ∉ (accessInts g h gicr vgicrId addr width).map Prod.snd) →
      h'.readField g v r' (t.ints r') = h'.readField g v r' (s.ints r') := by
  rw [vgicEmulGenericWrite] at ht
  obtain ⟨hother, hself⟩ := run_fieldWrite
    (fun i => bitExtract val (i * h.fieldWidth) h.fieldWidth) (accessInts_nodup hwidth) ht
  have hmem := hat.mem
  refine ⟨?_, fun h' r' hh' hcases => ?_⟩
  · by_cases hroute : h = .irouter
    · subst hroute
      rw [read_irouter]
      have hzero : bitExtract 0#64 (i * RegHandler.irouter.fieldWidth)
          RegHandler.irouter.fieldWidth = 0#64 := by simp [bitExtract]
      rw [hzero]
      exact ⟨fun heq _ => heq.symm, fun hz => (hz rfl).symm⟩
    · have hread := bitExtract_read (s := t) (v := v) hroute hwidth hmem
      rw [hread, readField_config hh (hself i r hmem hmine), readField_written hh hroute,
        setWidth_byte_and_fieldMask hroute, RegHandler.written, if_neg hroute]
      exact ⟨fun _ heq => absurd heq hroute, fun _ => rfl⟩
  · rcases hcases with hne | hout
    · exact run_invariant
        (I := fun u => h'.readField g v r' (u.ints r') = h'.readField g v r' (s.ints r'))
        (fun _ _ _ hu hstep => ((fieldWrite hstep).readField hh hh' hne r').trans hu) rfl ht
    · exact readField_config hh' (hother r' hout)

/-- The configuration of interrupt 40 in a word of 16 of them. -/
theorem vgic_readback_icfgr : ∃ t,
    vgicEmulGenericWrite twoClusters (allOwnedBy 0) 0 .icfgr false 0 0xc08 4 0x20000 = some t ∧
    bitExtract (vgicEmulGenericRead twoClusters t 0 .icfgr false 0 0xc08 4) (8 * 2) 2 = 2 := by
  refine exists_some_of (P := fun _ => True) (by decide +kernel) fun t ht _ => ?_
  have hat : FieldAt twoClusters .icfgr false 0 0xc08 4 8 (.spi 40) :=
    ⟨by decide, by decide, by decide, by decide, by decide, .inr (by decide)⟩
  have hread := (vgic_readback_iff (.inr (.inl rfl)) (by decide) hat (.inr rfl) ht).1.mpr
    (fun heq => by cases heq)
  exact hread.trans (by decide)

/-- The route of interrupt 40 is written, but reads as 0. -/
theorem vgic_readback_irouter : ∃ t,
    FieldAt twoClusters .irouter false 0 0x6140 8 0 (.spi 40) ∧
    ((allOwnedBy 0).ints (.spi 40)).Mine 0 ∧
    vgicEmulGenericWrite twoClusters (allOwnedBy 0) 0 .irouter false 0 0x6140 8 0x100 = some t ∧
    (t.ints (.spi 40)).route = 0x100 ∧
    vgicEmulGenericRead twoClusters t 0 .irouter false 0 0x6140 8 = 0 := by
  obtain ⟨t, ht, heq⟩ : ∃ t ∈ vgicEmulGenericWrite twoClusters (allOwnedBy 0) 0 .irouter false 0
      0x6140 8 0x100, (t.ints (.spi 40)).route = 0x100 := by decide +kernel
  exact ⟨t, ⟨by decide, by decide, by decide, by decide, by decide, .inr (by decide)⟩, .inr rfl,
    ht, heq, read_irouter⟩

end Reads

end Bao.Armv8
