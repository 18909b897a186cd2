import Bao.Armv8.VgicAccess
import Bao.Armv8.VgicSystem

/-!
# Writes to the registers of a redistributor

The frame of a GICv3 redistributor has the registers of a vcpu's private interrupts, under the names
that the distributor has them under for the shared ones. What a write is to do is given here by a
table of its own, and `vgicr_emul_handler` is compared with it.
-/

namespace Bao.Armv8

open Foundation VgicSystem

variable {n : Nat}

/-- Registers of a redistributor. -/
inductive GicrReg where
  | isenabler0
  | icenabler0
  | ispendr0
  | icpendr0
  | isactiver0
  | icactiver0
  | icfgr0
  | icfgr1
  deriving DecidableEq

namespace GicrReg

def offset : GicrReg → Nat
  | isenabler0 => 0x10100
  | icenabler0 => 0x10180
  | ispendr0 => 0x10200
  | icpendr0 => 0x10280
  | isactiver0 => 0x10300
  | icactiver0 => 0x10380
  | icfgr0 => 0x10c00
  | icfgr1 => 0x10c04

/-- The distributor's description of the register of that name. -/
def handler : GicrReg → RegHandler
  | isenabler0 => .isenabler
  | icenabler0 => .icenabler
  | ispendr0 => .ispendr
  | icpendr0 => .icpendr
  | isactiver0 => .isactiver
  | icactiver0 => .icactiver
  | icfgr0 | icfgr1 => .icfgr

/-- The first private interrupt of the register. -/
def firstId : GicrReg → Nat
  | icfgr1 => 16
  | _ => 0

/-- The number of its interrupts. -/
def count : GicrReg → Nat
  | icfgr0 | icfgr1 => 16
  | _ => 32

/-- What a write is to make of the interrupt of field `i`. -/
def prescribes (reg : GicrReg) (val : BitVec 64) (i : Nat) (x : VgicInt n) : VgicInt n :=
  match reg with
  | isenabler0 => if val.getLsbD i then { x with enabled := true } else x
  | icenabler0 => if val.getLsbD i then { x with enabled := false } else x
  | ispendr0 => if val.getLsbD i then { x with state := x.state ||| pend } else x
  | icpendr0 => if val.getLsbD i then { x with state := x.state &&& ~~~pend } else x
  | isactiver0 => if val.getLsbD i then { x with state := x.state ||| act } else x
  | icactiver0 => if val.getLsbD i then { x with state := x.state &&& ~~~act } else x
  | icfgr0 | icfgr1 => { x with cfg := (val.extractLsb' (i * 2) 2).setWidth 8 }

end GicrReg

section Prescribed

variable (g : VgicConfig n)

/-- `vgic_int_set_field` for an interrupt that the vcpu may take, with any change of the record in
place of `update_field`. -/
def setFieldWith (s : VgicState n) (v : Fin n) (r : IntRef n) (update : VgicInt n → VgicInt n) :
    Option (VgicState n) :=
  if s.locked r then none
  else
    let s := vgicRemoveLr g (vgicGetOwnership s v r).2 v r
    (vgicRoute g (s.setInt r (update (s.ints r))) v r).map fun s => vgicYieldOwnership g s v r

/-- A write that does to the private interrupts of a vcpu what the register prescribes. -/
def prescribedWrite (s : VgicState n) (v : Fin n) (reg : GicrReg) (val : BitVec 64) :
    Option (VgicState n) :=
  run (fun s i => setFieldWith g s v (privRef v (reg.firstId + i)) (reg.prescribes val i))
    s (List.range reg.count)

end Prescribed

variable {g : VgicConfig n} {regs : VgicRegs n} {s t : VgicState n} {v : Fin n} {r : IntRef n}
  {reg : GicrReg} {addr : Nat} {val : BitVec 64}

/-! ## A register that is found under its offset -/

theorem setField_of_mine (hmine : (s.ints r).Mine v) (h : RegHandler) (data : BitVec 64) :
    vgicIntSetField g s v h r data =
      setFieldWith g s v r fun x => h.updateField g v r x data := by
  simp only [vgicIntSetField, setFieldWith]
  rcases getOwnership_cases s v r with ⟨heq, -⟩ | ⟨heq, -⟩ | ⟨-, w, hw, howner⟩
  · rw [heq]
  · rw [heq]
  · simp [VgicInt.Mine, howner, hw] at hmine

theorem bitExtract_bit (i : Nat) : bitExtract val i 1 = 0 ↔ val.getLsbD i = false := by
  constructor
  · intro heq
    have hbit := getLsbD_bitExtract Nat.one_pos (by decide : 1 ≤ 64) val i 0
    rw [heq] at hbit
    simpa using hbit.symm
  · intro hbit
    apply BitVec.eq_of_getLsbD_eq
    intro b hb
    rw [getLsbD_bitExtract Nat.one_pos (by decide : 1 ≤ 64)]
    by_cases hzero : b < 1
    · obtain rfl : b = 0 := by omega
      simp [hbit]
    · simp [hzero]

theorem bitExtract_cfg (off : Nat) :
    (bitExtract val off 2).setWidth 8 = (val.extractLsb' off 2).setWidth 8 := by
  apply BitVec.eq_of_getLsbD_eq
  intro b hb
  simp only [BitVec.getLsbD_setWidth, getLsbD_bitExtract Nat.two_pos (by decide : 2 ≤ 64),
    BitVec.getLsbD_extractLsb']

theorem updateField_prescribes (hv3 : g.version = .gicv3) (i : Nat) (x : VgicInt n) :
    reg.handler.updateField g v r x
      (bitExtract val (i * reg.handler.fieldWidth) reg.handler.fieldWidth) =
      reg.prescribes val i x := by
  cases reg <;> simp only [GicrReg.handler, RegHandler.updateField, RegHandler.fieldWidth,
    GicrReg.prescribes, bitExtract_cfg, Nat.mul_one, bitExtract_bit, vgicIntUpdateEnable,
    vgicIntUpdatePend, vgicIntUpdateAct, hv3, reduceCtorEq, false_and, if_false, if_true] <;>
    grind

theorem accessLoop_priv (first left k : Nat)
    (hle : first + k + left ≤ gicCpuPriv) :
    accessLoop g v first left k =
      (List.range' k left).map fun i => (i, privRef v (first + i)) := by
  induction left generalizing k with
  | zero => rfl
  | succ left ih =>
    have hlt : first + k < gicCpuPriv := by omega
    have hint : vgicGetInt g (first + k) v = some (privRef v (first + k)) := by
      simp [vgicGetInt, hlt, privRef, Nat.mod_eq_of_lt hlt]
    rw [accessLoop, u64_of_lt (hlt.trans (by decide)), hint, List.range'_succ, List.map_cons,
      ih (k + 1) (by omega)]

theorem offset_lt (reg : GicrReg) : reg.offset < gicrSize := by cases reg <;> decide

theorem accessInts_reg (hv3 : g.version = .gicv3) (haddr : addr % gicrSize = reg.offset) :
    accessInts g reg.handler true v addr 4 =
      (List.range reg.count).map fun i => (i, privRef v (reg.firstId + i)) := by
  have hmask : gicdRegMask g.version addr = reg.offset % 0x10000 := by
    simp only [gicrSize] at haddr
    simp only [hv3, gicdRegMask]
    omega
  have hfirst : firstInt g reg.handler addr = reg.firstId := by
    rw [firstInt, hmask]
    cases reg <;> rfl
  have hcount : 4 * 8 / reg.handler.fieldWidth = reg.count := by cases reg <;> rfl
  have hpriv : gicIsPriv reg.firstId = true := by cases reg <;> rfl
  have hle : reg.firstId + 0 + reg.count ≤ gicCpuPriv := by cases reg <;> decide
  simp only [accessInts, hfirst, validAccess, hpriv, Bool.xor_self, Bool.not_false, Bool.or_true,
    if_true, hcount, List.range_eq_range']
  exact accessLoop_priv _ _ 0 hle

theorem genericWrite_reg (hv3 : g.version = .gicv3) (haddr : addr % gicrSize = reg.offset)
    (hmine : ∀ id, (s.ints (.priv v id)).Mine v) :
    vgicEmulGenericWrite g s v reg.handler true v addr 4 val = prescribedWrite g s v reg val := by
  rw [vgicEmulGenericWrite, accessInts_reg hv3 haddr, run_map, prescribedWrite]
  refine run_congr (I := fun u => ∀ id, (u.ints (.priv v id)).Mine v) ?_ ?_ hmine
  · exact fun u i w hu hstep id => (fieldWrite hstep).mine _ (hu id)
  · intro u i _ hu
    have hr : (u.ints (privRef v (reg.firstId + i))).Mine v := hu _
    simp only [setField_of_mine hr, updateField_prescribes hv3]

/-- The registers that `vgicr_emul_handler` finds the right description for. -/
def GicrReg.Found (reg : GicrReg) : Prop := reg ≠ .isactiver0 ∧ reg ≠ .icactiver0

theorem vgicrEmulWrite_found (hv3 : g.version = .gicv3) (hfound : reg.Found)
    (haddr : addr % gicrSize = reg.offset) (hid : vgicrGetId regs addr = v)
    (hmine : ∀ id, (s.ints (.priv v id)).Mine v) :
    vgicrEmulWrite g regs s v addr 4 val =
      (prescribedWrite g s v reg val).map fun t => (true, t) := by
  have hinfo : vgicrInfo regs.vgicrAddr addr = .field reg.handler := by
    obtain ⟨hset, hclear⟩ := hfound
    cases reg <;> first | contradiction | simp [vgicrInfo, haddr, GicrReg.offset, GicrReg.handler]
  have halign : addr % 4 = 0 := by
    have hoff : reg.offset % 4 = 0 := by cases reg <;> rfl
    simp only [gicrSize] at haddr
    omega
  have hwidth : reg.handler.fieldWidth ≤ 2 := by cases reg <;> decide
  simp only [vgicrEmulWrite, hinfo, vgicCheckRegAlignment_word hwidth halign, if_true, hid,
    genericWrite_reg hv3 haddr hmine]

theorem vgicrEmulWrite_not_found (hv3 : g.version = .gicv3)
    (hnot : ∀ reg : GicrReg, reg.Found → addr % gicrSize ≠ reg.offset)
    (hacc : (addr - regs.vgicrAddr) % gicrSize = reg.offset) :
    ∃ b, vgicrEmulWrite g regs s v addr 4 val = some (b, s) := by
  have hempty : ∀ h : RegHandler, gicdRegMask g.version addr < h.regroupBase →
      vgicEmulGenericWrite g s v h true (vgicrGetId regs addr) addr 4 val = some s := by
    intro h hlt
    rw [vgicEmulGenericWrite, accessInts_of_lt hv3 hlt, run_nil]
  have hwrites : ∀ h, vgicrInfo regs.vgicrAddr addr = .field h →
      gicdRegMask g.version addr < h.regroupBase := by
    intro h hinfo
    have hrange : ¬ (0x10400 ≤ reg.offset ∧ reg.offset < 0x10420) := by cases reg <;> decide
    have hmisplaced : h = .icactiver ∧ addr % gicrSize = 0x10300 ∨
        h = .icfgr ∧ addr % gicrSize = 0x10380 := by
      have hset := hnot .isenabler0 (by simp [GicrReg.Found])
      have hpend := hnot .ispendr0 (by simp [GicrReg.Found])
      have hclear := hnot .icenabler0 (by simp [GicrReg.Found])
      have hunpend := hnot .icpendr0 (by simp [GicrReg.Found])
      have hcfg0 := hnot .icfgr0 (by simp [GicrReg.Found])
      have hcfg1 := hnot .icfgr1 (by simp [GicrReg.Found])
      simp only [GicrReg.offset] at hset hpend hclear hunpend hcfg0 hcfg1
      simp only [vgicrInfo, hset, hpend, hclear, hunpend, hcfg0, hcfg1, hacc, hrange,
        if_false, or_self] at hinfo
      grind
    rcases hmisplaced with ⟨rfl, haddr⟩ | ⟨rfl, haddr⟩ <;>
      (simp only [gicrSize] at haddr
       simp only [hv3, gicdRegMask, RegHandler.regroupBase]
       omega)
  simp only [vgicrEmulWrite]
  split
  · refine ⟨true, ?_⟩
    split
    · rename_i h hinfo
      rw [hempty h (hwrites h hinfo), Option.map_some]
    · rfl
  · exact ⟨false, rfl⟩

/-! ## What tells the registers apart -/

/-- Nobody holds a lock, and the private interrupts of the vcpu, which it may take, are in no list
register and do not go to one. -/
structure Apart (g : VgicConfig n) (v : Fin n) (s : VgicState n) : Prop where
  held : ∀ w, s.held w = none
  out : ∀ id, (s.ints (.priv v id)).inLr = false
  mine : ∀ id, (s.ints (.priv v id)).Mine v
  away : ∀ id, (s.ints (.priv v id)).phys.toNat ≠ g.physId v

theorem OwnersOnly.sendAll (msg : VgicMsg) (ps : List Nat) :
    OwnersOnly v s (ps.foldl (fun s i => s.cpuSendMsg msg i) s) := by
  obtain ⟨hints, hcpu, -⟩ := sendAll_frame s msg ps
  exact ⟨hcpu, fun r => by rw [hints], fun r => .inl (by rw [hints]), fun r _ _ => by rw [hints]⟩

theorem OwnersOnly.route (htarget : vgicIntVcpuIsTarget g v r (s.ints r) = false) :
    ∃ t, vgicRoute g s v r = some t ∧ OwnersOnly v s t ∧ t.held = s.held := by
  simp only [vgicRoute, htarget, Bool.false_eq_true, if_false, Option.map_some]
  split
  · exact ⟨s, rfl, refl s, rfl⟩
  · split
    · exact ⟨_, rfl, yield.trans (sendAll _ _), (sendAll_frame _ _ _).2.2.trans yield_frame.1⟩
    · exact ⟨s, rfl, refl s, rfl⟩

theorem Apart.ownersOnly (hs : Apart g v s) (h : OwnersOnly v s t) (hheld : t.held = s.held) :
    Apart g v t where
  held w := by rw [hheld, hs.held w]
  out id := by rw [h.ints]; exact hs.out id
  mine id := (h.mine_iff _).mpr (hs.mine id)
  away id := by rw [h.ints]; exact hs.away id

theorem Apart.setInt (hs : Apart g v s) {id : Fin gicCpuPriv} {x : VgicInt n}
    (hout : x.inLr = false) (hmine : x.Mine v) (haway : x.phys.toNat ≠ g.physId v) :
    Apart g v (s.setInt (.priv v id) x) where
  held := hs.held
  out id' := by
    by_cases hid : id' = id
    · subst hid; simpa [VgicState.setInt] using hout
    · simpa [VgicState.setInt, hid] using hs.out id'
  mine id' := by
    by_cases hid : id' = id
    · subst hid; simpa [VgicState.setInt] using hmine
    · simpa [VgicState.setInt, hid] using hs.mine id'
  away id' := by
    by_cases hid : id' = id
    · subst hid; simpa [VgicState.setInt] using haway
    · simpa [VgicState.setInt, hid] using hs.away id'

theorem isTarget_away (hv3 : g.version = .gicv3) {x : VgicInt n} {id : Fin gicCpuPriv}
    (haway : x.phys.toNat ≠ g.physId v) : vgicIntVcpuIsTarget g v (.priv v id) x = false := by
  have hpriv : gicIsPriv (IntRef.priv v id).id = true := decide_eq_true id.isLt
  simp [vgicIntVcpuIsTarget, hv3, hpriv, haway]

theorem getOwnership_of_mine (hmine : (s.ints r).Mine v) :
    (vgicGetOwnership s v r).2 = s.setInt r { s.ints r with owner := some v } := by
  rcases getOwnership_cases s v r with ⟨heq, howner⟩ | ⟨heq, -⟩ | ⟨-, w, hw, howner⟩
  · have hself : { s.ints r with owner := some v } = s.ints r := by rw [← howner]
    simp only [heq, hself, VgicState.setInt, Function.update_eq_self]
  · rw [heq]
  · simp [VgicInt.Mine, howner, hw] at hmine

theorem Apart.setField (hv3 : g.version = .gicv3) (hs : Apart g v s) (id : Fin gicCpuPriv)
    {update : VgicInt n → VgicInt n}
    (hupdate : ∀ x, (update x).owner = x.owner ∧ (update x).inLr = x.inLr ∧
      (update x).phys = x.phys) :
    ∃ t, setFieldWith g s v (.priv v id) update = some t ∧ Apart g v t ∧
      (∀ r', r' ≠ .priv v id → (t.ints r').fields = (s.ints r').fields) ∧
      (t.ints (.priv v id)).fields =
        (update { s.ints (.priv v id) with owner := some v }).fields := by
  have hfree : s.locked (.priv v id) = false := not_locked fun w => by simp [hs.held w]
  obtain ⟨howner, hinLr, hphys⟩ := hupdate { s.ints (.priv v id) with owner := some v }
  have hset : Apart g v ((s.setInt (.priv v id) { s.ints (.priv v id) with owner := some v }).setInt
      (.priv v id) (update { s.ints (.priv v id) with owner := some v })) := by
    refine (hs.setInt (x := { s.ints (.priv v id) with owner := some v }) (hs.out id) (.inr rfl)
      (hs.away id)).setInt ?_ (.inr howner) ?_
    · rw [hinLr]; exact hs.out id
    · rw [hphys]; exact hs.away id
  obtain ⟨u, hu, howners, hheld⟩ := OwnersOnly.route (isTarget_away hv3 (hset.away id))
  have howners := howners.trans (OwnersOnly.yield (g := g) (r := .priv v id))
  refine ⟨vgicYieldOwnership g u v (.priv v id), ?_, hset.ownersOnly howners
    (yield_frame.1.trans hheld), fun r' hr' => ?_, ?_⟩
  · rw [setFieldWith, hfree, getOwnership_of_mine (hs.mine id),
      removeLr_of_not (by simp [VgicState.setInt, hs.out id])]
    simp only [Bool.false_eq_true, if_false, VgicState.setInt, Function.update_self] at hu ⊢
    rw [hu, Option.map_some]
  · rw [howners.fields]
    simp [VgicState.setInt, hr']
  · rw [howners.fields]
    simp [VgicState.setInt]

theorem prescribes_frame (reg : GicrReg) (val : BitVec 64) (i : Nat) (x : VgicInt n) :
    (reg.prescribes val i x).owner = x.owner ∧ (reg.prescribes val i x).inLr = x.inLr ∧
      (reg.prescribes val i x).phys = x.phys := by
  cases reg <;> simp only [GicrReg.prescribes] <;> grind

theorem prescribes_fields {x y : VgicInt n} (hxy : x.fields = y.fields) (i : Nat) :
    (reg.prescribes val i x).fields = (reg.prescribes val i y).fields := by
  simp only [VgicInt.fields, VgicInt.mk.injEq] at hxy
  cases reg <;> simp only [GicrReg.prescribes] <;> grind [VgicInt.fields]

/-- What the fields of a register up to the number `count` make of the private interrupt `id`. -/
def GicrReg.effect (reg : GicrReg) (val : BitVec 64) (count id : Nat) (x : VgicInt n) : VgicInt n :=
  if reg.firstId ≤ id ∧ id < reg.firstId + count then reg.prescribes val (id - reg.firstId) x else x

theorem privRef_inj {i j : Nat} (hi : i < gicCpuPriv) (hj : j < gicCpuPriv)
    (heq : privRef v i = privRef v j) : i = j := by
  simpa [privRef, Nat.mod_eq_of_lt hi, Nat.mod_eq_of_lt hj] using heq

theorem run_prescribed (hv3 : g.version = .gicv3) (hs : Apart g v s) (reg : GicrReg)
    (val : BitVec 64) {m : Nat} (hm : reg.firstId + m ≤ gicCpuPriv) :
    ∃ t, run (fun s i => setFieldWith g s v (privRef v (reg.firstId + i)) (reg.prescribes val i))
        s (List.range m) = some t ∧ Apart g v t ∧
      ∀ id < gicCpuPriv, (t.ints (privRef v id)).fields =
        (reg.effect val m id (s.ints (privRef v id))).fields := by
  induction m with
  | zero => exact ⟨s, rfl, hs, fun id _ => by rw [GicrReg.effect, if_neg (by omega)]⟩
  | succ m ih =>
    obtain ⟨u, hu, hapart, heffect⟩ := ih (by omega)
    obtain ⟨t, ht, hapart', hother, hself⟩ := hapart.setField hv3
      ⟨(reg.firstId + m) % gicCpuPriv, Nat.mod_lt _ (Nat.succ_pos 31)⟩
      (prescribes_frame reg val m)
    refine ⟨t, ?_, hapart', fun id hid => ?_⟩
    · rw [List.range_succ]
      exact run_append.mpr ⟨u, hu, run_cons.mpr ⟨t, ht, rfl⟩⟩
    · by_cases heq : id = reg.firstId + m
      · subst heq
        refine hself.trans ?_
        have hbefore := heffect _ hid
        rw [GicrReg.effect, if_neg (by omega)] at hbefore
        rw [GicrReg.effect, if_pos (by omega), Nat.add_sub_cancel_left]
        refine prescribes_fields ?_ m
        exact hbefore
      · have hne : privRef v id ≠ privRef v (reg.firstId + m) :=
          fun h => heq (privRef_inj hid (by omega) h)
        rw [hother _ hne, heffect id hid, GicrReg.effect, GicrReg.effect]
        congr 1
        grind

/-- A record that a write of 1 to the register changes. -/
def GicrReg.before (reg : GicrReg) (phys : BitVec 64) : VgicInt n where
  phys
  enabled := reg = .icenabler0
  state := match reg with
    | icpendr0 => pend
    | icactiver0 => act
    | _ => inv

def stateBefore (g : VgicConfig n) (v : Fin n) (reg : GicrReg) : VgicState n where
  ints _ := reg.before (if g.physId v = 0 then 1 else 0)
  cpu _ := {}
  held _ := none
  queue _ := []

theorem apart_stateBefore (reg : GicrReg) : Apart g v (stateBefore g v reg) where
  held _ := rfl
  out _ := rfl
  mine _ := .inl rfl
  away id := by
    simp only [stateBefore, GicrReg.before]
    split
    · rename_i hzero
      rw [hzero]; decide
    · rename_i hne
      exact fun heq => hne (heq.symm.trans rfl)

theorem effect_changes (reg : GicrReg) (phys : BitVec 64) :
    (reg.effect 1 reg.count reg.firstId (reg.before (n := n) phys)).fields ≠
      (reg.before phys).fields := by
  cases reg <;> simp [GicrReg.effect, GicrReg.before, GicrReg.prescribes, GicrReg.firstId,
    GicrReg.count, VgicInt.fields, pend, act, inv]

theorem effect_tells {reg reg' : GicrReg} (hne : reg' ≠ reg) (phys : BitVec 64) :
    (reg'.effect 1 reg'.count reg.firstId (reg.before (n := n) phys)).fields ≠
      (reg.effect 1 reg.count reg.firstId (reg.before phys)).fields := by
  cases reg <;> cases reg' <;> first
    | exact absurd rfl hne
    | simp [GicrReg.effect, GicrReg.before, GicrReg.prescribes, GicrReg.firstId, GicrReg.count,
        VgicInt.fields, pend, act, inv]

theorem prescribedWrite_before (hv3 : g.version = .gicv3) (reg reg' : GicrReg) :
    ∃ t, prescribedWrite g (stateBefore g v reg) v reg' 1 = some t ∧
      (t.ints (privRef v reg.firstId)).fields = (reg'.effect 1 reg'.count reg.firstId
        (reg.before (if g.physId v = 0 then 1 else 0))).fields := by
  have hcount : reg'.firstId + reg'.count ≤ gicCpuPriv := by cases reg' <;> decide
  have hfirst : reg.firstId < gicCpuPriv := by cases reg <;> decide
  obtain ⟨t, ht, -, heffect⟩ := run_prescribed hv3 (apart_stateBefore reg) reg' 1 hcount
  exact ⟨t, ht, heffect _ hfirst⟩

/-- Writes by a vcpu to a register of its own redistributor do what the register prescribes exactly
when the redistributors are aligned to their size and the register is none of the two for active
bits, which have no effect. -/
theorem vgicr_write_iff (hv3 : g.version = .gicv3) (hn : n ≤ 2 ^ 32) (regs : VgicRegs n) (v : Fin n)
    (reg : GicrReg) :
    (∀ s val, (∀ id, (s.ints (.priv v id)).Mine v) →
      vgicrEmulWrite g regs s v (regs.vgicrAddr + v * gicrSize + reg.offset) 4 val =
        (prescribedWrite g s v reg val).map fun t => (true, t)) ↔
      regs.vgicrAddr % gicrSize = 0 ∧ reg ≠ .isactiver0 ∧ reg ≠ .icactiver0 := by
  have hlt := offset_lt reg
  simp only [gicrSize] at hlt
  have hid : vgicrGetId regs (regs.vgicrAddr + v * gicrSize + reg.offset) = v := by
    simp only [vgicrGetId, gicrSize]
    omega
  constructor
  · intro hall
    have heq := hall (stateBefore g v reg) 1 (apart_stateBefore reg).mine
    obtain ⟨t, ht, heffect⟩ := prescribedWrite_before (v := v) hv3 reg reg
    rw [ht, Option.map_some] at heq
    by_cases hfound : ∃ reg' : GicrReg, reg'.Found ∧
        (regs.vgicrAddr + v * gicrSize + reg.offset) % gicrSize = reg'.offset
    · -- the register found there does the same
      obtain ⟨reg', hfound, haddr⟩ := hfound
      obtain ⟨t', ht', heffect'⟩ := prescribedWrite_before (v := v) hv3 reg reg'
      rw [vgicrEmulWrite_found hv3 hfound haddr hid (apart_stateBefore reg).mine, ht',
        Option.map_some] at heq
      obtain rfl : t' = t := by simpa using heq
      obtain rfl : reg' = reg := by
        by_contra hne
        exact effect_tells hne _ (heffect'.symm.trans heffect)
      refine ⟨?_, hfound⟩
      simp only [gicrSize] at haddr ⊢
      omega
    · -- nothing is written
      simp only [not_exists, not_and] at hfound
      have hacc : (regs.vgicrAddr + v * gicrSize + reg.offset - regs.vgicrAddr) % gicrSize =
          reg.offset := by
        simp only [gicrSize]
        omega
      obtain ⟨b, hb⟩ : ∃ b, vgicrEmulWrite g regs (stateBefore g v reg) v
          (regs.vgicrAddr + v * gicrSize + reg.offset) 4 1 = some (b, stateBefore g v reg) :=
        vgicrEmulWrite_not_found hv3 hfound hacc
      rw [hb] at heq
      obtain ⟨-, rfl⟩ := Prod.mk.inj (Option.some.inj heq)
      exact absurd heffect.symm (effect_changes reg _)
  · rintro ⟨halign, hfound⟩ s val hmine
    refine vgicrEmulWrite_found hv3 hfound ?_ hid hmine
    simp only [gicrSize] at halign ⊢
    omega

/-- Vcpu 1 enables its last private interrupt. -/
theorem vgicr_write_isenabler0 :
    (prescribedWrite twoClusters (allOwnedBy 1) 1 .isenabler0 0x80000000).isSome = true ∧
    vgicrEmulWrite twoClusters regsAt2f1 (allOwnedBy 1) 1 (0x2f100000 + 1 * gicrSize + 0x10100) 4
        0x80000000 =
      (prescribedWrite twoClusters (allOwnedBy 1) 1 .isenabler0 0x80000000).map
        fun t => (true, t) :=
  ⟨by decide +kernel, (vgicr_write_iff (g := twoClusters) rfl (by decide) regsAt2f1 1
    .isenabler0).mpr ⟨rfl, by decide, by decide⟩ (allOwnedBy 1) 0x80000000 fun _ => .inr rfl⟩

/-- The active bit of the first private interrupt is not set. -/
theorem vgicr_write_isactiver0 : ∃ t u,
    vgicrEmulWrite twoClusters regsAt2f1 (allOwnedBy 0) 0 (0x2f100000 + 0 * gicrSize + 0x10300) 4
      1 = some (true, t) ∧ (t.ints (privRef 0 0)).state = inv ∧
    prescribedWrite twoClusters (allOwnedBy 0) 0 .isactiver0 1 = some u ∧
      (u.ints (privRef 0 0)).state = act := by
  obtain ⟨⟨b, t⟩, ht, rfl, hstate⟩ : ∃ r ∈ vgicrEmulWrite twoClusters regsAt2f1 (allOwnedBy 0) 0
      (0x2f100000 + 0 * gicrSize + 0x10300) 4 1,
        r.1 = true ∧ (r.2.ints (privRef 0 0)).state = inv := by decide +kernel
  obtain ⟨u, hu, hact⟩ : ∃ u ∈ prescribedWrite twoClusters (allOwnedBy 0) 0 .isactiver0 1,
      (u.ints (privRef 0 0)).state = act := by decide +kernel
  exact ⟨t, u, ht, hstate, hu, hact⟩

end Bao.Armv8
