import Mathlib.Logic.Relation
import Bao.Riscv.VplicSystem

/-!
# What a guest access writes

The virtual controller passes on some of the guest's stores to the physical one. Here it is said
which registers of the physical controller these are: those of the interrupts that are assigned to
the VM, and those of the contexts of its harts. The bitmaps of the virtual controller are changed by
claims and completions only.
-/

namespace Bao

open Foundation

/-! ### Stores to the physical controller -/

/-- A store to a register of the physical controller; the enable registers are written bit by bit,
since the other bits of a word are stored back as they were. -/
inductive PlicWrite where
  | prio (id : Nat) (val : BitVec 32)
  | enbl (cntxt id : Nat) (en : Bool)
  | threshold (cntxt : Nat) (val : BitVec 32)
  | complete (cntxt id : Nat)

def Plic.write (plic : Plic) : PlicWrite → Plic
  | .prio id val => { plic with prio := Function.update plic.prio id val }
  | .enbl c id en =>
    { plic with enbl := Function.update plic.enbl c (Function.update (plic.enbl c) id en) }
  | .threshold c val => { plic with threshold := Function.update plic.threshold c val }
  | .complete c id => { plic with complete := (c, id) :: plic.complete }

/-- The hart of the context is one of the VM's. -/
def VplicVm.OwnCntxt (vm : VplicVm) (c : Nat) : Prop :=
  vm.cpus.testBit (plicPlatIdToCntxt vm.plat (some c)).hartId = true

/-- The registers of a VM: the priorities of the interrupts assigned to it, their enable bits in the
contexts of its harts, and the thresholds of these contexts. -/
def PlicWrite.Own (vm : VplicVm) (assigned : Nat → Prop) : PlicWrite → Prop
  | .prio id _ => assigned id
  | .enbl c id _ => assigned id ∧ vm.OwnCntxt c
  | .threshold c _ => vm.OwnCntxt c
  | .complete _ _ => False

/-- The second state is reached from the first by stores to registers of the VM. -/
def OwnWrites (vm : VplicVm) (assigned : Nat → Prop) : Plic → Plic → Prop :=
  Relation.ReflTransGen fun plic plic' => ∃ w : PlicWrite, w.Own vm assigned ∧ plic' = plic.write w

section Frame

variable {vm : VplicVm} {assigned : Nat → Prop} {plic plic' : Plic} {c id : Nat}

theorem OwnWrites.write {w : PlicWrite} (hw : w.Own vm assigned) :
    OwnWrites vm assigned plic (plic.write w) :=
  .single ⟨w, hw, rfl⟩

section

variable (h : OwnWrites vm assigned plic plic')

include h

theorem OwnWrites.frame {α : Type} (read : Plic → α)
    (keep : ∀ p w, PlicWrite.Own vm assigned w → read (p.write w) = read p) :
    read plic' = read plic := by
  induction h with
  | refl => rfl
  | tail _ hstep ih =>
    obtain ⟨w, hw, rfl⟩ := hstep
    exact (keep _ w hw).trans ih

theorem OwnWrites.prio (hid : ¬ assigned id) : plic'.prio id = plic.prio id := by
  refine h.frame (·.prio id) fun p w hw => ?_
  cases w with
  | prio id' val =>
    have hne : id ≠ id' := fun heq => hid (heq ▸ hw)
    exact Function.update_of_ne hne ..
  | _ => rfl

theorem OwnWrites.enbl (hid : ¬ (assigned id ∧ vm.OwnCntxt c)) :
    plic'.enbl c id = plic.enbl c id := by
  refine h.frame (·.enbl c id) fun p w hw => ?_
  cases w with
  | enbl c' id' en =>
    by_cases hc : c = c'
    · subst hc
      have hne : id ≠ id' := fun heq => hid (heq ▸ hw)
      simp [Plic.write, Function.update_of_ne hne]
    · simp [Plic.write, Function.update_of_ne hc]
  | _ => rfl

theorem OwnWrites.threshold (hc : ¬ vm.OwnCntxt c) : plic'.threshold c = plic.threshold c := by
  refine h.frame (·.threshold c) fun p w hw => ?_
  cases w with
  | threshold c' val =>
    have hne : c ≠ c' := fun heq => hc (heq ▸ hw)
    exact Function.update_of_ne hne ..
  | _ => rfl

theorem OwnWrites.complete : plic'.complete = plic.complete := by
  refine h.frame (·.complete) fun p w hw => ?_
  cases w with
  | complete _ _ => exact hw.elim
  | _ => rfl

end

end Frame

/-! ### The setters -/

section Setters

variable {vm : VplicVm} {assigned : Nat → Prop} {plic : Plic} {s : VplicState}
  {cpu vcntxt id : Nat}

theorem vplicVcntxtToPcntxt_own {c : Nat} (h : vplicVcntxtToPcntxt vm vcntxt = some c)
    (hvalid : plicCntxtValid vm.plat (some c) = true) : vm.OwnCntxt c := by
  simp only [plicCntxtValid, Bool.and_eq_true, decide_eq_true_eq] at hvalid
  unfold vplicVcntxtToPcntxt at h
  dsimp only at h
  split at h
  · next hart htrans =>
    have hbit := vmTranslateToPcpuid_testBit htrans
    have hhart : (plicPlatIdToCntxt vm.plat (some c)).hartId = hart := by
      rw [plicPlatIdToCntxt, if_pos hvalid.1]
      unfold plicPlatCntxtToId at h
      dsimp only at h ⊢
      split at h <;> simp only [Option.some.injEq, reduceCtorEq] at h <;> omega
    rw [VplicVm.OwnCntxt, hhart]
    exact hbit
  · cases h

theorem plicSetThreshold_own {threshold : BitVec 32} :
    OwnWrites vm assigned plic
      (plicSetThreshold vm.plat plic (vplicVcntxtToPcntxt vm vcntxt) threshold) := by
  unfold plicSetThreshold
  split
  · exact .refl
  · next c hc =>
    split
    · next hvalid =>
      exact OwnWrites.write (w := .threshold c threshold) (vplicVcntxtToPcntxt_own hc hvalid)
    · exact .refl

theorem plicSetEnbl_own {en : Bool} (hid : assigned id) :
    OwnWrites vm assigned plic
      (plicSetEnbl vm.plat plic (vplicVcntxtToPcntxt vm vcntxt) id en) := by
  unfold plicSetEnbl
  split
  · exact .refl
  · next c hc =>
    split
    · next hvalid =>
      exact OwnWrites.write (w := .enbl c id en) ⟨hid, vplicVcntxtToPcntxt_own hc hvalid.2⟩
    · exact .refl

theorem plicSetPrio_own {prio : BitVec 32} (hid : assigned id) :
    OwnWrites vm assigned plic (plicSetPrio vm.plat plic id prio) := by
  unfold plicSetPrio
  split
  · exact OwnWrites.write (w := .prio id prio) hid
  · exact .refl

@[simp] theorem vplicUpdateHartLine_plic :
    (vplicUpdateHartLine vm cpu vcntxt s).val.plic = s.plic := by
  unfold vplicUpdateHartLine
  split <;> simp [VplicState.setVseip, VplicState.sendMsg]

/-- The hardware bits of the virtual controller are those of the interrupts assigned to the VM. -/
def HwExact (assigned : Nat → Prop) (mem : VplicMem) : Prop :=
  ∀ id < plicMaxInterrupts, memBit mem id = true ↔ assigned id

/-- The words of the bitmaps `hw`, `pend` and `act` are the same. -/
def SameBitmaps (mem mem' : VplicMem) : Prop := ∀ w < 96, mem' w = mem w

theorem SameBitmaps.memBit {mem mem' : VplicMem} {k : Nat} (h : SameBitmaps mem mem')
    (hk : k < 3 * plicMaxInterrupts) : memBit mem' k = memBit mem k := by
  rw [Bao.memBit, Bao.memBit, h (k / 32) (by simp only [plicMaxInterrupts] at hk; omega)]

theorem HwExact.of_same {mem mem' : VplicMem} (h : HwExact assigned mem)
    (hsame : SameBitmaps mem mem') : HwExact assigned mem' := fun id hid => by
  rw [hsame.memBit (by omega)]
  exact h id hid

/-- The effect of a store that is neither a claim nor a completion. -/
structure RegStore (vm : VplicVm) (assigned : Nat → Prop) (s s' : VplicState) : Prop where
  bitmaps : SameBitmaps s.mem s'.mem
  plic : OwnWrites vm assigned s.plic s'.plic

theorem RegStore.refl : RegStore vm assigned s s := ⟨fun _ _ => rfl, .refl⟩

theorem RegStore.trans {s' s'' : VplicState} (h : RegStore vm assigned s s')
    (h' : RegStore vm assigned s' s'') : RegStore vm assigned s s'' :=
  ⟨fun w hw => (h'.bitmaps w hw).trans (h.bitmaps w hw), h.plic.trans h'.plic⟩

theorem vplicSetThreshold_regStore {threshold : BitVec 32} :
    RegStore vm assigned s (vplicSetThreshold vm vcntxt threshold s).val.state := by
  simp only [vplicSetThreshold, Logged.val_bind, Logged.val_touch, Logged.val_pure]
  refine ⟨fun w hw => Function.update_of_ne ?_ .., plicSetThreshold_own⟩
  simp only [thresholdAt]
  omega

theorem vplicSetEnbl_regStore {set : Bool} (hid : id < plicMaxInterrupts)
    (hhw : HwExact assigned s.mem) :
    RegStore vm assigned s (vplicSetEnbl vm cpu vcntxt id set s).val := by
  have hsame : SameBitmaps s.mem (memWriteBit s.mem (enblAt vcntxt id) set) := fun w hw =>
    memWriteBit_word (by simp only [enblAt, plicMaxInterrupts]; omega)
  simp only [vplicSetEnbl, vplicGetHw, if_pos (IdLe.of_lt hid), Logged.val_bind, Logged.val_touch,
    Logged.val_ite, Logged.val_pure]
  split
  · split
    · next hbit => exact ⟨hsame, plicSetEnbl_own ((hhw.of_same hsame id hid).mp hbit)⟩
    · refine ⟨?_, ?_⟩
      · rw [vplicUpdateHartLine_mem]
        exact hsame
      · rw [vplicUpdateHartLine_plic]
        exact .refl
  · exact .refl

theorem vplicSetEnblWord_regStore {firstInt : Nat} {val : Word}
    (hfirst : firstInt + 32 ≤ plicMaxInterrupts) (hhw : HwExact assigned s.mem) :
    RegStore vm assigned s (vplicSetEnblWord vm cpu vcntxt firstInt val s).val := by
  refine (Logged.foldlM_invariant
    (I := fun l t => (∀ i ∈ l, i < 32) ∧ RegStore vm assigned s t) ?_
    ⟨fun i hi => List.mem_range.mp hi, .refl⟩).2
  rintro t b l ⟨hl, ht⟩
  have hb := hl b List.mem_cons_self
  refine ⟨fun i hi => hl i (List.mem_cons_of_mem b hi), ht.trans ?_⟩
  exact vplicSetEnbl_regStore (by omega) (hhw.of_same ht.bitmaps)

theorem vplicSetPrioBody_plic : (vplicSetPrioBody vm cpu id s vcntxt).val.plic = s.plic := by
  simp only [vplicSetPrioBody, Logged.val_ite, Logged.val_bind, Logged.val_pure]
  split
  · rfl
  · split <;> simp

theorem vplicSetPrio_regStore {prio : BitVec 32} (hid : id < plicMaxInterrupts)
    (hhw : HwExact assigned s.mem) :
    RegStore vm assigned s (vplicSetPrio vm cpu id prio s).val := by
  have hsame : SameBitmaps s.mem (Function.update s.mem (prioAt id) prio) := fun w hw =>
    Function.update_of_ne (by simp only [prioAt]; omega) ..
  simp only [vplicSetPrio, vplicGetHw, if_pos (IdLe.of_lt hid), Logged.val_bind, Logged.val_touch,
    Logged.val_ite, Logged.val_pure]
  split
  · split
    · next hbit => exact ⟨hsame, plicSetPrio_own ((hhw.of_same hsame id hid).mp hbit)⟩
    · refine Logged.foldlM_invariant (I := fun _ t => RegStore vm assigned s t) ?_ ⟨hsame, .refl⟩
      rintro t i - ht
      refine ⟨?_, ?_⟩
      · rw [vplicSetPrioBody_mem]
        exact ht.bitmaps
      · rw [vplicSetPrioBody_plic]
        exact ht.plic
  · exact .refl

end Setters

/-! ### The handlers -/

/-- The context whose claim and complete register an access of the second window is for. -/
def claimAccessCntxt (vm : VplicVm) (acc : EmulAccess) : Option Nat :=
  if inEmulMem vm.plat.plicBase (plicGlobalSize vm.plat) acc.addr then none
  else if vplicVcntxtValid vm (hartAccessCntxt vm acc) ∧ (acc.addr &&& 0xf).toNat = 4 then
    some (hartAccessCntxt vm acc)
  else none

section Handlers

variable {vm : VplicVm} {assigned : Nat → Prop} {s : VplicState} {cpu : Nat} {acc : EmulAccess}
  {x : Logged Access VplicResult}

theorem vplicGlobalEmulHandler_regStore (hhw : HwExact assigned s.mem)
    (h : vplicGlobalEmulHandler vm cpu acc s = some x) : RegStore vm assigned s x.val.state := by
  have hreg : globalAccessReg vm acc < plicMaxInterrupts := globalAccessReg_lt acc
  unfold vplicGlobalEmulHandler at h
  generalize ((acc.addr >>> 12) &&& 3).toNat = page at h
  split at h
  · cases h
  · match page, h with
    | 0, rfl =>
      simp only [vplicEmulPrioAccess, Logged.val_ite, Logged.val_bind, Logged.val_pure]
      split
      · exact vplicSetPrio_regStore hreg hhw
      · exact .refl
    | 1, rfl =>
      simp only [vplicEmulPendAccess, Logged.val_ite, Logged.val_bind, Logged.val_pure]
      split <;> exact .refl
    | _ + 2, rfl =>
      obtain ⟨-, hsame | ⟨-, -, hstore⟩⟩ := vplicEmulEnblAccess_cases vm cpu acc s
      · rw [hsame]
        exact .refl
      · rw [hstore]
        exact vplicSetEnblWord_regStore (enblAccessFirst_le acc) hhw

/-- What an access that the handlers accept does: it completes, it claims, or it is for another
register. -/
theorem vplicEmul_cases (hhw : HwExact assigned s.mem) (h : vplicEmul vm cpu acc s = some x) :
    (∃ c, claimAccessCntxt vm acc = some c ∧ acc.write = true ∧
      x = vplicComplete cpu c (intArg acc.regVal) s) ∨
    (∃ c, claimAccessCntxt vm acc = some c ∧ acc.write = false ∧ x = vplicClaim vm c s) ∨
    (claimAccessCntxt vm acc = none ∧ RegStore vm assigned s x.val.state) := by
  unfold vplicEmul at h
  unfold claimAccessCntxt
  split at h
  · next hglobal =>
    rw [if_pos hglobal]
    exact .inr (.inr ⟨rfl, vplicGlobalEmulHandler_regStore hhw h⟩)
  · next hglobal =>
    rw [if_neg hglobal]
    simp only [Option.ite_none_right_eq_some, vplicHartEmulHandler] at h
    generalize (acc.addr &&& 0xf).toNat = reg at h ⊢
    obtain ⟨-, h⟩ := h
    split at h
    · cases h
    · split at h
      · next hvalid =>
        cases h
        exact .inr (.inr ⟨by simp [hvalid], .refl⟩)
      · next hvalid =>
        simp only [Bool.not_eq_false _ ▸ hvalid, true_and]
        split at h
        · split at h <;> cases h
          · exact .inr (.inr ⟨rfl, vplicSetThreshold_regStore⟩)
          · exact .inr (.inr ⟨rfl, .refl⟩)
        · split at h <;> cases h
          · next hwrite => exact .inl ⟨_, rfl, hwrite, rfl⟩
          · next hwrite => exact .inr (.inl ⟨_, rfl, Bool.eq_false_iff.mpr hwrite, rfl⟩)
        · next hreg =>
          cases h
          rw [if_neg hreg]
          exact .inr (.inr ⟨rfl, .refl⟩)

end Handlers

/-- The two states of the physical controller differ in registers of the VM only. -/
structure PlicFrame (vm : VplicVm) (assigned : Nat → Prop) (plic plic' : Plic) : Prop where
  prio : ∀ id, ¬ assigned id → plic'.prio id = plic.prio id
  enbl : ∀ c id, ¬ (assigned id ∧ vm.OwnCntxt c) → plic'.enbl c id = plic.enbl c id
  threshold : ∀ c, ¬ vm.OwnCntxt c → plic'.threshold c = plic.threshold c

theorem OwnWrites.plicFrame {vm : VplicVm} {assigned : Nat → Prop} {plic plic' : Plic}
    (h : OwnWrites vm assigned plic plic') : PlicFrame vm assigned plic plic' :=
  ⟨fun _ => h.prio, fun _ _ => h.enbl, fun _ => h.threshold⟩

/-- A guest access to a priority, pending, enable or threshold register stores to registers of the
VM only, and so does the update of the line that it leaves for after the release of the lock. -/
theorem vplicEmul_own {vm : VplicVm} {assigned : Nat → Prop} {s : VplicState} {cpu : Nat}
    {acc : EmulAccess} {x : Logged Access VplicResult} (hhw : HwExact assigned s.mem)
    (hreg : claimAccessCntxt vm acc = none) (h : vplicEmul vm cpu acc s = some x) :
    OwnWrites vm assigned s.plic x.val.state.plic ∧
      PlicFrame vm assigned s.plic x.val.state.plic ∧
      x.val.state.plic.complete = s.plic.complete ∧
      ∀ c ∈ x.val.line, ∀ t, (vplicUpdateHartLine vm cpu c t).val.plic = t.plic := by
  obtain ⟨c, hc, -⟩ | ⟨c, hc, -⟩ | ⟨-, hstore⟩ := vplicEmul_cases hhw h
  · rw [hreg] at hc
    cases hc
  · rw [hreg] at hc
    cases hc
  · refine ⟨hstore.plic, hstore.plic.plicFrame, hstore.plic.complete, fun c _ t => ?_⟩
    exact vplicUpdateHartLine_plic

/-- A VM on the harts 1 and 2 that owns interrupt 9 enables all of the first 32 interrupts for its
first hart. Of the physical enable bits of that hart's supervisor context, one is set. -/
theorem vplicEmul_own_enable :
    let vm : VplicVm := { plat := virtPlat, cpus := 6, cntxtNum := 4 }
    let acc : EmulAccess := { addr := 0xc002080, width := 4, write := true, regVal := 0xffffffff }
    let s := (vplicInit [9]).state
    HwExact (· = 9) s.mem ∧ claimAccessCntxt vm acc = none ∧
      ∃ x, vplicEmul vm 1 acc s = some x ∧ PlicFrame vm (· = 9) s.plic x.val.state.plic ∧
        (∀ id < 32, x.val.state.plic.enbl 3 id = true ↔ id = 9) := by
  intro vm acc s
  have hhw : HwExact (· = 9) s.mem := by
    unfold HwExact
    decide +kernel
  have hreg : claimAccessCntxt vm acc = none := by decide +kernel
  exact ⟨hhw, hreg, exists_some_of (by decide +kernel) fun x h hx =>
    ⟨(vplicEmul_own hhw hreg h).2.1, hx⟩⟩

/-! ### Steps -/

section Steps

variable {vm : VplicVm} {assigned : Nat → Prop} {s t : VplicSystem} {a : VplicAction}
  {cpu vcpuId id : Nat}

/-- The effect of an injection. -/
structure Injected (id : Nat) (s s' : VplicState) : Prop where
  plic : s'.plic = s.plic
  mem : s'.mem = if (0 < id ∧ id ≤ plicMaxInterrupts) ∧ memBit s.mem (pendAt id) = false then
    memWriteBit s.mem (pendAt id) true else s.mem

theorem vplicInjectBody_plic {s : VplicState} {i : Nat} :
    (vplicInjectBody vm cpu id s i).val.plic = s.plic := by
  simp only [vplicInjectBody, Logged.val_ite, Logged.val_bind, Logged.val_pure]
  split
  · rfl
  · split
    · split <;> simp
    · rfl

theorem vplicInject_injected {s : VplicState} :
    Injected id s (vplicInject vm cpu vcpuId id s).val := by
  unfold vplicInject
  split
  · next hrange =>
    simp only [vplicGetPend, vplicGetHw, if_pos (idLe_of_le hrange.2), Logged.val_bind,
      Logged.val_touch, Logged.val_ite, Logged.val_pure]
    split
    · next hpend => exact ⟨rfl, by simp [hpend]⟩
    · next hpend =>
      have hset : (0 < id ∧ id ≤ plicMaxInterrupts) ∧ memBit s.mem (pendAt id) = false :=
        ⟨hrange, Bool.eq_false_iff.mpr hpend⟩
      split
      · exact ⟨vplicUpdateHartLine_plic, by rw [if_pos hset, vplicUpdateHartLine_mem]⟩
      · refine Logged.foldlM_invariant (I := fun _ t => Injected id s t) ?_
          ⟨rfl, by rw [if_pos hset]⟩
        rintro t i - ht
        exact ⟨vplicInjectBody_plic.trans ht.plic, vplicInjectBody_mem.trans ht.mem⟩
  · next hrange => exact ⟨rfl, by rw [if_neg fun h => hrange h.1, Logged.val_pure]⟩

theorem vplicStep_quiet (hacc : ∀ cpu acc, a ≠ .access cpu acc)
    (hinj : ∀ cpu vcpuId id, a ≠ .inject cpu vcpuId id) (h : vplicStep vm s a = some t) :
    t.state.mem = s.state.mem ∧ t.state.plic = s.state.plic := by
  cases a with
  | access cpu acc => exact absurd rfl (hacc cpu acc)
  | inject cpu vcpuId id => exact absurd rfl (hinj cpu vcpuId id)
  | updateLine cpu =>
    simp only [vplicStep, vplicExec, Option.map_eq_some_iff] at h
    obtain ⟨x, hx, rfl⟩ := h
    split at hx
    · cases hx
      simp
    · cases hx
  | handleMsg cpu =>
    simp only [vplicStep, vplicExec, Option.map_eq_some_iff, Option.ite_none_right_eq_some] at h
    obtain ⟨x, ⟨-, hx⟩, rfl⟩ := h
    split at hx
    · cases hx
      simp
    · cases hx
  | reset cpu =>
    simp only [vplicStep, vplicExec, Option.map_eq_some_iff, Option.ite_none_right_eq_some,
      Option.some.injEq] at h
    obtain ⟨_, ⟨-, rfl⟩, rfl⟩ := h
    simp

theorem vplicStep_inject (h : vplicStep vm s (.inject cpu vcpuId id) = some t) :
    Injected id s.state t.state := by
  simp only [vplicStep, vplicExec, Option.map_eq_some_iff, Option.ite_none_right_eq_some,
    Option.some.injEq] at h
  obtain ⟨_, ⟨-, rfl⟩, rfl⟩ := h
  simpa using vplicInject_injected

/-- What a step does: a completion, a claim, an injection, or none of these, and then it changes no
bitmap. -/
theorem vplicStep_cases (hhw : HwExact assigned s.state.mem) (h : vplicStep vm s a = some t) :
    (∃ cpu acc c, a = .access cpu acc ∧ claimAccessCntxt vm acc = some c ∧ acc.write = true ∧
      t.state = (vplicComplete cpu c (intArg acc.regVal) s.state).val.state) ∨
    (∃ cpu acc c, a = .access cpu acc ∧ claimAccessCntxt vm acc = some c ∧ acc.write = false ∧
      vplicEmul vm cpu acc s.state = some (vplicClaim vm c s.state) ∧
      t.state = (vplicClaim vm c s.state).val.state) ∨
    (∃ cpu vcpuId id, a = .inject cpu vcpuId id ∧ Injected id s.state t.state) ∨
    ((∀ cpu acc, a = .access cpu acc → claimAccessCntxt vm acc = none) ∧
      (∀ cpu vcpuId id, a ≠ .inject cpu vcpuId id) ∧ RegStore vm assigned s.state t.state) := by
  have hquiet (hacc : ∀ cpu acc, a ≠ .access cpu acc) (hinj : ∀ cpu v id, a ≠ .inject cpu v id) :
      (∀ cpu acc, a = .access cpu acc → claimAccessCntxt vm acc = none) ∧
        (∀ cpu v id, a ≠ .inject cpu v id) ∧ RegStore vm assigned s.state t.state := by
    obtain ⟨hmem, hplic⟩ := vplicStep_quiet hacc hinj h
    exact ⟨fun cpu acc heq => absurd heq (hacc cpu acc), hinj,
      ⟨fun _ _ => by rw [hmem], hplic ▸ .refl⟩⟩
  cases a with
  | access cpu acc =>
    simp only [vplicStep, vplicExec, Option.map_eq_some_iff, Option.ite_none_right_eq_some] at h
    obtain ⟨_, ⟨-, x, hx, rfl⟩, rfl⟩ := h
    obtain ⟨c, hc, hwrite, rfl⟩ | ⟨c, hc, hwrite, rfl⟩ | ⟨hc, hstore⟩ := vplicEmul_cases hhw hx
    · exact .inl ⟨cpu, acc, c, rfl, hc, hwrite, by simp⟩
    · exact .inr (.inl ⟨cpu, acc, c, rfl, hc, hwrite, hx, by simp⟩)
    · refine .inr (.inr (.inr ⟨?_, by simp, by simpa using hstore⟩))
      rintro _ _ ⟨⟩
      exact hc
  | inject cpu vcpuId id => exact .inr (.inr (.inl ⟨cpu, vcpuId, id, rfl, vplicStep_inject h⟩))
  | updateLine cpu => exact .inr (.inr (.inr (hquiet (by simp) (by simp))))
  | handleMsg cpu => exact .inr (.inr (.inr (hquiet (by simp) (by simp))))
  | reset cpu => exact .inr (.inr (.inr (hquiet (by simp) (by simp))))

end Steps

end Bao
