import Bao.Riscv.VplicSystem

/-!
# The interrupt lines of the harts

The virtual controller drives one line for each hart of the VM, the bit `VSEIP` of its `HVIP`. A
line that should be raised is either raised, or an `UPDATE_HART_LINE` message for it waits at its
hart, or some cpu has still to update it after releasing the lock. Steps that change what can be
delivered to a context without updating its line break this, and the condition below excludes them.
-/

namespace Bao

open Foundation

/-- `vplic_init` gives a VM two contexts for each of its cpus, and its cpus have their contexts
in the platform. -/
structure VplicVm.Wf (vm : VplicVm) : Prop where
  cntxtNum : vm.cntxtNum = 2 * popcount vm.cpus
  cntxts : ∀ p, vm.cpus.testBit p = true → p * 2 + 1 < vm.plat.cntxtNum

/-- A vcpu of the VM with the physical hart it runs on. -/
structure VmHart (vm : VplicVm) where
  vcpu : Nat
  hart : Nat
  vcpu_lt : vcpu < 2 ^ 64
  translate : vmTranslateToPcpuid vm.cpus vcpu = some hart

/-- The supervisor context of a vcpu. -/
def VmHart.cntxt {vm : VplicVm} (h : VmHart vm) : Nat := h.vcpu * 2 + 1

namespace VmHart

variable {vm : VplicVm} {h h' : VmHart vm}

theorem spec (h : VmHart vm) : h.hart < 64 ∧ vm.cpus.testBit h.hart = true ∧
    Nat.count (vm.cpus.testBit · = true) h.hart = h.vcpu :=
  (vmTranslateToPcpuid_spec h.vcpu_lt).mp h.translate

theorem ext_hart (heq : h.hart = h'.hart) : h = h' := by
  have hv : h.vcpu = h'.vcpu := by rw [← h.spec.2.2, ← h'.spec.2.2, heq]
  cases h; cases h'
  simp_all

theorem ext_cntxt (heq : h.cntxt = h'.cntxt) : h = h' := by
  have hv : h.vcpu = h'.vcpu := by unfold cntxt at heq; omega
  apply ext_hart
  have htrans := h.translate
  rw [hv, h'.translate] at htrans
  exact (Option.some.inj htrans).symm

theorem cntxt_lt (hwf : vm.Wf) (h : VmHart vm) : h.cntxt < vm.plat.cntxtNum := by
  have hcount : Nat.count (vm.cpus.testBit · = true) h.hart ≤ h.hart := Nat.count_le _
  have hlt := hwf.cntxts h.hart h.spec.2.1
  have hv := h.spec.2.2
  unfold cntxt
  omega

theorem cntxt_lt_cntxtNum (hwf : vm.Wf) (h : VmHart vm) : h.cntxt < vm.cntxtNum := by
  have hlt := vmTranslateToPcpuid_lt_popcount h.vcpu_lt h.translate
  rw [hwf.cntxtNum, cntxt]
  omega

theorem idToCntxt (hwf : vm.Wf) (h : VmHart vm) :
    plicPlatIdToCntxt vm.plat (some h.cntxt) = ⟨h.vcpu, .s⟩ :=
  plicPlatIdToCntxt_supervisor (h.cntxt_lt hwf)

theorem lineHart_cntxt (hwf : vm.Wf) (h : VmHart vm) : lineHart vm h.cntxt = h.hart := by
  have hhart := plicPlatIdToCntxt_supervisor (hwf.cntxts h.hart h.spec.2.1)
  simp only [lineHart, vplicVcntxtToPcntxt, h.idToCntxt hwf, h.translate, plicPlatCntxtToId, hhart]

theorem exists_of_vcpu {v : Nat} (hv : v < popcount vm.cpus) :
    ∃ h : VmHart vm, h.vcpu = v := by
  obtain ⟨p, hp⟩ := exists_vmTranslateToPcpuid hv
  have hle := popcount_le vm.cpus
  exact ⟨⟨v, p, by omega, hp⟩, rfl⟩

theorem exists_of_mode (hwf : vm.Wf) {i : Nat} (hi : i < vm.cntxtNum)
    (hmode : (plicPlatIdToCntxt vm.plat (some i)).mode = .s) :
    ∃ h : VmHart vm, h.cntxt = i := by
  have hodd := (plicPlatIdToCntxt_mode_s hmode).2
  rw [hwf.cntxtNum] at hi
  obtain ⟨h, hv⟩ : ∃ h : VmHart vm, h.vcpu = i / 2 := exists_of_vcpu (by omega)
  exact ⟨h, by unfold cntxt; omega⟩

theorem exists_of_valid (hwf : vm.Wf) {c : Nat} (hvalid : vplicVcntxtValid vm c = true) :
    ∃ h : VmHart vm, h.cntxt = c := by
  simp only [vplicVcntxtValid, Bool.and_eq_true, decide_eq_true_eq] at hvalid
  obtain ⟨hlt, hmode⟩ := hvalid
  have hlt' := hwf.cntxtNum ▸ hlt
  obtain ⟨h, hv⟩ : ∃ h : VmHart vm, h.vcpu = c / 2 := exists_of_vcpu (by omega)
  refine exists_of_mode hwf hlt ?_
  have hnum := h.cntxt_lt hwf
  have hnum : c < vm.plat.cntxtNum := by unfold cntxt at hnum; omega
  simp only [plicPlatIdToCntxt, hnum, if_true] at hmode ⊢
  grind

end VmHart

/-! ### Lines and what they should show -/

/-- The bit `VSEIP` of a hart's `HVIP`. -/
def VplicState.vseip (s : VplicState) (hart : Nat) : Bool :=
  (s.csrs hart).hvip &&& hipVseip ≠ 0

theorem VplicState.vseip_setVseip (s : VplicState) (hart hart' : Nat) (v : Bool) :
    (s.setVseip hart v).vseip hart' = if hart' = hart then v else s.vseip hart' := by
  unfold VplicState.vseip VplicState.setVseip
  by_cases heq : hart' = hart
  · subst heq
    have hset (x : Word) : (x ||| hipVseip) &&& hipVseip = hipVseip := by
      ext i
      simpa using Or.inr
    have hclear (x : Word) : x &&& ~~~ hipVseip &&& hipVseip = 0 := by
      ext i
      simp
    cases v
    · simp [hclear]
    · simpa [hset] using by decide
  · simp [heq]

/-- What the memory of the controller satisfies from its initialisation on: the id 0 is never
pending, and nothing is enabled for the first 32 interrupts in the machine context of hart 0. The
word of the latter is what is read as the priority of the id `PLIC_MAX_INTERRUPTS`. -/
structure MemInv (mem : VplicMem) : Prop where
  pend : memBit mem (pendAt 0) = false
  enbl : mem (prioAt plicMaxInterrupts) = 0

variable {plat : PlicPlat} {mem : VplicMem} {c : Nat}

theorem Deliverable.lt {id : Nat} (hmem : MemInv mem) (h : Deliverable plat mem c id)
    (hid : id ≤ plicMaxInterrupts) : id < plicMaxInterrupts := by
  refine lt_of_le_of_ne hid fun heq => ?_
  have hprio := h.prio
  rw [heq, hmem.enbl] at hprio
  exact BitVec.not_lt_zero hprio

/-- An interrupt is pending for the context. -/
def Live (plat : PlicPlat) (mem : VplicMem) (c : Nat) : Prop :=
  (vplicNextPending plat mem c).val ≠ 0

theorem live_iff (hmem : MemInv mem) :
    Live plat mem c ↔ ∃ id < plicMaxInterrupts, Deliverable plat mem c id := by
  rw [Live, vplicNextPending_ne_zero_iff hmem.pend]
  constructor
  · rintro ⟨id, hid, h⟩
    exact ⟨id, h.lt hmem hid, h⟩
  · rintro ⟨id, hid, h⟩
    exact ⟨id, le_of_lt hid, h⟩

/-- The line of the hart is raised, or a message to update it waits at the hart. -/
def VplicState.Shown {vm : VplicVm} (s : VplicState) (h : VmHart vm) : Prop :=
  s.vseip h.hart = true ∨ h.cntxt ∈ s.msgs h.hart

/-- Every line but those of `E` that should be raised is shown, or is one of those in `T` that are
still to be updated. Messages wait at the harts that they are for. -/
structure Lines (vm : VplicVm) (T : Nat → Prop) (E : VmHart vm → Prop) (s : VplicState) : Prop where
  shown : ∀ h, ¬ E h → Live vm.plat s.mem h.cntxt → s.Shown h ∨ T h.cntxt
  msgs : ∀ q, ∀ c ∈ s.msgs q, ∃ h : VmHart vm, h.cntxt = c ∧ h.hart = q

/-- All lines are in order, but for those that are still to be updated. -/
structure LinesInv (vm : VplicVm) (T : Nat → Prop) (s : VplicState) : Prop where
  mem : MemInv s.mem
  lines : Lines vm T (fun _ => False) s

section Lines

variable {vm : VplicVm} {T T' : Nat → Prop} {E E' : VmHart vm → Prop} {s s' : VplicState}
  {cpu id : Nat} {h : VmHart vm}

theorem Lines.update (hwf : vm.Wf) (hl : Lines vm T E s) (h : VmHart vm) :
    Lines vm T (fun h' => E h' ∧ h' ≠ h) (vplicUpdateHartLine vm cpu h.cntxt s).val := by
  have hmem : (vplicUpdateHartLine vm cpu h.cntxt s).val.mem = s.mem := vplicUpdateHartLine_mem
  simp only [vplicUpdateHartLine, h.lineHart_cntxt hwf, Logged.val_ite, Logged.val_bind,
    Logged.val_pure] at hmem ⊢
  constructor
  · intro h' hE hlive
    rw [hmem] at hlive
    by_cases heq : h' = h
    · subst heq
      left
      split
      · next hlocal =>
        rw [VplicState.Shown, VplicState.vseip_setVseip, if_pos hlocal]
        exact .inl (decide_eq_true hlive)
      · right
        simp [VplicState.sendMsg]
    · have hne : h'.hart ≠ h.hart := fun hh => heq (VmHart.ext_hart hh)
      refine (hl.shown h' (fun hE' => hE ⟨hE', heq⟩) hlive).imp_left fun hs => ?_
      split
      · next hlocal =>
        rw [VplicState.Shown, VplicState.vseip_setVseip, if_neg (hlocal ▸ hne)]
        exact hs
      · exact hs.imp id fun hc => by simpa [VplicState.sendMsg, hne] using hc
  · intro q c hc
    split at hc
    · exact hl.msgs q c hc
    · by_cases hq : q = h.hart
      · subst hq
        rcases (by simpa [VplicState.sendMsg] using hc : c ∈ s.msgs h.hart ∨ c = h.cntxt) with
          hc | rfl
        · exact hl.msgs _ c hc
        · exact ⟨h, rfl, rfl⟩
      · exact hl.msgs q c (by simpa [VplicState.sendMsg, hq] using hc)

theorem Lines.mono (hl : Lines vm T E s) (hE : ∀ h, E h → E' h) (hT : ∀ c, T c → T' c) :
    Lines vm T' E' s :=
  ⟨fun h hn hlive => (hl.shown h (fun he => hn (hE h he)) hlive).imp_right (hT _), hl.msgs⟩

/-- A loop over the contexts of the VM that updates the lines of those that satisfy `R` settles
these. -/
theorem Lines.loop (hwf : vm.Wf) {R : Nat → Prop} (cpu : Nat)
    (body : VplicState → Nat → Logged Access VplicState)
    (hR : ∀ i, R i → (plicPlatIdToCntxt vm.plat (some i)).mode = .s)
    (hbody : ∀ t i, t.mem = s.mem → R i ∧ (body t i).val = (vplicUpdateHartLine vm cpu i t).val ∨
      ¬ R i ∧ (body t i).val = t)
    (hmem : MemInv s.mem) (hl : Lines vm T (fun h => R h.cntxt) s) :
    LinesInv vm T ((List.range vm.cntxtNum).foldlM body s).val := by
  let I (is : List Nat) (t : VplicState) : Prop := (∀ i ∈ is, i < vm.cntxtNum) ∧ t.mem = s.mem ∧
    Lines vm T (fun h => h.cntxt ∈ is ∧ R h.cntxt) t
  have hrange (h : VmHart vm) := List.mem_range.mpr (h.cntxt_lt_cntxtNum hwf)
  have hend := Logged.foldlM_invariant (I := I) (f := body) ?_
    ⟨fun i hi => List.mem_range.mp hi, rfl, hl.mono (fun h hE => ⟨hrange h, hE⟩) fun _ ht => ht⟩
  · exact ⟨hend.2.1 ▸ hmem, hend.2.2.mono (fun h hE => by simp at hE) fun _ ht => ht⟩
  · rintro t i is ⟨his, ht, hl⟩
    have hi := his i List.mem_cons_self
    have htail := fun j hj => his j (List.mem_cons_of_mem i hj)
    rcases hbody t i ht with ⟨hRi, heq⟩ | ⟨hRi, heq⟩
    · obtain ⟨h, rfl⟩ := VmHart.exists_of_mode hwf hi (hR i hRi)
      rw [heq]
      refine ⟨htail, vplicUpdateHartLine_mem.trans ht, (hl.update hwf h).mono ?_ fun _ ht => ht⟩
      rintro h' ⟨⟨hmem, hR'⟩, hne⟩
      exact ⟨(List.mem_cons.mp hmem).resolve_left fun hc => hne (VmHart.ext_cntxt hc), hR'⟩
    · rw [heq]
      refine ⟨htail, ht, hl.mono ?_ fun _ ht => ht⟩
      rintro h' ⟨hmem, hR'⟩
      exact ⟨(List.mem_cons.mp hmem).resolve_left fun hc => hRi (hc ▸ hR'), hR'⟩

theorem Lines.settle (hwf : vm.Wf) (hmem : MemInv s.mem) (hl : Lines vm T (fun h' => h' = h) s) :
    LinesInv vm T (vplicUpdateHartLine vm cpu h.cntxt s).val := by
  refine ⟨?_, (hl.update hwf h).mono (fun _ hE => hE.2 hE.1) fun _ ht => ht⟩
  rw [vplicUpdateHartLine_mem]
  exact hmem

variable {mem : VplicMem} {plic : Plic}

/-- After a store, interrupts are newly deliverable only to contexts whose lines are in `E` or still
to be updated. -/
theorem LinesInv.store (hs : LinesInv vm T s) (hmem : MemInv mem) (hT : ∀ c, T c → T' c)
    (hnew : ∀ (h : VmHart vm) (j : Nat), j < plicMaxInterrupts →
      Deliverable vm.plat mem h.cntxt j →
        Deliverable vm.plat s.mem h.cntxt j ∨ E h ∨ T' h.cntxt) :
    Lines vm T' E { s with mem, plic } := by
  refine ⟨fun h hE hlive => ?_, hs.lines.msgs⟩
  obtain ⟨j, hj, hdel⟩ := (live_iff hmem).mp hlive
  rcases hnew h j hj hdel with hold | hE' | ht
  · exact (hs.lines.shown h not_false ((live_iff hs.mem).mpr ⟨j, hj, hold⟩)).imp_right (hT _)
  · exact absurd hE' hE
  · exact .inr ht

theorem LinesInv.store_quiet (hs : LinesInv vm T s) (hmem : MemInv mem)
    (hold : ∀ (h : VmHart vm) (j : Nat), j < plicMaxInterrupts →
      Deliverable vm.plat mem h.cntxt j → Deliverable vm.plat s.mem h.cntxt j) :
    LinesInv vm T { s with mem, plic } :=
  ⟨hmem, hs.store hmem (fun _ ht => ht) fun h j hj hdel => .inl (hold h j hj hdel)⟩

end Lines

/-! ### How stores change what can be delivered -/

section Stores

variable {plat : PlicPlat} {mem : VplicMem} {c c' id id' k : Nat} {x : BitVec 32} {v : Bool}

theorem Candidate.of_update (hk : 96 ≤ k ∧ (k < 1120 ∨ 1120 + 32 * plat.cntxtNum ≤ k))
    (hc : c < plat.cntxtNum) (hid : id < plicMaxInterrupts)
    (h : Candidate (Function.update mem k x) c id) : Candidate mem c id := by
  simp only [plicMaxInterrupts] at hid
  have hpend : pendAt id / 32 ≠ k := by simp only [pendAt, plicMaxInterrupts]; omega
  have hact : actAt id / 32 ≠ k := by simp only [actAt, plicMaxInterrupts]; omega
  have henbl : enblAt c id / 32 ≠ k := by simp only [enblAt, plicMaxInterrupts]; omega
  simpa only [candidate_iff, memBit_update_word hpend, memBit_update_word hact,
    memBit_update_word henbl] using h

theorem Deliverable.of_setPrio (hc : c < plat.cntxtNum) (hid : id < plicMaxInterrupts)
    (hid' : id' < plicMaxInterrupts)
    (h : Deliverable plat (Function.update mem (prioAt id) x) c id') :
    Deliverable plat mem c id' ∨
      id' = id ∧ Candidate mem c id' ∧ mem (thresholdAt plat c) < x := by
  have hcand := h.toCandidate.of_update
    (by simp only [prioAt, plicMaxInterrupts] at *; omega) hc hid'
  have hprio := h.prio
  rw [Function.update_of_ne (by simp only [thresholdAt, prioAt, plicMaxInterrupts] at *; omega)]
    at hprio
  by_cases heq : id' = id
  · rw [heq, Function.update_self] at hprio
    exact .inr ⟨heq, hcand, hprio⟩
  · rw [Function.update_of_ne (by simp only [prioAt]; omega)] at hprio
    exact .inl ⟨hcand, hprio⟩

theorem Deliverable.of_setThreshold (hc : c < plat.cntxtNum) (hid : id < plicMaxInterrupts)
    (hne : c ≠ c') (h : Deliverable plat (Function.update mem (thresholdAt plat c') x) c id) :
    Deliverable plat mem c id := by
  have hprio := h.prio
  rw [Function.update_of_ne (by simp only [thresholdAt]; omega),
    Function.update_of_ne (by simp only [prioAt, thresholdAt]; omega)] at hprio
  exact ⟨h.toCandidate.of_update (by simp only [thresholdAt, plicMaxInterrupts]; omega) hc hid,
    hprio⟩

/-- Writing a bit makes an interrupt deliverable only by setting its pending bit, clearing its
active bit, or setting its enable bit for the context. -/
theorem Deliverable.of_writeBit (hid : id < plicMaxInterrupts)
    (hk : k / 32 < 96 ∨ 1120 ≤ k / 32 ∧ k / 32 < 1120 + 32 * plat.cntxtNum)
    (h : Deliverable plat (memWriteBit mem k v) c id) : Deliverable plat mem c id ∨
      mem (thresholdAt plat c) < mem (prioAt id) ∧
        (k = pendAt id ∧ v = true ∧ memBit mem (actAt id) = false ∧
            memBit mem (enblAt c id) = true ∨
          k = actAt id ∧ v = false ∧ memBit mem (actAt id) = true ∧
            memBit mem (pendAt id) = true ∧ memBit mem (enblAt c id) = true ∨
          k = enblAt c id ∧ v = true ∧ memBit mem (pendAt id) = true ∧
            memBit mem (actAt id) = false) := by
  simp only [plicMaxInterrupts] at hid
  have hlt := h.prio
  rw [memWriteBit_word (by simp only [thresholdAt, plicMaxInterrupts]; omega),
    memWriteBit_word (by simp only [prioAt]; omega)] at hlt
  obtain ⟨hp, ha, he⟩ := candidate_iff.mp h.toCandidate
  have hpe : pendAt id ≠ enblAt c id := by simp only [pendAt, enblAt, plicMaxInterrupts]; omega
  rw [memBit_memWriteBit] at hp ha he
  by_cases hold : Candidate mem c id
  · exact .inl ⟨hold, hlt⟩
  · rw [candidate_iff] at hold
    grind

theorem MemInv.update {w : Nat} {v : BitVec 32} (h : MemInv mem) (hw : 96 ≤ w ∧ w ≠ 1120) :
    MemInv (Function.update mem w v) := by
  have hpend : pendAt 0 / 32 ≠ w := by simp only [pendAt, plicMaxInterrupts]; omega
  refine ⟨?_, ?_⟩
  · rw [memBit_update_word hpend, h.pend]
  · rw [Function.update_of_ne (by simp only [prioAt, plicMaxInterrupts]; omega), h.enbl]

theorem MemInv.memWriteBit {k : Nat} {v : Bool} (h : MemInv mem)
    (hk : (k ≠ pendAt 0 ∨ v = false) ∧ k / 32 ≠ 1120) : MemInv (memWriteBit mem k v) := by
  refine ⟨?_, ?_⟩
  · rw [memBit_memWriteBit]
    have hpend := h.pend
    grind
  · exact (memWriteBit_word hk.2).trans h.enbl

end Stores

/-! ### The operations -/

section Operations

variable {vm : VplicVm} {T : Nat → Prop} {s : VplicState} {cpu id : Nat}

/-- A priority store for an interrupt of a device raises no pending interrupt above the threshold
of a context. -/
def PrioStoreKeeps (vm : VplicVm) (id : Nat) (prio : BitVec 32) (mem : VplicMem) : Prop :=
  memBit mem id = true → ∀ v < popcount vm.cpus, Candidate mem (v * 2 + 1) id →
    mem (thresholdAt vm.plat (v * 2 + 1)) < prio →
      mem (thresholdAt vm.plat (v * 2 + 1)) < mem (prioAt id)

theorem VmHart.vcpu_lt_popcount (h : VmHart vm) : h.vcpu < popcount vm.cpus :=
  vmTranslateToPcpuid_lt_popcount h.vcpu_lt h.translate

theorem vplicSetPrio_lines (hwf : vm.Wf) {prio : BitVec 32} (hid : id < plicMaxInterrupts)
    (hs : LinesInv vm T s) (hkeeps : PrioStoreKeeps vm id prio s.mem) :
    LinesInv vm T (vplicSetPrio vm cpu id prio s).val := by
  let mem' := Function.update s.mem (prioAt id) prio
  have hmem : MemInv mem' :=
    hs.mem.update (by simp only [prioAt, plicMaxInterrupts] at *; omega)
  have hbit (k : Nat) (hk : k / 32 < 96 ∨ 1120 ≤ k / 32) : memBit mem' k = memBit s.mem k :=
    memBit_update_word (by simp only [prioAt, plicMaxInterrupts] at *; omega)
  simp only [vplicSetPrio, vplicGetPrio, vplicGetHw, if_pos (IdLe.of_lt hid), Logged.val_bind,
    Logged.val_touch, Logged.val_ite, Logged.val_pure]
  split
  · split
    · next hdevice =>
      rw [hbit id (by simp only [plicMaxInterrupts] at hid; omega)] at hdevice
      refine hs.store_quiet hmem fun h j hj hdel => ?_
      rcases hdel.of_setPrio (h.cntxt_lt hwf) hid hj with hold | ⟨rfl, hc, hlt⟩
      · exact hold
      · exact ⟨hc, hkeeps hdevice h.vcpu h.vcpu_lt_popcount hc hlt⟩
    · refine Lines.loop hwf cpu (vplicSetPrioBody vm cpu id)
        (R := fun i => (plicPlatIdToCntxt vm.plat (some i)).mode = .s ∧
          memBit mem' (enblAt i id) = true) (fun i h => h.1) (fun t i ht => ?_) hmem
        (hs.store hmem (fun _ ht => ht) fun h j hj hdel => ?_)
      · simp only [vplicSetPrioBody, vplicGetEnbl, if_pos (IdLe.of_lt hid), Logged.val_ite,
          Logged.val_bind, Logged.val_touch, Logged.val_pure, ht]
        grind
      · rcases hdel.of_setPrio (h.cntxt_lt hwf) hid hj with hold | ⟨rfl, hc, -⟩
        · exact .inl hold
        · refine .inr (.inl ⟨by rw [h.idToCntxt hwf], ?_⟩)
          rw [hbit _ (by simp only [enblAt, plicMaxInterrupts]; omega)]
          exact hc.enbl
  · exact hs

/-- An enable store for an interrupt of a device enables none that would be delivered. -/
def EnblBitKeeps (vm : VplicVm) (c id : Nat) (set : Bool) (mem : VplicMem) : Prop :=
  memBit mem id = true → set = true → memBit mem (enblAt c id) = false →
    memBit mem (pendAt id) = true → memBit mem (actAt id) = false →
      ¬ mem (thresholdAt vm.plat c) < mem (prioAt id)

variable {h₀ : VmHart vm} {set : Bool} {c : Nat} {acc : EmulAccess}

theorem vplicSetEnbl_lines (hwf : vm.Wf) (hid : id < plicMaxInterrupts) (hs : LinesInv vm T s)
    (hkeeps : EnblBitKeeps vm h₀.cntxt id set s.mem) :
    LinesInv vm T (vplicSetEnbl vm cpu h₀.cntxt id set s).val := by
  let mem' := memWriteBit s.mem (enblAt h₀.cntxt id) set
  have hc₀ := h₀.cntxt_lt hwf
  have hodd : 1 ≤ h₀.cntxt := by unfold VmHart.cntxt; omega
  have hmem : MemInv mem' := hs.mem.memWriteBit (by
    simp only [enblAt, pendAt, plicMaxInterrupts] at *
    omega)
  -- Only `id` can be newly deliverable, and only to the context itself.
  have hnew (h : VmHart vm) (j : Nat) (hj : j < plicMaxInterrupts)
      (hdel : Deliverable vm.plat mem' h.cntxt j) : Deliverable vm.plat s.mem h.cntxt j ∨
        h = h₀ ∧ set = true ∧ memBit s.mem (pendAt id) = true ∧ memBit s.mem (actAt id) = false ∧
          s.mem (thresholdAt vm.plat h₀.cntxt) < s.mem (prioAt id) := by
    obtain hold | ⟨hlt, ⟨hk, -⟩ | ⟨hk, -⟩ | ⟨hk, hset, hp, ha⟩⟩ := hdel.of_writeBit hj
      (by simp only [enblAt, plicMaxInterrupts] at *; omega)
    · exact .inl hold
    · simp only [enblAt, pendAt, plicMaxInterrupts] at *; omega
    · simp only [enblAt, actAt, plicMaxInterrupts] at *; omega
    · have hcj : h.cntxt = h₀.cntxt ∧ j = id := by
        simp only [enblAt, plicMaxInterrupts] at *; omega
      obtain ⟨hcntxt, rfl⟩ := hcj
      obtain rfl := VmHart.ext_cntxt hcntxt
      exact .inr ⟨rfl, hset, hp, ha, hlt⟩
  simp only [vplicSetEnbl, vplicGetEnbl, vplicGetHw, if_pos (IdLe.of_lt hid), Logged.val_bind,
    Logged.val_touch, Logged.val_ite, Logged.val_pure]
  split
  · next hchange =>
    split
    · next hdevice =>
      rw [memBit_memWriteBit, if_neg (by simp only [enblAt, plicMaxInterrupts]; omega)] at hdevice
      refine hs.store_quiet hmem fun h j hj hdel => (hnew h j hj hdel).resolve_right ?_
      rintro ⟨-, rfl, hp, ha, hlt⟩
      exact hkeeps hdevice rfl (Bool.eq_false_iff.mpr hchange) hp ha hlt
    · exact Lines.settle hwf hmem (hs.store hmem (fun _ ht => ht) fun h j hj hdel =>
        (hnew h j hj hdel).imp_right fun hr => .inl hr.1)
  · exact hs

theorem EnblBitKeeps.congr {mem' : VplicMem} (h : EnblBitKeeps vm c id set mem)
    (hhw : memBit mem' id = memBit mem id)
    (henbl : memBit mem' (enblAt c id) = memBit mem (enblAt c id))
    (hpend : memBit mem' (pendAt id) = memBit mem (pendAt id))
    (hact : memBit mem' (actAt id) = memBit mem (actAt id))
    (hthreshold : mem' (thresholdAt vm.plat c) = mem (thresholdAt vm.plat c))
    (hprio : mem' (prioAt id) = mem (prioAt id)) : EnblBitKeeps vm c id set mem' := by
  rwa [EnblBitKeeps, hhw, henbl, hpend, hact, hthreshold, hprio]

theorem vplicSetEnbl_word {w : Nat} (hw : enblAt c id / 32 ≠ w) :
    (vplicSetEnbl vm cpu c id set s).val.mem w = s.mem w := by
  simp only [vplicSetEnbl, Logged.val_ite, Logged.val_bind, Logged.val_pure, Logged.val_touch]
  split
  · split
    · split <;> simp [memWriteBit_word hw]
    · rfl
  · rfl

theorem vplicSetEnblWord_lines (hwf : vm.Wf) {firstInt : Nat} {val : Word}
    (hfirst : firstInt + 32 ≤ plicMaxInterrupts) (hs : LinesInv vm T s)
    (hkeeps : ∀ i < 32, EnblBitKeeps vm h₀.cntxt (firstInt + i) (val.getLsbD i) s.mem) :
    LinesInv vm T (vplicSetEnblWord vm cpu h₀.cntxt firstInt val s).val := by
  have hc₀ := h₀.cntxt_lt hwf
  let I (l : List Nat) (t : VplicState) : Prop := LinesInv vm T t ∧ l.Nodup ∧ ∀ i ∈ l, i < 32 ∧
    EnblBitKeeps vm h₀.cntxt (firstInt + i) (val.getLsbD i) t.mem
  refine (Logged.foldlM_invariant (I := I) ?_ ⟨hs, List.nodup_range, fun i hi =>
    ⟨List.mem_range.mp hi, hkeeps i (List.mem_range.mp hi)⟩⟩).1
  rintro t b l ⟨ht, hnodup, hl⟩
  obtain ⟨hb, hkeep⟩ := hl b List.mem_cons_self
  refine ⟨vplicSetEnbl_lines hwf (by omega) ht hkeep, hnodup.of_cons, fun i hi => ?_⟩
  obtain ⟨hi32, hkeep⟩ := hl i (List.mem_cons_of_mem b hi)
  have hne : i ≠ b := fun heq => (List.nodup_cons.mp hnodup).1 (heq ▸ hi)
  refine ⟨hi32, hkeep.congr ?_ ?_ ?_ ?_ ?_ ?_⟩
  · exact vplicSetEnbl_memBit (by simp only [enblAt, plicMaxInterrupts] at *; omega)
  · exact vplicSetEnbl_memBit (by simp only [enblAt]; omega)
  · exact vplicSetEnbl_memBit (by simp only [enblAt, pendAt, plicMaxInterrupts] at *; omega)
  · exact vplicSetEnbl_memBit (by simp only [enblAt, actAt, plicMaxInterrupts] at *; omega)
  · exact vplicSetEnbl_word (by simp only [enblAt, thresholdAt, plicMaxInterrupts] at *; omega)
  · exact vplicSetEnbl_word (by simp only [enblAt, prioAt, plicMaxInterrupts] at *; omega)

theorem vplicSetThreshold_lines (hwf : vm.Wf) {threshold : BitVec 32} (hs : LinesInv vm T s) :
    LinesInv vm (fun c => T c ∨ c = h₀.cntxt)
      (vplicSetThreshold vm h₀.cntxt threshold s).val.state := by
  have hc₀ := h₀.cntxt_lt hwf
  have hmem : MemInv (Function.update s.mem (thresholdAt vm.plat h₀.cntxt) threshold) :=
    hs.mem.update (by simp only [thresholdAt, plicMaxInterrupts]; omega)
  refine ⟨hmem, hs.store hmem (fun _ => Or.inl) fun h j hj hdel => ?_⟩
  by_cases heq : h.cntxt = h₀.cntxt
  · exact .inr (.inr (.inr heq))
  · exact .inl (hdel.of_setThreshold (h.cntxt_lt hwf) hj heq)

theorem vplicClaim_lines (hs : LinesInv vm T s) : LinesInv vm T (vplicClaim vm c s).val.state := by
  simp only [vplicClaim, Logged.val_bind, Logged.val_touch, Logged.val_pure]
  generalize hclaim : (vplicNextPending vm.plat s.mem c).val = id
  have hid : id < plicMaxInterrupts := by
    by_cases hzero : id = 0
    · rw [hzero]; decide
    · obtain ⟨hle, hdel⟩ := vplicNextPending_spec hclaim hzero
      exact hdel.lt hs.mem hle
  have hmem₁ : MemInv (memWriteBit s.mem (pendAt id) false) :=
    hs.mem.memWriteBit ⟨.inr rfl, by simp only [pendAt, plicMaxInterrupts] at *; omega⟩
  have hmem : MemInv (memWriteBit (memWriteBit s.mem (pendAt id) false) (actAt id) true) :=
    hmem₁.memWriteBit (by simp only [actAt, pendAt, plicMaxInterrupts] at *; omega)
  refine hs.store_quiet hmem fun h j hj hdel => ?_
  obtain hdel | ⟨-, ⟨hk, -⟩ | ⟨-, hv, -⟩ | ⟨hk, -⟩⟩ := hdel.of_writeBit hj
    (by simp only [actAt, plicMaxInterrupts] at *; omega)
  · obtain hold | ⟨-, ⟨-, hv, -⟩ | ⟨hk, -⟩ | ⟨-, hv, -⟩⟩ := hdel.of_writeBit hj
      (by simp only [pendAt, plicMaxInterrupts] at *; omega)
    · exact hold
    · cases hv
    · simp only [pendAt, actAt, plicMaxInterrupts] at *; omega
    · cases hv
  · simp only [pendAt, actAt, plicMaxInterrupts] at *; omega
  · cases hv
  · simp only [enblAt, actAt, plicMaxInterrupts] at *; omega

/-- Completing an interrupt that is pending again makes it deliverable to no other context. -/
def CompleteKeeps (vm : VplicVm) (c id : Nat) (mem : VplicMem) : Prop :=
  id < plicMaxInterrupts ∧ (memBit mem (pendAt id) = true → memBit mem (actAt id) = true →
    ∀ v < popcount vm.cpus, v * 2 + 1 ≠ c → memBit mem (enblAt (v * 2 + 1) id) = true →
      ¬ mem (thresholdAt vm.plat (v * 2 + 1)) < mem (prioAt id))

theorem vplicComplete_lines (hs : LinesInv vm T s) (hkeeps : CompleteKeeps vm c id s.mem) :
    LinesInv vm (fun c' => T c' ∨ c' = c) (vplicComplete cpu c id s).val.state := by
  obtain ⟨hid, hkeeps⟩ := hkeeps
  have hmem : MemInv (memWriteBit s.mem (actAt id) false) := hs.mem.memWriteBit (by
    simp only [actAt, pendAt, plicMaxInterrupts] at *
    omega)
  refine ⟨hmem, hs.store hmem (fun _ => Or.inl) fun h j hj hdel => ?_⟩
  by_cases heq : h.cntxt = c
  · exact .inr (.inr (.inr heq))
  obtain hold | ⟨hlt, ⟨hk, -⟩ | ⟨hk, -, hact, hp, he⟩ | ⟨hk, -⟩⟩ := hdel.of_writeBit hj
    (by simp only [actAt, plicMaxInterrupts] at *; omega)
  · exact .inl hold
  · simp only [pendAt, actAt, plicMaxInterrupts] at *; omega
  · obtain rfl : j = id := by simp only [actAt] at hk; omega
    exact absurd hlt (hkeeps hp hact h.vcpu h.vcpu_lt_popcount heq he)
  · simp only [enblAt, actAt, plicMaxInterrupts] at *; omega

/-- An injected interrupt of a device is deliverable to no context but that of the vcpu it is
injected for. -/
def InjectKeeps (vm : VplicVm) (vcpuId id : Nat) (mem : VplicMem) : Prop :=
  id < plicMaxInterrupts → memBit mem id = true → memBit mem (pendAt id) = false →
    ∀ v < popcount vm.cpus, v ≠ vcpuId → memBit mem (actAt id) = false →
      memBit mem (enblAt (v * 2 + 1) id) = true →
        ¬ mem (thresholdAt vm.plat (v * 2 + 1)) < mem (prioAt id)

theorem vplicInject_lines (hwf : vm.Wf) (h₀ : VmHart vm) (hs : LinesInv vm T s)
    (hkeeps : InjectKeeps vm h₀.vcpu id s.mem) :
    LinesInv vm T (vplicInject vm cpu h₀.vcpu id s).val := by
  unfold vplicInject
  split
  · next hrange =>
    obtain ⟨hpos, hle⟩ := hrange
    let mem' := memWriteBit s.mem (pendAt id) true
    have hmem : MemInv mem' := hs.mem.memWriteBit (by
      simp only [pendAt, plicMaxInterrupts] at *
      omega)
    have hword (w : Nat) (hw : 65 ≤ w) : mem' w = s.mem w := memWriteBit_word (by
      simp only [pendAt, plicMaxInterrupts] at *
      omega)
    have hbit (k : Nat) (hk : k < 1024 ∨ 2048 < k) : memBit mem' k = memBit s.mem k := by
      rw [memBit_memWriteBit, if_neg (by simp only [pendAt, plicMaxInterrupts] at *; omega)]
    -- Only `id` can be newly deliverable.
    have hnew (h : VmHart vm) (j : Nat) (hj : j < plicMaxInterrupts)
        (hdel : Deliverable vm.plat mem' h.cntxt j) : Deliverable vm.plat s.mem h.cntxt j ∨
          j = id ∧ memBit s.mem (actAt j) = false ∧ memBit s.mem (enblAt h.cntxt j) = true ∧
            s.mem (thresholdAt vm.plat h.cntxt) < s.mem (prioAt j) := by
      obtain hold | ⟨hlt, ⟨hk, -, hact, henbl⟩ | ⟨-, hv, -⟩ | ⟨hk, -⟩⟩ := hdel.of_writeBit hj
        (by simp only [pendAt, plicMaxInterrupts] at *; omega)
      · exact .inl hold
      · exact .inr ⟨by simp only [pendAt] at hk; omega, hact, henbl, hlt⟩
      · cases hv
      · simp only [enblAt, pendAt, plicMaxInterrupts] at *; omega
    simp only [vplicGetPend, vplicGetHw, if_pos (idLe_of_le hle), Logged.val_bind,
      Logged.val_touch, Logged.val_ite, Logged.val_pure]
    split
    · exact hs
    · next hpend =>
      split
      · next hdevice =>
        refine Lines.settle hwf hmem (hs.store hmem (fun _ ht => ht) fun h j hj hdel => ?_)
        refine (hnew h j hj hdel).imp_right fun hnext => .inl ?_
        obtain ⟨rfl, hact, henbl, hlt⟩ := hnext
        rw [hbit j (.inl hj)] at hdevice
        by_contra hne
        refine hkeeps hj hdevice (Bool.eq_false_iff.mpr hpend) h.vcpu h.vcpu_lt_popcount ?_ hact
          henbl hlt
        exact fun hv => hne (VmHart.ext_cntxt (by unfold VmHart.cntxt; rw [hv]))
      · refine Lines.loop hwf cpu (vplicInjectBody vm cpu id)
          (R := fun i => (plicPlatIdToCntxt vm.plat (some i)).mode = .s ∧
            memBit mem' (enblAt i id) = true ∧ mem' (thresholdAt vm.plat i) < mem' (prioAt id))
          (fun i h => h.1) (fun t i ht => ?_) hmem
          (hs.store hmem (fun _ ht => ht) fun h j hj hdel => ?_)
        · simp only [vplicInjectBody, vplicGetEnbl, vplicGetPrio, vplicGetTheshold,
            if_pos (idLe_of_le hle), Logged.val_ite, Logged.val_bind, Logged.val_touch,
            Logged.val_pure, ht]
          grind
        · refine (hnew h j hj hdel).imp_right fun hnext => .inl ?_
          obtain ⟨rfl, -, henbl, hlt⟩ := hnext
          rw [hbit _ (.inr (by simp only [enblAt, plicMaxInterrupts]; omega)),
            hword _ (by simp only [thresholdAt]; omega), hword _ (by simp only [prioAt]; omega)]
          exact ⟨by rw [h.idToCntxt hwf], henbl, hlt⟩
  · exact hs

/-- The accesses that keep the lines in order. -/
def GlobalAccessKeeps (vm : VplicVm) (acc : EmulAccess) (mem : VplicMem) : Prop :=
  match ((acc.addr >>> 12) &&& 3).toNat with
  | 0 => acc.write = true →
      PrioStoreKeeps vm (globalAccessReg vm acc) (acc.regVal.setWidth 32) mem
  | 1 => True
  | _ => acc.write = true → vplicVcntxtValid vm (enblAccessCntxt vm acc) = true → ∀ i < 32,
      EnblBitKeeps vm (enblAccessCntxt vm acc) (enblAccessFirst vm acc + i)
        (acc.regVal.getLsbD i) mem

def HartAccessKeeps (vm : VplicVm) (acc : EmulAccess) (mem : VplicMem) : Prop :=
  vplicVcntxtValid vm (hartAccessCntxt vm acc) = true → (acc.addr &&& 0xf).toNat = 4 →
    acc.write = true → CompleteKeeps vm (hartAccessCntxt vm acc) (intArg acc.regVal) mem

/-- What a guest access leaves is in order, but for the line that is still to be updated. -/
def ResultInv (vm : VplicVm) (T : Nat → Prop) (r : VplicResult) : Prop :=
  LinesInv vm (fun c => T c ∨ r.line = some c) r.state ∧
    ∀ c, r.line = some c → ∃ h : VmHart vm, h.cntxt = c

variable {r : VplicResult} {x : Logged Access VplicResult}

theorem ResultInv.of_state (h : LinesInv vm T r.state) (hline : r.line = none) : ResultInv vm T r :=
  ⟨⟨h.mem, h.lines.mono (fun _ hE => hE) fun _ => .inl⟩, fun c hc => by simp [hline] at hc⟩

theorem ResultInv.of_line (h : LinesInv vm (fun c => T c ∨ c = h₀.cntxt) r.state)
    (hline : r.line = some h₀.cntxt) : ResultInv vm T r :=
  ⟨⟨h.mem, h.lines.mono (fun _ hE => hE) fun _ ht => ht.imp_right fun hc => hline.trans
    (congrArg some hc.symm)⟩, fun _ hc => ⟨h₀, Option.some.inj (hline.symm.trans hc)⟩⟩

theorem vplicEmulEnblAccess_lines (hwf : vm.Wf) (hs : LinesInv vm T s)
    (hkeeps : acc.write = true → vplicVcntxtValid vm (enblAccessCntxt vm acc) = true → ∀ i < 32,
      EnblBitKeeps vm (enblAccessCntxt vm acc) (enblAccessFirst vm acc + i)
        (acc.regVal.getLsbD i) s.mem) : ResultInv vm T (vplicEmulEnblAccess vm cpu acc s).val := by
  obtain ⟨hline, hsame | ⟨hwrite, hvalid, hstore⟩⟩ := vplicEmulEnblAccess_cases vm cpu acc s
  · exact .of_state (hsame.symm ▸ hs) hline
  · have hkeeps := hkeeps hwrite hvalid
    refine .of_state ?_ hline
    rw [hstore]
    obtain ⟨h₀, hc⟩ := VmHart.exists_of_valid hwf hvalid
    rw [← hc] at hkeeps ⊢
    exact vplicSetEnblWord_lines hwf (enblAccessFirst_le acc) hs hkeeps

theorem vplicGlobalEmulHandler_lines (hwf : vm.Wf) (hs : LinesInv vm T s)
    (h : vplicGlobalEmulHandler vm cpu acc s = some x) (hkeeps : GlobalAccessKeeps vm acc s.mem) :
    ResultInv vm T x.val := by
  unfold vplicGlobalEmulHandler at h
  unfold GlobalAccessKeeps at hkeeps
  generalize ((acc.addr >>> 12) &&& 3).toNat = page at h hkeeps
  split at h
  · cases h
  · match page, h with
    | 0, rfl =>
      simp only [vplicEmulPrioAccess, Logged.val_ite, Logged.val_bind, Logged.val_pure]
      split
      · next hwrite =>
        exact .of_state (vplicSetPrio_lines hwf (globalAccessReg_lt acc) hs (hkeeps hwrite)) rfl
      · exact .of_state hs rfl
    | 1, rfl =>
      simp only [vplicEmulPendAccess, Logged.val_ite, Logged.val_bind, Logged.val_pure]
      split <;> exact .of_state hs rfl
    | _ + 2, rfl => exact vplicEmulEnblAccess_lines hwf hs hkeeps

theorem vplicHartEmulHandler_lines (hwf : vm.Wf) (hs : LinesInv vm T s)
    (h : vplicHartEmulHandler vm cpu acc s = some x) (hkeeps : HartAccessKeeps vm acc s.mem) :
    ResultInv vm T x.val := by
  unfold vplicHartEmulHandler at h
  unfold HartAccessKeeps at hkeeps
  generalize (acc.addr &&& 0xf).toNat = reg at h hkeeps
  dsimp only at h
  split at h
  · cases h
  · split at h
    · cases h
      exact .of_state hs rfl
    · next hvalid =>
      rw [Bool.not_eq_false] at hvalid
      obtain ⟨h₀, hc⟩ := VmHart.exists_of_valid hwf hvalid
      have hkeeps := hkeeps hvalid
      rw [← hc] at h hkeeps
      split at h
      · split at h <;> cases h
        · exact .of_line (vplicSetThreshold_lines hwf hs) rfl
        · exact .of_state hs rfl
      · split at h <;> cases h
        · next hwrite => exact .of_line (vplicComplete_lines hs (hkeeps rfl hwrite)) rfl
        · have hclaim := vplicClaim_lines (c := h₀.cntxt) hs
          exact .of_line ⟨hclaim.mem, hclaim.lines.mono (fun _ hE => hE) fun _ => .inl⟩ rfl
      · cases h
        exact .of_state hs rfl

end Operations

/-! ### Runs -/

/-- The steps that keep the lines in order, as a condition on the action and the state it is taken
in. -/
def VplicActionKeeps (vm : VplicVm) (sys : VplicSystem) : VplicAction → Prop
  | .access _ acc =>
    if inEmulMem vm.plat.plicBase (plicGlobalSize vm.plat) acc.addr = true then
      GlobalAccessKeeps vm acc sys.state.mem
    else HartAccessKeeps vm acc sys.state.mem
  | .inject _ vcpuId id => InjectKeeps vm vcpuId id sys.state.mem
  | .reset cpu => ∀ v < popcount vm.cpus, vmTranslateToPcpuid vm.cpus v = some cpu →
      (vplicNextPending vm.plat sys.state.mem (v * 2 + 1)).val = 0
  | .updateLine _ => True
  | .handleMsg _ => True

/-- The lines that some cpu has still to update. -/
def VplicSystem.Due (sys : VplicSystem) (c : Nat) : Prop := ∃ q, sys.line q = some c

structure SystemInv (vm : VplicVm) (sys : VplicSystem) : Prop where
  lines : LinesInv vm sys.Due sys.state
  due : ∀ q c, sys.line q = some c → vm.cpus.testBit q = true ∧ ∃ h : VmHart vm, h.cntxt = c

section Runs

variable {vm : VplicVm} {sys sys' : VplicSystem} {cpu : Nat}

theorem SystemInv.access (hwf : vm.Wf) (hs : SystemInv vm sys) {acc : EmulAccess}
    {x : Logged Access VplicResult} (hcpu : vm.cpus.testBit cpu = true)
    (hline : sys.line cpu = none) (hx : vplicEmul vm cpu acc sys.state = some x)
    (hkeeps : VplicActionKeeps vm sys (.access cpu acc)) :
    SystemInv vm { state := x.val.state, line := Function.update sys.line cpu x.val.line } := by
  have hres : ResultInv vm sys.Due x.val := by
    unfold vplicEmul at hx
    simp only [VplicActionKeeps] at hkeeps
    split at hx
    · next hglobal =>
      rw [if_pos hglobal] at hkeeps
      exact vplicGlobalEmulHandler_lines hwf hs.lines hx hkeeps
    · next hglobal =>
      rw [if_neg hglobal] at hkeeps
      split at hx
      · exact vplicHartEmulHandler_lines hwf hs.lines hx hkeeps
      · cases hx
  refine ⟨⟨hres.1.mem, hres.1.lines.mono (fun _ hE => hE) ?_⟩, ?_⟩
  · rintro c (⟨q, hq⟩ | hc)
    · have hne : q ≠ cpu := fun heq => by rw [heq, hline] at hq; cases hq
      exact ⟨q, by simpa [hne] using hq⟩
    · exact ⟨cpu, by simpa using hc⟩
  · intro q c hq
    by_cases heq : q = cpu
    · subst heq
      exact ⟨hcpu, hres.2 c (by simpa using hq)⟩
    · exact hs.due q c (by simpa [heq] using hq)

variable {c : Nat}

theorem SystemInv.updateLine (hwf : vm.Wf) (hs : SystemInv vm sys) (hline : sys.line cpu = some c) :
    SystemInv vm { state := (vplicUpdateHartLine vm cpu c sys.state).val,
                   line := Function.update sys.line cpu none } := by
  obtain ⟨-, h, rfl⟩ := hs.due cpu c hline
  let sys' : VplicSystem := { sys with line := Function.update sys.line cpu none }
  have hl : Lines vm sys'.Due (fun h' => h' = h) sys.state := by
    refine ⟨fun h' hne hlive => ?_, hs.lines.lines.msgs⟩
    refine (hs.lines.lines.shown h' not_false hlive).imp_right fun ⟨q, hq⟩ => ⟨q, ?_⟩
    have hqne : q ≠ cpu := by
      rintro rfl
      rw [hline] at hq
      exact hne (VmHart.ext_cntxt (Option.some.inj hq).symm)
    rw [← hq]
    exact Function.update_of_ne hqne ..
  refine ⟨hl.settle hwf hs.lines.mem, fun q c hq => ?_⟩
  by_cases heq : q = cpu
  · subst heq
    simp at hq
  · exact hs.due q c (by simpa [heq] using hq)

theorem SystemInv.handleMsg (hwf : vm.Wf) (hs : SystemInv vm sys) {msgs : List Nat}
    (hmsgs : sys.state.msgs cpu = c :: msgs) :
    SystemInv vm { sys with state := (vplicUpdateHartLine vm cpu c
      { sys.state with msgs := Function.update sys.state.msgs cpu msgs }).val } := by
  obtain ⟨h, rfl, rfl⟩ := hs.lines.lines.msgs cpu c (by rw [hmsgs]; exact List.mem_cons_self)
  have hl : Lines vm sys.Due (fun h' => h' = h)
      { sys.state with msgs := Function.update sys.state.msgs h.hart msgs } := by
    refine ⟨fun h' hne hlive => ?_, fun q c' hc' => ?_⟩
    · refine (hs.lines.lines.shown h' not_false hlive).imp_left (Or.imp_right fun hmem => ?_)
      have hhart : h'.hart ≠ h.hart := fun heq => hne (VmHart.ext_hart heq)
      simpa [hhart] using hmem
    · by_cases hq : q = h.hart
      · subst hq
        refine hs.lines.lines.msgs _ c' ?_
        rw [hmsgs]
        exact List.mem_cons_of_mem _ (by simpa using hc')
      · exact hs.lines.lines.msgs q c' (by simpa [hq] using hc')
  exact ⟨hl.settle hwf hs.lines.mem, hs.due⟩

theorem SystemInv.reset (hs : SystemInv vm sys)
    (hkeeps : VplicActionKeeps vm sys (.reset cpu)) :
    SystemInv vm { sys with state :=
      { sys.state with csrs := Function.update sys.state.csrs cpu resetCsrs } } := by
  refine ⟨⟨hs.lines.mem, fun h _ hlive => ?_, hs.lines.lines.msgs⟩, hs.due⟩
  by_cases heq : h.hart = cpu
  · exact absurd (hkeeps h.vcpu h.vcpu_lt_popcount (heq ▸ h.translate)) hlive
  · refine (hs.lines.lines.shown h not_false hlive).imp_left (Or.imp_left fun hv => ?_)
    rw [← hv]
    simp [VplicState.vseip, heq]

theorem SystemInv.step (hwf : vm.Wf) {a : VplicAction} (hs : SystemInv vm sys)
    (hkeeps : VplicActionKeeps vm sys a) (h : vplicStep vm sys a = some sys') :
    SystemInv vm sys' := by
  obtain ⟨x, hx, rfl⟩ := Option.map_eq_some_iff.mp h
  cases a with
  | access cpu acc =>
    simp only [vplicExec, Option.ite_none_right_eq_some, Option.map_eq_some_iff] at hx
    obtain ⟨⟨hcpu, hline⟩, y, hy, rfl⟩ := hx
    exact hs.access hwf hcpu hline hy hkeeps
  | inject cpu vcpuId id =>
    simp only [vplicExec, Option.ite_none_right_eq_some, Option.some.injEq] at hx
    obtain ⟨⟨-, -, hsome, hlt⟩, rfl⟩ := hx
    obtain ⟨p, hp⟩ := Option.isSome_iff_exists.mp hsome
    let h₀ : VmHart vm := ⟨vcpuId, p, hlt, hp⟩
    exact ⟨vplicInject_lines hwf h₀ hs.lines hkeeps, hs.due⟩
  | updateLine cpu =>
    simp only [vplicExec] at hx
    split at hx
    · next hline =>
      cases hx
      exact hs.updateLine hwf hline
    · cases hx
  | handleMsg cpu =>
    simp only [vplicExec, Option.ite_none_right_eq_some] at hx
    obtain ⟨-, hx⟩ := hx
    split at hx
    · next hmsgs =>
      cases hx
      exact hs.handleMsg hwf hmsgs
    · cases hx
  | reset cpu =>
    simp only [vplicExec, Option.ite_none_right_eq_some, Option.some.injEq] at hx
    obtain ⟨-, rfl⟩ := hx
    exact hs.reset hkeeps

theorem SystemInv.init {interrupts : List Nat} (h : ∀ id ∈ interrupts, id < plicMaxInterrupts) :
    SystemInv vm (vplicInit interrupts) := by
  have hzero : ∀ w ≥ 32, (vplicInit interrupts).state.mem w = 0 := by
    refine (Logged.foldlM_invariant (f := vplicSetHw) (a := fun _ => 0) (I := fun l mem =>
      (∀ id ∈ l, id < plicMaxInterrupts) ∧ ∀ w ≥ 32, mem w = 0) ?_ ⟨h, fun _ _ => rfl⟩).2
    rintro mem id l ⟨hl, hmem⟩
    refine ⟨fun j hj => hl j (List.mem_cons_of_mem _ hj), fun w hw => ?_⟩
    have hid := hl id List.mem_cons_self
    rw [vplicSetHw, if_pos (IdLe.of_lt hid), Logged.val_touch, memWriteBit_word]
    · exact hmem w hw
    · simp only [plicMaxInterrupts] at hid
      omega
  have hpend (id : Nat) : memBit (vplicInit interrupts).state.mem (pendAt id) = false := by
    rw [memBit, hzero _ (by simp only [pendAt, plicMaxInterrupts]; omega)]
    exact BitVec.getLsbD_zero
  have hmem : MemInv (vplicInit interrupts).state.mem :=
    ⟨hpend 0, hzero _ (by simp only [prioAt, plicMaxInterrupts]; omega)⟩
  refine ⟨⟨hmem, fun h' _ hlive => ?_, fun q c hc => ?_⟩, fun q c hq => ?_⟩
  · obtain ⟨id, -, hdel⟩ := (live_iff hmem).mp hlive
    exact absurd (hpend id ▸ hdel.pend) (by decide)
  · cases hc
  · cases hq

end Runs

/-- In every run from the initialisation of the controller whose steps all meet the condition, when
no cpu of the VM has a line left to update and no message waits for one, each hart with an interrupt
pending for its supervisor context has its line raised. -/
theorem vplic_line_raised {vm : VplicVm} (hwf : vm.Wf) {interrupts : List Nat}
    (hids : ∀ id ∈ interrupts, id < plicMaxInterrupts) {as : List VplicAction} {t : VplicSystem}
    (hrun : run (vplicStep vm) (vplicInit interrupts) as = some t)
    (hkeeps : Along (vplicStep vm) (VplicActionKeeps vm) (vplicInit interrupts) as)
    (hdone : ∀ q, vm.cpus.testBit q = true → t.line q = none ∧ t.state.msgs q = [])
    {v p : Nat} (hv : v < 2 ^ 64) (htrans : vmTranslateToPcpuid vm.cpus v = some p)
    (hpending : (vplicNextPending vm.plat t.state.mem (v * 2 + 1)).val ≠ 0) :
    t.state.vseip p = true := by
  have hinv : SystemInv vm t :=
    hkeeps.run_invariant (fun s a t hs hP hstep => hs.step hwf hP hstep) (SystemInv.init hids) hrun
  let h : VmHart vm := ⟨v, p, hv, htrans⟩
  rcases hinv.lines.lines.shown h not_false hpending with (hshown | hmsg) | ⟨q, hq⟩
  · exact hshown
  · rw [(hdone p h.spec.2.1).2] at hmsg
    cases hmsg
  · rw [(hdone q (hinv.due q _ hq).1).1] at hq
    cases hq

/-- A VM with hart 0 of the platform and the device interrupt 9. -/
def oneHartVm : VplicVm where
  plat := virtPlat
  cpus := 1
  cntxtNum := 2

theorem oneHartVm_wf : oneHartVm.Wf where
  cntxtNum := by decide
  cntxts p hp := by
    obtain rfl : p = 0 := Nat.testBit_one_eq_true_iff_self_eq_zero.mp hp
    decide

/-! The condition can be evaluated. -/

instance (vm : VplicVm) (id : Nat) (prio : BitVec 32) (mem : VplicMem) :
    Decidable (PrioStoreKeeps vm id prio mem) := by
  unfold PrioStoreKeeps
  infer_instance

instance (vm : VplicVm) (c id : Nat) (set : Bool) (mem : VplicMem) :
    Decidable (EnblBitKeeps vm c id set mem) := by
  unfold EnblBitKeeps
  infer_instance

instance (vm : VplicVm) (c id : Nat) (mem : VplicMem) : Decidable (CompleteKeeps vm c id mem) := by
  unfold CompleteKeeps
  infer_instance

instance (vm : VplicVm) (vcpuId id : Nat) (mem : VplicMem) :
    Decidable (InjectKeeps vm vcpuId id mem) := by
  unfold InjectKeeps
  infer_instance

theorem globalAccessKeeps_iff (vm : VplicVm) (acc : EmulAccess) (mem : VplicMem) :
    (if ((acc.addr >>> 12) &&& 3).toNat = 0 then acc.write = true →
        PrioStoreKeeps vm (globalAccessReg vm acc) (acc.regVal.setWidth 32) mem
      else ((acc.addr >>> 12) &&& 3).toNat = 1 ∨
        (acc.write = true → vplicVcntxtValid vm (enblAccessCntxt vm acc) = true → ∀ i < 32,
          EnblBitKeeps vm (enblAccessCntxt vm acc) (enblAccessFirst vm acc + i)
            (acc.regVal.getLsbD i) mem)) ↔ GlobalAccessKeeps vm acc mem := by
  unfold GlobalAccessKeeps
  generalize ((acc.addr >>> 12) &&& 3).toNat = page
  cases page with
  | zero => simp
  | succ page => cases page <;> simp

instance (vm : VplicVm) (acc : EmulAccess) (mem : VplicMem) :
    Decidable (GlobalAccessKeeps vm acc mem) :=
  decidable_of_iff _ (globalAccessKeeps_iff vm acc mem)

instance (vm : VplicVm) (acc : EmulAccess) (mem : VplicMem) :
    Decidable (HartAccessKeeps vm acc mem) := by
  unfold HartAccessKeeps
  infer_instance

instance (vm : VplicVm) (sys : VplicSystem) : (a : VplicAction) →
    Decidable (VplicActionKeeps vm sys a)
  | .access _ _ => inferInstanceAs (Decidable (ite _ _ _))
  | .inject _ vcpuId id => inferInstanceAs (Decidable (InjectKeeps vm vcpuId id sys.state.mem))
  | .reset cpu => inferInstanceAs (Decidable (∀ v < popcount vm.cpus,
      vmTranslateToPcpuid vm.cpus v = some cpu →
        (vplicNextPending vm.plat sys.state.mem (v * 2 + 1)).val = 0))
  | .updateLine _ => inferInstanceAs (Decidable True)
  | .handleMsg _ => inferInstanceAs (Decidable True)

/-- The guest gives interrupt 9 a priority and enables it, and it is injected. -/
theorem vplic_line_raised_injected :
    ∃ t, run (vplicStep oneHartVm) (vplicInit [9]) [guestStore 0 0xc000024 1,
      guestStore 0 0xc002080 0x200, .inject 0 0 9] = some t ∧
      (vplicNextPending oneHartVm.plat t.state.mem 1).val = 9 ∧ t.state.vseip 0 = true := by
  refine exists_some_of (P := fun t => t.line 0 = none ∧ t.state.msgs 0 = [] ∧
    (vplicNextPending oneHartVm.plat t.state.mem 1).val = 9) (by decide +kernel) fun t ht h => ?_
  obtain ⟨hline, hmsgs, hpending⟩ := h
  refine ⟨hpending, vplic_line_raised oneHartVm_wf (by decide) ht (by decide +kernel)
    (fun q hq => ?_) (v := 0) (by decide) (by decide) (by rw [hpending]; decide)⟩
  obtain rfl : q = 0 := Nat.testBit_one_eq_true_iff_self_eq_zero.mp hq
  exact ⟨hline, hmsgs⟩

/-- The guest disables interrupt 9 after it was injected, finds nothing to claim, and enables it
again: it is pending, nothing is outstanding, and the line is low. -/
theorem vplic_line_lost :
    let load : VplicAction := .access 0 { addr := 0xc201004, width := 4, write := false }
    let as := [guestStore 0 0xc000024 1, guestStore 0 0xc002080 0x200, .inject 0 0 9,
      guestStore 0 0xc002080 0, load, .updateLine 0, guestStore 0 0xc002080 0x200]
    ∃ t, run (vplicStep oneHartVm) (vplicInit [9]) as = some t ∧
      (∀ q, oneHartVm.cpus.testBit q = true → t.line q = none ∧ t.state.msgs q = []) ∧
      vmTranslateToPcpuid oneHartVm.cpus 0 = some 0 ∧
      (vplicNextPending oneHartVm.plat t.state.mem 1).val = 9 ∧ t.state.vseip 0 = false := by
  intro load as
  refine exists_some_of (P := fun t => (t.line 0 = none ∧ t.state.msgs 0 = []) ∧
    (vplicNextPending oneHartVm.plat t.state.mem 1).val = 9 ∧ t.state.vseip 0 = false)
    (by decide +kernel) fun t _ h => ?_
  obtain ⟨hquiet, hlow⟩ := h
  refine ⟨fun q hq => ?_, by decide, hlow⟩
  obtain rfl : q = 0 := Nat.testBit_one_eq_true_iff_self_eq_zero.mp hq
  exact hquiet

end Bao
