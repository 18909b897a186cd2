import Bao.Riscv.Vcpu

/-!
# Trap entry and return

`_hyp_trap_vector` saves the guest's registers in the `struct arch_regs` at the top of the vcpu's
stack, calls a handler and restores them. While the guest runs, `sscratch` holds the end of the
structure. The handlers are modelled on `vcpu->regs`: here it is shown that the guest goes on with
what they leave there.
-/

namespace Bao

inductive TrapCsr where
  | sscratch
  | hstatus
  | sstatus
  | sepc
  | scause
  deriving DecidableEq

/-- A hart. The memory is addressed by double words. -/
structure TrapHart where
  x : Nat → Word
  csr : TrapCsr → Word
  mem : Word → Word

/-- The instructions of `VM_EXIT` and `VM_ENTRY`. -/
inductive TrapInstr where
  | csrrw (rd : Nat) (csr : TrapCsr) (rs : Nat)
  | csrr (rd : Nat) (csr : TrapCsr)
  | csrw (csr : TrapCsr) (rs : Nat)
  | addi (rd rs : Nat) (imm : Word)
  | la (rd : Nat) (addr : Word)
  | load (rd : Nat) (off : Word) (base : Nat)
  | store (rs : Nat) (off : Word) (base : Nat)

namespace TrapHart

def setX (s : TrapHart) (rd : Nat) (val : Word) : TrapHart :=
  { s with x := Function.update s.x rd val }

def setCsr (s : TrapHart) (csr : TrapCsr) (val : Word) : TrapHart :=
  { s with csr := Function.update s.csr csr val }

def exec (s : TrapHart) : TrapInstr → TrapHart
  | .csrrw rd csr rs => (s.setCsr csr (s.x rs)).setX rd (s.csr csr)
  | .csrr rd csr => s.setX rd (s.csr csr)
  | .csrw csr rs => s.setCsr csr (s.x rs)
  | .addi rd rs imm => s.setX rd (s.x rs + imm)
  | .la rd addr => s.setX rd addr
  | .load rd off base => s.setX rd (s.mem (s.x base + off))
  | .store rs off base => { s with mem := Function.update s.mem (s.x base + off) (s.x rs) }

def run : TrapHart → List TrapInstr → TrapHart := List.foldl exec

theorem run_append (s : TrapHart) (p q : List TrapInstr) : s.run (p ++ q) = (s.run p).run q :=
  List.foldl_append

end TrapHart

/-- `i*REGLEN`. -/
def regOff (i : Nat) : Word := BitVec.ofNat 64 (i * 8)

/-- `VM_EXIT`, with the address of `__global_pointer$`. -/
def vmExit (gp : Word) : List TrapInstr :=
  [.csrrw 31 .sscratch 31, .addi 31 31 (-regOff 34)] ++
    (List.range 30).map (fun i => .store (i + 1) (regOff i) 31) ++
    [.addi 2 31 0, .csrrw 31 .sscratch 31, .store 31 (regOff 30) 2,
      .csrr 5 .hstatus, .store 5 (regOff 31) 2, .csrr 5 .sstatus, .store 5 (regOff 32) 2,
      .csrr 5 .sepc, .store 5 (regOff 33) 2, .la 3 gp]

/-- `VM_ENTRY`, which finds the structure through `cpu.vcpu`, at the address given, and
`vcpu->regs`, at an offset. -/
def vmEntry (cpuVcpu vcpuRegsOff : Word) : List TrapInstr :=
  [.la 31 cpuVcpu, .load 31 0 31, .load 31 vcpuRegsOff 31, .addi 5 31 (regOff 34),
    .csrw .sscratch 5, .load 1 (regOff 31) 31, .csrw .hstatus 1, .load 1 (regOff 32) 31,
    .csrw .sstatus 1, .load 1 (regOff 33) 31, .csrw .sepc 1] ++
    (List.range 31).map fun i => .load (i + 1) (regOff i) 31

/-- The words of `struct arch_regs`. -/
def ArchRegs.word (r : ArchRegs) (i : Nat) : Word :=
  if i < 31 then r.x i else if i = 31 then r.hstatus else if i = 32 then r.sstatus else r.sepc

namespace TrapHart

/-- The registers of the hart, as words of the structure. -/
def word (s : TrapHart) (i : Nat) : Word :=
  if i < 31 then s.x (i + 1)
  else s.csr (if i = 31 then .hstatus else if i = 32 then .sstatus else .sepc)

theorem regOff_inj {i j : Nat} (hi : i < 34) (hj : j < 34) : regOff i = regOff j ↔ i = j := by
  rw [regOff, regOff, ← BitVec.toNat_inj, BitVec.toNat_ofNat, BitVec.toNat_ofNat]
  omega

variable {regs : Word}

/-- Memory outside the structure is the same. -/
def SameOutside (regs : Word) (mem mem' : Word → Word) : Prop :=
  ∀ a, (∀ i < 34, a ≠ regs + regOff i) → mem' a = mem a

theorem run_stores (n : Nat) (hn : n ≤ 30) (s : TrapHart) :
    ∃ mem, s.run ((List.range n).map fun i => .store (i + 1) (regOff i) 31) =
        { s with mem := mem } ∧
      (∀ i < n, mem (s.x 31 + regOff i) = s.x (i + 1)) ∧ SameOutside (s.x 31) s.mem mem := by
  induction n with
  | zero => exact ⟨s.mem, rfl, by simp, fun _ _ => rfl⟩
  | succ n ih =>
    obtain ⟨mem, hrun, hsaved, hframe⟩ := ih (by omega)
    refine ⟨Function.update mem (s.x 31 + regOff n) (s.x (n + 1)), ?_, fun i hi => ?_,
      fun a ha => ?_⟩
    · rw [List.range_succ, List.map_append, run_append, hrun]
      rfl
    · by_cases heq : i = n
      · rw [heq, Function.update_self]
      · have hne : s.x 31 + regOff i ≠ s.x 31 + regOff n := by
          simpa [regOff_inj (by omega : i < 34) (by omega : n < 34)] using heq
        rw [Function.update_of_ne hne, hsaved i (by omega)]
    · rw [Function.update_of_ne (ha n (by omega)), hframe a ha]

theorem run_loads (n : Nat) (hn : n ≤ 31) (s : TrapHart) :
    ∃ x, s.run ((List.range n).map fun i => .load (i + 1) (regOff i) 31) = { s with x := x } ∧
      (∀ i < n, x (i + 1) = s.mem (s.x 31 + regOff i)) ∧ ∀ k > n, x k = s.x k := by
  induction n with
  | zero => exact ⟨s.x, rfl, by simp, fun _ _ => rfl⟩
  | succ n ih =>
    obtain ⟨x, hrun, hloaded, hrest⟩ := ih (by omega)
    refine ⟨Function.update x (n + 1) (s.mem (s.x 31 + regOff n)), ?_, fun i hi => ?_,
      fun k hk => ?_⟩
    · rw [List.range_succ, List.map_append, run_append, hrun, ← hrest 31 (by omega)]
      rfl
    · by_cases heq : i = n
      · rw [heq, Function.update_self]
      · rw [Function.update_of_ne (by omega), hloaded i (by omega)]
    · rw [Function.update_of_ne (by omega), hrest k (by omega)]

theorem vmExit_saves (gp : Word) {s : TrapHart} (hs : s.csr .sscratch = regs + regOff 34) :
    (∀ i < 34, (s.run (vmExit gp)).mem (regs + regOff i) = s.word i) ∧
      SameOutside regs s.mem (s.run (vmExit gp)).mem ∧
      (s.run (vmExit gp)).csr .scause = s.csr .scause := by
  obtain ⟨mem, hrun, hsaved, hframe⟩ := run_stores 30 (Nat.le_refl 30)
    ((s.setCsr .sscratch (s.x 31)).setX 31 regs)
  have hstart : s.run [.csrrw 31 .sscratch 31, .addi 31 31 (-regOff 34)] =
      (s.setCsr .sscratch (s.x 31)).setX 31 regs := by
    have hback : regs + regOff 34 + -regOff 34 = regs := by
      rw [← BitVec.sub_eq_add_neg, BitVec.add_sub_cancel]
    simp only [run, List.foldl_cons, List.foldl_nil, exec, setX, setCsr, hs]
    simp [hback]
  have hmem (a : Word) : (s.run (vmExit gp)).mem a =
      if a = regs + regOff 33 then s.csr .sepc
      else if a = regs + regOff 32 then s.csr .sstatus
      else if a = regs + regOff 31 then s.csr .hstatus
      else if a = regs + regOff 30 then s.x 31 else mem a := by
    rw [vmExit, run_append, run_append, hstart, hrun]
    simp [run, exec, setX, setCsr, Function.update_apply]
  refine ⟨fun i hi => ?_, fun a ha => ?_, ?_⟩
  · have hx := hsaved i
    simp only [setX, setCsr, Function.update_self, Function.update_apply] at hx
    rw [hmem]
    simp (disch := omega) only [BitVec.add_right_inj, regOff_inj, word]
    grind
  · have hsame : mem a = s.mem a := hframe a (by simpa [setX] using ha)
    simp [hmem, ha, hsame]
  · rw [vmExit, run_append, run_append, hstart, hrun]
    simp [run, exec, setX, setCsr]

theorem vmEntry_restores {s : TrapHart} {cpuVcpu vcpuRegsOff : Word}
    (hptr : s.mem (s.mem cpuVcpu + vcpuRegsOff) = regs) :
    (∀ i < 34, (s.run (vmEntry cpuVcpu vcpuRegsOff)).word i = s.mem (regs + regOff i)) ∧
      (s.run (vmEntry cpuVcpu vcpuRegsOff)).csr .sscratch = regs + regOff 34 ∧
      (s.run (vmEntry cpuVcpu vcpuRegsOff)).mem = s.mem := by
  rw [vmEntry, run_append]
  obtain ⟨x, hrun, hloaded, -⟩ := run_loads 31 (Nat.le_refl 31) _
  rw [hrun]
  refine ⟨fun i hi => ?_, by simp [run, exec, setX, setCsr, hptr], rfl⟩
  by_cases hx : i < 31
  · rw [word, if_pos hx]
    refine (hloaded i hx).trans ?_
    simp [run, exec, setX, setCsr, hptr]
  · obtain rfl | rfl | rfl : i = 31 ∨ i = 32 ∨ i = 33 := by omega
    all_goals simp [word, run, exec, setX, setCsr, hptr]

/-- What the guest and the trap leave: the guest's registers `r`, and a cause. -/
def trap (s : TrapHart) (r : ArchRegs) (cause : Word) : TrapHart where
  x i := if i = 0 then 0 else r.x (i - 1)
  csr
    | .sscratch => s.csr .sscratch
    | .hstatus => r.hstatus
    | .sstatus => r.sstatus
    | .sepc => r.sepc
    | .scause => cause
  mem := s.mem

theorem word_trap (s : TrapHart) (r : ArchRegs) (cause : Word) {i : Nat} (hi : i < 34) :
    (s.trap r cause).word i = r.word i := by
  by_cases hx : i < 31
  · simp [word, trap, ArchRegs.word, hx]
  · obtain rfl | rfl | rfl : i = 31 ∨ i = 32 ∨ i = 33 := by omega
    all_goals rfl

end TrapHart

/-- Where the code finds its data: `regs` is the structure of the vcpu. -/
structure TrapLayout where
  gp : Word
  cpuVcpu : Word
  vcpuRegsOff : Word
  regs : Word

namespace TrapLayout

variable {l : TrapLayout} {s : TrapHart}

/-- `cpu.vcpu->regs` is the structure, and the two pointers are not inside it. -/
def Points (l : TrapLayout) (mem : Word → Word) : Prop :=
  mem (mem l.cpuVcpu + l.vcpuRegsOff) = l.regs ∧
    ∀ i < 34, l.cpuVcpu ≠ l.regs + regOff i ∧
      mem l.cpuVcpu + l.vcpuRegsOff ≠ l.regs + regOff i

def Saved (l : TrapLayout) (mem : Word → Word) (r : ArchRegs) : Prop :=
  ∀ i < 34, mem (l.regs + regOff i) = r.word i

/-- A handler, the function on `vcpu->regs` that models it, and that it implements the model. -/
structure Handler (l : TrapLayout) where
  run : TrapHart → TrapHart
  model : ArchRegs → ArchRegs
  points : ∀ s, l.Points s.mem → l.Points (run s).mem
  saved : ∀ s r, l.Saved s.mem r → l.Saved (run s).mem (model r)

/-- One trap, with what the two handlers do at it. -/
structure Trap (l : TrapLayout) where
  guest : ArchRegs
  cause : Word
  syncExceptionHandler : l.Handler
  interruptsArchHandle : l.Handler

/-- The branch on `scause`. -/
def Trap.handler (t : l.Trap) : l.Handler :=
  if t.cause.msb then t.interruptsArchHandle else t.syncExceptionHandler

def vcpuArchEntry (l : TrapLayout) (s : TrapHart) : TrapHart :=
  s.run (vmEntry l.cpuVcpu l.vcpuRegsOff)

/-- The calls of `_hyp_trap_vector`. -/
def Trap.handle (t : l.Trap) (s : TrapHart) : TrapHart :=
  let s := s.exec (.csrr 5 .scause)
  if (s.x 5).msb then t.interruptsArchHandle.run s else t.syncExceptionHandler.run s

def hypTrapVector (s : TrapHart) (t : l.Trap) : TrapHart :=
  l.vcpuArchEntry (t.handle (s.run (vmExit l.gp)))

theorem Trap.handle_eq (t : l.Trap) (h : s.csr .scause = t.cause) :
    t.handle s = t.handler.run (s.exec (.csrr 5 .scause)) := by
  have hx : (s.exec (.csrr 5 .scause)).x 5 = t.cause := h
  simp only [handle, hx, handler]
  split <;> rfl

/-- What holds whenever the guest runs. -/
def Ready (l : TrapLayout) (s : TrapHart) : Prop :=
  l.Points s.mem ∧ s.csr .sscratch = l.regs + regOff 34

theorem Points.of_sameOutside {mem mem' : Word → Word} (h : l.Points mem)
    (hframe : TrapHart.SameOutside l.regs mem mem') : l.Points mem' := by
  have hcpu := hframe l.cpuVcpu fun i hi => (h.2 i hi).1
  have hvcpu := hframe (mem l.cpuVcpu + l.vcpuRegsOff) fun i hi => (h.2 i hi).2
  unfold Points
  rw [hcpu, hvcpu]
  exact h

theorem Points.vcpuArchEntry (h : l.Points s.mem) :
    l.Ready (l.vcpuArchEntry s) ∧
      ∀ i < 34, (l.vcpuArchEntry s).word i = s.mem (l.regs + regOff i) := by
  obtain ⟨hword, hscratch, hmem⟩ := TrapHart.vmEntry_restores h.1
  exact ⟨⟨hmem ▸ h, hscratch⟩, hword⟩

theorem Ready.hypTrapVector (h : l.Ready s) (t : l.Trap) :
    l.Ready (hypTrapVector (s.trap t.guest t.cause) t) ∧
      ∀ i < 34, (hypTrapVector (s.trap t.guest t.cause) t).word i =
        (t.handler.model t.guest).word i := by
  obtain ⟨hword, hframe, hcause⟩ := TrapHart.vmExit_saves l.gp (s := s.trap t.guest t.cause) h.2
  rw [TrapLayout.hypTrapVector, t.handle_eq hcause]
  generalize (s.trap t.guest t.cause).run (vmExit l.gp) = u at *
  have hsaved := t.handler.saved (u.exec (.csrr 5 .scause)) t.guest fun i hi =>
    (hword i hi).trans (TrapHart.word_trap s t.guest t.cause hi)
  obtain ⟨hready, hentry⟩ := (t.handler.points (u.exec (.csrr 5 .scause))
    (h.1.of_sameOutside hframe)).vcpuArchEntry
  exact ⟨hready, fun i hi => (hentry i hi).trans (hsaved i hi)⟩

/-- The guest runs, traps, is handled and runs again. -/
def traps : TrapHart → List l.Trap → TrapHart :=
  List.foldl fun s t => hypTrapVector (s.trap t.guest t.cause) t

theorem Ready.traps (h : l.Ready s) (ts : List l.Trap) : l.Ready (traps s ts) := by
  induction ts generalizing s with
  | nil => exact h
  | cons t ts ih =>
    rw [TrapLayout.traps, List.foldl_cons]
    exact ih (h.hypTrapVector t).1

/-- From the first entry on and after any sequence of traps, the guest resumes with exactly the
registers that the model of the handler of the last trap computes from those it trapped with. -/
theorem hypTrapVector_refines (s : TrapHart) (h : l.Points s.mem) (ts : List l.Trap)
    (t : l.Trap) {i : Nat} (hi : i < 34) :
    (traps (l.vcpuArchEntry s) (ts ++ [t])).word i = (t.handler.model t.guest).word i := by
  have hready := h.vcpuArchEntry.1.traps ts
  unfold TrapLayout.traps at hready ⊢
  rw [List.foldl_append, List.foldl_cons, List.foldl_nil]
  exact (hready.hypTrapVector t).2 i hi

/-- A handler that skips the instruction. -/
def skipInstr (l : TrapLayout) : l.Handler where
  run s :=
    ⟨s.x, s.csr, Function.update s.mem (l.regs + regOff 33) (s.mem (l.regs + regOff 33) + 4)⟩
  model r := { r with sepc := r.sepc + 4 }
  points s h := h.of_sameOutside fun a ha => Function.update_of_ne (ha 33 (by decide)) _ _
  saved s r h i hi := by
    have hsaved := h i hi
    have hsepc := h 33 (by decide)
    simp (disch := omega) only [Function.update_apply, BitVec.add_right_inj,
      TrapHart.regOff_inj]
    grind [ArchRegs.word]

theorem hypTrapVector_refines_skip :
    let l : TrapLayout := ⟨0x800, 0x1008, 0x10, 0x2000⟩
    let s : TrapHart := ⟨fun _ => 0, fun _ => 0, fun a => if a = 0x1008 then 0x3000 else 0x2000⟩
    let t : l.Trap := ⟨{ sepc := 0x100 }, 10, l.skipInstr, l.skipInstr⟩
    l.Points s.mem ∧ (traps (l.vcpuArchEntry s) ([t] ++ [t])).word 33 = 0x104 := by
  intro l s t
  have hpoints : l.Points s.mem := ⟨by decide, by decide⟩
  exact ⟨hpoints, (hypTrapVector_refines s hpoints [t] t (i := 33) (by decide)).trans (by decide)⟩

end TrapLayout

end Bao
