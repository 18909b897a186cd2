import Mathlib.Data.List.Nodup
import Mathlib.Tactic.Ring
import Bao.Core.CpuSync
import Bao.Core.Ipc

/-!
# The masters of the shared memories

At boot every cpu clears the `cpu_masters` of all shared memories, waits in a barrier, and, if it is
the master of a VM, adds itself to the masters of the memories that the VM's ipc objects name. The
additions are made one by one under a lock; the stores of the first pass are not.

The barrier is the one of `Bao.Core.CpuSync`, in the round after those that the cpus have entered
before; a cpu may still have to leave the last of these.
-/

namespace Bao

open Foundation

/-- Which VM each cpu was assigned to, the master of each VM, and the ipc objects in its
configuration. -/
structure IpcConfig (n : Nat) where
  vm : Fin n → Option Nat
  master : Nat → Fin n
  ipcs : Nat → List Ipc

inductive SetupPc where
  | zero (i : Nat)
  | wait
  | take (i : Nat)
  /-- In the critical section, with the value that was read. -/
  | store (i : Nat) (masters : Word)
  | done
  deriving DecidableEq

structure IpcSetup (n : Nat) where
  barrier : BarrierState n
  lock : Option (Fin n)
  shmemTable : List Shmem
  pc : Fin n → SetupPc

namespace IpcConfig

variable {n : Nat}

/-- The ipc objects over which the second pass of a cpu goes: none, unless it is a master. -/
def masterIpcs (cfg : IpcConfig n) (c : Fin n) : List Ipc :=
  match cfg.vm c with
  | some v => if cfg.master v = c then cfg.ipcs v else []
  | none => []

/-- The next step of a cpu in `ipc_setup_masters`. The shift of `1ULL` takes its count modulo 64. -/
def step (cfg : IpcConfig n) (s : IpcSetup n) (c : Fin n) : Option (IpcSetup n) :=
  match s.pc c with
  | .zero i =>
    match s.barrier.pc c with
    | .spin _ => (s.barrier.step (.leave c)).map fun b => { s with barrier := b }
    | .outside =>
      if i < s.shmemTable.length then
        some { s with
          shmemTable := s.shmemTable.modify i fun shmem => { shmem with cpuMasters := 0 }
          pc := Function.update s.pc c (.zero (i + 1)) }
      else (s.barrier.step (.enter c)).map fun b =>
        { s with barrier := b, pc := Function.update s.pc c .wait }
  | .wait => (s.barrier.step (.leave c)).map fun b =>
      { s with barrier := b, pc := Function.update s.pc c (.take 0) }
  | .take i =>
    match (cfg.masterIpcs c)[i]? with
    | some ipc =>
      if s.lock = none then
        match s.shmemTable[ipc.shmemId.toNat]? with
        | some shmem => some { s with
            lock := some c
            pc := Function.update s.pc c (.store i shmem.cpuMasters) }
        | none => some { s with pc := Function.update s.pc c (.take (i + 1)) }
      else none
    | none => some { s with pc := Function.update s.pc c .done }
  | .store i masters =>
    match (cfg.masterIpcs c)[i]? with
    | some ipc => some { s with
        lock := none
        shmemTable := s.shmemTable.modify ipc.shmemId.toNat fun shmem =>
          { shmem with cpuMasters := masters ||| 1 <<< (c.val % 64) }
        pc := Function.update s.pc c (.take (i + 1)) }
    | none => none
  | .done => none

end IpcConfig

/-- All cpus are before the first pass. -/
def IpcSetup.initial {n : Nat} (barrier : BarrierState n) (shmemTable : List Shmem) :
    IpcSetup n where
  barrier := barrier
  lock := none
  shmemTable := shmemTable
  pc _ := .zero 0

/-! ### Where a cpu is -/

namespace SetupPc

/-- How many rounds of the barrier the cpu has entered, when there were `r` before. -/
def rounds (r : Nat) : SetupPc → Nat
  | .zero _ => r
  | _ => r + 1

/-- The cpu has left the barrier. -/
def After : SetupPc → Prop
  | .zero _ => False
  | .wait => False
  | _ => True

/-- The cpu has cleared the masters of the memory `k`. -/
def Zeroed : SetupPc → Nat → Prop
  | .zero i, k => k < i
  | _, _ => True

/-- The cpu has added itself to the masters of the memory that its ipc object `j` names. -/
def Passed : SetupPc → Nat → Prop
  | .zero _, _ => False
  | .wait, _ => False
  | .take i, j => j < i
  | .store i _, j => j < i
  | .done, _ => True

theorem Passed.after {pc : SetupPc} {j : Nat} (h : pc.Passed j) : pc.After := by
  cases pc <;> first | exact h.elim | trivial

theorem After.rounds {pc : SetupPc} {r : Nat} (h : pc.After) : pc.rounds r = r + 1 := by
  cases pc <;> first | exact h.elim | rfl

end SetupPc

namespace IpcSetup

variable {n : Nat} {cfg : IpcConfig n} {s t : IpcSetup n} {b b' : BarrierState n}
  {pc : Fin n → SetupPc} {x : SetupPc} {table : List Shmem} {c : Fin n} {r : Nat}

/-! ### The barrier separates the passes -/

structure PhaseInv (r : Nat) (b : BarrierState n) (pc : Fin n → SetupPc) : Prop where
  barrier : b.Inv
  calls : ∀ c, b.calls c = (pc c).rounds r
  after : ∀ c, (pc c).After → b.pc c = .outside

theorem PhaseInv.not_zero (h : PhaseInv r b pc) (hc : (pc c).After) (c' : Fin n) (i : Nat) :
    pc c' ≠ .zero i := fun heq => by
  have hreturns := h.barrier.outside c (h.after c hc)
  have hrounds := h.barrier.rounds c c'
  rw [h.calls, hc.rounds] at hreturns
  rw [h.calls, heq, SetupPc.rounds] at hrounds
  omega

theorem PhaseInv.update (h : PhaseInv r b pc) (hb : b'.Inv) (hcalls : b'.calls c = x.rounds r)
    (hcalls' : ∀ c' ≠ c, b'.calls c' = b.calls c') (hafter : x.After → b'.pc c = .outside)
    (hpc : ∀ c' ≠ c, b'.pc c' = b.pc c') : PhaseInv r b' (Function.update pc c x) := by
  refine ⟨hb, fun c' => ?_, fun c' hc' => ?_⟩ <;> by_cases heq : c' = c
  · rw [heq, Function.update_self, hcalls]
  · rw [Function.update_of_ne heq, hcalls' c' heq, h.calls]
  · subst heq
    rw [Function.update_self] at hc'
    exact hafter hc'
  · rw [Function.update_of_ne heq] at hc'
    rw [hpc c' heq, h.after c' hc']

theorem PhaseInv.leave (h : PhaseInv r b pc) (hstep : b.step (.leave c) = some b')
    (hx : x.rounds r = (pc c).rounds r) : PhaseInv r b' (Function.update pc c x) := by
  have hb := h.barrier.leave hstep
  simp only [BarrierState.step] at hstep
  split at hstep
  · cases hstep
  · split at hstep
    · cases hstep
    · cases hstep
      refine h.update hb ?_ (fun _ _ => rfl) (fun _ => Function.update_self ..)
        fun c' hc => Function.update_of_ne hc ..
      rw [hx]
      exact h.calls c

theorem PhaseInv.noWrap (h : PhaseInv r b pc) (hwrap : (r + 2) * n ≤ 2 ^ 64) {i : Nat}
    (hc : pc c = .zero i) : b.NoWrap := by
  have hlt : ∑ c, b.calls c < (r + 1) * n := by
    refine BarrierState.sum_lt (fun c' => ?_) c (by rw [h.calls, hc]; exact Nat.lt_succ_self r)
    rw [h.calls]
    unfold SetupPc.rounds
    split <;> omega
  have heq : (r + 2) * n = (r + 1) * n + n := by ring
  rw [BarrierState.NoWrap, h.barrier.count]
  omega

theorem PhaseInv.enter (h : PhaseInv r b pc) (hwrap : (r + 2) * n ≤ 2 ^ 64) {i : Nat}
    (hc : pc c = .zero i) (hstep : b.step (.enter c) = some b') :
    PhaseInv r b' (Function.update pc c .wait) := by
  have hb := h.barrier.enter (h.noWrap hwrap hc) hstep
  simp only [BarrierState.step, Option.ite_none_right_eq_some, Option.some.injEq] at hstep
  obtain ⟨-, rfl⟩ := hstep
  refine h.update hb ?_ (fun c' hc => Function.update_of_ne hc ..) False.elim
    fun c' hc => Function.update_of_ne hc ..
  simp only [Function.update_self, h.calls, hc, SetupPc.rounds]

/-! ### The masters -/

/-- The cpu has been added to the masters of the memory `k`. -/
def Added (cfg : IpcConfig n) (pc : Fin n → SetupPc) (k : Nat) (c : Fin n) : Prop :=
  ∃ j ipc, (cfg.masterIpcs c)[j]? = some ipc ∧ ipc.shmemId.toNat = k ∧ (pc c).Passed j

def MastersAre (shmem : Shmem) (added : Fin n → Prop) : Prop :=
  ∀ p, shmem.cpuMasters.getLsbD p = true ↔ ∃ c : Fin n, c.val % 64 = p ∧ added c

/-- The masters that some cpu has cleared are the cpus that have been added. -/
def MastersInv (cfg : IpcConfig n) (table : List Shmem) (pc : Fin n → SetupPc) : Prop :=
  ∀ k shmem, table[k]? = some shmem → (∃ c, (pc c).Zeroed k) → MastersAre shmem (Added cfg pc k)

theorem MastersAre.congr {shmem : Shmem} {added added' : Fin n → Prop} (h : MastersAre shmem added)
    (heq : ∀ c, added c ↔ added' c) : MastersAre shmem added' := fun p =>
  (h p).trans (exists_congr fun c => and_congr_right fun _ => heq c)

theorem MastersInv.update (h : MastersInv cfg table pc)
    (hzeroed : ∀ k < table.length, x.Zeroed k → (pc c).Zeroed k)
    (hpassed : ∀ j ipc, (cfg.masterIpcs c)[j]? = some ipc → ipc.shmemId.toNat < table.length →
      ((pc c).Passed j ↔ x.Passed j)) : MastersInv cfg table (Function.update pc c x) := by
  rintro k shmem hk ⟨c₀, hc₀⟩
  have hlt : k < table.length := (List.getElem?_eq_some_iff.mp hk).1
  have hzero : ∃ c, (pc c).Zeroed k := by
    by_cases heq : c₀ = c
    · subst heq
      rw [Function.update_self] at hc₀
      exact ⟨c₀, hzeroed k hlt hc₀⟩
    · rw [Function.update_of_ne heq] at hc₀
      exact ⟨c₀, hc₀⟩
  refine (h k shmem hk hzero).congr fun c' => ?_
  by_cases heq : c' = c
  · subst heq
    simp only [Added, Function.update_self]
    refine exists_congr fun j => exists_congr fun ipc => and_congr_right fun hj => ?_
    refine and_congr_right fun hipc => hpassed j ipc hj ?_
    omega
  · simp only [Added, Function.update_of_ne heq]

theorem not_added (hafter : ∀ c, ¬ (pc c).After) (k : Nat) (c : Fin n) : ¬ Added cfg pc k c :=
  fun ⟨_, _, _, _, hpassed⟩ => hafter c hpassed.after

theorem MastersInv.zero (h : MastersInv cfg table pc) {i : Nat} (hc : pc c = .zero i)
    (hafter : ∀ c, ¬ (pc c).After) :
    MastersInv cfg (table.modify i fun shmem => { shmem with cpuMasters := 0 })
      (Function.update pc c (.zero (i + 1))) := by
  have hafter' : ∀ c', ¬ (Function.update pc c (.zero (i + 1)) c').After := by
    intro c' hc'
    by_cases heq : c' = c
    · rw [heq, Function.update_self] at hc'
      exact hc'
    · rw [Function.update_of_ne heq] at hc'
      exact hafter c' hc'
  rintro k shmem hk ⟨c₀, hc₀⟩
  rw [List.getElem?_modify] at hk
  split at hk
  · obtain ⟨old, -, rfl⟩ := Option.map_eq_some_iff.mp hk
    intro p
    simp [not_added hafter']
  · next hne =>
    have hk : table[k]? = some shmem := by simpa using hk
    have hzeroed : (pc c₀).Zeroed k := by
      by_cases heq : c₀ = c
      · rw [heq, Function.update_self] at hc₀
        rw [heq, hc]
        simp only [SetupPc.Zeroed] at hc₀ ⊢
        omega
      · rwa [Function.update_of_ne heq] at hc₀
    refine (h k shmem hk ⟨c₀, hzeroed⟩).congr fun c' => ?_
    simp only [not_added hafter, not_added hafter']

theorem getLsbD_or_one_shiftLeft (m : Word) (i p : Nat) :
    (m ||| 1 <<< (i % 64)).getLsbD p = true ↔ m.getLsbD p = true ∨ i % 64 = p := by
  change (m ||| BitVec.twoPow 64 (i % 64)).getLsbD p = true ↔ _
  have hlt := Nat.mod_lt i (show 64 > 0 by decide)
  simp [BitVec.getLsbD_twoPow, hlt]

theorem MastersInv.store (h : MastersInv cfg table pc) {i : Nat} {ipc : Ipc} {shmem : Shmem}
    (hc : pc c = .store i shmem.cpuMasters) (hipc : (cfg.masterIpcs c)[i]? = some ipc)
    (hshmem : table[ipc.shmemId.toNat]? = some shmem) :
    MastersInv cfg (table.modify ipc.shmemId.toNat fun shmem' =>
      { shmem' with cpuMasters := shmem.cpuMasters ||| 1 <<< (c.val % 64) })
      (Function.update pc c (.take (i + 1))) := by
  have hzeroed (k : Nat) : ∃ c, (pc c).Zeroed k := ⟨c, by rw [hc]; trivial⟩
  -- Of the objects of `c`, the step passes the `i`-th.
  have hadded (k : Nat) (c' : Fin n) : Added cfg (Function.update pc c (.take (i + 1))) k c' ↔
      Added cfg pc k c' ∨ c' = c ∧ ipc.shmemId.toNat = k := by
    by_cases heq : c' = c
    · subst heq
      simp only [Added, Function.update_self, hc, SetupPc.Passed, true_and]
      constructor
      · rintro ⟨j, ipc', hj, hk, hlt⟩
        rcases Nat.lt_succ_iff_lt_or_eq.mp hlt with hlt | rfl
        · exact .inl ⟨j, ipc', hj, hk, hlt⟩
        · cases hipc.symm.trans hj
          exact .inr hk
      · rintro (⟨j, ipc', hj, hk, hlt⟩ | hk)
        · exact ⟨j, ipc', hj, hk, by omega⟩
        · exact ⟨i, ipc, hipc, hk, by omega⟩
    · simp [Added, heq]
  intro k shmem' hk _ p
  simp only [hadded]
  rw [List.getElem?_modify] at hk
  split at hk
  · next heq =>
    obtain ⟨old, -, rfl⟩ := Option.map_eq_some_iff.mp hk
    subst heq
    rw [getLsbD_or_one_shiftLeft, h _ shmem hshmem (hzeroed _) p]
    simp only [and_true, and_or_left, exists_or, exists_eq_right]
  · next hne =>
    have hk : table[k]? = some shmem' := by simpa using hk
    rw [h k shmem' hk (hzeroed k) p]
    simp [hne]

/-! ### Runs -/

/-- A cpu in the critical section holds the lock, and the value it has read is still there. -/
def LockInv (cfg : IpcConfig n) (lock : Option (Fin n)) (table : List Shmem)
    (pc : Fin n → SetupPc) : Prop :=
  ∀ c i masters, pc c = .store i masters → lock = some c ∧
    ∀ ipc, (cfg.masterIpcs c)[i]? = some ipc →
      ∃ shmem, table[ipc.shmemId.toNat]? = some shmem ∧ shmem.cpuMasters = masters

theorem LockInv.update {lock : Option (Fin n)} (h : LockInv cfg lock table pc)
    (hx : ∀ i masters, x ≠ .store i masters) : LockInv cfg lock table (Function.update pc c x) := by
  intro c' i masters hc'
  by_cases heq : c' = c
  · rw [heq, Function.update_self] at hc'
    exact absurd hc' (hx i masters)
  · rw [Function.update_of_ne heq] at hc'
    exact h c' i masters hc'

theorem LockInv.of_free {table' : List Shmem}
    (hother : ∀ c' ≠ c, ∀ i masters, pc c' ≠ .store i masters)
    (hx : ∀ i masters, x ≠ .store i masters) :
    LockInv cfg none table' (Function.update pc c x) := by
  intro c' i masters hc'
  by_cases heq : c' = c
  · rw [heq, Function.update_self] at hc'
    exact absurd hc' (hx i masters)
  · rw [Function.update_of_ne heq] at hc'
    exact absurd hc' (hother c' heq i masters)

structure Inv (cfg : IpcConfig n) (r : Nat) (s : IpcSetup n) : Prop where
  phase : PhaseInv r s.barrier s.pc
  masters : MastersInv cfg s.shmemTable s.pc
  lock : LockInv cfg s.lock s.shmemTable s.pc

theorem Inv.initial (hb : b.Inv) (hcalls : ∀ c, b.calls c = r) :
    Inv cfg r (IpcSetup.initial b table) where
  phase := ⟨hb, hcalls, fun _ h => h.elim⟩
  masters k _ _ := fun ⟨_, hc⟩ => absurd hc (Nat.not_lt_zero k)
  lock c i masters h := by cases h

theorem Inv.zero (h : Inv cfg r s) {i : Nat} (hc : s.pc c = .zero i) :
    Inv cfg r { s with
      shmemTable := s.shmemTable.modify i fun shmem => { shmem with cpuMasters := 0 }
      pc := Function.update s.pc c (.zero (i + 1)) } := by
  have hafter : ∀ c', ¬ (s.pc c').After := fun c' hc' => h.phase.not_zero hc' c i hc
  refine ⟨?_, h.masters.zero hc hafter, ?_⟩
  · exact h.phase.update h.phase.barrier (by rw [h.phase.calls, hc]; rfl) (fun _ _ => rfl)
      False.elim fun _ _ => rfl
  · intro c' j masters hc'
    by_cases heq : c' = c
    · rw [heq] at hc'
      simp at hc'
    · simp only [Function.update_of_ne heq] at hc'
      exact absurd (show (s.pc c').After by rw [hc']; trivial) (hafter c')

theorem Inv.advance (h : Inv cfg r s) (hc : (s.pc c).After) (hx : x.After)
    (hpassed : ∀ j ipc, (cfg.masterIpcs c)[j]? = some ipc →
      ipc.shmemId.toNat < s.shmemTable.length → ((s.pc c).Passed j ↔ x.Passed j)) :
    PhaseInv r s.barrier (Function.update s.pc c x) ∧
      MastersInv cfg s.shmemTable (Function.update s.pc c x) := by
  refine ⟨?_, h.masters.update (fun k _ _ => ?_) hpassed⟩
  · exact h.phase.update h.phase.barrier (by rw [h.phase.calls, hc.rounds, hx.rounds])
      (fun _ _ => rfl) (fun _ => h.phase.after c hc) fun _ _ => rfl
  · cases hpc : s.pc c <;> rw [hpc] at hc <;> first | exact hc.elim | trivial

theorem Inv.take (h : Inv cfg r s) {i : Nat} (hc : s.pc c = .take i)
    (ht : cfg.step s c = some t) : Inv cfg r t := by
  have hafter : (s.pc c).After := by rw [hc]; trivial
  simp only [IpcConfig.step, hc] at ht
  split at ht
  · next ipc hipc =>
    simp only [Option.ite_none_right_eq_some] at ht
    obtain ⟨hfree, ht⟩ := ht
    split at ht
    · next shmem hshmem =>
      cases ht
      obtain ⟨hphase, hmasters⟩ := h.advance (x := .store i shmem.cpuMasters) hafter trivial
        fun j _ _ _ => by rw [hc]; exact Iff.rfl
      refine ⟨hphase, hmasters, ?_⟩
      intro c' i' masters hc'
      by_cases heq : c' = c
      · subst heq
        simp only [Function.update_self, SetupPc.store.injEq] at hc'
        obtain ⟨rfl, rfl⟩ := hc'
        refine ⟨rfl, fun ipc' hipc' => ⟨shmem, ?_, rfl⟩⟩
        cases hipc.symm.trans hipc'
        exact hshmem
      · simp only [Function.update_of_ne heq] at hc'
        have hlock := (h.lock c' i' masters hc').1
        rw [hfree] at hlock
        cases hlock
    · next hshmem =>
      cases ht
      obtain ⟨hphase, hmasters⟩ := h.advance (x := .take (i + 1)) hafter trivial
        fun j ipc' hj hlt => by
          rw [hc]
          -- The object that is skipped names no memory.
          have hne : j ≠ i := by
            rintro rfl
            cases hipc.symm.trans hj
            rw [List.getElem?_eq_none_iff] at hshmem
            omega
          simp only [SetupPc.Passed]
          omega
      exact ⟨hphase, hmasters, h.lock.update nofun⟩
  · next hipc =>
    cases ht
    obtain ⟨hphase, hmasters⟩ := h.advance (x := .done) hafter trivial fun j ipc' hj _ => by
      rw [hc]
      have hlt := (List.getElem?_eq_some_iff.mp hj).1
      rw [List.getElem?_eq_none_iff] at hipc
      simp only [SetupPc.Passed, iff_true]
      omega
    exact ⟨hphase, hmasters, h.lock.update nofun⟩

theorem Inv.store (h : Inv cfg r s) {i : Nat} {masters : Word} (hc : s.pc c = .store i masters)
    (ht : cfg.step s c = some t) : Inv cfg r t := by
  have hafter : (s.pc c).After := by rw [hc]; trivial
  simp only [IpcConfig.step, hc] at ht
  split at ht
  · next ipc hipc =>
    cases ht
    obtain ⟨hlock, hread⟩ := h.lock c i masters hc
    obtain ⟨shmem, hshmem, rfl⟩ := hread ipc hipc
    refine ⟨?_, h.masters.store hc hipc hshmem, .of_free (fun c' hne i' m hc' => hne ?_) nofun⟩
    · exact h.phase.update h.phase.barrier (by rw [h.phase.calls, hc]; rfl) (fun _ _ => rfl)
        (fun _ => h.phase.after c hafter) fun _ _ => rfl
    · have hlock' := (h.lock c' i' m hc').1
      rw [hlock] at hlock'
      exact (Option.some.inj hlock').symm
  · cases ht

theorem Inv.step (h : Inv cfg r s) (hwrap : (r + 2) * n ≤ 2 ^ 64) (ht : cfg.step s c = some t) :
    Inv cfg r t := by
  cases hc : s.pc c with
  | zero i =>
    simp only [IpcConfig.step, hc] at ht
    split at ht
    · obtain ⟨b, hb, rfl⟩ := Option.map_eq_some_iff.mp ht
      have hphase := h.phase.leave (x := s.pc c) hb rfl
      rw [Function.update_eq_self] at hphase
      exact ⟨hphase, h.masters, h.lock⟩
    · split at ht
      · cases ht
        exact h.zero hc
      · next hlen =>
        obtain ⟨b, hb, rfl⟩ := Option.map_eq_some_iff.mp ht
        refine ⟨h.phase.enter hwrap hc hb, h.masters.update (fun k hk _ => ?_) fun _ _ _ _ => ?_,
          h.lock.update nofun⟩
        · rw [hc]
          simp only [SetupPc.Zeroed]
          omega
        · rw [hc]
          exact Iff.rfl
  | wait =>
    simp only [IpcConfig.step, hc] at ht
    obtain ⟨b, hb, rfl⟩ := Option.map_eq_some_iff.mp ht
    refine ⟨h.phase.leave hb (by rw [hc]; rfl),
      h.masters.update (fun _ _ _ => ?_) fun j _ _ _ => ?_, h.lock.update nofun⟩
    · rw [hc]
      trivial
    · rw [hc]
      simp [SetupPc.Passed]
  | take i => exact h.take hc ht
  | store i masters => exact h.store hc ht
  | done =>
    simp only [IpcConfig.step, hc] at ht
    cases ht

theorem step_length (ht : cfg.step s c = some t) : t.shmemTable.length = s.shmemTable.length := by
  simp only [IpcConfig.step] at ht
  split at ht
  · split at ht
    · obtain ⟨b, -, rfl⟩ := Option.map_eq_some_iff.mp ht
      rfl
    · split at ht
      · cases ht
        exact List.length_modify ..
      · obtain ⟨b, -, rfl⟩ := Option.map_eq_some_iff.mp ht
        rfl
  · obtain ⟨b, -, rfl⟩ := Option.map_eq_some_iff.mp ht
    rfl
  · split at ht
    · simp only [Option.ite_none_right_eq_some] at ht
      obtain ⟨-, ht⟩ := ht
      split at ht <;> cases ht <;> rfl
    · cases ht
      rfl
  · split at ht
    · cases ht
      exact List.length_modify ..
    · cases ht
  · cases ht

end IpcSetup

/-- The cpu is the master of a VM that has an ipc object for the memory `k`. -/
def IpcConfig.Shares {n : Nat} (cfg : IpcConfig n) (k : Nat) (c : Fin n) : Prop :=
  ∃ v, cfg.vm c = some v ∧ cfg.master v = c ∧ ∃ ipc ∈ cfg.ipcs v, ipc.shmemId.toNat = k

theorem IpcSetup.added_iff_of_done {n : Nat} {cfg : IpcConfig n} {pc : Fin n → SetupPc} {k : Nat}
    {c : Fin n} (hc : pc c = .done) : Added cfg pc k c ↔ cfg.Shares k c := by
  have hmem : Added cfg pc k c ↔ ∃ ipc ∈ cfg.masterIpcs c, ipc.shmemId.toNat = k := by
    simp only [Added, hc, SetupPc.Passed, and_true, List.mem_iff_getElem?]
    grind
  rw [hmem, IpcConfig.masterIpcs, IpcConfig.Shares]
  cases cfg.vm c with
  | none => simp
  | some v => by_cases hv : cfg.master v = c <;> simp [hv]

/-- When all cpus have finished, and there are at most 64, the masters of a shared memory are the
masters of the VMs that have an ipc object for it, whatever was there before; and a notification on
such an object then goes once to each of these that is not a cpu of the caller's VM, and to no other
cpu. -/
theorem ipcSetupMasters_exact {n : Nat} [NeZero n] (hn : n ≤ 64) {cfg : IpcConfig n} {r : Nat}
    {b : BarrierState n} {table : List Shmem} {as : List (Fin n)} {t : IpcSetup n}
    (hb : b.Inv) (hcalls : ∀ c, b.calls c = r) (hwrap : (r + 2) * n ≤ 2 ^ 64)
    (h : run cfg.step (.initial b table) as = some t) (hdone : ∀ c, t.pc c = .done)
    (handlerId : BitVec 32) :
    (t.shmemTable.length = table.length ∧ ∀ k shmem, t.shmemTable[k]? = some shmem →
      ∀ p, shmem.cpuMasters.getLsbD p = true ↔ ∃ c : Fin n, c.val = p ∧ cfg.Shares k c) ∧
    ∀ (vm : IpcVm) (pad : BitVec 48) (ipcId ipcEvent : Word) (ipc : Ipc),
      vm.ipcs[ipcId.toNat]? = some ipc → ipc.shmemId.toNat < table.length →
        let targets :=
          (ipcHypercall ⟨n, t.shmemTable, handlerId⟩ vm pad ipcId ipcEvent).2.map Prod.fst
        targets.Nodup ∧ ∀ p, p ∈ targets ↔
          (∃ c : Fin n, c.val = p ∧ cfg.Shares ipc.shmemId.toNat c) ∧
            vm.cpus.getLsbD p = false := by
  have hinv : t.Inv cfg r := run_invariant (fun s c t hs ht => hs.step hwrap ht)
    (.initial hb hcalls) h
  have hlen : t.shmemTable.length = table.length := run_invariant
    (I := fun u : IpcSetup n => u.shmemTable.length = table.length)
    (fun s c u hs hu => (IpcSetup.step_length hu).trans hs) rfl h
  have hmasters : ∀ k shmem, t.shmemTable[k]? = some shmem → ∀ p,
      shmem.cpuMasters.getLsbD p = true ↔ ∃ c : Fin n, c.val = p ∧ cfg.Shares k c := by
    intro k shmem hk p
    have hzeroed : (t.pc 0).Zeroed k := by rw [hdone]; trivial
    rw [hinv.masters k shmem hk ⟨0, hzeroed⟩ p]
    refine exists_congr fun c => ?_
    rw [Nat.mod_eq_of_lt (c.isLt.trans_le hn), IpcSetup.added_iff_of_done (hdone c)]
  refine ⟨⟨hlen, hmasters⟩, fun vm pad ipcId ipcEvent ipc hipc hlt => ?_⟩
  obtain ⟨shmem, hshmem⟩ : ∃ shmem, t.shmemTable[ipc.shmemId.toNat]? = some shmem :=
    ⟨_, List.getElem?_eq_getElem (hlen ▸ hlt)⟩
  have hsent := ipcHypercall_valid ⟨n, t.shmemTable, handlerId⟩ pad ipcEvent hipc hshmem
  simp only [hsent, List.map_map, Function.comp_def, List.map_id']
  refine ⟨List.nodup_range.filter _, fun p => ?_⟩
  rw [List.mem_filter, List.mem_range]
  constructor
  · rintro ⟨hp, hbit⟩
    rw [Nat.mod_eq_of_lt (hp.trans_le hn), BitVec.getLsbD_and, BitVec.getLsbD_not,
      Bool.and_eq_true, hmasters _ _ hshmem] at hbit
    exact ⟨hbit.1, by simpa [hp.trans_le hn] using hbit.2⟩
  · rintro ⟨hc, hp⟩
    have hbit := (hmasters _ _ hshmem p).mpr hc
    obtain ⟨c, rfl, -⟩ := hc
    have hlt := c.isLt.trans_le hn
    rw [Nat.mod_eq_of_lt hlt, BitVec.getLsbD_and, BitVec.getLsbD_not, hbit, hp]
    exact ⟨c.isLt, by simp [hlt]⟩

/-- Two cpus, each the only one of its VM, which share the memory 0. -/
def pairConfig : IpcConfig 2 where
  vm c := some c
  master v := if v = 0 then ⟨0, Nat.two_pos⟩ else ⟨1, Nat.one_lt_two⟩
  ipcs v := if v = 0 then [{ shmemId := 0, interrupts := [52] }]
    else [{ shmemId := 0, interrupts := [53] }]

/-- Both cpus finish, and the first then notifies the second. -/
theorem ipcSetupMasters_exact_pair :
    ∃ t, run pairConfig.step (.initial (.initial 2) [{ size := 0x1000, cpuMasters := 7 }])
        [0, 0, 1, 1, 0, 0, 1, 0, 1, 1, 0, 1] = some t ∧
      (ipcHypercall ⟨2, t.shmemTable, 1⟩ pairSender 0 0 0).2.map Prod.fst = [1] ∧
      ∀ p, p ∈ (ipcHypercall ⟨2, t.shmemTable, 1⟩ pairSender 0 0 0).2.map Prod.fst ↔
        (∃ c : Fin 2, c.val = p ∧ pairConfig.Shares 0 c) ∧ pairSender.cpus.getLsbD p = false := by
  refine exists_some_of (P := fun t => (∀ c, t.pc c = .done) ∧
    t.shmemTable = [{ size := 0x1000, cpuMasters := 3 }]) (by decide +kernel) fun t ht h =>
    ⟨by rw [h.2]; decide +kernel, ?_⟩
  exact ((ipcSetupMasters_exact (by decide) (r := 0) BarrierState.Inv.initial (fun _ => rfl)
    (by decide) ht h.1 1).2 pairSender 0 0 0 { shmemId := 0, interrupts := [52] } rfl
    (by decide)).2

/-- 65 cpus, of which the last is the master of the only VM. -/
def lastConfig : IpcConfig 65 where
  vm c := if c = Fin.last 64 then some 0 else none
  master _ := Fin.last 64
  ipcs _ := [{ shmemId := 0, interrupts := [52] }]

/-- The cpus pass the barrier one after the other, and the last one then adds itself. -/
def lastRun : List (Fin 65) :=
  (List.finRange 65).flatMap (fun c => [c, c]) ++ List.finRange 65 ++ List.finRange 65 ++
    [Fin.last 64, Fin.last 64]

/-- The bit of the last cpu is shifted out of the mask, and what gets set is the bit of cpu 0, which
is in no VM. -/
theorem ipcSetupMasters_wraps :
    lastConfig.Shares 0 (Fin.last 64) ∧ ¬ lastConfig.Shares 0 0 ∧
      (run lastConfig.step (.initial (.initial 65) [{ size := 0x1000 }]) lastRun).map (fun t =>
        (decide (∀ c, t.pc c = .done), t.shmemTable.map (·.cpuMasters))) = some (true, [1]) := by
  refine ⟨⟨0, rfl, rfl, _, List.mem_singleton_self _, rfl⟩, ?_, by decide +kernel⟩
  rintro ⟨v, hv, -⟩
  rw [show lastConfig.vm 0 = none from rfl] at hv
  cases hv

end Bao
