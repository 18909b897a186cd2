import Bao.Foundation.Run
import Bao.Armv8.Vm
import Bao.Core.Vm

/-!
# Powering vcpus on and off through PSCI

`psci_cpu_on_handler` tests that its target is `OFF` and then leaves an entry point and a context id
in the target's context, marks it `ON_PENDING` and sends it a message. The lock it holds meanwhile
is the one of the calling vcpu (`cpu.vcpu`), while the target takes its own lock to wake up or to
turn itself off. So the test and the update are two steps of a call, and only calls of one and the
same vcpu exclude each other.

The message is sent after the lock is released; it is part of the second step here, since sending
it later only delays its delivery, which is a step of its own.
-/

namespace Bao.Armv8

open Foundation

def psciESuccess : Int := 0
def psciEInvalidParams : Int := -2
def psciEAlreadyOn : Int := -4

/-- The only event of `psci_cpumsg_handler`. -/
def psciMsgOn : Nat := 0

def psciWakeFromOff (vcpu : Vcpu) (sysregs : SysRegs) : Vcpu × SysRegs :=
  if vcpu.psciCtx.state = .onPending then
    let (fresh, sysregs) := vcpuArchReset vcpu vcpu.psciCtx.entrypoint
    ({ fresh with
      psciCtx := { fresh.psciCtx with state := .on }
      regs := { fresh.regs with x := Function.update fresh.regs.x 0 vcpu.psciCtx.contextId } },
    sysregs)
  else (vcpu, sysregs)

def psciCpumsgHandler (vcpu : Vcpu) (sysregs : SysRegs) (event : Nat) : Vcpu × SysRegs :=
  if event = psciMsgOn then psciWakeFromOff vcpu sysregs else (vcpu, sysregs)

/-- `psci_cpu_off_handler` up to `cpu_idle`, which does not return: the cpu wakes up in
`cpu_idle_wakeup` with a new stack. -/
def psciCpuOffHandler (vcpu : Vcpu) : Vcpu :=
  { vcpu with psciCtx := { vcpu.psciCtx with state := .off } }

/-! ## The vcpus of a VM -/

/-- A call that found its target `OFF` and has not written to it yet. -/
structure CpuOnCall (n : Nat) where
  target : Fin n
  entrypoint : BitVec 64
  contextId : BitVec 64
  deriving DecidableEq

/-- The arguments of a call and what it returned. -/
structure CpuOnAnswer where
  entrypoint : BitVec 64
  contextId : BitVec 64
  ret : Int
  deriving DecidableEq

/-- A vcpu with its physical cpu: whether it runs guest code, and the call it is in. The last two
fields are a history since the vcpu was last turned off: the calls for this vcpu that were answered,
and the program counter and `x0` at each point where the guest went on from a wake up. -/
structure PsciCpu (n : Nat) where
  vcpu : Vcpu
  sysregs : SysRegs := {}
  running : Bool
  call : Option (CpuOnCall n) := none
  answered : List CpuOnAnswer := []
  resumed : List (BitVec 64 × BitVec 64) := []

namespace PsciCpu

variable {n : Nat}

def state (p : PsciCpu n) : PsciState := p.vcpu.psciCtx.state

def lock (p : PsciCpu n) : Bool := p.vcpu.psciCtx.lock

def setLock (p : PsciCpu n) (lock : Bool) : PsciCpu n :=
  { p with vcpu := { p.vcpu with psciCtx := { p.vcpu.psciCtx with lock } } }

/-- Where the guest goes on, and with which argument. -/
def start (p : PsciCpu n) : BitVec 64 × BitVec 64 := (p.vcpu.regs.elrEl2, p.vcpu.regs.x 0)

def answer (p : PsciCpu n) (a : CpuOnAnswer) : PsciCpu n :=
  { p with answered := p.answered ++ [a] }

/-- What a successful call writes to its target. -/
def turnOn (p : PsciCpu n) (entrypoint contextId : BitVec 64) : PsciCpu n :=
  { p with vcpu := { p.vcpu with psciCtx := { p.vcpu.psciCtx with
    state := .onPending, entrypoint, contextId } } }

/-- The cpu takes a message. One that wakes up a running guest sends it to its entry point at
once; otherwise the guest goes on when the vcpu is entered. -/
def take (p : PsciCpu n) (event : Nat) : PsciCpu n :=
  let r := psciCpumsgHandler p.vcpu p.sysregs event
  let q := { p with vcpu := r.1, sysregs := r.2 }
  if event = psciMsgOn ∧ p.state = .onPending ∧ p.running then
    { q with resumed := q.resumed ++ [q.start] }
  else q

def turnOff (p : PsciCpu n) : PsciCpu n :=
  { p with vcpu := psciCpuOffHandler p.vcpu, running := false, answered := [], resumed := [] }

def enter (p : PsciCpu n) : PsciCpu n :=
  { p with running := true, resumed := p.resumed ++ [p.start] }

/-- The guest runs and is not in a call. -/
def free (p : PsciCpu n) : Bool := p.running && p.call.isNone && !p.lock

/-- The calls for this vcpu that returned `PSCI_E_SUCCESS`. -/
def successes (p : PsciCpu n) : List CpuOnAnswer :=
  p.answered.filter fun a => a.ret = psciESuccess

end PsciCpu

structure PsciVm (n : Nat) where
  cpus : Nat
  cpu : Fin n → PsciCpu n
  queue : Nat → List Nat

namespace PsciVm

variable {n : Nat}

/-- A VM after `vcpu_arch_init` on each of its cpus; `vcpu_arch_run` enters those that are `ON`. -/
def initial (cpus : Nat) (vmCpuidToMpidr : Nat → BitVec 64) (id physId : Fin n → Nat) :
    PsciVm n where
  cpus
  cpu i :=
    { vcpu := vcpuArchInit vmCpuidToMpidr { id := id i, physId := physId i }
      running := id i = 0 }
  queue _ := []

def modify (s : PsciVm n) (i : Fin n) (f : PsciCpu n → PsciCpu n) : PsciVm n :=
  { s with cpu := Function.update s.cpu i (f (s.cpu i)) }

def cpuSendMsg (s : PsciVm n) (pcpuid event : Nat) : PsciVm n :=
  { s with queue := Function.update s.queue pcpuid (s.queue pcpuid ++ [event]) }

def vmpidr (s : PsciVm n) (i : Fin n) : BitVec 64 := (s.cpu i).vcpu.vmpidr

/-- `psci_cpu_on_handler` called by `self`, up to the test of the target's state. It returns, or
goes on with the lock of `self`. -/
def psciCpuOnTest (s : PsciVm n) (self : Fin n) (targetCpu entrypoint contextId : BitVec 64) :
    Option Int × PsciVm n :=
  match vmGetVcpuByMpidr s.vmpidr targetCpu with
  | none => (some psciEInvalidParams, s)
  | some target =>
    if (s.cpu target).state = .off then
      (none, s.modify self fun p =>
        { p.setLock true with call := some ⟨target, entrypoint, contextId⟩ })
    else (some psciEAlreadyOn, s)

/-- `psci_cpu_on_handler` from the test on. -/
def psciCpuOnUpdate (s : PsciVm n) (self : Fin n) (call : CpuOnCall n) : Int × PsciVm n :=
  let s := s.modify call.target (·.turnOn call.entrypoint call.contextId)
  let s := s.modify self fun p => { p.setLock false with call := none }
  -- no such vcpu is the result -1
  let pcpuid := (vmTranslateToPcpuid s.cpus (s.cpu call.target).vcpu.id).getD (2 ^ 64 - 1)
  (psciESuccess, s.cpuSendMsg pcpuid psciMsgOn)

end PsciVm

/-- `cpuOn` and `update` are the two steps of a call, `deliver` takes the next message of a vcpu's
cpu, `off` is `psci_cpu_off_handler`, `enter` is `vcpu_arch_run` out of idle, and `guest` is any
change a guest makes to its own registers. -/
inductive PsciAction (n : Nat) where
  | cpuOn (self : Fin n) (targetCpu entrypoint contextId : BitVec 64)
  | update (self : Fin n)
  | deliver (i : Fin n)
  | off (i : Fin n)
  | enter (i : Fin n)
  | guest (i : Fin n) (regs : ArchRegs)

namespace PsciVm

variable {n : Nat}

def step (s : PsciVm n) : PsciAction n → Option (PsciVm n)
  | .cpuOn self targetCpu entrypoint contextId =>
    if (s.cpu self).free then
      let r := s.psciCpuOnTest self targetCpu entrypoint contextId
      match r.1, vmGetVcpuByMpidr s.vmpidr targetCpu with
      | some ret, some target => some (r.2.modify target (·.answer ⟨entrypoint, contextId, ret⟩))
      | _, _ => some r.2
    else none
  | .update self =>
    (s.cpu self).call.map fun call =>
      let r := s.psciCpuOnUpdate self call
      r.2.modify call.target (·.answer ⟨call.entrypoint, call.contextId, r.1⟩)
  | .deliver i =>
    match s.queue (s.cpu i).vcpu.physId with
    | [] => none
    | event :: rest =>
      -- psci_wake_from_off waits for the lock of its own vcpu
      if (s.cpu i).lock then none
      else
        let s := { s with queue := Function.update s.queue (s.cpu i).vcpu.physId rest }
        some (s.modify i (·.take event))
  | .off i =>
    if (s.cpu i).free then some (s.modify i PsciCpu.turnOff) else none
  | .enter i =>
    if (s.cpu i).state = .on ∧ (s.cpu i).running = false then
      some (s.modify i PsciCpu.enter)
    else none
  | .guest i regs =>
    if (s.cpu i).free then some (s.modify i fun p => { p with vcpu := { p.vcpu with regs } })
    else none

end PsciVm

/-! ## One vcpu -/

namespace PsciCpu

variable {n : Nat} {p : PsciCpu n}

/-- The calls for a vcpu since it was last `OFF`: at most one succeeded, all others were answered
with `PSCI_E_ALREADY_ON`, and the guest went on with the arguments of the successful one only. -/
structure Answered (p : PsciCpu n) : Prop where
  once : p.successes.length ≤ 1
  others : ∀ a ∈ p.answered, a.ret = psciESuccess ∨ a.ret = psciEAlreadyOn
  resumes : ∀ r ∈ p.resumed, ∃ a ∈ p.successes, r = (a.entrypoint, a.contextId)

/-- What powering on should mean for a vcpu since it was last `OFF`. A vcpu that was turned on is
`ON` after the next `PSCI_MSG_ON` and has the arguments of the successful call in its registers, and
it has them still when it is entered. -/
structure OnceOn (p : PsciCpu n) : Prop extends Answered p where
  wakes : p.state = .onPending → (p.take psciMsgOn).state = .on ∧
    ∃ a ∈ p.successes, (p.take psciMsgOn).start = (a.entrypoint, a.contextId)
  enters : p.state = .on → p.running = false →
    ∃ a ∈ p.successes, p.start = (a.entrypoint, a.contextId)

/-- Only a vcpu that is `ON` runs. A pending one has the arguments of the one successful call in its
context, and one that was woken up but not entered has them in its registers. -/
structure Phase (p : PsciCpu n) : Prop extends Answered p where
  running : p.running = true → p.state = .on
  idle : p.running = false → p.resumed = []
  off : p.state = .off → p.answered = []
  pending : p.state = .onPending → ∃ a, p.successes = [a] ∧
    a.entrypoint = p.vcpu.psciCtx.entrypoint ∧ a.contextId = p.vcpu.psciCtx.contextId
  woken : p.state = .on → p.running = false → ∃ a, p.successes = [a] ∧
    p.start = (a.entrypoint, a.contextId)

/-- A call that tested `p` can still be under way. -/
def Tested (p : PsciCpu n) : Prop := p.state = .off ∨ p.successes ≠ []

theorem successes_answer (p : PsciCpu n) (a : CpuOnAnswer) :
    (p.answer a).successes = p.successes ++ if a.ret = psciESuccess then [a] else [] := by
  by_cases h : a.ret = psciESuccess <;> simp [successes, answer, h]

theorem phase_call (lock : Bool) (call : Option (CpuOnCall n)) :
    Phase { p.setLock lock with call } ↔ Phase p :=
  ⟨fun ⟨h, h1, h2, h3, h4, h5⟩ => ⟨⟨h.1, h.2, h.3⟩, h1, h2, h3, h4, h5⟩,
    fun ⟨h, h1, h2, h3, h4, h5⟩ => ⟨⟨h.1, h.2, h.3⟩, h1, h2, h3, h4, h5⟩⟩

theorem Phase.refuse (h : Phase p) (hoff : p.state ≠ .off) (entrypoint contextId : BitVec 64) :
    Phase (p.answer ⟨entrypoint, contextId, psciEAlreadyOn⟩) := by
  have hsucc : (p.answer ⟨entrypoint, contextId, psciEAlreadyOn⟩).successes = p.successes := by
    simp [successes_answer, psciEAlreadyOn, psciESuccess]
  refine ⟨⟨?_, ?_, ?_⟩, h.running, h.idle, fun hstate => absurd hstate hoff, ?_, ?_⟩
  · rw [hsucc]; exact h.once
  · intro a ha
    rcases List.mem_append.mp ha with ha | ha
    · exact h.others a ha
    · rw [List.mem_singleton.mp ha]; exact .inr rfl
  · rw [hsucc]; exact h.resumes
  · rw [hsucc]; exact h.pending
  · rw [hsucc]; exact h.woken

theorem Phase.turnOn (h : Phase p) (hoff : p.state = .off) (entrypoint contextId : BitVec 64) :
    Phase ((p.turnOn entrypoint contextId).answer ⟨entrypoint, contextId, psciESuccess⟩) := by
  have hsucc : ((p.turnOn entrypoint contextId).answer
      ⟨entrypoint, contextId, psciESuccess⟩).successes =
        [⟨entrypoint, contextId, psciESuccess⟩] := by
    simp [successes, answer, PsciCpu.turnOn, h.off hoff]
  have hidle : p.running = false := by
    by_contra hrun
    exact absurd ((h.running (by simpa using hrun)).symm.trans hoff) (by decide)
  refine ⟨⟨?_, ?_, ?_⟩, fun hrun => absurd (hrun.symm.trans hidle) (by decide), h.idle,
    fun hstate => (by cases hstate), ?_, fun hstate => (by cases hstate)⟩
  · rw [hsucc]; exact Nat.le_refl 1
  · intro a ha
    have : a = ⟨entrypoint, contextId, psciESuccess⟩ := by
      simpa [answer, PsciCpu.turnOn, h.off hoff] using ha
    rw [this]; exact .inl rfl
  · intro r hr
    have : r ∈ p.resumed := hr
    rw [h.idle hidle] at this
    cases this
  · exact fun _ => ⟨_, hsucc, rfl, rfl⟩

theorem take_pending (hstate : p.state = .onPending) : (p.take psciMsgOn).state = .on ∧
    (p.take psciMsgOn).running = p.running ∧ (p.take psciMsgOn).answered = p.answered ∧
    (p.take psciMsgOn).start = (p.vcpu.psciCtx.entrypoint, p.vcpu.psciCtx.contextId) ∧
    (p.running = false → (p.take psciMsgOn).resumed = p.resumed) := by
  have hstate' : p.vcpu.psciCtx.state = .onPending := hstate
  cases hrun : p.running <;>
    simp [take, psciCpumsgHandler, psciWakeFromOff, vcpuArchReset, hstate', hrun, state, start]

theorem take_eq_self {event : Nat} (h : event = psciMsgOn → p.state ≠ .onPending) :
    p.take event = p := by
  by_cases hevent : event = psciMsgOn
  · have hstate : p.vcpu.psciCtx.state ≠ .onPending := h hevent
    simp [take, psciCpumsgHandler, psciWakeFromOff, hevent, h hevent, hstate]
  · simp [take, psciCpumsgHandler, hevent]

theorem Phase.onceOn (h : Phase p) : OnceOn p where
  toAnswered := h.toAnswered
  wakes hpend := by
    obtain ⟨hstate, -, -, hstart, -⟩ := take_pending hpend
    obtain ⟨a, ha, he, hc⟩ := h.pending hpend
    exact ⟨hstate, a, by rw [ha]; exact .head _, by rw [hstart, he, hc]⟩
  enters hon hidle := by
    obtain ⟨a, ha, hstart⟩ := h.woken hon hidle
    exact ⟨a, by rw [ha]; exact .head _, hstart⟩

theorem Phase.take (h : Phase p) (event : Nat) : Phase (p.take event) := by
  by_cases hwakes : event = psciMsgOn ∧ p.state = .onPending
  · obtain ⟨rfl, hpend⟩ := hwakes
    obtain ⟨hstate, hrunning, hanswered, hstart, hresumed⟩ := take_pending hpend
    have hidle : p.running = false := by
      by_contra hrun
      exact absurd ((h.running (by simpa using hrun)).symm.trans hpend) (by decide)
    have hsucc : (p.take psciMsgOn).successes = p.successes := by simp [successes, hanswered]
    have hempty : (p.take psciMsgOn).resumed = [] := by rw [hresumed hidle, h.idle hidle]
    refine ⟨⟨?_, ?_, ?_⟩, fun _ => hstate, fun _ => hempty, ?_, ?_, ?_⟩
    · rw [hsucc]; exact h.once
    · rw [hanswered]; exact h.others
    · rw [hempty]; intro r hr; cases hr
    · intro hoff; rw [hstate] at hoff; cases hoff
    · intro hoff; rw [hstate] at hoff; cases hoff
    · intro _ _
      obtain ⟨a, ha, he, hc⟩ := h.pending hpend
      exact ⟨a, hsucc.trans ha, by rw [hstart, he, hc]⟩
  · rw [take_eq_self fun hevent hpend => hwakes ⟨hevent, hpend⟩]
    exact h

theorem phase_turnOff (p : PsciCpu n) : Phase p.turnOff where
  once := Nat.zero_le 1
  others a ha := by cases ha
  resumes r hr := by cases hr
  running h := by cases h
  idle _ := rfl
  off _ := rfl
  pending h := by cases h
  woken h := by cases h

theorem Phase.enter (h : Phase p) (hon : p.state = .on) (hidle : p.running = false) :
    Phase p.enter := by
  obtain ⟨a, ha, hstart⟩ := h.woken hon hidle
  refine ⟨⟨h.once, h.others, ?_⟩, fun _ => hon, fun hrun => (by cases hrun), h.off, h.pending,
    fun _ hrun => (by cases hrun)⟩
  intro r hr
  have : r = p.start := by simpa [PsciCpu.enter, h.idle hidle] using hr
  exact ⟨a, by rw [show p.enter.successes = p.successes from rfl, ha]; exact .head _,
    this.trans hstart⟩

theorem Phase.guest (h : Phase p) (hrun : p.running = true) (regs : ArchRegs) :
    Phase { p with vcpu := { p.vcpu with regs } } :=
  ⟨⟨h.once, h.others, h.resumes⟩, h.running, h.idle, h.off, h.pending,
    fun _ hidle => absurd (hrun.symm.trans hidle) (by decide)⟩

theorem Tested.answer (h : Tested p) (a : CpuOnAnswer) : Tested (p.answer a) := by
  refine h.imp id fun hne => ?_
  rw [successes_answer]
  exact List.append_ne_nil_of_left_ne_nil hne _

theorem Tested.take (h : Tested p) (event : Nat) : Tested (p.take event) := by
  by_cases hwakes : event = psciMsgOn ∧ p.state = .onPending
  · obtain ⟨rfl, hpend⟩ := hwakes
    obtain ⟨-, -, hanswered, -⟩ := take_pending hpend
    refine .inr ?_
    rw [show (p.take psciMsgOn).successes = p.successes by simp [successes, hanswered]]
    exact h.resolve_left (by rw [hpend]; decide)
  · rw [take_eq_self fun hevent hpend => hwakes ⟨hevent, hpend⟩]
    exact h

theorem take_place (p : PsciCpu n) (event : Nat) :
    (p.take event).vcpu.id = p.vcpu.id ∧ (p.take event).vcpu.physId = p.vcpu.physId := by
  simp only [take, psciCpumsgHandler, psciWakeFromOff, vcpuArchReset]
  split <;> split <;> first | exact ⟨rfl, rfl⟩ | (split <;> exact ⟨rfl, rfl⟩)

end PsciCpu

namespace PsciVm

open PsciCpu

variable {n : Nat}

/-- The call that writes to its target finds it as it tested it. -/
def StillOff (s : PsciVm n) : PsciAction n → Prop
  | .update self => ∀ call, (s.cpu self).call = some call → (s.cpu call.target).state = .off
  | _ => True

instance (s : PsciVm n) (a : PsciAction n) : Decidable (s.StillOff a) :=
  match a with
  | .update self =>
    match hcall : (s.cpu self).call with
    | none => .isTrue (by simp [StillOff, hcall])
    | some call =>
      decidable_of_iff ((s.cpu call.target).state = .off) (by simp [StillOff, hcall])
  | .cpuOn .. | .deliver _ | .off _ | .enter _ | .guest .. => .isTrue trivial

/-- Every vcpu is in one of its phases, and a call has only got past the test of a vcpu that was
`OFF` then. -/
structure Inv (s : PsciVm n) : Prop where
  phase : ∀ i, Phase (s.cpu i)
  tested : ∀ j call, (s.cpu j).call = some call → Tested (s.cpu call.target)

variable {s t : PsciVm n}

theorem modify_self (i : Fin n) (f : PsciCpu n → PsciCpu n) :
    (s.modify i f).cpu i = f (s.cpu i) := by simp [modify]

variable {i self : Fin n} {a : PsciAction n}

theorem modify_of_ne {j : Fin n} (f : PsciCpu n → PsciCpu n) (h : j ≠ i) :
    (s.modify i f).cpu j = s.cpu j := by simp [modify, h]

/-- A change to one vcpu that keeps it in its phases, and after which every call under way has
tested its target. -/
theorem Inv.modify (h : s.Inv) (i : Fin n) (f : PsciCpu n → PsciCpu n)
    (hphase : Phase (f (s.cpu i))) (htested : Tested (s.cpu i) → Tested (f (s.cpu i)))
    (hcall : ∀ call, (f (s.cpu i)).call = some call →
      (s.cpu i).call = some call ∨ Tested (s.cpu call.target)) : (s.modify i f).Inv := by
  have keep : ∀ j, Tested (s.cpu j) → Tested ((s.modify i f).cpu j) := by
    intro j hj
    by_cases hji : j = i
    · subst hji; rw [modify_self]; exact htested hj
    · rw [modify_of_ne f hji]; exact hj
  constructor
  · intro j
    by_cases hji : j = i
    · subst hji; rw [modify_self]; exact hphase
    · rw [modify_of_ne f hji]; exact h.phase j
  · intro j call hj
    apply keep
    by_cases hji : j = i
    · subst hji
      rw [modify_self] at hj
      rcases hcall call hj with hold | hnew
      · exact h.tested j call hold
      · exact hnew
    · rw [modify_of_ne f hji] at hj
      exact h.tested j call hj

theorem Inv.initial (cpus : Nat) (vmCpuidToMpidr : Nat → BitVec 64) (id physId : Fin n → Nat) :
    (initial cpus vmCpuidToMpidr id physId).Inv where
  phase i := by
    refine ⟨⟨Nat.zero_le 1, fun a ha => (by cases ha), fun r hr => (by cases hr)⟩, ?_,
      fun _ => rfl, fun _ => rfl, ?_, ?_⟩
    · intro hrun
      have : id i = 0 := by simpa [PsciVm.initial] using hrun
      simp [PsciVm.initial, PsciCpu.state, vcpuArchInit, this]
    · intro hstate
      simp only [PsciVm.initial, PsciCpu.state, vcpuArchInit] at hstate
      split at hstate <;> cases hstate
    · intro hstate hrun
      have : id i ≠ 0 := by simpa [PsciVm.initial] using hrun
      simp [PsciVm.initial, PsciCpu.state, vcpuArchInit, this] at hstate
  tested j call h := by cases h

theorem update_eq (self : Fin n) (call : CpuOnCall n) :
    ((s.psciCpuOnUpdate self call).2.modify call.target
      (·.answer ⟨call.entrypoint, call.contextId, (s.psciCpuOnUpdate self call).1⟩)).cpu =
    ((s.modify call.target fun p => (p.turnOn call.entrypoint call.contextId).answer
      ⟨call.entrypoint, call.contextId, psciESuccess⟩).modify self fun p =>
        { p.setLock false with call := none }).cpu := by
  funext j
  by_cases hself : call.target = self
  · by_cases hj : j = self
    · simp [psciCpuOnUpdate, PsciVm.modify, cpuSendMsg, hself, hj, answer, setLock]
    · simp [psciCpuOnUpdate, PsciVm.modify, cpuSendMsg, hself, hj]
  · by_cases hj : j = call.target
    · simp [psciCpuOnUpdate, PsciVm.modify, cpuSendMsg, hself, hj]
    · by_cases hjs : j = self
      · subst hjs
        simp [psciCpuOnUpdate, PsciVm.modify, cpuSendMsg, hj]
      · simp [psciCpuOnUpdate, PsciVm.modify, cpuSendMsg, hj, hjs]

theorem Inv.congr (h : s.Inv) (hcpu : t.cpu = s.cpu) : t.Inv :=
  ⟨hcpu ▸ h.phase, hcpu ▸ h.tested⟩

theorem Inv.cpuOn {targetCpu entrypoint contextId : BitVec 64} (h : s.Inv)
    (ht : s.step (.cpuOn self targetCpu entrypoint contextId) = some t) : t.Inv := by
  simp only [PsciVm.step, psciCpuOnTest] at ht
  split at ht
  · cases htarget : vmGetVcpuByMpidr s.vmpidr targetCpu with
    | none =>
      rw [htarget] at ht
      cases ht
      exact h
    | some target =>
      rw [htarget] at ht
      by_cases hstate : (s.cpu target).state = .off
      · simp only [if_pos hstate] at ht
        cases ht
        refine h.modify self (fun p => { p.setLock true with call := _ })
          ((phase_call _ _).mpr (h.phase self)) id fun call hcall => ?_
        cases hcall
        exact .inr (.inl hstate)
      · simp only [if_neg hstate] at ht
        cases ht
        exact h.modify target (·.answer _)
          ((h.phase target).refuse hstate entrypoint contextId)
          (fun htested => htested.answer _) fun call hcall => .inl hcall
  · cases ht

theorem Inv.update (h : s.Inv) (hoff : s.StillOff (.update self))
    (ht : s.step (.update self) = some t) : t.Inv := by
  obtain ⟨call, hcall, rfl⟩ := Option.map_eq_some_iff.mp ht
  have hon := h.modify call.target (fun p => (p.turnOn _ _).answer _)
    ((h.phase call.target).turnOn (hoff call hcall) call.entrypoint call.contextId)
    (fun _ => .inr (by simp [successes_answer])) fun call hcall => .inl hcall
  refine (hon.modify self (fun p => { p.setLock false with call := none })
    ((phase_call _ _).mpr (hon.phase self)) id ?_).congr (update_eq self call)
  intro call hcall
  cases hcall

theorem Inv.deliver (h : s.Inv) (ht : s.step (.deliver i) = some t) : t.Inv := by
  simp only [PsciVm.step] at ht
  split at ht
  · cases ht
  · rename_i event rest hqueue
    split at ht
    · cases ht
    · cases ht
      refine (h.modify i (·.take event) ((h.phase i).take event)
        (fun htested => htested.take event) ?_).congr rfl
      intro call hcall
      refine .inl (Eq.trans ?_ hcall)
      simp only [PsciCpu.take]
      split <;> rfl

theorem Inv.step (h : s.Inv) (hoff : s.StillOff a) (ht : s.step a = some t) : t.Inv := by
  cases a with
  | cpuOn self targetCpu entrypoint contextId => exact h.cpuOn ht
  | update self => exact h.update hoff ht
  | deliver i => exact h.deliver ht
  | off i =>
    simp only [PsciVm.step] at ht
    split at ht
    · cases ht
      exact h.modify i PsciCpu.turnOff (phase_turnOff _) (fun _ => .inl rfl)
        fun call hcall => .inl hcall
    · cases ht
  | enter i =>
    simp only [PsciVm.step] at ht
    split at ht
    · rename_i hidle
      cases ht
      exact h.modify i PsciCpu.enter ((h.phase i).enter hidle.1 hidle.2) id
        fun call hcall => .inl hcall
    · cases ht
  | guest i regs =>
    simp only [PsciVm.step] at ht
    split at ht
    · rename_i hfree
      cases ht
      have hrun : (s.cpu i).running = true := by
        simp only [PsciCpu.free, Bool.and_eq_true] at hfree
        exact hfree.1.1
      exact h.modify i (fun p => { p with vcpu := { p.vcpu with regs } })
        ((h.phase i).guest hrun regs) id fun call hcall => .inl hcall
    · cases ht

theorem successes_update (self : Fin n) (call : CpuOnCall n) :
    (((s.modify call.target fun p => (p.turnOn call.entrypoint call.contextId).answer
      ⟨call.entrypoint, call.contextId, psciESuccess⟩).modify self fun p =>
        { p.setLock false with call := none }).cpu call.target).successes =
      (s.cpu call.target).successes ++ [⟨call.entrypoint, call.contextId, psciESuccess⟩] := by
  by_cases hself : call.target = self
  · simp [PsciVm.modify, hself, successes, answer, setLock, PsciCpu.turnOn]
  · simp [PsciVm.modify, hself, successes, answer, PsciCpu.turnOn]

/-- A call that writes to a vcpu which was turned on after the test is a second success. -/
theorem Inv.step_twice (h : s.Inv) (hoff : ¬ s.StillOff a) (ht : s.step a = some t) :
    ¬ ∀ i, OnceOn (t.cpu i) := by
  cases a with
  | update self =>
    obtain ⟨call, hcall, rfl⟩ := Option.map_eq_some_iff.mp ht
    have hstate : (s.cpu call.target).state ≠ .off := by
      intro hstate
      refine hoff fun call' hcall' => ?_
      rw [hcall] at hcall'
      cases hcall'
      exact hstate
    have hone := List.length_pos_iff.mpr ((h.tested self call hcall).resolve_left hstate)
    intro honce
    have htwo := (honce call.target).once
    rw [update_eq, successes_update, List.length_append, List.length_singleton] at htwo
    omega
  | cpuOn | deliver | off | enter | guest => exact absurd trivial hoff

/-! ## Messages -/

/-- Each vcpu has a cpu of its own, which is the one that the VM finds for it, and `PSCI_MSG_ON` is
the only message. It waits at the cpu of every vcpu that was turned on. -/
structure Mail (s : PsciVm n) : Prop where
  placed : ∀ i, vmTranslateToPcpuid s.cpus (s.cpu i).vcpu.id = some (s.cpu i).vcpu.physId
  apart : ∀ i j, (s.cpu i).vcpu.physId = (s.cpu j).vcpu.physId → i = j
  msgs : ∀ pcpuid, ∀ event ∈ s.queue pcpuid, event = psciMsgOn
  sent : ∀ i, (s.cpu i).state = .onPending → psciMsgOn ∈ s.queue (s.cpu i).vcpu.physId

theorem Mail.initial {cpus : Nat} {vmCpuidToMpidr : Nat → BitVec 64} {id physId : Fin n → Nat}
    (hplaced : ∀ i, vmTranslateToPcpuid cpus (id i) = some (physId i))
    (hphys : Function.Injective physId) : (initial cpus vmCpuidToMpidr id physId).Mail where
  placed := hplaced
  apart _ _ h := hphys h
  msgs _ event h := by cases h
  sent i h := by
    simp only [PsciVm.initial, PsciCpu.state, vcpuArchInit] at h
    split at h <;> cases h

theorem Mail.modify (h : s.Mail) (i : Fin n) (f : PsciCpu n → PsciCpu n)
    (hplace : (f (s.cpu i)).vcpu.id = (s.cpu i).vcpu.id ∧
      (f (s.cpu i)).vcpu.physId = (s.cpu i).vcpu.physId)
    (hstate : (f (s.cpu i)).state = .onPending → psciMsgOn ∈ s.queue (s.cpu i).vcpu.physId) :
    (s.modify i f).Mail := by
  have hids : ∀ j, ((s.modify i f).cpu j).vcpu.id = (s.cpu j).vcpu.id ∧
      ((s.modify i f).cpu j).vcpu.physId = (s.cpu j).vcpu.physId := by
    intro j
    by_cases hj : j = i
    · subst hj; rw [modify_self]; exact hplace
    · rw [modify_of_ne f hj]; exact ⟨rfl, rfl⟩
  refine ⟨fun j => ?_, fun j k hjk => ?_, h.msgs, fun j hj => ?_⟩
  · rw [(hids j).1, (hids j).2]
    exact h.placed j
  · rw [(hids j).2, (hids k).2] at hjk
    exact h.apart j k hjk
  · rw [(hids j).2]
    by_cases hji : j = i
    · subst hji
      rw [modify_self] at hj
      exact hstate hj
    · rw [modify_of_ne f hji] at hj
      exact h.sent j hj

theorem Mail.cpuSendMsg (h : s.Mail) (pcpuid : Nat) : (s.cpuSendMsg pcpuid psciMsgOn).Mail where
  placed := h.placed
  apart := h.apart
  msgs p event hevent := by
    simp only [PsciVm.cpuSendMsg, Function.update_apply] at hevent
    split at hevent
    · rcases List.mem_append.mp hevent with hold | hnew
      · exact h.msgs _ event hold
      · exact List.mem_singleton.mp hnew
    · exact h.msgs p event hevent
  sent i hi := by
    have hold := h.sent i hi
    simp only [PsciVm.cpuSendMsg, Function.update_apply]
    split
    · rename_i heq
      exact List.mem_append_left _ (heq ▸ hold)
    · exact hold

theorem Mail.congr (h : s.Mail) (hcpus : t.cpus = s.cpus) (hcpu : t.cpu = s.cpu)
    (hqueue : t.queue = s.queue) : t.Mail :=
  ⟨hcpus ▸ hcpu ▸ h.placed, hcpu ▸ h.apart, hqueue ▸ h.msgs, hqueue ▸ hcpu ▸ h.sent⟩

theorem update_queue (h : s.Mail) (self : Fin n) (call : CpuOnCall n) :
    (s.psciCpuOnUpdate self call).2.queue =
      (s.cpuSendMsg (s.cpu call.target).vcpu.physId psciMsgOn).queue := by
  have hid : (((s.modify call.target (·.turnOn call.entrypoint call.contextId)).modify self fun p =>
      { p.setLock false with call := none }).cpu call.target).vcpu.id =
        (s.cpu call.target).vcpu.id := by
    by_cases hself : call.target = self
    · rw [← hself, modify_self, modify_self]; rfl
    · rw [modify_of_ne _ hself, modify_self]; rfl
  simp only [psciCpuOnUpdate]
  rw [hid]
  simp only [PsciVm.modify, PsciVm.cpuSendMsg, h.placed call.target, Option.getD_some]

theorem Mail.update (h : s.Mail) (ht : s.step (.update self) = some t) : t.Mail := by
  obtain ⟨call, -, rfl⟩ := Option.map_eq_some_iff.mp ht
  have hsent := h.cpuSendMsg (s.cpu call.target).vcpu.physId
  have hon := hsent.modify call.target (fun p => (p.turnOn call.entrypoint call.contextId).answer
    ⟨call.entrypoint, call.contextId, psciESuccess⟩) ⟨rfl, rfl⟩
    fun _ => by simp [PsciVm.cpuSendMsg]
  refine (hon.modify self (fun p => { p.setLock false with call := none }) ⟨rfl, rfl⟩
    fun hstate => hon.sent self hstate).congr rfl (update_eq self call) ?_
  exact update_queue h self call

theorem Mail.pop {event : Nat} {rest : List Nat} (h : s.Mail) (hi : (s.cpu i).state ≠ .onPending)
    (hqueue : s.queue (s.cpu i).vcpu.physId = event :: rest) :
    { s with queue := Function.update s.queue (s.cpu i).vcpu.physId rest }.Mail where
  placed := h.placed
  apart := h.apart
  msgs p e he := by
    simp only [Function.update_apply] at he
    split at he
    · exact h.msgs (s.cpu i).vcpu.physId e (by rw [hqueue]; exact .tail _ he)
    · exact h.msgs p e he
  sent j hj := by
    have hne : (s.cpu j).vcpu.physId ≠ (s.cpu i).vcpu.physId := by
      intro heq
      obtain rfl := h.apart j i heq
      exact hi hj
    simp only [Function.update_of_ne hne]
    exact h.sent j hj

theorem Mail.deliver (h : s.Mail) (ht : s.step (.deliver i) = some t) : t.Mail := by
  simp only [PsciVm.step] at ht
  split at ht
  · cases ht
  · rename_i event rest hqueue
    split at ht
    · cases ht
    · cases ht
      have hevent : event = psciMsgOn := h.msgs (s.cpu i).vcpu.physId event (by simp [hqueue])
      have hwoken : ((s.cpu i).take event).state ≠ .onPending := by
        intro hpend
        by_cases hstate : (s.cpu i).state = .onPending
        · rw [hevent, (take_pending hstate).1] at hpend
          cases hpend
        · rw [take_eq_self fun _ => hstate] at hpend
          exact hstate hpend
      have htaken := h.modify i (·.take event) (take_place _ _) fun hpend => absurd hpend hwoken
      have hplace := congrArg (fun p => p.vcpu.physId) (modify_self (s := s) i (·.take event))
      rw [(take_place _ _).2] at hplace
      rw [← hplace] at hqueue ⊢
      exact htaken.pop (by rw [modify_self]; exact hwoken) hqueue

theorem Mail.step (h : s.Mail) (ht : s.step a = some t) : t.Mail := by
  cases a with
  | cpuOn self targetCpu entrypoint contextId =>
    simp only [PsciVm.step, psciCpuOnTest] at ht
    split at ht
    · cases htarget : vmGetVcpuByMpidr s.vmpidr targetCpu with
      | none =>
        rw [htarget] at ht
        cases ht
        exact h
      | some target =>
        rw [htarget] at ht
        by_cases hstate : (s.cpu target).state = .off
        · simp only [if_pos hstate] at ht
          cases ht
          exact h.modify self (fun p => { p.setLock true with call := _ }) ⟨rfl, rfl⟩ (h.sent self)
        · simp only [if_neg hstate] at ht
          cases ht
          exact h.modify target (·.answer _) ⟨rfl, rfl⟩ (h.sent target)
    · cases ht
  | update self => exact h.update ht
  | deliver i => exact h.deliver ht
  | off i =>
    simp only [PsciVm.step] at ht
    split at ht
    · cases ht
      exact h.modify i PsciCpu.turnOff ⟨rfl, rfl⟩ fun hstate => by cases hstate
    · cases ht
  | enter i =>
    simp only [PsciVm.step] at ht
    split at ht
    · cases ht
      exact h.modify i PsciCpu.enter ⟨rfl, rfl⟩ (h.sent i)
    · cases ht
  | guest i regs =>
    simp only [PsciVm.step] at ht
    split at ht
    · cases ht
      exact h.modify i (fun p => { p with vcpu := { p.vcpu with regs } }) ⟨rfl, rfl⟩ (h.sent i)
    · cases ht

/-- Every vcpu was turned on at most once since it was last `OFF`, and one that was has its message
to wake up coming. -/
def AllOnce (s : PsciVm n) : Prop :=
  ∀ i, OnceOn (s.cpu i) ∧
    ((s.cpu i).state = .onPending → psciMsgOn ∈ s.queue (s.cpu i).vcpu.physId)

/-- `PSCI_CPU_ON` succeeds once per power-on in exactly those runs in which no call writes to a vcpu
that another call has turned on since it was tested. The lock that the calls hold does not see to
that, because each of them holds the lock of its own vcpu. -/
theorem psciCpuOn_once_iff {cpus : Nat} {vmCpuidToMpidr : Nat → BitVec 64} {id physId : Fin n → Nat}
    {as : List (PsciAction n)} (hplaced : ∀ i, vmTranslateToPcpuid cpus (id i) = some (physId i))
    (hphys : Function.Injective physId)
    (h : run PsciVm.step (initial cpus vmCpuidToMpidr id physId) as = some s) :
    Always PsciVm.step AllOnce (initial cpus vmCpuidToMpidr id physId) as ↔
      Along PsciVm.step StillOff (initial cpus vmCpuidToMpidr id physId) as :=
  always_iff_along (I := fun s => s.Inv ∧ s.Mail)
    (fun _ hs i => ⟨(hs.1.phase i).onceOn, hs.2.sent i⟩)
    (fun _ _ _ hs hoff ht => ⟨hs.1.step hoff ht, hs.2.step ht⟩)
    (fun _ _ _ hs hoff ht honce => hs.1.step_twice hoff ht fun i => (honce i).1)
    ⟨Inv.initial _ _ _ _, Mail.initial hplaced hphys⟩ h

/-- Three vcpus on the cpus 0 to 2, without cluster information. -/
def threeVcpus : PsciVm 3 :=
  initial 0b111 (fun cpuid => BitVec.ofNat 64 cpuid ||| 0x80000000) (fun i => i) (fun i => i)

/-- Vcpu 0 turns on vcpu 1 and then vcpu 2, which vcpu 1 also tries. Vcpu 2 turns itself off, and
then vcpu 1 turns it on. -/
def turnsOnTwice : List (PsciAction 3) :=
  [.cpuOn 0 1 0x1000 11, .update 0, .deliver 1, .enter 1,
    .cpuOn 0 2 0x2000 22, .update 0, .cpuOn 1 2 0x3000 33, .deliver 2, .enter 2,
    .off 2, .cpuOn 1 2 0x3000 33, .update 1, .deliver 2, .enter 2]

theorem psciCpuOn_once_turnsOnTwice : ∃ s,
    run PsciVm.step threeVcpus turnsOnTwice = some s ∧ (s.cpu 2).resumed = [(0x3000, 33)] ∧
      Always PsciVm.step AllOnce threeVcpus turnsOnTwice := by
  refine exists_some_of (by decide +kernel) fun s hs hresumed =>
    ⟨hresumed, (psciCpuOn_once_iff (by decide) Fin.val_injective hs).mpr ?_⟩
  decide +kernel

/-- Vcpus 0 and 1 both find vcpu 2 `OFF` and both succeed; it goes on with the arguments of the
second call. -/
theorem psciCpuOn_twice : ∃ s,
    run PsciVm.step threeVcpus [.cpuOn 0 1 0x1000 11, .update 0, .deliver 1, .enter 1,
      .cpuOn 0 2 0x2000 22, .cpuOn 1 2 0x3000 33, .update 0, .update 1, .deliver 2, .enter 2] =
        some s ∧
      (s.cpu 2).answered = [⟨0x2000, 22, psciESuccess⟩, ⟨0x3000, 33, psciESuccess⟩] ∧
      (s.cpu 2).resumed = [(0x3000, 33)] ∧ ¬ OnceOn (s.cpu 2) := by
  refine exists_some_of_and (by decide +kernel) fun s _ hanswered _ honce => ?_
  have htwo := honce.once
  rw [successes, hanswered] at htwo
  exact absurd htwo (by decide)

end PsciVm

end Bao.Armv8
