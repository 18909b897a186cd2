import Bao.Foundation.Run

/-!
# Waking a cpu for its messages

A sender first pushes its message on the target's `event_list` and then sets the target's pending
bit `SSIP`. The target has two ways to its messages. The interrupt handler drains the list and then
clears the bit; `cpu_idle_wakeup` clears the bit and then drains the list.

The queue is a list here, and a push or a pop is one step. Only the first receive path can lose a
wake-up: a message that arrives between its last look at the list and its clear is left behind.
-/

namespace Bao

open Foundation

/-- `cpu_msg_t`. -/
structure CpuMsg where
  handler : BitVec 32
  event : BitVec 32
  data : BitVec 64
  deriving DecidableEq, Repr

/-- Where the receiving cpu is: outside its handlers, in `interrupts_arch_handle` for
`SCAUSE_CODE_SSI`, or in `cpu_idle_wakeup`. -/
inductive ReceiverPc where
  | outside
  | ssiDrain
  | ssiClear
  | idleClear
  | idleDrain
  deriving DecidableEq, Repr

/-- `sending i` says that sender `i` has pushed its message and not yet set `SSIP`. -/
structure MsgState where
  eventList : List CpuMsg := []
  ssip : Bool := false
  pc : ReceiverPc := .outside
  sending : Nat → Bool := fun _ => false

inductive MsgAction where
  | push (i : Nat) (msg : CpuMsg)
  | sendIpi (i : Nat)
  | ssiTrap
  | idleWakeup
  | receive

namespace MsgState

/-- `receive` is the receiver's next step in the handler it is in; `cpu_get_msg` on an empty list
ends a drain. -/
def step (s : MsgState) : MsgAction → Option MsgState
  | .push i msg =>
    if s.sending i then none
    else some { s with
      eventList := s.eventList ++ [msg]
      sending := Function.update s.sending i true }
  | .sendIpi i =>
    if s.sending i then
      some { s with ssip := true, sending := Function.update s.sending i false }
    else none
  | .ssiTrap => if s.pc = .outside ∧ s.ssip then some { s with pc := .ssiDrain } else none
  | .idleWakeup =>
    if s.pc = .outside then
      some (if s.ssip then { s with pc := .idleClear } else s)
    else none
  | .receive =>
    match s.pc, s.eventList with
    | .outside, _ => none
    | .ssiDrain, [] => some { s with pc := .ssiClear }
    | .ssiDrain, _ :: rest => some { s with eventList := rest }
    | .ssiClear, _ => some { s with ssip := false, pc := .outside }
    | .idleClear, _ => some { s with ssip := false, pc := .idleDrain }
    | .idleDrain, [] => some { s with pc := .outside }
    | .idleDrain, _ :: rest => some { s with eventList := rest }

/-- With the receiver outside its handlers and no sender half way, a queued message has its pending
bit. -/
def NoneLeft (s : MsgState) : Prop :=
  s.pc = .outside → (∀ i, s.sending i = false) → s.eventList ≠ [] → s.ssip = true

/-- When the interrupt handler is about to clear `SSIP`, no message has arrived since the drain, or
one whose sender is still to set the bit. -/
def ClearInTime (s : MsgState) : MsgAction → Prop
  | .receive => s.pc = .ssiClear → s.eventList = [] ∨ ∃ i, s.sending i = true
  | _ => True

/-- A queued message is announced by the bit, by a sender that will set it, or by a drain that has
not ended. -/
def Announced (s : MsgState) : Prop :=
  s.eventList ≠ [] → s.ssip = true ∨ (∃ i, s.sending i = true) ∨ s.pc = .ssiDrain ∨
    s.pc = .idleDrain

theorem Announced.noneLeft {s : MsgState} (h : s.Announced) : s.NoneLeft := by
  intro hpc hsend hne
  rcases h hne with hssip | ⟨i, hi⟩ | hp | hp
  · exact hssip
  · rw [hsend i] at hi; cases hi
  · rw [hpc] at hp; cases hp
  · rw [hpc] at hp; cases hp

theorem Announced.step {s t : MsgState} {a : MsgAction} (h : s.Announced) (hc : s.ClearInTime a)
    (ht : s.step a = some t) : t.Announced := by
  cases a with
  | push i msg =>
    simp only [MsgState.step] at ht
    split at ht
    · cases ht
    · cases ht
      exact fun _ => .inr (.inl ⟨i, by simp⟩)
  | sendIpi i =>
    simp only [MsgState.step] at ht
    split at ht
    · cases ht; exact fun _ => .inl rfl
    · cases ht
  | ssiTrap =>
    simp only [MsgState.step] at ht
    split at ht
    · cases ht; exact fun _ => .inr (.inr (.inl rfl))
    · cases ht
  | idleWakeup =>
    simp only [MsgState.step] at ht
    split at ht
    · cases ht
      split
      · rename_i hssip
        exact fun _ => .inl hssip
      · exact h
    · cases ht
  | receive =>
    simp only [MsgState.step] at ht
    split at ht
    · cases ht
    · rename_i hpc hempty
      cases ht
      exact fun hne => absurd hempty hne
    · rename_i hpc hl
      cases ht
      exact fun _ => .inr (.inr (.inl hpc))
    · rename_i hpc
      cases ht
      intro hne
      exact ((hc hpc).resolve_left hne).elim fun i hi => .inr (.inl ⟨i, hi⟩)
    · cases ht; exact fun _ => .inr (.inr (.inr rfl))
    · rename_i hpc hempty
      cases ht
      exact fun hne => absurd hempty hne
    · rename_i hpc hl
      cases ht
      exact fun _ => .inr (.inr (.inr hpc))

theorem not_noneLeft_of_late_clear {s t : MsgState} {a : MsgAction} (hc : ¬ s.ClearInTime a)
    (ht : s.step a = some t) : ¬ t.NoneLeft := by
  cases a with
  | receive =>
    simp only [ClearInTime, Classical.not_imp, not_or, not_exists, Bool.not_eq_true] at hc
    obtain ⟨hpc, hne, hsend⟩ := hc
    simp only [MsgState.step, hpc] at ht
    cases ht
    intro hleft
    exact absurd (hleft rfl hsend hne) (by simp)
  | push i msg => exact absurd trivial hc
  | sendIpi i => exact absurd trivial hc
  | ssiTrap => exact absurd trivial hc
  | idleWakeup => exact absurd trivial hc

/-- For every number of senders and every interleaving: no state of the run has a message left
behind exactly when every clear of the interrupt handler comes in time. -/
theorem noMessageLeft_iff {as : List MsgAction} {s : MsgState}
    (h : run MsgState.step {} as = some s) :
    Always MsgState.step NoneLeft {} as ↔ Along MsgState.step ClearInTime {} as :=
  always_iff_along (fun _ => Announced.noneLeft) (fun _ _ _ hs hc ht => hs.step hc ht)
    (fun _ _ _ _ hc ht => not_noneLeft_of_late_clear hc ht) (fun hne => absurd rfl hne) h

/-- Sender 1 pushes while the receiver drains and sets the bit after the clear. -/
theorem noMessageLeft_two_senders : ∃ s : MsgState,
    run MsgState.step {} [.push 0 ⟨0, 0, 0⟩, .sendIpi 0, .ssiTrap, .receive, .receive,
      .push 1 ⟨0, 1, 0⟩, .receive, .sendIpi 1] = some s ∧
    s.eventList = [⟨0, 1, 0⟩] ∧
    Always MsgState.step NoneLeft {} [.push 0 ⟨0, 0, 0⟩, .sendIpi 0, .ssiTrap, .receive, .receive,
      .push 1 ⟨0, 1, 0⟩, .receive, .sendIpi 1] := by
  refine ⟨_, rfl, rfl, (noMessageLeft_iff rfl).mpr ?_⟩
  refine .cons trivial rfl (.cons trivial rfl (.cons trivial rfl (.cons ?_ rfl (.cons ?_ rfl
    (.cons trivial rfl (.cons ?_ rfl (.cons trivial rfl trivial)))))))
  · exact fun h => by cases h
  · exact fun h => by cases h
  · exact fun _ => .inr ⟨1, rfl⟩

/-- The second message comes between the last look at the list and the clear, bit and all: the
receiver leaves its handler with the message queued and the bit clear. -/
theorem message_left_behind : ∃ s : MsgState,
    run MsgState.step {} [.push 0 ⟨0, 0, 0⟩, .sendIpi 0, .ssiTrap, .receive, .receive,
      .push 1 ⟨0, 1, 0⟩, .sendIpi 1, .receive] = some s ∧
    s.pc = .outside ∧ (∀ i, s.sending i = false) ∧ s.eventList = [⟨0, 1, 0⟩] ∧ s.ssip = false := by
  refine ⟨_, rfl, rfl, fun i => ?_, rfl, rfl⟩
  by_cases h1 : i = 1
  · subst h1; rfl
  · simp [h1]

end MsgState

end Bao
