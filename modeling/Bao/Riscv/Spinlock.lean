import Mathlib.Data.Fintype.Card
import Bao.Foundation.Run
import Bao.Riscv.Vcpu

/-!
# The ticket lock of `riscv_locks.c`

A lock is one word, `owner` in the low half and `next` in the high half. `spin_lock` draws the
ticket `next` and spins until `owner` has come to it; `spin_unlock` loads `owner` and stores its
successor in the low half alone.

The harts move at each access to the word, with the arithmetic on registers that follows it. The
tickets have 16 bits, so that the harts that hold or await the lock have different ones as long as
there are fewer than `2 ^ 16` harts.
-/

namespace Bao

open Foundation

def ticketShift : Nat := 16

def lockOwner (word : BitVec 32) : BitVec 16 := word.setWidth 16

def lockNext (word : BitVec 32) : BitVec 16 := (word >>> ticketShift).setWidth 16

/-- The store of a half word to `lock->owner`. -/
def putOwner (word : BitVec 32) (owner : BitVec 16) : BitVec 32 :=
  word &&& 0xffff0000 ||| owner.setWidth 32

/-- `lw` and `amoadd.w` extend the sign into the register. -/
def lockReg (word : BitVec 32) : Word := word.signExtend 64

/-- `inc` of `spin_lock`. -/
def ticketInc : Word := 1#64 <<< ticketShift

/-- The registers `%1` and `%2` that `spin_lock` compares. -/
def spinLockTicket (l0 : Word) : Word := l0 >>> ticketShift &&& 0xffff

def spinLockOwner (l0 : Word) : Word := l0 &&& 0xffff

/-- Where a hart is: before the load in the loop of `spin_lock`, before the store of `spin_unlock`,
or between the two functions. -/
inductive SpinPc where
  | outside
  | spin (ticket : Word)
  | inside
  | unlock (owner : BitVec 16)
  deriving DecidableEq

structure SpinState (n : Nat) where
  word : BitVec 32 := 0
  pc : Fin n → SpinPc := fun _ => .outside

/-- The calls of the two functions, and the next access of a hart that is in one of them. -/
inductive SpinAction (n : Nat) where
  | spinLock (c : Fin n)
  | spinUnlock (c : Fin n)
  | go (c : Fin n)

/-- The hart that draws a ticket. -/
def SpinAction.drawn {n : Nat} : SpinAction n → Option (Fin n)
  | .spinLock c => some c
  | .spinUnlock _ => none
  | .go _ => none

namespace SpinState

variable {n : Nat}

def goto (s : SpinState n) (c : Fin n) (pc : SpinPc) : SpinState n :=
  { s with pc := Function.update s.pc c pc }

def put (s : SpinState n) (word : BitVec 32) : SpinState n := { s with word := word }

/-- Label 1 of `spin_lock`. -/
def spinLockTest (s : SpinState n) (c : Fin n) (ticket l0 : Word) : SpinState n :=
  s.goto c (if ticket = spinLockOwner l0 then .inside else .spin ticket)

def go (s : SpinState n) (c : Fin n) : Option (SpinState n) :=
  match s.pc c with
  | .outside => none
  | .spin ticket => some (s.spinLockTest c ticket (lockReg s.word))
  | .inside => none
  | .unlock owner => some ((s.put (putOwner s.word (owner + 1))).goto c .outside)

def step (s : SpinState n) : SpinAction n → Option (SpinState n)
  | .spinLock c =>
    if s.pc c = .outside then
      some ((s.put (s.word + ticketInc.setWidth 32)).spinLockTest c
        (spinLockTicket (lockReg s.word)) (lockReg s.word))
    else none
  | .spinUnlock c =>
    if s.pc c = .inside then some (s.goto c (.unlock (lockOwner s.word))) else none
  | .go c => s.go c

/-- `c` has returned from `spin_lock` and has not yet stored in `spin_unlock`. -/
def Holds (s : SpinState n) (c : Fin n) : Prop :=
  s.pc c = .inside ∨ ∃ owner, s.pc c = .unlock owner

end SpinState

/-! ### The halves of the word -/

section Word

variable (w : BitVec 32) (o : BitVec 16)

theorem lockOwner_add : lockOwner (w + ticketInc.setWidth 32) = lockOwner w := by
  have hinc : ticketInc.setWidth 32 = 0x10000#32 := rfl
  rw [hinc, lockOwner, lockOwner]
  bv_omega

theorem lockNext_add : lockNext (w + ticketInc.setWidth 32) = lockNext w + 1 := by
  have hinc : ticketInc.setWidth 32 = 0x10000#32 := rfl
  rw [hinc, lockNext, lockNext, ticketShift]
  bv_omega

theorem lockOwner_putOwner : lockOwner (putOwner w o) = o := by
  ext i hi
  simp [lockOwner, putOwner]

theorem lockNext_putOwner : lockNext (putOwner w o) = lockNext w := by
  ext i hi
  have hmask : (0xffff0000#32).getLsbD (16 + i) = true := by decide +revert
  simp [lockNext, putOwner, ticketShift, hmask]

theorem and_ffff (x : Word) : x &&& 0xffff = (x.setWidth 16).setWidth 64 := by
  ext i hi
  have hmask : (0xffff#64)[i] = decide (i < 16) := by decide +revert
  simp [hmask, Bool.and_comm, BitVec.getLsbD_eq_getElem hi]

theorem getLsbD_lockReg {i : Nat} (hi : i < 32) : (lockReg w).getLsbD i = w.getLsbD i := by
  simp [lockReg, BitVec.getLsbD_signExtend, hi]
  omega

theorem spinLockOwner_lockReg : spinLockOwner (lockReg w) = (lockOwner w).setWidth 64 := by
  rw [spinLockOwner, and_ffff, lockOwner]
  congr 1
  ext i hi
  simp [getLsbD_lockReg w (by omega : i < 32)]

theorem spinLockTicket_lockReg : spinLockTicket (lockReg w) = (lockNext w).setWidth 64 := by
  rw [spinLockTicket, and_ffff, lockNext]
  congr 1
  ext i hi
  simp [ticketShift, getLsbD_lockReg w (by omega : 16 + i < 32)]

/-- The ticket that is `i` places behind the owner, as it stands in a register. -/
def ticketAt (i : Nat) : Word := (lockOwner w + BitVec.ofNat 16 i).setWidth 64

theorem ticketAt_eq_owner {i : Nat} (hi : i < 0x10000) :
    ticketAt w i = spinLockOwner (lockReg w) ↔ i = 0 := by
  rw [spinLockOwner_lockReg, ticketAt]
  bv_omega

end Word

/-! ### The queue of the tickets -/

namespace SpinState

variable {n : Nat} {s t : SpinState n} {q : List (Fin n)} {c d : Fin n} {pc : SpinPc}
  {w : BitVec 32}

@[simp] theorem put_word : (s.put w).word = w := rfl

@[simp] theorem put_pc : (s.put w).pc = s.pc := rfl

@[simp] theorem goto_word : (s.goto c pc).word = s.word := rfl

@[simp] theorem goto_pc_self : (s.goto c pc).pc c = pc := Function.update_self ..

theorem goto_pc_of_ne (h : d ≠ c) : (s.goto c pc).pc d = s.pc d := Function.update_of_ne h ..

/-- What a hart does at place `i` of the queue: it spins, or is the first and has the lock. -/
def At (w : BitVec 32) (i : Nat) (pc : SpinPc) : Prop :=
  pc = .spin (ticketAt w i) ∨ i = 0 ∧ (pc = .inside ∨ pc = .unlock (lockOwner w))

theorem at_add {i : Nat} : At (w + ticketInc.setWidth 32) i pc ↔ At w i pc := by
  simp only [At, ticketAt, lockOwner_add]

/-- The harts in the queue have the tickets from `owner` on, up to `next`. -/
structure Tickets (s : SpinState n) (q : List (Fin n)) : Prop where
  nodup : q.Nodup
  next : lockNext s.word = lockOwner s.word + BitVec.ofNat 16 q.length
  place : ∀ i c, q[i]? = some c → At s.word i (s.pc c)
  outside : ∀ c, c ∉ q → s.pc c = .outside

namespace Tickets

theorem mem_iff (h : Tickets s q) : c ∈ q ↔ s.pc c ≠ .outside := by
  refine ⟨fun hc => ?_, fun hc => by_contra fun hq => hc (h.outside c hq)⟩
  obtain ⟨i, hi⟩ := List.mem_iff_getElem?.mp hc
  rcases h.place i c hi with hpc | ⟨-, hpc | hpc⟩ <;> simp [hpc]

theorem length_lt (h : Tickets s q) (hn : n < 0x10000) : q.length < 0x10000 := by
  have hcard := h.nodup.length_le_card
  rw [Fintype.card_fin] at hcard
  omega

theorem head_of_holds (h : Tickets s q) (hc : s.Holds c) : q[0]? = some c := by
  have hmem : c ∈ q := h.mem_iff.mpr (by rcases hc with hpc | ⟨o, hpc⟩ <;> simp [hpc])
  obtain ⟨i, hi⟩ := List.mem_iff_getElem?.mp hmem
  rcases h.place i c hi with hpc | ⟨rfl, -⟩
  · rcases hc with hin | ⟨o, hin⟩ <;> simp [hpc] at hin
  · exact hi

theorem goto (h : Tickets s q) {i : Nat} (hi : q[i]? = some c) (hpc : At s.word i pc) :
    Tickets (s.goto c pc) q := by
  refine ⟨h.nodup, h.next, fun j d hj => ?_, fun d hd => ?_⟩
  · by_cases hdc : d = c
    · subst hdc
      have hlt := (List.getElem?_eq_some_iff.mp hi).1
      obtain rfl := (List.getElem?_inj hlt h.nodup).mp (hi.trans hj.symm)
      simpa using hpc
    · simpa [goto_pc_of_ne hdc] using h.place j d hj
  · have hdc : d ≠ c := fun heq => hd (heq ▸ List.mem_of_getElem? hi)
    rw [goto_pc_of_ne hdc, h.outside d hd]

theorem draw (h : Tickets s q) (hc : s.pc c = .outside) (hpc : At s.word q.length pc) :
    Tickets ((s.put (s.word + ticketInc.setWidth 32)).goto c pc) (q ++ [c]) := by
  have hmem : c ∉ q := by simp [h.mem_iff, hc]
  refine ⟨by simp [List.nodup_append, h.nodup]; grind, ?_, fun i d hd => ?_, fun d hd => ?_⟩
  · simp only [goto_word, put_word, lockNext_add, lockOwner_add, h.next, List.length_append,
      List.length_singleton]
    bv_omega
  · rw [goto_word, put_word, at_add]
    rw [List.getElem?_append] at hd
    split at hd
    · have hdc : d ≠ c := fun heq => hmem (heq ▸ List.mem_of_getElem? hd)
      simpa [goto_pc_of_ne hdc] using h.place i d hd
    · have hi : i = q.length := by
        have hlt := (List.getElem?_eq_some_iff.mp hd).1
        rw [List.length_singleton] at hlt
        omega
      subst hi
      obtain rfl : c = d := by simpa using hd
      simpa using hpc
  · simp only [List.mem_append, List.mem_singleton, not_or] at hd
    rw [goto_pc_of_ne hd.2, put_pc, h.outside d hd.1]

theorem release (h : Tickets s (c :: q)) :
    Tickets ((s.put (putOwner s.word (lockOwner s.word + 1))).goto c .outside) q := by
  obtain ⟨hmem, hnodup⟩ := List.nodup_cons.mp h.nodup
  refine ⟨hnodup, ?_, fun i d hd => ?_, fun d hd => ?_⟩
  · have hnext := h.next
    rw [List.length_cons] at hnext
    simp only [goto_word, put_word, lockNext_putOwner, lockOwner_putOwner, hnext]
    bv_omega
  · have hdc : d ≠ c := fun heq => hmem (heq ▸ List.mem_of_getElem? hd)
    have hticket : ticketAt (putOwner s.word (lockOwner s.word + 1)) i =
        ticketAt s.word (i + 1) := by
      rw [ticketAt, lockOwner_putOwner, ticketAt]
      congr 1
      bv_omega
    have hpc : s.pc d = .spin (ticketAt s.word (i + 1)) := by
      simpa [At] using h.place (i + 1) d (by simpa using hd)
    left
    rw [goto_pc_of_ne hdc, put_pc, goto_word, put_word, hticket, hpc]
  · by_cases hdc : d = c
    · rw [hdc, goto_pc_self]
    · rw [goto_pc_of_ne hdc, put_pc, h.outside d (by simp [hdc, hd])]

theorem test (h : Tickets s q) (hn : n < 0x10000) {i : Nat} (hi : i ≤ q.length) :
    At s.word i (if ticketAt s.word i = spinLockOwner (lockReg s.word) then .inside
      else .spin (ticketAt s.word i)) := by
  have hlt := h.length_lt hn
  simp only [ticketAt_eq_owner s.word (by omega : i < 0x10000), At]
  grind

/-- A step appends the hart that draws a ticket to the queue, and may take the first one off it. -/
theorem step (hn : n < 0x10000) {a : SpinAction n} (h : Tickets s q) (ht : s.step a = some t) :
    ∃ q', q' <:+ q ++ a.drawn.toList ∧ Tickets t q' := by
  cases a with
  | spinLock c =>
    simp only [SpinState.step, Option.ite_none_right_eq_some, Option.some.injEq] at ht
    obtain ⟨hpc, rfl⟩ := ht
    have hticket : spinLockTicket (lockReg s.word) = ticketAt s.word q.length := by
      rw [spinLockTicket_lockReg, h.next, ticketAt]
    refine ⟨q ++ [c], List.suffix_refl _, ?_⟩
    rw [hticket]
    exact h.draw hpc (h.test hn le_rfl)
  | spinUnlock c =>
    simp only [SpinState.step, Option.ite_none_right_eq_some, Option.some.injEq] at ht
    obtain ⟨hpc, rfl⟩ := ht
    exact ⟨q, by simp [SpinAction.drawn], h.goto (h.head_of_holds (.inl hpc))
      (.inr ⟨rfl, .inr rfl⟩)⟩
  | go c =>
    simp only [SpinState.step, SpinState.go] at ht
    cases hpc : s.pc c with
    | outside => simp [hpc] at ht
    | inside => simp [hpc] at ht
    | spin ticket =>
      simp only [hpc, Option.some.injEq] at ht
      subst ht
      obtain ⟨i, hi⟩ := List.mem_iff_getElem?.mp (h.mem_iff.mpr (by simp [hpc] : s.pc c ≠ _))
      obtain rfl : ticket = ticketAt s.word i := by simpa [At, hpc] using h.place i c hi
      have hlt := (List.getElem?_eq_some_iff.mp hi).1
      exact ⟨q, by simp [SpinAction.drawn], h.goto hi (h.test hn hlt.le)⟩
    | unlock owner =>
      simp only [hpc, Option.some.injEq] at ht
      subst ht
      have hhead := h.head_of_holds (.inr ⟨owner, hpc⟩)
      obtain rfl : owner = lockOwner s.word := by simpa [At, hpc] using h.place 0 c hhead
      obtain ⟨rest, rfl⟩ := List.head?_eq_some_iff.mp (List.head?_eq_getElem?.trans hhead)
      exact ⟨rest, by simp [SpinAction.drawn, List.suffix_cons], h.release⟩

theorem run (hn : n < 0x10000) {as : List (SpinAction n)} (h : Tickets s q)
    (ht : Foundation.run SpinState.step s as = some t) :
    ∃ q', q' <:+ q ++ as.filterMap SpinAction.drawn ∧ Tickets t q' := by
  induction as generalizing s q with
  | nil =>
    cases ht
    exact ⟨q, by simp, h⟩
  | cons a as ih =>
    obtain ⟨u, hu, ht⟩ := run_cons.mp ht
    obtain ⟨q', ⟨front, hq'⟩, hq⟩ := h.step hn hu
    obtain ⟨q'', hsuffix, hfinal⟩ := ih hq ht
    refine ⟨q'', hsuffix.trans ⟨front, ?_⟩, hfinal⟩
    rw [← List.append_assoc, hq', List.append_assoc, List.filterMap_cons]
    cases a.drawn <;> simp

end Tickets

/-- However the accesses of the harts interleave, those that hold or await the lock are the last
ones that drew a ticket, in the order of the draws. Only the first of them can be inside, it is or
gets there with its next load, and the others go on spinning. -/
theorem spinLock_fifo (hn : n < 0x10000) {as : List (SpinAction n)}
    (h : Foundation.run SpinState.step {} as = some s) :
    ∃ q, q <:+ as.filterMap SpinAction.drawn ∧ (∀ c, c ∈ q ↔ s.pc c ≠ .outside) ∧
      (∀ c, s.Holds c → q.head? = some c) ∧
      ∀ c ∈ q, (q.head? = some c → s.Holds c ∨ s.step (.go c) = some (s.goto c .inside)) ∧
        (q.head? ≠ some c → s.step (.go c) = some s) := by
  have hzero : lockNext 0 = lockOwner 0 + BitVec.ofNat 16 0 := by decide
  have hinit : Tickets ({} : SpinState n) [] := ⟨by simp, hzero, by simp, by simp⟩
  obtain ⟨q, hsuffix, hq⟩ := hinit.run hn h
  refine ⟨q, hsuffix, fun c => hq.mem_iff, fun c hc => ?_, fun c hc => ?_⟩
  · exact List.head?_eq_getElem?.trans (hq.head_of_holds hc)
  · obtain ⟨i, hi⟩ := List.mem_iff_getElem?.mp hc
    have hlt := (List.getElem?_eq_some_iff.mp hi).1
    have hlen := hq.length_lt hn
    have hhead : q.head? = some c ↔ i = 0 := by
      rw [List.head?_eq_getElem?, ← hi, List.getElem?_inj (by omega) hq.nodup, eq_comm]
    rcases hq.place i c hi with hpc | ⟨rfl, hpc⟩
    · have htest := ticketAt_eq_owner s.word (by omega : i < 0x10000)
      have hself : s.goto c (.spin (ticketAt s.word i)) = s := by simp [goto, ← hpc]
      simp only [SpinState.step, SpinState.go, hpc, spinLockTest, htest, ne_eq, hhead]
      grind
    · exact ⟨fun _ => .inl (hpc.imp_right fun hpc => ⟨_, hpc⟩), fun h => absurd (hhead.mpr rfl) h⟩

/-- The second hart draws its ticket while the first one is inside, and waits until it has left. -/
theorem spinLock_fifo_two : ∃ s : SpinState 2,
    Foundation.run SpinState.step {} [.spinLock 0, .spinLock 1, .go 1, .spinUnlock 0, .go 0,
      .go 1] = some s ∧ s.Holds 1 ∧ ∀ c, s.Holds c → c = 1 := by
  have h : Foundation.run SpinState.step ({} : SpinState 2) [.spinLock 0, .spinLock 1, .go 1,
    .spinUnlock 0, .go 0, .go 1] = some _ := rfl
  obtain ⟨q, -, -, hhead, -⟩ := spinLock_fifo (by decide) h
  exact ⟨_, h, .inl rfl,
    fun c hc => Option.some.inj ((hhead c hc).symm.trans (hhead 1 (.inl rfl)))⟩

end SpinState

end Bao
