import Mathlib.Data.Finset.Card
import Bao.Foundation.Loop
import Bao.Core.Vm

/-!
# Broadcasts in a VM

`vm_msg_broadcast` goes through the cpu numbers until it has found as many cpus of its VM as there
are besides its own. It tests a number with a 32-bit `1U << i`, and both architectures take such a
shift modulo 32, so from 32 on it finds cpu `i` where cpu `i % 32` belongs to the VM. The broadcast
is right exactly when this makes no difference up to the last cpu it has to reach.

The index of the loop is a number here. It could only get to `2 ^ 31` in a loop that does not end.
-/

namespace Bao

open Foundation

/-- The local variables of `vm_msg_broadcast`, and the cpus it has called `cpu_send_msg` for. -/
structure Broadcast where
  i : Nat := 0
  n : Nat := 0
  sent : List Nat := []

/-- The test of `vm_msg_broadcast` for a cpu. -/
def BroadcastTo (cpus cpuId i : Nat) : Prop := 1 <<< (i % 32) &&& cpus ≠ 0 ∧ i ≠ cpuId

instance (cpus cpuId i : Nat) : Decidable (BroadcastTo cpus cpuId i) :=
  inferInstanceAs (Decidable (_ ∧ _))

/-- The body of the loop of `vm_msg_broadcast`. -/
def Broadcast.next (cpus cpuId : Nat) (s : Broadcast) : Broadcast :=
  if BroadcastTo cpus cpuId s.i then
    { i := s.i + 1, n := s.n + 1, sent := s.sent ++ [s.i] }
  else { s with i := s.i + 1 }

def vmMsgBroadcastRound (cpus cpuNum cpuId : Nat) (s : Broadcast) : Round Broadcast (List Nat) :=
  if s.n < u64 (cpuNum + (2 ^ 64 - 1)) then .again (s.next cpus cpuId) else .exit s.sent

/-- `vm_msg_broadcast` on the cpu `cpuId` calls `cpu_send_msg` for the cpus in `sent`, in this
order, and returns. -/
def VmMsgBroadcast (cpus cpuNum cpuId : Nat) (sent : List Nat) : Prop :=
  Ends (vmMsgBroadcastRound cpus cpuNum cpuId) {} sent

/-- The other cpus of the VM. -/
def Sibling (cpus cpuId c : Nat) : Prop := cpus.testBit c = true ∧ c ≠ cpuId

instance (cpus cpuId c : Nat) : Decidable (Sibling cpus cpuId c) :=
  inferInstanceAs (Decidable (_ ∧ _))

variable {cpus cpuNum cpuId : Nat} {sent : List Nat}

theorem broadcastTo_iff (cpus cpuId i : Nat) :
    BroadcastTo cpus cpuId i ↔ cpus.testBit (i % 32) = true ∧ i ≠ cpuId := by
  rw [BroadcastTo, Nat.one_shiftLeft, Nat.and_comm, Nat.and_two_pow]
  simp

theorem count_sibling (hcpus : cpus < 2 ^ 64) (hid : cpus.testBit cpuId = true) :
    Nat.count (Sibling cpus cpuId) 64 + 1 = popcount cpus := by
  rw [popcount, Nat.count_eq_card_filter_range, Nat.count_eq_card_filter_range]
  have hmem : cpuId ∈ (Finset.range 64).filter (fun c => cpus.testBit c = true) := by
    simp [hid, lt_of_testBit hcpus hid]
  rw [← Finset.card_erase_add_one hmem]
  congr 2
  ext c
  rw [Finset.mem_erase, Finset.mem_filter, Finset.mem_filter, Sibling]
  tauto

/-! ## The loop -/

/-- The calls so far are for the cpus below `i` with the property `P`. -/
def Broadcast.SentTo (P : Nat → Prop) [DecidablePred P] (s : Broadcast) : Prop :=
  s.sent = (List.range s.i).filter P ∧ s.n = Nat.count P s.i

theorem Broadcast.next_i (s : Broadcast) : (s.next cpus cpuId).i = s.i + 1 := by
  unfold Broadcast.next
  split <;> rfl

theorem Broadcast.SentTo.next {P : Nat → Prop} [DecidablePred P] {s : Broadcast} (h : s.SentTo P)
    (hP : BroadcastTo cpus cpuId s.i ↔ P s.i) : (s.next cpus cpuId).SentTo P := by
  obtain ⟨hsent, hn⟩ := h
  by_cases hto : BroadcastTo cpus cpuId s.i
  · have hPi := hP.1 hto
    simp [Broadcast.next, Broadcast.SentTo, hto, hsent, hn, hPi, List.range_succ, Nat.count_succ]
  · have hPi := mt hP.2 hto
    simp [Broadcast.next, Broadcast.SentTo, hto, hsent, hn, hPi, List.range_succ, Nat.count_succ]

theorem VmMsgBroadcast.exists_sent_eq (h : VmMsgBroadcast cpus cpuNum cpuId sent) :
    ∃ m, sent = (List.range m).filter (BroadcastTo cpus cpuId) := by
  refine Ends.invariant (I := Broadcast.SentTo (BroadcastTo cpus cpuId))
    (Q := fun sent => ∃ m, sent = (List.range m).filter (BroadcastTo cpus cpuId)) ?_ ?_ h ⟨rfl, rfl⟩
  · intro s t hs ht
    unfold vmMsgBroadcastRound at ht
    split at ht <;> cases ht
    exact hs.next Iff.rfl
  · intro s r hs hr
    unfold vmMsgBroadcastRound at hr
    split at hr <;> cases hr
    exact ⟨s.i, hs.1⟩

/-- Up to the last sibling the test finds just the cpus of the VM. -/
def TestExact (cpus cpuId : Nat) : Prop :=
  ∀ c, Sibling cpus cpuId c → ∀ i, 32 ≤ i → i ≤ c → i ≠ cpuId →
    cpus.testBit (i % 32) = cpus.testBit i

theorem TestExact.broadcastTo_iff (h : TestExact cpus cpuId) {c i : Nat}
    (hc : Sibling cpus cpuId c) (hi : i ≤ c) : BroadcastTo cpus cpuId i ↔ Sibling cpus cpuId i := by
  rw [Bao.broadcastTo_iff, Sibling]
  refine and_congr_left fun hne => ?_
  by_cases hlow : i < 32
  · rw [Nat.mod_eq_of_lt hlow]
  · rw [h c hc i (by omega) hi hne]

theorem exists_sibling_of_count_lt {i : Nat}
    (h : Nat.count (Sibling cpus cpuId) i < Nat.count (Sibling cpus cpuId) 64) :
    ∃ c, i ≤ c ∧ c < 64 ∧ Sibling cpus cpuId c := by
  obtain ⟨c, hc, hsib, hcount⟩ := exists_count_eq h
  refine ⟨c, ?_, hc, hsib⟩
  by_contra hlt
  exact (Nat.count_strict_mono hsib (not_le.mp hlt)).ne hcount

theorem filter_range_eq_of_count_eq {P : Nat → Prop} [DecidablePred P] {m n : Nat} (hmn : m ≤ n)
    (h : Nat.count P m = Nat.count P n) : (List.range m).filter P = (List.range n).filter P := by
  refine ((List.range_sublist.2 hmn).filter _).eq_of_length ?_
  rw [← List.countP_eq_length_filter, ← List.countP_eq_length_filter]
  exact h

theorem TestExact.vmMsgBroadcast (h : TestExact cpus cpuId) (hcpus : cpus < 2 ^ 64)
    (hid : cpus.testBit cpuId = true) :
    VmMsgBroadcast cpus (popcount cpus) cpuId ((List.range 64).filter (Sibling cpus cpuId)) := by
  have htotal : u64 (popcount cpus + (2 ^ 64 - 1)) = Nat.count (Sibling cpus cpuId) 64 := by
    have hcount := count_sibling hcpus hid
    have hle := popcount_le cpus
    simp only [u64]
    omega
  suffices hends : ∃ sent, VmMsgBroadcast cpus (popcount cpus) cpuId sent ∧
      sent = (List.range 64).filter (Sibling cpus cpuId) by
    obtain ⟨sent, hends, rfl⟩ := hends
    exact hends
  -- the invariant is that the siblings below `i` have been called
  refine exists_ends (I := fun s => s.i ≤ 64 ∧ s.SentTo (Sibling cpus cpuId)) (fun s => 64 - s.i) ?_
    ⟨by decide, rfl, rfl⟩
  rintro s ⟨hi, hs⟩
  rw [vmMsgBroadcastRound, htotal, hs.2]
  by_cases hlt : Nat.count (Sibling cpus cpuId) s.i < Nat.count (Sibling cpus cpuId) 64
  · right
    obtain ⟨c, hic, hc, hsib⟩ := exists_sibling_of_count_lt hlt
    refine ⟨s.next cpus cpuId, by rw [if_pos hlt], ⟨?_, hs.next (h.broadcastTo_iff hsib hic)⟩, ?_⟩
    · rw [Broadcast.next_i]
      omega
    · rw [Broadcast.next_i]
      omega
  · left
    have heq := le_antisymm (Nat.count_monotone _ hi) (not_lt.mp hlt)
    exact ⟨s.sent, by rw [if_neg hlt], hs.1.trans (filter_range_eq_of_count_eq hi heq)⟩

/-! ## The messages -/

theorem count_filter_sibling (hcpus : cpus < 2 ^ 64) (c : Nat) :
    ((List.range 64).filter (Sibling cpus cpuId)).count c =
      if Sibling cpus cpuId c then 1 else 0 := by
  by_cases hc : Sibling cpus cpuId c
  · rw [if_pos hc]
    refine List.count_eq_one_of_mem (List.nodup_range.filter _) ?_
    simp [hc, lt_of_testBit hcpus hc.1]
  · rw [if_neg hc]
    exact List.count_eq_zero_of_not_mem (by simp [hc])

/-- A broadcast returns and has then called `cpu_send_msg` once for each sibling and for no other
cpu, just when its test is exact up to the last sibling; it always is when they are below 32. -/
theorem vmMsgBroadcast_once_iff (hcpus : cpus < 2 ^ 64) (hid : cpus.testBit cpuId = true)
    (hnum : cpuNum = popcount cpus) :
    (∃ sent, VmMsgBroadcast cpus cpuNum cpuId sent ∧
      ∀ c, sent.count c = if Sibling cpus cpuId c then 1 else 0) ↔ TestExact cpus cpuId := by
  subst hnum
  constructor
  · rintro ⟨sent, hends, hcount⟩ c hc i hlow hi hne
    obtain ⟨m, rfl⟩ := hends.exists_sent_eq
    have hmem : ∀ j, j < m ∧ BroadcastTo cpus cpuId j ↔ Sibling cpus cpuId j := by
      intro j
      have hj := List.count_pos_iff (a := j) (l := (List.range m).filter (BroadcastTo cpus cpuId))
      rw [hcount j] at hj
      by_cases hsib : Sibling cpus cpuId j <;> simpa [hsib] using hj
    -- the loop has looked at every cpu up to `c`
    have hm : i < m := hi.trans_lt ((hmem c).2 hc).1
    have hbits := hmem i
    rw [broadcastTo_iff, Sibling, and_iff_right hm, and_iff_left hne, and_iff_left hne] at hbits
    exact Bool.eq_iff_iff.2 hbits
  · intro h
    exact ⟨_, h.vmMsgBroadcast hcpus hid, count_filter_sibling hcpus⟩

theorem testExact_of_lt (h : cpus < 2 ^ 32) (cpuId : Nat) : TestExact cpus cpuId := by
  intro c hc i hlow hi _
  have hlt : cpus < 2 ^ c := h.trans_le (Nat.pow_le_pow_right (by decide) (hlow.trans hi))
  have hbit := hc.1
  rw [Nat.testBit_lt_two_pow hlt] at hbit
  cases hbit

/-- Cpu 1 of a VM with the cpus 0, 1 and 3 reaches the other two. -/
theorem vmMsgBroadcast_once_three : Nat.testBit 11 1 = true ∧ 3 = popcount 11 ∧
    ∃ sent, VmMsgBroadcast 11 3 1 sent ∧
      ∀ c, sent.count c = if Sibling 11 1 c then 1 else 0 :=
  ⟨by decide, by decide, (vmMsgBroadcast_once_iff (by decide) (by decide) (by decide)).2
    (testExact_of_lt (by decide) 1)⟩

/-- In a VM with the cpus 0 and 33 the message of cpu 0 goes to cpu 32. In one with the cpus 33 and
34 a broadcast does not return. -/
theorem vmMsgBroadcast_above_32 :
    (VmMsgBroadcast (2 ^ 33 + 1) (popcount (2 ^ 33 + 1)) 0 [32] ∧ Sibling (2 ^ 33 + 1) 0 33 ∧
      ¬Sibling (2 ^ 33 + 1) 0 32) ∧
    ¬∃ sent, VmMsgBroadcast (2 ^ 34 + 2 ^ 33) (popcount (2 ^ 34 + 2 ^ 33)) 33 sent := by
  refine ⟨⟨⟨34, by decide⟩, by decide, by decide⟩, ?_⟩
  rintro ⟨sent, h⟩
  refine not_ends (I := fun s => s.n = 0) (fun s hs => ?_) rfl h
  have hbits : ∀ b < 32, Nat.testBit (2 ^ 34 + 2 ^ 33) b = false := by decide
  have hto : ¬BroadcastTo (2 ^ 34 + 2 ^ 33) 33 s.i := by
    rw [broadcastTo_iff, hbits _ (Nat.mod_lt _ (by decide))]
    simp
  have hleft : s.n < u64 (popcount (2 ^ 34 + 2 ^ 33) + (2 ^ 64 - 1)) := by
    rw [hs]
    decide
  refine ⟨s.next _ _, by rw [vmMsgBroadcastRound, if_pos hleft], ?_⟩
  rw [Broadcast.next, if_neg hto]
  exact hs

end Bao
