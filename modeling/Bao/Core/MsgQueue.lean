import Bao.Foundation.Run
import Bao.Core.CpuMsg
import Bao.Core.ObjcacheSystem

/-!
# Message queues in memory

`cpu_send_msg` takes a node from `msg_cache`, fills it and pushes it on the target's `event_list`;
`cpu_get_msg` pops a node from the own list, copies the message and gives the node back to the
cache. Everything lives in one memory of words: the interfaces of the cpus with their lists, the
cache and its slab. A slot of the slab is 32 bytes: the free-list link, the queue link and the
message. The critical sections on a list or on the cache are single steps.

The proof gives each slot one owner: the free list, a sender, a queue or a receiver. A step hands
one slot to the next owner and changes no word of the others. The queue in memory is then the list
of messages that were pushed and not yet taken, which is how `Bao.Core.CpuMsg` uses it.
-/

namespace Bao

open Foundation

/-- Where the data lies: `msg_cache` at `oc`, one page for each cpu's interface from `cpuIfBase` on,
and the page `mem_alloc_page` gives the cache. -/
structure MsgLayout where
  oc : Nat
  cpuIfBase : Nat
  cpuNum : Nat
  slab : Nat
  oc_ne : oc ≠ 0
  cpuIfBase_ne : cpuIfBase ≠ 0
  slab_ne : slab ≠ 0
  slab_aligned : slab % pageSize = 0
  slab_oc : oc + 48 ≤ slab ∨ slab + pageSize ≤ oc
  slab_cpuIf : slab + pageSize ≤ cpuIfBase ∨ cpuIfBase + cpuNum * pageSize ≤ slab
  oc_cpuIf : oc + 48 ≤ cpuIfBase ∨ cpuIfBase + cpuNum * pageSize ≤ oc

namespace MsgLayout

/-- `cpu_if`: the address of a cpu's `event_list`. -/
def cpuIf (L : MsgLayout) (c : Nat) : Nat := L.cpuIfBase + c * pageSize

/-- The `i`-th slot of the slab. -/
def slot (L : MsgLayout) (i : Nat) : Nat := L.slab + 64 + 32 * i

/-- The `cpu_msg_node_t` in the `i`-th slot. -/
def node (L : MsgLayout) (i : Nat) : Nat := L.slot i + 8

def slotNum : Nat := 126

end MsgLayout

/-- The message of the `cpu_msg_node_t` at `node`. -/
def readMsg (m : Memory) (node : Nat) : CpuMsg :=
  ⟨BitVec.ofNat 32 (m (node + 8)), BitVec.ofNat 32 (m (node + 8) / 2 ^ 32),
    BitVec.ofNat 64 (m (node + 16))⟩

def writeMsg (m : Memory) (node : Nat) (msg : CpuMsg) : Memory :=
  Function.update (Function.update m (node + 8) (msg.handler.toNat + msg.event.toNat * 2 ^ 32))
    (node + 16) msg.data.toNat

/-- Where a sender is in `cpu_send_msg`. -/
inductive SendPc where
  | idle
  | allocated (trgtcpu : Nat) (msg : CpuMsg) (node : Nat)
  | filled (trgtcpu : Nat) (msg : CpuMsg) (node : Nat)

/-- Where a cpu is in `cpu_get_msg`. -/
inductive GetPc where
  | idle
  | popped (node : Nat)
  | copied (node : Nat) (msg : CpuMsg)

/-- The message a receiver has taken from its queue and not yet returned. -/
def GetPc.inFlight (m : Memory) : GetPc → List CpuMsg
  | .idle => []
  | .popped node => [readMsg m node]
  | .copied _ msg => [msg]

/-- `pushed` and `obtained` are history: the messages pushed to each cpu, in that order, and the
messages its calls of `cpu_get_msg` returned. -/
structure QueueState where
  m : Memory
  send : Nat → SendPc
  get : Nat → GetPc
  pushed : Nat → List CpuMsg
  obtained : Nat → List CpuMsg

inductive QueueAction where
  | alloc (i trgtcpu : Nat) (msg : CpuMsg)
  | fill (i : Nat)
  | push (i : Nat)
  | pop (c : Nat)
  | copy (c : Nat)
  | release (c : Nat)

namespace QueueState

variable (L : MsgLayout)

/-- What `cpu_init` does to the lists and the cache; the nodes have 24 bytes. -/
def initMemory (m : Memory) : Memory :=
  objcacheInit ((List.range L.cpuNum).foldl (fun m c => listInit m (L.cpuIf c)) m) L.oc 24

def initial (m : Memory) : QueueState where
  m := initMemory L m
  send _ := .idle
  get _ := .idle
  pushed _ := []
  obtained _ := []

/-- An `alloc` that gets no node is the `ERROR` of `cpu_send_msg` and no step here. -/
def step (s : QueueState) : QueueAction → Option QueueState
  | .alloc i trgtcpu msg =>
    match s.send i with
    | .idle =>
      let r := objcacheAlloc s.m L.oc L.slab
      if trgtcpu < L.cpuNum ∧ r.1 ≠ 0 then
        some { s with m := r.2, send := Function.update s.send i (.allocated trgtcpu msg r.1) }
      else none
    | _ => none
  | .fill i =>
    match s.send i with
    | .allocated trgtcpu msg node =>
      some { s with
        m := writeMsg s.m node msg
        send := Function.update s.send i (.filled trgtcpu msg node) }
    | _ => none
  | .push i =>
    match s.send i with
    | .filled trgtcpu msg node =>
      some { s with
        m := listPush s.m (L.cpuIf trgtcpu) node
        send := Function.update s.send i .idle
        pushed := Function.update s.pushed trgtcpu (s.pushed trgtcpu ++ [msg]) }
    | _ => none
  | .pop c =>
    match s.get c with
    | .idle =>
      let r := listPop s.m (L.cpuIf c)
      if c < L.cpuNum then
        some { s with
          m := r.2
          get := Function.update s.get c (if r.1 ≠ 0 then .popped r.1 else .idle) }
      else none
    | _ => none
  | .copy c =>
    match s.get c with
    | .popped node =>
      some { s with get := Function.update s.get c (.copied node (readMsg s.m node)) }
    | _ => none
  | .release c =>
    match s.get c with
    | .copied node msg =>
      some { s with
        m := (objcacheFree s.m L.oc node).2
        get := Function.update s.get c .idle
        obtained := Function.update s.obtained c (s.obtained c ++ [msg]) }
    | _ => none

/-! ## Owners -/

inductive Owner where
  | free
  | sender (i : Nat)
  | queue (c : Nat)
  | receiver (c : Nat)
  deriving DecidableEq

/-- The node at `x` lies in a slot that belongs to `o`. -/
def Holds (own : Nat → Owner) (x : Nat) (o : Owner) : Prop :=
  ∃ i < MsgLayout.slotNum, x = L.node i ∧ own i = o

/-- The nodes that the cache has handed out are those with an owner other than the free list. -/
def CacheOk (m : Memory) (own : Nat → Owner) : Prop :=
  ∃ slabs live, IsCache m L.oc 24 slabs live ∧ slabs ⊆ [L.slab] ∧
    ∀ i < MsgLayout.slotNum, L.node i ∈ live ↔ own i ≠ .free

/-- The queue of cpu `c` in memory consists of the nodes `xs`, which it owns. -/
structure QueueOk (m : Memory) (own : Nat → Owner) (c : Nat) (xs : List Nat) : Prop where
  list : IsList m (L.cpuIf c) xs
  holds : ∀ x ∈ xs, Holds L own x (.queue c)

def SendOk (m : Memory) (own : Nat → Owner) (i : Nat) : SendPc → Prop
  | .idle => True
  | .allocated trgt _ x => trgt < L.cpuNum ∧ Holds L own x (.sender i)
  | .filled trgt msg x => trgt < L.cpuNum ∧ Holds L own x (.sender i) ∧ readMsg m x = msg

def GetOk (own : Nat → Owner) (c : Nat) : GetPc → Prop
  | .idle => True
  | .popped x | .copied x _ => c < L.cpuNum ∧ Holds L own x (.receiver c)

/-- `own` is the owner of each slot, `nodes c` what the queue of cpu `c` consists of. -/
structure Inv (s : QueueState) (own : Nat → Owner) (nodes : Nat → List Nat) : Prop where
  cache : CacheOk L s.m own
  queue : ∀ c < L.cpuNum, QueueOk L s.m own c (nodes c)
  send : ∀ i, SendOk L s.m own i (s.send i)
  get : ∀ c, GetOk L own c (s.get c)
  history : ∀ c < L.cpuNum,
    s.pushed c = s.obtained c ++ (s.get c).inFlight s.m ++ (nodes c).map (readMsg s.m)

/-! ## Cells -/

/-- The parts of the memory in use: what the cache consists of, the two parts of a node, and the
list of a cpu. -/
inductive Cell where
  | cache
  | queueLink (i : Nat)
  | body (i : Nat)
  | list (c : Nat)

def Cell.Has (a : Nat) : Cell → Prop
  | .cache => (L.oc ≤ a ∧ a < L.oc + 48) ∨ (L.slab ≤ a ∧ a < L.slab + pageSize ∧
      (a < L.slab + 64 ∨ (a - L.slab) % 32 < 8))
  | .queueLink i => i < MsgLayout.slotNum ∧ L.node i ≤ a ∧ a < L.node i + 8
  | .body i => i < MsgLayout.slotNum ∧ L.node i + 8 ≤ a ∧ a < L.node i + 24
  | .list c => c < L.cpuNum ∧ (a = L.cpuIf c ∨ a = L.cpuIf c + 8)

/-- The cells that change when slot `i` joins or leaves the slots of an owner, or when its sender
fills it. -/
def Touched (own : Nat → Owner) (i : Nat) : Owner → Cell → Prop
  | .free, .cache => True
  | .free, .queueLink j | .free, .body j => j = i ∨ own j = .free
  | .queue c, .list d => d = c
  | .queue c, .queueLink j => j = i ∨ own j = .queue c
  | .sender _, .body j => j = i
  | _, _ => False

/-- Slot `i` gets another owner, and of the memory only the cells change that this touches. -/
structure Handover (own own' : Nat → Owner) (m m' : Memory) (i : Nat) (o : Owner) : Prop where
  slot : i < MsgLayout.slotNum
  others : ∀ j, j ≠ i → own' j = own j
  changed : ∀ a, (∀ r, Touched own i o r → ¬ r.Has L a) → m' a = m a

variable {L} {m m' : Memory} {own own' : Nat → Owner} {nodes : Nat → List Nat}
  {s t : QueueState} {slabs : List Nat} {x a i c : Nat} {o o' : Owner}

theorem fits_node : Fits 24 := by decide

theorem pagesOk (h : slabs ⊆ [L.slab]) : PagesOk L.oc slabs := by
  intro p hp
  rw [List.mem_singleton.mp (h hp)]
  exact ⟨L.slab_ne, L.slab_aligned, L.slab_oc⟩

theorem exists_slot {p : Nat} (h : slabs ⊆ [L.slab]) (hp : p ∈ slabs) (hx : x ∈ slabSlots 24 p) :
    ∃ i < MsgLayout.slotNum, x = L.slot i := by
  obtain ⟨i, hi, rfl⟩ := mem_slabSlots.mp hx
  rw [List.mem_singleton.mp (h hp)]
  exact ⟨i, hi, rfl⟩

theorem node_apart (hi : i < MsgLayout.slotNum) (hc : c < L.cpuNum) :
    L.node i ≠ 0 ∧ L.node i ≠ L.cpuIf c ∧ L.node i ≠ L.cpuIf c + 8 := by
  have := L.slab_cpuIf
  simp only [MsgLayout.slotNum, MsgLayout.node, MsgLayout.slot, MsgLayout.cpuIf, pageSize] at *
  omega

theorem node_inj {j : Nat} : L.node i = L.node j ↔ i = j := by
  simp only [MsgLayout.node, MsgLayout.slot]
  omega

theorem Cell.Has.unique {r r' : Cell} (h : r.Has L a) (h' : r'.Has L a) : r = r' := by
  have hslab := L.slab_oc
  have hcpu := L.slab_cpuIf
  have hoc := L.oc_cpuIf
  cases r <;> cases r' <;>
    simp only [Cell.Has, MsgLayout.slotNum, MsgLayout.node, MsgLayout.slot, MsgLayout.cpuIf,
      pageSize, Cell.queueLink.injEq, Cell.body.injEq, Cell.list.injEq,
      reduceCtorEq] at * <;> omega

theorem Cell.has_queueLink (hi : i < MsgLayout.slotNum) : (Cell.queueLink i).Has L (L.node i) :=
  ⟨hi, Nat.le_refl _, Nat.lt_add_of_pos_right (by decide)⟩

theorem Cell.has_body {k : Nat} (hi : i < MsgLayout.slotNum) (hlo : 8 ≤ k) (hhi : k < 24) :
    (Cell.body i).Has L (L.node i + k) :=
  ⟨hi, by omega, by omega⟩

theorem readMsg_writeMsg (m : Memory) (x : Nat) (msg : CpuMsg) :
    readMsg (writeMsg m x msg) x = msg := by
  have h8 : writeMsg m x msg (x + 8) = msg.handler.toNat + msg.event.toNat * 2 ^ 32 := by
    rw [writeMsg, Function.update_of_ne (by omega), Function.update_self]
  have h16 : writeMsg m x msg (x + 16) = msg.data.toNat := Function.update_self ..
  have hlow : BitVec.ofNat 32 (msg.handler.toNat + msg.event.toNat * 2 ^ 32) = msg.handler := by
    apply BitVec.eq_of_toNat_eq
    rw [BitVec.toNat_ofNat]
    omega
  have hhigh : (msg.handler.toNat + msg.event.toNat * 2 ^ 32) / 2 ^ 32 = msg.event.toNat := by
    omega
  simp only [readMsg, h8, h16, hlow, hhigh, BitVec.ofNat_toNat, BitVec.setWidth_eq]

/-! ## What a step leaves alone -/

theorem Holds.ne_node (h : Holds L own x o) (hne : own i ≠ o) : x ≠ L.node i := by
  obtain ⟨j, -, rfl, rfl⟩ := h
  exact fun heq => hne (node_inj.mp heq ▸ rfl)

namespace Handover

theorem eq (h : Handover L own own' m m' i o) {r : Cell} (hr : r.Has L a)
    (ht : ¬ Touched own i o r) : m' a = m a :=
  h.changed a fun _ hr' ha => ht (ha.unique hr ▸ hr')

variable {j : Nat}

theorem readMsg_eq (h : Handover L own own' m m' i o) (hj : j < MsgLayout.slotNum)
    (ht : ¬ Touched own i o (.body j)) : readMsg m' (L.node j) = readMsg m (L.node j) := by
  simp only [readMsg, h.eq (Cell.has_body hj (Nat.le_refl 8) (by decide)) ht,
    h.eq (Cell.has_body (k := 16) hj (by decide) (by decide)) ht]

theorem notTouched (ho : o ≠ o') (hij : j ≠ i) (hj : own j = o') :
    ¬ Touched own i o (.queueLink j) ∧ ¬ Touched own i o (.body j) := by
  cases o <;> simp [Touched, hij, hj, Ne.symm ho]

section

variable (h : Handover L own own' m m' i o)

include h

theorem holds (ho : o ≠ o') (hi : own i ≠ o') (hx : Holds L own x o') :
    Holds L own' x o' ∧ m' x = m x ∧ readMsg m' x = readMsg m x := by
  obtain ⟨j, hj, rfl, hown⟩ := hx
  have hji : j ≠ i := by rintro rfl; exact hi hown
  obtain ⟨hqueue, hbody⟩ := notTouched ho hji hown
  exact ⟨⟨j, hj, rfl, (h.others j hji).trans hown⟩, h.eq (Cell.has_queueLink hj) hqueue,
    h.readMsg_eq hj hbody⟩

theorem queueOk (hc : c < L.cpuNum) {xs : List Nat} (hq : QueueOk L m own c xs) (ho : o ≠ .queue c)
    (hi : own i ≠ .queue c) :
    QueueOk L m' own' c xs ∧ xs.map (readMsg m') = xs.map (readMsg m) := by
  have hlist : ¬ Touched own i o (.list c) := by
    cases o <;> simp [Touched]
    exact fun heq => ho (heq ▸ rfl)
  have hx := fun x hx => h.holds ho hi (hq.holds x hx)
  exact ⟨⟨hq.list.frame (h.eq (r := .list c) ⟨hc, .inl rfl⟩ hlist)
    (h.eq (r := .list c) ⟨hc, .inr rfl⟩ hlist) fun x hmem => (hx x hmem).2.1,
    fun x hmem => (hx x hmem).1⟩, List.map_congr_left fun x hmem => (hx x hmem).2.2⟩

theorem sendOk {pc : SendPc} (hs : SendOk L m own j pc) (ho : o ≠ .sender j)
    (hi : own i ≠ .sender j) : SendOk L m' own' j pc := by
  cases pc with
  | idle => trivial
  | allocated => exact ⟨hs.1, (h.holds ho hi hs.2).1⟩
  | filled =>
    obtain ⟨hx, -, hmsg⟩ := h.holds ho hi hs.2.1
    exact ⟨hs.1, hx, hmsg.trans hs.2.2⟩

theorem getOk {pc : GetPc} (hg : GetOk L own c pc) (ho : o ≠ .receiver c)
    (hi : own i ≠ .receiver c) : GetOk L own' c pc ∧ pc.inFlight m' = pc.inFlight m := by
  cases pc with
  | idle => exact ⟨trivial, rfl⟩
  | popped =>
    obtain ⟨hx, -, hmsg⟩ := h.holds ho hi hg.2
    exact ⟨⟨hg.1, hx⟩, by rw [GetPc.inFlight, GetPc.inFlight, hmsg]⟩
  | copied => exact ⟨⟨hg.1, (h.holds ho hi hg.2).1⟩, rfl⟩

theorem cacheOk (hcache : CacheOk L m own) (ho : o ≠ .free) (hi : own i ≠ .free)
    (hi' : own' i ≠ .free) : CacheOk L m' own' := by
  obtain ⟨slabs, live, hcache, hslabs, hlive⟩ := hcache
  have hsame : ∀ a, Cell.cache.Has L a → m' a = m a := fun a ha =>
    h.eq ha (by cases o <;> simp_all [Touched])
  refine ⟨slabs, live, hcache.frame (fun a h1 h2 => hsame a (.inl ⟨h1, h2⟩))
    (fun p hp a h1 h2 => hsame a (.inr ?_)) (fun p hp x hx => hsame x (.inr ?_)), hslabs,
    fun j hj => ?_⟩
  · rw [List.mem_singleton.mp (hslabs hp)] at h1 h2
    simp only [pageSize]
    omega
  · obtain ⟨j, hj, rfl⟩ := exists_slot hslabs hp hx
    simp only [MsgLayout.slotNum, MsgLayout.slot, pageSize] at *
    omega
  · by_cases hji : j = i
    · subst hji
      simp [hlive j hj, hi, hi']
    · rw [hlive j hj, h.others j hji]

end

/-- What the cache does for one node leaves the nodes alone that others have. -/
theorem of_cache (hi : i < MsgLayout.slotNum)
    (hout : ∀ a, ¬ InCache L.oc [L.slab] a → m' a = m a)
    (hnodes : ∀ j < MsgLayout.slotNum, j ≠ i → own j ≠ .free →
      ∀ a, L.node j ≤ a → a < L.node j + 24 → m' a = m a) :
    Handover L own (Function.update own i o) m m' i .free := by
  refine ⟨hi, fun k hk => Function.update_of_ne hk _ _, fun a ha => ?_⟩
  by_cases hin : InCache L.oc [L.slab] a
  · have hcache := ha .cache trivial
    simp only [InCache, List.mem_singleton, exists_eq_left] at hin
    simp only [Cell.Has] at hcache
    -- The node that the address lies in.
    obtain ⟨j, hj, hlo, hhi⟩ : ∃ j < MsgLayout.slotNum, L.node j ≤ a ∧ a < L.node j + 24 := by
      refine ⟨(a - L.slab - 64) / 32, ?_⟩
      simp only [MsgLayout.slotNum, MsgLayout.node, MsgLayout.slot, pageSize] at *
      omega
    have hother : ¬ (j = i ∨ own j = .free) := by
      intro htouched
      have hlink := ha (.queueLink j) htouched
      have hbody := ha (.body j) htouched
      simp only [Cell.Has, hj, true_and] at hlink hbody
      omega
    exact hnodes j hj (fun heq => hother (.inl heq)) (fun heq => hother (.inr heq)) a hlo hhi
  · exact hout a hin

end Handover

/-! ## The steps -/

theorem CacheOk.alloc (h : CacheOk L m own) (hr : (objcacheAlloc m L.oc L.slab).1 ≠ 0)
    (ho : o ≠ .free) :
    let r := objcacheAlloc m L.oc L.slab
    ∃ j < MsgLayout.slotNum, r.1 = L.node j ∧ own j = .free ∧
      Handover L own (Function.update own j o) m r.2 j .free ∧
      CacheOk L r.2 (Function.update own j o) := by
  obtain ⟨slabs, live, hcache, hslabs, hlive⟩ := h
  have hafter : IsCache.slabsAfter m L.oc L.slab slabs ⊆ [L.slab] := by
    unfold IsCache.slabsAfter
    split
    · exact List.append_subset.mpr ⟨hslabs, List.Subset.refl _⟩
    · exact hslabs
  obtain ⟨hcache', -, hout, hobjs⟩ := hcache.alloc L.slab fits_node L.oc_ne (pagesOk hafter)
  rw [if_pos hr] at hcache'
  obtain ⟨p, hp, x, hx, hnode⟩ := hcache'.live_slot List.mem_cons_self
  obtain ⟨j, hj, rfl⟩ := exists_slot hafter hp hx
  have hfree : own j = .free := by
    by_contra hne
    exact (List.nodup_cons.mp (hcache'.live_nodup fits_node)).1 (hnode ▸ (hlive j hj).mpr hne)
  refine ⟨j, hj, hnode, hfree, .of_cache hj (fun a ha => hout a fun hin => ha (hin.mono hafter))
    fun k hk _ hne => hobjs _ ((hlive k hk).mpr hne), _, _, hcache', hafter, fun k hk => ?_⟩
  have hmem : L.node k ∈ (objcacheAlloc m L.oc L.slab).1 :: live ↔ k = j ∨ own k ≠ .free := by
    rw [List.mem_cons, hnode, ← hlive k hk]
    exact or_congr_left node_inj
  by_cases hkj : k = j
  · subst hkj
    simp [hmem, ho]
  · simp [hmem, hkj]

theorem CacheOk.release (h : CacheOk L m own) (hi : i < MsgLayout.slotNum) (hown : own i ≠ .free) :
    let m' := (objcacheFree m L.oc (L.node i)).2
    Handover L own (Function.update own i .free) m m' i .free ∧
      CacheOk L m' (Function.update own i .free) := by
  obtain ⟨slabs, live, hcache, hslabs, hlive⟩ := h
  obtain ⟨hcache', hout, hobjs⟩ := hcache.release fits_node (by decide) L.oc_ne (pagesOk hslabs)
    ((hlive i hi).mpr hown)
  refine ⟨.of_cache hi (fun a ha => hout a fun hin => ha (hin.mono hslabs)) fun k hk hki hne =>
    hobjs _ ((hlive k hk).mpr hne) fun heq => hki (node_inj.mp heq), slabs, _, hcache', hslabs,
    fun k hk => ?_⟩
  rw [(hcache.live_nodup fits_node).mem_erase_iff, hlive k hk, ne_eq, node_inj]
  by_cases hki : k = i
  · subst hki
    simp
  · simp [hki]

theorem Inv.history_keep (inv : Inv L s own nodes)
    (h : Handover L own own' s.m m' i o) (hc : c < L.cpuNum) (hq : o ≠ .queue c)
    (hr : o ≠ .receiver c) (hiq : own i ≠ .queue c) (hir : own i ≠ .receiver c) :
    s.pushed c = s.obtained c ++ (s.get c).inFlight m' ++ (nodes c).map (readMsg m') := by
  rw [(h.queueOk hc (inv.queue c hc) hq hiq).2, (h.getOk (inv.get c) hr hir).2]
  exact inv.history c hc

variable {trgt : Nat} {msg : CpuMsg}

section

variable (inv : Inv L s own nodes)

include inv

theorem Inv.fill (hs : s.send i = .allocated trgt msg x) :
    ∃ own nodes, Inv L { s with
      m := writeMsg s.m x msg
      send := Function.update s.send i (.filled trgt msg x) } own nodes := by
  obtain ⟨htrgt, j, hj, rfl, hown⟩ : SendOk L s.m own i (.allocated trgt msg x) := hs ▸ inv.send i
  have h : Handover L own own s.m (writeMsg s.m (L.node j) msg) j (.sender i) := by
    refine ⟨hj, fun _ _ => rfl, fun a ha => ?_⟩
    have hne : ∀ k, 8 ≤ k → k < 24 → a ≠ L.node j + k := by
      rintro k hlo hhi rfl
      exact ha (.body j) rfl (Cell.has_body hj hlo hhi)
    rw [writeMsg, Function.update_of_ne (hne 16 (by decide) (by decide)),
      Function.update_of_ne (hne 8 (by decide) (by decide))]
  have hcache := h.cacheOk inv.cache (by simp) (by simp [hown]) (by simp [hown])
  refine ⟨own, nodes, hcache,
    fun c hc => (h.queueOk hc (inv.queue c hc) (by simp) (by simp [hown])).1,
    (Function.forall_update_iff s.send (SendOk L _ own)).mpr
      ⟨⟨htrgt, ⟨j, hj, rfl, hown⟩, readMsg_writeMsg ..⟩, fun k hk =>
        h.sendOk (inv.send k) (by simp [Ne.symm hk]) (by simp [hown, Ne.symm hk])⟩,
    inv.get,
    fun c hc => inv.history_keep h hc (by simp) (by simp) (by simp [hown]) (by simp [hown])⟩

theorem Inv.push (hs : s.send i = .filled trgt msg x) :
    ∃ own nodes, Inv L { s with
      m := listPush s.m (L.cpuIf trgt) x
      send := Function.update s.send i .idle
      pushed := Function.update s.pushed trgt (s.pushed trgt ++ [msg]) } own nodes := by
  obtain ⟨htrgt, ⟨j, hj, rfl, hown⟩, hmsg⟩ : SendOk L s.m own i (.filled trgt msg x) :=
    hs ▸ inv.send i
  have hq := inv.queue trgt htrgt
  obtain ⟨hne0, hhead, htail⟩ := node_apart hj htrgt
  have h : Handover L own (Function.update own j (.queue trgt)) s.m
      (listPush s.m (L.cpuIf trgt) (L.node j)) j (.queue trgt) := by
    refine ⟨hj, fun k hk => Function.update_of_ne hk _ _, fun a ha =>
      hq.list.push_frame hne0 hhead htail (fun heq => ha (.list trgt) rfl ⟨htrgt, .inl heq⟩)
        (fun heq => ha (.list trgt) rfl ⟨htrgt, .inr heq⟩) ?_ fun hx => ?_⟩
    · rintro rfl
      exact ha (.queueLink j) (.inl rfl) (Cell.has_queueLink hj)
    · obtain ⟨k, hk, rfl, hk'⟩ := hq.holds a hx
      exact ha (.queueLink k) (.inr hk') (Cell.has_queueLink hk)
  have hself : Holds L (Function.update own j (.queue trgt)) (L.node j) (.queue trgt) :=
    ⟨j, hj, rfl, Function.update_self ..⟩
  refine ⟨_, Function.update nodes trgt (nodes trgt ++ [L.node j]),
    h.cacheOk inv.cache (by simp) (by simp [hown]) (by simp), fun c hc => ?_,
    (Function.forall_update_iff s.send (SendOk L _ _)).mpr ⟨trivial, fun k hk =>
      h.sendOk (inv.send k) (by simp) (by simp [hown, Ne.symm hk])⟩,
    fun c => (h.getOk (inv.get c) (by simp) (by simp [hown])).1, fun c hc => ?_⟩
  · by_cases hct : c = trgt
    · subst hct
      rw [Function.update_self]
      refine ⟨hq.list.push hne0 hhead htail fun hx => (hq.holds _ hx).ne_node (by simp [hown]) rfl,
        fun y hy => ?_⟩
      rcases List.mem_append.mp hy with hy | hy
      · obtain ⟨k, hk, rfl, hk'⟩ := hq.holds y hy
        exact ⟨k, hk, rfl, (h.others k (by rintro rfl; simp [hown] at hk')).trans hk'⟩
      · exact List.mem_singleton.mp hy ▸ hself
    · rw [Function.update_of_ne hct]
      exact (h.queueOk hc (inv.queue c hc) (by simp [Ne.symm hct]) (by simp [hown])).1
  · by_cases hct : c = trgt
    · subst hct
      -- Linking the node into the queue changes no message.
      have hread : ∀ y ∈ nodes c, readMsg (listPush s.m (L.cpuIf c) (L.node j)) y =
          readMsg s.m y := by
        intro y hy
        obtain ⟨k, hk, rfl, -⟩ := hq.holds y hy
        exact h.readMsg_eq hk id
      simp only [Function.update_self, (h.getOk (inv.get c) (by simp) (by simp [hown])).2]
      rw [inv.history c hc, List.map_append, List.map_singleton, List.map_congr_left hread,
        h.readMsg_eq hj id, hmsg, List.append_assoc]
    · simp only [Function.update_of_ne hct]
      exact inv.history_keep h hc (by simp [Ne.symm hct]) (by simp) (by simp [hown])
        (by simp [hown])

theorem Inv.pop {xs : List Nat} (hc : c < L.cpuNum) (hs : s.get c = .idle)
    (hnodes : nodes c = x :: xs) :
    ∃ own nodes, Inv L { s with
      m := (listPop s.m (L.cpuIf c)).2
      get := Function.update s.get c (.popped x) } own nodes := by
  have hq : QueueOk L s.m own c (x :: xs) := hnodes ▸ inv.queue c hc
  obtain ⟨j, hj, rfl, hown⟩ := hq.holds x (by simp)
  have h : Handover L own (Function.update own j (.receiver c)) s.m
      (listPop s.m (L.cpuIf c)).2 j (.queue c) := by
    refine ⟨hj, fun k hk => Function.update_of_ne hk _ _, fun a ha => hq.list.pop_frame ?_
      (fun heq => ha (.list c) rfl ⟨hc, .inl heq⟩) (fun heq => ha (.list c) rfl ⟨hc, .inr heq⟩)⟩
    rintro rfl
    exact ha (.queueLink j) (.inl rfl) (Cell.has_queueLink hj)
  refine ⟨_, Function.update nodes c xs,
    h.cacheOk inv.cache (by simp) (by simp [hown]) (by simp), fun d hd => ?_,
    fun k => h.sendOk (inv.send k) (by simp) (by simp [hown]),
    (Function.forall_update_iff s.get (GetOk L _)).mpr
      ⟨⟨hc, j, hj, rfl, Function.update_self ..⟩,
        fun d _ => (h.getOk (inv.get d) (by simp) (by simp [hown])).1⟩, fun d hd => ?_⟩
  · by_cases hdc : d = c
    · subst hdc
      rw [Function.update_self]
      refine ⟨hq.list.pop, fun y hy => ?_⟩
      obtain ⟨k, hk, rfl, hk'⟩ := hq.holds y (List.mem_cons_of_mem _ hy)
      refine ⟨k, hk, rfl, (h.others k ?_).trans hk'⟩
      rintro rfl
      exact (List.nodup_cons.mp hq.list.chain.nodup).1 hy
    · rw [Function.update_of_ne hdc]
      exact (h.queueOk hd (inv.queue d hd) (by simp [Ne.symm hdc]) (by simp [hown, Ne.symm hdc])).1
  · by_cases hdc : d = c
    · subst hdc
      have hread : ∀ y ∈ xs, readMsg (listPop s.m (L.cpuIf d)).2 y = readMsg s.m y := by
        intro y hy
        obtain ⟨k, hk, rfl, -⟩ := hq.holds y (List.mem_cons_of_mem _ hy)
        exact h.readMsg_eq hk id
      simp only [Function.update_self, GetPc.inFlight, h.readMsg_eq hj id,
        List.map_congr_left hread]
      rw [inv.history d hd, hs, hnodes]
      simp [GetPc.inFlight]
    · simp only [Function.update_of_ne hdc]
      exact inv.history_keep h hd (by simp [Ne.symm hdc]) (by simp) (by simp [hown, Ne.symm hdc])
        (by simp [hown])

theorem Inv.copy (hs : s.get c = .popped x) :
    ∃ own nodes, Inv L { s with
      get := Function.update s.get c (.copied x (readMsg s.m x)) } own nodes := by
  have hget : GetOk L own c (.popped x) := hs ▸ inv.get c
  refine ⟨own, nodes, inv.cache, inv.queue, inv.send,
    (Function.forall_update_iff s.get (GetOk L own)).mpr ⟨hget, fun d _ => inv.get d⟩,
    fun d hd => ?_⟩
  have hhist := inv.history d hd
  by_cases hdc : d = c
  · subst hdc
    rw [hs] at hhist
    simpa [GetPc.inFlight] using hhist
  · simpa only [Function.update_of_ne hdc] using hhist

theorem Inv.release (hs : s.get c = .copied x msg) :
    ∃ own nodes, Inv L { s with
      m := (objcacheFree s.m L.oc x).2
      get := Function.update s.get c .idle
      obtained := Function.update s.obtained c (s.obtained c ++ [msg]) } own nodes := by
  obtain ⟨hc, j, hj, rfl, hown⟩ : GetOk L own c (.copied x msg) := hs ▸ inv.get c
  obtain ⟨h, hcache⟩ := inv.cache.release hj (by simp [hown])
  have hqueue := fun d hd => h.queueOk hd (inv.queue d hd) (by simp) (by simp [hown])
  refine ⟨_, nodes, hcache, fun d hd => (hqueue d hd).1,
    fun k => h.sendOk (inv.send k) (by simp) (by simp [hown]),
    (Function.forall_update_iff s.get (GetOk L _)).mpr ⟨trivial, fun d hd =>
      (h.getOk (inv.get d) (by simp) (by simp [hown, Ne.symm hd])).1⟩, fun d hd => ?_⟩
  by_cases hdc : d = c
  · subst hdc
    have hhist := inv.history d hd
    rw [hs] at hhist
    simpa [GetPc.inFlight, (hqueue d hd).2] using hhist
  · simp only [Function.update_of_ne hdc]
    exact inv.history_keep h hd (by simp) (by simp) (by simp [hown])
      (by simp [hown, Ne.symm hdc])

theorem Inv.alloc (htrgt : trgt < L.cpuNum) (hr : (objcacheAlloc s.m L.oc L.slab).1 ≠ 0) :
    ∃ own nodes, Inv L { s with
      m := (objcacheAlloc s.m L.oc L.slab).2
      send := Function.update s.send i (.allocated trgt msg (objcacheAlloc s.m L.oc L.slab).1) }
      own nodes := by
  obtain ⟨j, hj, hnode, hown, h, hcache⟩ := inv.cache.alloc hr (show Owner.sender i ≠ .free by simp)
  exact ⟨_, nodes, hcache,
    fun c hc => (h.queueOk hc (inv.queue c hc) (by simp) (by simp [hown])).1,
    (Function.forall_update_iff s.send (SendOk L _ _)).mpr
      ⟨⟨htrgt, j, hj, hnode, Function.update_self ..⟩,
        fun k _ => h.sendOk (inv.send k) (by simp) (by simp [hown])⟩,
    fun c => (h.getOk (inv.get c) (by simp) (by simp [hown])).1,
    fun c hc => inv.history_keep h hc (by simp) (by simp) (by simp [hown]) (by simp [hown])⟩

end

theorem Inv.step {a : QueueAction} (inv : ∃ own nodes, Inv L s own nodes)
    (ht : s.step L a = some t) : ∃ own nodes, Inv L t own nodes := by
  obtain ⟨own, nodes, inv⟩ := inv
  cases a with
  | alloc i trgt msg =>
    simp only [QueueState.step] at ht
    split at ht
    · split at ht <;> cases ht
      rename_i hr
      exact inv.alloc hr.1 hr.2
    · cases ht
  | fill i =>
    simp only [QueueState.step] at ht
    split at ht <;> cases ht
    exact inv.fill ‹_›
  | push i =>
    simp only [QueueState.step] at ht
    split at ht <;> cases ht
    exact inv.push ‹_›
  | pop c =>
    simp only [QueueState.step] at ht
    split at ht
    · split at ht <;> cases ht
      rename_i hs hc
      have hlist := (inv.queue c hc).list
      cases hnodes : nodes c with
      | nil =>
        have hsame : Function.update s.get c .idle = s.get := by rw [← hs, Function.update_eq_self]
        rw [hnodes] at hlist
        rw [hlist.pop_nil]
        simp only [ne_eq, not_true_eq_false, if_false, hsame]
        exact ⟨own, nodes, inv⟩
      | cons x xs =>
        rw [hnodes] at hlist
        rw [hlist.pop_apply.1, if_pos (hlist.chain.ne_zero (by simp))]
        exact inv.pop hc hs hnodes
    · cases ht
  | copy c =>
    simp only [QueueState.step] at ht
    split at ht <;> cases ht
    exact inv.copy ‹_›
  | release c =>
    simp only [QueueState.step] at ht
    split at ht <;> cases ht
    exact inv.release ‹_›

/-! ## The result -/

theorem foldl_listInit (n : Nat) (m : Memory) :
    let m' := (List.range n).foldl (fun m c => listInit m (L.cpuIf c)) m
    ∀ c < n, m' (L.cpuIf c) = 0 ∧ m' (L.cpuIf c + 8) = 0 := by
  have hpos : ∀ c, L.cpuIf c ≠ 0 := fun c => by
    have := L.cpuIfBase_ne
    simp only [MsgLayout.cpuIf]; omega
  induction n with
  | zero => intro m' c hc; omega
  | succ n ih =>
    intro m' c hc
    simp only [m', List.range_succ, List.foldl_append, List.foldl_cons, List.foldl_nil, listInit,
      hpos n, ne_eq, not_false_eq_true, if_true]
    by_cases hcn : c = n
    · subst hcn; simp
    · simp only [MsgLayout.cpuIf, pageSize] at ih ⊢
      rw [Function.update_of_ne (by omega), Function.update_of_ne (by omega),
        Function.update_of_ne (by omega), Function.update_of_ne (by omega)]
      exact ih c (by omega)

theorem Inv.initial (m : Memory) :
    ∃ own nodes, Inv L (initial L m) own nodes := by
  obtain ⟨hcache, hframe⟩ := IsCache.init
    ((List.range L.cpuNum).foldl (fun m c => listInit m (L.cpuIf c)) m) L.oc 24
  refine ⟨fun _ => .free, fun _ => [], ⟨[], [], hcache, by simp, by simp⟩, fun c hc => ?_,
    fun _ => trivial, fun _ => trivial, by simp [QueueState.initial, GetPc.inFlight]⟩
  have hcpu := L.oc_cpuIf
  have hpos := L.cpuIfBase_ne
  have hzero := foldl_listInit (L := L) L.cpuNum m c hc
  have hout : ∀ a, a = L.cpuIf c ∨ a = L.cpuIf c + 8 → ¬ InCache L.oc [] a := by
    rintro a ha (hin | ⟨p, hp, -⟩)
    · simp only [MsgLayout.cpuIf, pageSize] at ha hcpu
      omega
    · cases hp
  refine ⟨⟨by simp only [MsgLayout.cpuIf]; omega, ?_, ?_, by simp, by simp⟩, by simp⟩
  · exact (hframe _ (hout _ (.inl rfl))).trans hzero.1
  · exact (hframe _ (hout _ (.inr rfl))).trans hzero.2

/-- For every interleaving of senders and receivers: the messages pushed to a cpu are those it has
obtained, the one it is just taking if there is one, and those that its list in memory holds, in
this order and with unaltered contents. -/
theorem cpuMsg_exactlyOnce {L : MsgLayout} {m : Memory} {as : List QueueAction} {s : QueueState}
    (h : run (QueueState.step L) (QueueState.initial L m) as = some s) {c : Nat}
    (hc : c < L.cpuNum) :
    ∃ nodes, IsList s.m (L.cpuIf c) nodes ∧
      s.pushed c = s.obtained c ++ (s.get c).inFlight s.m ++ nodes.map (readMsg s.m) := by
  obtain ⟨own, nodes, inv⟩ :=
    run_invariant (I := fun s => ∃ own nodes, Inv L s own nodes)
      (fun _ _ _ hs ht => Inv.step hs ht) (Inv.initial m) h
  exact ⟨nodes c, (inv.queue c hc).list, inv.history c hc⟩

/-- A layout for two cpus. -/
def twoCpus : MsgLayout :=
  ⟨0x1000, 0x4000, 2, 0x10000, by decide, by decide, by decide, by decide, by decide, by decide,
    by decide⟩

/-- Senders 5 and 6 race to cpu 1, which takes the first message while the second is filled in. -/
theorem cpuMsg_exactlyOnce_race : ∃ s : QueueState,
    run (QueueState.step twoCpus) (QueueState.initial twoCpus fun _ => 0)
      [.alloc 5 1 ⟨0, 1, 7⟩, .alloc 6 1 ⟨2, 3, 8⟩, .fill 6, .push 6, .pop 1, .fill 5, .copy 1,
        .push 5, .release 1] = some s ∧
    s.obtained 1 = [⟨2, 3, 8⟩] ∧
    ∃ nodes, IsList s.m (twoCpus.cpuIf 1) nodes ∧
      s.pushed 1 = s.obtained 1 ++ (s.get 1).inFlight s.m ++ nodes.map (readMsg s.m) := by
  refine exists_some_of (by decide +kernel) fun s h hobtained => ⟨hobtained, ?_⟩
  exact cpuMsg_exactlyOnce h (by decide)

end QueueState

end Bao
