import Bao.Foundation.Loop
import Bao.Lib.List

/-!
# Taking a node out of a list

`list_rm` walks to the node and lets the word before it point behind it. It has no case for the two
ends of the list: before the first node there is no word but the head, so `temp_prev` is `NULL` when
it is written through, and the tail is not moved when the last node goes. A node in between is taken
out as it should be, and a node that is not in the list changes nothing.
-/

namespace Bao

open Foundation

/-- The local variables of `list_rm`. -/
structure ListRm where
  temp : Nat
  tempPrev : Nat := 0

/-- What `list_rm` does when its loop is left: the memory, or `none` when it writes through
`NULL`. -/
def listRmUnlink (m : Memory) (node : Nat) (s : ListRm) : Option Memory :=
  if s.temp ≠ 0 ∧ s.temp = node then
    if s.tempPrev ≠ 0 then some (Function.update m s.tempPrev (m s.temp)) else none
  else some m

def listRmRound (m : Memory) (node : Nat) (s : ListRm) : Round ListRm (Option Memory) :=
  if s.temp ≠ 0 ∧ s.temp ≠ node then .again { temp := m s.temp, tempPrev := s.temp }
  else .exit (listRmUnlink m node s)

/-- `list_rm` ends with the outcome `out`, which is `none` for an access through `NULL`. -/
def ListRm.Yields (m : Memory) (l node : Nat) (out : Option Memory) : Prop :=
  if l ≠ 0 ∧ node ≠ 0 then Ends (listRmRound m node) { temp := m l } out else out = some m

/-- The memories with a list at `l` that was set up by `list_init` and then changed by `list_push`
of nodes that are not in it and by `list_pop`, while words that are neither in the list nor in its
head may change at any time. -/
inductive ListReached (l : Nat) : Memory → Prop
  | init (m : Memory) (hl : l ≠ 0) : ListReached l (listInit m l)
  | push {m : Memory} {node : Nat} (h : ListReached l m) (hhead : node ≠ l) (htail : node ≠ l + 8)
    (fresh : ∀ xs, Chain m (m l) xs → node ∉ xs) : ListReached l (listPush m l node)
  | pop {m : Memory} (h : ListReached l m) : ListReached l (listPop m l).2
  | other {m m' : Memory} (h : ListReached l m) (hhead : m' l = m l)
    (htail : m' (l + 8) = m (l + 8)) (same : ∀ xs, Chain m (m l) xs → ∀ x ∈ xs, m' x = m x) :
    ListReached l m'

variable {m : Memory} {l node : Nat} {xs : List Nat}

theorem ListReached.exists_isList (h : ListReached l m) : ∃ xs, IsList m l xs := by
  induction h with
  | init m hl => exact ⟨[], IsList.init m hl⟩
  | @push m node _ hhead htail fresh ih =>
    obtain ⟨xs, hxs⟩ := ih
    by_cases hnode : node = 0
    · refine ⟨xs, ?_⟩
      rwa [listPush, if_neg fun h => h.2 hnode]
    · exact ⟨xs ++ [node], hxs.push hnode hhead htail (fresh xs hxs.chain)⟩
  | pop _ ih =>
    obtain ⟨xs, hxs⟩ := ih
    cases xs with
    | nil => exact ⟨[], by rwa [hxs.pop_nil]⟩
    | cons x xs => exact ⟨xs, hxs.pop⟩
  | other _ hhead htail same ih =>
    obtain ⟨xs, hxs⟩ := ih
    exact ⟨xs, hxs.frame hhead htail (same xs hxs.chain)⟩

/-! ## The walk -/

variable {as bs cs ds : List Nat} {out : Option Memory} {z : Nat}

theorem ends_listRmRound_of_skip {ys : List Nat} {p prev : Nat} (h : Chain m p (as ++ ys))
    (hnode : node ∉ as) (hrest : ∀ q, Chain m q ys →
      Ends (listRmRound m node) { temp := q, tempPrev := as.getLast?.getD prev } out) :
    Ends (listRmRound m node) { temp := p, tempPrev := prev } out := by
  induction as generalizing p prev with
  | nil => exact hrest p h
  | cons x as ih =>
    obtain ⟨rfl, hp0, hchain⟩ := h
    have hround : listRmRound m node { temp := p, tempPrev := prev } =
        .again { temp := m p, tempPrev := p } :=
      if_pos ⟨hp0, fun heq => hnode (by simp [show p = node from heq])⟩
    refine ends_of_again hround (ih hchain (fun hmem => hnode (List.mem_cons_of_mem _ hmem)) ?_)
    intro q hq
    have hlast : (p :: as).getLast?.getD prev = as.getLast?.getD p := by
      cases as <;> simp [List.getLast?_cons]
    exact hlast ▸ hrest q hq

theorem IsList.yields_of_notMem (h : IsList m l xs) (hnode : node ∉ xs) :
    ListRm.Yields m l node (some m) := by
  unfold ListRm.Yields
  split
  · have hchain : Chain m (m l) (xs ++ []) := by simpa using h.chain
    refine ends_listRmRound_of_skip hchain hnode fun q hq => ?_
    obtain rfl : q = 0 := hq
    exact ends_of_exit (by simp [listRmRound, listRmUnlink])
  · rfl

theorem IsList.notMem_front (h : IsList m l (as ++ node :: bs)) : node ∉ as := by
  intro hmem
  exact (List.nodup_append.mp h.chain.nodup).2.2 node hmem node (by simp) rfl

theorem IsList.yields_of_mem (h : IsList m l (as ++ node :: bs)) :
    ListRm.Yields m l node
      (as.getLast?.map fun prev => Function.update m prev (m node)) := by
  have hnode : node ≠ 0 := h.chain.ne_zero (by simp)
  rw [ListRm.Yields, if_pos ⟨h.ne_zero, hnode⟩]
  refine ends_listRmRound_of_skip h.chain h.notMem_front fun q hq => ?_
  obtain rfl : q = node := hq.1
  refine ends_of_exit ?_
  rw [listRmRound, if_neg fun h => h.2 rfl, listRmUnlink, if_pos ⟨hnode, rfl⟩]
  cases hlast : as.getLast? with
  | none => simp
  | some z =>
    have hz : z ≠ 0 := h.chain.ne_zero (List.mem_append_left _ (List.mem_of_getLast? hlast))
    simp [hz]

theorem ListRm.Yields.unique {out' : Option Memory} (h : ListRm.Yields m l node out)
    (h' : ListRm.Yields m l node out') : out = out' := by
  unfold ListRm.Yields at h h'
  split at h
  · rename_i hl
    rw [if_pos hl] at h'
    exact h'.unique h
  · rename_i hl
    rw [if_neg hl] at h'
    exact h.trans h'.symm

/-! ## The list afterwards -/

theorem IsList.bypass {y : Nat} (h : IsList m l (as ++ z :: node :: y :: bs)) :
    IsList (Function.update m z (m node)) l (as ++ z :: y :: bs) := by
  have hmem : ∀ a ∈ as ++ z :: y :: bs, a ∈ as ++ z :: node :: y :: bs := by
    intro a ha
    simp only [List.mem_append, List.mem_cons] at ha ⊢
    tauto
  have hz : z ∈ as ++ z :: node :: y :: bs := by simp
  have hzl : l ≠ z := fun heq => h.head_notMem (heq ▸ hz)
  have hzt : l + 8 ≠ z := fun heq => h.tail_notMem (heq ▸ hz)
  refine ⟨h.ne_zero, ?_, ?_, fun ha => h.head_notMem (hmem l ha),
    fun ha => h.tail_notMem (hmem _ ha)⟩
  · rw [Function.update_of_ne hzl]
    refine h.chain.bypass (Function.update_self ..) fun a ha => Function.update_of_ne ?_ ..
    rintro rfl
    have hnodup := List.nodup_middle.mp h.chain.nodup
    refine (List.nodup_cons.mp hnodup).1 ?_
    simp only [List.mem_append, List.mem_cons] at ha ⊢
    tauto
  · rw [Function.update_of_ne hzt, h.tail]
    simp [List.getLast?_append, List.getLast?_cons]

theorem IsList.not_isList_of_last (h : IsList m l (as ++ [z] ++ [node])) :
    ¬IsList (Function.update m z (m node)) l (as ++ [z]) := by
  intro hlist
  have hz : z ≠ node := fun heq => h.notMem_front (by simp [heq])
  have hzt : l + 8 ≠ z := fun heq => h.tail_notMem (by simp [heq])
  have htail := hlist.tail
  rw [Function.update_of_ne hzt, h.tail] at htail
  exact hz (by simpa using htail.symm)

theorem head?_ne_of_nodup (h : (cs ++ node :: ds).Nodup) (hcs : cs ≠ []) :
    (cs ++ node :: ds).head? ≠ some node := by
  cases cs with
  | nil => exact absurd rfl hcs
  | cons c cs =>
    intro hhead
    obtain rfl : c = node := by simpa using hhead
    simp at h

theorem getLast?_ne_of_nodup (h : (cs ++ node :: ds).Nodup) (hds : ds ≠ []) :
    (cs ++ node :: ds).getLast? ≠ some node := by
  cases ds with
  | nil => exact absurd rfl hds
  | cons d ds =>
    intro hlast
    rw [List.getLast?_append, List.getLast?_cons_cons] at hlast
    have hmem : node ∈ d :: ds := List.mem_of_getLast? (by simpa [List.getLast?_cons] using hlast)
    exact (List.nodup_cons.mp (List.nodup_append.mp h).2.1).1 hmem

/-- For a list that was set up and used by the other functions, `list_rm` accesses nothing through
`NULL` and leaves the list without the node, just when the node is not in the list or is neither its
first nor its last one. -/
theorem listRm_removes_iff (h : ListReached l m) : ∃ xs, IsList m l xs ∧ ∀ node,
    (∃ m', ListRm.Yields m l node (some m') ∧ IsList m' l (xs.erase node)) ↔
      node ∉ xs ∨ xs.head? ≠ some node ∧ xs.getLast? ≠ some node := by
  obtain ⟨xs, hxs⟩ := h.exists_isList
  refine ⟨xs, hxs, fun node => ?_⟩
  by_cases hmem : node ∈ xs
  swap
  · refine iff_of_true ⟨m, hxs.yields_of_notMem hmem, ?_⟩ (.inl hmem)
    rwa [List.erase_of_not_mem hmem]
  obtain ⟨as, bs, rfl⟩ := List.append_of_mem hmem
  have hyields := hxs.yields_of_mem
  rw [List.erase_append_right _ hxs.notMem_front, List.erase_cons_head]
  rcases List.eq_nil_or_concat as with rfl | ⟨as, z, rfl⟩
  · -- the first node
    refine iff_of_false ?_ (by simp)
    rintro ⟨m', hm', -⟩
    cases hm'.unique hyields
  rw [List.concat_eq_append, List.getLast?_concat, Option.map_some] at hyields
  rw [List.concat_eq_append] at hxs ⊢
  cases bs with
  | nil =>
    refine iff_of_false ?_ (by simp)
    rintro ⟨m', hm', hlist⟩
    cases hm'.unique hyields
    rw [List.append_nil] at hlist
    exact hxs.not_isList_of_last hlist
  | cons y bs =>
    have hnodup := hxs.chain.nodup
    refine iff_of_true ⟨_, hyields, ?_⟩
      (.inr ⟨head?_ne_of_nodup hnodup (by simp), getLast?_ne_of_nodup hnodup (by simp)⟩)
    rw [List.append_assoc, List.singleton_append] at hxs ⊢
    exact hxs.bypass

theorem ListReached.push_isList (node : Nat) (h : ListReached l m) (hxs : IsList m l xs)
    (hnode : node ≠ 0) (hhead : node ≠ l) (htail : node ≠ l + 8) (hnew : node ∉ xs) :
    ListReached l (listPush m l node) ∧ IsList (listPush m l node) l (xs ++ [node]) :=
  ⟨h.push hhead htail fun _ hys => hxs.chain.unique hys ▸ hnew,
    hxs.push hnode hhead htail hnew⟩

/-- A list at 100 with the nodes 200, 300 and 400. -/
def threeNodes : Memory :=
  listPush (listPush (listPush (listInit (fun _ => 0) 100) 100 200) 100 300) 100 400

theorem listReached_threeNodes :
    ListReached 100 threeNodes ∧ IsList threeNodes 100 [200, 300, 400] := by
  have h0 : ListReached 100 (listInit (fun _ => 0) 100) := .init _ (by decide)
  obtain ⟨h1, hl1⟩ := h0.push_isList 200 (IsList.init _ (by decide)) (by decide)
    (by decide) (by decide) (by decide)
  obtain ⟨h2, hl2⟩ := h1.push_isList 300 hl1 (by decide) (by decide) (by decide)
    (by decide)
  exact h2.push_isList 400 hl2 (by decide) (by decide) (by decide) (by decide)

/-- The middle one of three nodes is taken out. -/
theorem listRm_removes_middle : ListReached 100 threeNodes ∧
    ∃ m', ListRm.Yields threeNodes 100 300 (some m') ∧ IsList m' 100 [200, 400] := by
  obtain ⟨hreach, hlist⟩ := listReached_threeNodes
  obtain ⟨xs, hxs, hiff⟩ := listRm_removes_iff hreach
  obtain rfl := hlist.chain.unique hxs.chain
  exact ⟨hreach, (hiff 300).2 (.inr ⟨by decide, by decide⟩)⟩

/-- Taking out the first node writes through `NULL`. After taking out the last one the tail points
to it, and a node that is then pushed is not in the list. -/
theorem listRm_ends : ListReached 100 threeNodes ∧ ListRm.Yields threeNodes 100 200 none ∧
    ∃ m', ListRm.Yields threeNodes 100 400 (some m') ∧ m' 108 = 400 ∧
      Chain (listPush m' 100 500) (listPush m' 100 500 100) [200, 300] := by
  obtain ⟨hreach, hlist⟩ := listReached_threeNodes
  have hfirst : IsList threeNodes 100 ([] ++ 200 :: [300, 400]) := hlist
  have hlast : IsList threeNodes 100 ([200, 300] ++ 400 :: []) := hlist
  refine ⟨hreach, hfirst.yields_of_mem, _, hlast.yields_of_mem, by decide, ?_⟩
  exact ⟨by decide, by decide, by decide, by decide, rfl⟩

end Bao
