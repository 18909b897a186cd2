import Bao.Core.MemInflate

/-!
# Reserving virtual pages

What `mem_alloc_vpage` does to an address space when it returns pages: they were neither mapped nor
reserved, all of them and no others get reserved, and no translation changes. Its first loop creates
tables and counts blocks of several sizes whose entries are free; its second loop goes through the
same blocks again and marks their entries.

Addresses are taken modulo the range of the root table.
-/

namespace Bao

/-! ## Runs of free blocks -/

/-- `n` pages from `va` on are blocks of entries that are neither valid nor reserved. -/
inductive FreeRun (pt : PageTable) (mem : PhysMem) : (va n : Nat) → Prop
  | nil (va : Nat) : FreeRun pt mem va 0
  | cons {va lvl pte n : Nat} (entry : PtEntry pt mem va lvl pte) (lvl_lt : lvl < 3)
      (invalid : pteValid (mem pte) = false) (free : pteCheckRsw (mem pte) pteRswRsrv = false)
      (aligned : va % ptLvlsize pt lvl = 0) (rest : FreeRun pt mem (va + ptLvlsize pt lvl) n) :
      FreeRun pt mem va (lvlPages lvl + n)

/-- The address lies in none of the `n` pages from `va` on. -/
def OutOf (pt : PageTable) (va n a : Nat) : Prop :=
  ∀ k < n * pageSize, a % ptSpan pt ≠ (va + k) % ptSpan pt

theorem OutOf.blockOf_ne {pt : PageTable} {va n lvl a : Nat} (hrv : pt.Rv64) (hl : lvl < 3)
    (hout : OutOf pt va n a) (aligned : va % ptLvlsize pt lvl = 0) (hn : lvlPages lvl ≤ n) :
    blockOf pt a lvl ≠ blockOf pt va lvl := by
  intro hblock
  obtain ⟨hlo, hhi⟩ := (blockOf_eq_iff hrv hl aligned a).mp hblock
  have hle := Nat.mul_le_mul_right pageSize hn
  rw [← hrv.lvlsize_eq hl] at hle
  refine hout (a % ptSpan pt - va % ptSpan pt) (by omega) ?_
  rw [← Nat.mod_add_mod, Nat.add_sub_cancel' hlo, Nat.mod_mod]

theorem OutOf.drop {pt : PageTable} {va n lvl a : Nat} (hrv : pt.Rv64) (hl : lvl < 3)
    (hout : OutOf pt va (lvlPages lvl + n) a) : OutOf pt (va + ptLvlsize pt lvl) n a := by
  intro k hk
  have := hout (ptLvlsize pt lvl + k) (by rw [Nat.add_mul, ← hrv.lvlsize_eq hl]; omega)
  rwa [← Nat.add_assoc] at this

namespace FreeRun

variable {pt : PageTable} {mem mem' : PhysMem} {va n lvl pte a : Nat}

theorem snoc (hrv : pt.Rv64) (run : FreeRun pt mem va n) (hl : lvl < 3)
    (entry : PtEntry pt mem (va + n * pageSize) lvl pte) (invalid : pteValid (mem pte) = false)
    (free : pteCheckRsw (mem pte) pteRswRsrv = false)
    (aligned : (va + n * pageSize) % ptLvlsize pt lvl = 0) :
    FreeRun pt mem va (n + lvlPages lvl) := by
  induction run with
  | nil va =>
    rw [Nat.zero_mul, Nat.add_zero] at entry aligned
    rw [Nat.zero_add, ← Nat.add_zero (lvlPages lvl)]
    exact .cons entry hl invalid free aligned (.nil _)
  | @cons va lvl' pte' n entry' hl' invalid' free' aligned' rest ih =>
    have hva : va + (lvlPages lvl' + n) * pageSize = va + ptLvlsize pt lvl' + n * pageSize := by
      rw [Nat.add_mul, hrv.lvlsize_eq hl', Nat.add_assoc]
    rw [hva] at entry aligned
    rw [Nat.add_assoc]
    exact .cons entry' hl' invalid' free' aligned' (ih entry aligned)

theorem free_page (hrv : pt.Rv64) (run : FreeRun pt mem va n) {k : Nat} (hk : k < n * pageSize) :
    memTranslate pt mem (va + k) = none ∧ pageReserved pt mem (va + k) = false := by
  induction run generalizing k with
  | nil va => omega
  | @cons va lvl pte n entry hl invalid free aligned rest ih =>
    rw [Nat.add_mul, ← hrv.lvlsize_eq hl] at hk
    by_cases hin : k < ptLvlsize pt lvl
    · have hentry := entry.of_block hrv hl aligned (Nat.le_add_right va k) (by omega)
      have hleaf := pteTable_of_invalid invalid
      exact ⟨by rw [hentry.translate hrv hl hleaf, if_neg (by simp [invalid])],
        by rw [hentry.reserved hrv hl hleaf, free]⟩
    · have := ih (k := k - ptLvlsize pt lvl) (by omega)
      rwa [show va + ptLvlsize pt lvl + (k - ptLvlsize pt lvl) = va + k by omega] at this

theorem congr_mem (hrv : pt.Rv64) (tree : PtTree pt mem) (run : FreeRun pt mem va n)
    (h : PtEntry pt mem a lvl pte) (hout : OutOf pt va n a)
    (hentry : ∀ {b l q}, PtEntry pt mem b l q → PtEntry pt mem' b l q)
    (hmem : ∀ {b l q}, PtEntry pt mem b l q → q ≠ pte → mem' q = mem q) :
    FreeRun pt mem' va n := by
  induction run with
  | nil va => exact .nil va
  | @cons va lvl' q n entry hl invalid free aligned rest ih =>
    have hne : q ≠ pte := by
      rintro rfl
      obtain ⟨rfl, hblock⟩ := tree.inj entry h
      exact hout.blockOf_ne hrv hl aligned (by omega) hblock.symm
    exact .cons (hentry entry) hl (by rw [hmem entry hne, invalid]) (by rw [hmem entry hne, free])
      aligned (ih (hout.drop hrv hl))

end FreeRun

/-! ## The second loop -/

theorem mod_ne_of_lt {x y m : Nat} (hlt : x < y) (hspan : y < x + m) : x % m ≠ y % m := by
  intro heq
  have hdvd : m ∣ y - x := Nat.dvd_of_mod_eq_zero (Nat.sub_mod_eq_zero_of_mod_eq heq.symm)
  have := Nat.le_of_dvd (by omega) hdvd
  omega

theorem PtEntry.firstInvalid {pt : PageTable} {mem : PhysMem} {va lvl pte j left : Nat}
    (h : PtEntry pt mem va lvl pte) (hinv : pteValid (mem pte) = false) (hj : j ≤ lvl)
    (hleft : lvl < j + left) : firstInvalid pt mem va left j = some (lvl, pte) := by
  induction left generalizing j with
  | zero => omega
  | succ left ih =>
    rw [Bao.firstInvalid]
    rcases Nat.eq_or_lt_of_le hj with rfl | hlt
    · simp only [h.getPte, hinv, Bool.false_eq_true, if_false]
    · obtain ⟨q, hq, htable⟩ := h.above hlt
      simp only [hq.getPte, pteTable_valid htable, if_true]
      exact ih hlt (by omega)

variable {clr : Colors} {as : AddrSpace} {rel : Bool} {used used₀ : Set Nat} {s s₀ s' : MemState}
  {n pte : Nat}

section Reserve

variable {va lvl : Nat}

theorem AsState.translate_mark (hs : AsState clr as rel used s)
    (h : PtEntry as.pt s.mem va lvl pte) (hinv : pteValid (s.mem pte) = false) {w : Word}
    (hw : pteValid w = false) (a : Nat) :
    memTranslate as.pt (s.write pte w).mem a = memTranslate as.pt s.mem a := by
  have hl := hs.tree.lvl_lt h
  by_cases hblock : blockOf as.pt a lvl = blockOf as.pt va lvl
  · rw [(h.congr_va hs.rv64 hl hblock.symm).translate hs.rv64 hl (pteTable_of_invalid hinv),
      if_neg (by simp [hinv])]
    exact hs.tree.translate_write_none h (pteTable_of_invalid hw) hs.rv64 hblock hw
  · exact hs.tree.translate_write_of_ne h hs.rv64 hblock

theorem AsState.reserved_mark (hs : AsState clr as rel used s)
    (h : PtEntry as.pt s.mem va lvl pte) (hinv : pteValid (s.mem pte) = false) (a : Nat) :
    pageReserved as.pt (s.write pte (pteSetRsw (s.mem pte) pteRswRsrv)).mem a =
      if blockOf as.pt a lvl = blockOf as.pt va lvl then true else pageReserved as.pt s.mem a := by
  have hl := hs.tree.lvl_lt h
  have hw : pteTable (pteSetRsw (s.mem pte) pteRswRsrv) = false :=
    pteTable_of_invalid (by rw [pteValid_pteSetRsw, hinv])
  split
  · rename_i hblock
    have hentry := (PtTree.entry_write_of_leaf (w := pteSetRsw (s.mem pte) pteRswRsrv)
      (pteTable_of_invalid hinv) h).congr_va hs.rv64 hl hblock.symm
    rw [MemState.write, hentry.reserved hs.rv64 hl (by rw [Function.update_self, hw]),
      Function.update_self, pteCheckRsw_pteSetRsw]
  · rename_i hblock
    exact hs.tree.reserved_congr hs.rv64 fun _ _ hq =>
      Function.update_of_ne (hs.tree.write_ne h hq (.inr hblock)) _ _

/-- The second loop of `mem_alloc_vpage` on a free run reserves it and changes nothing else. -/
theorem AsState.vpageReserve {addr m n count left : Nat} (hs : AsState clr as rel used s)
    (run : FreeRun as.pt s.mem addr m) (hspan : m * pageSize ≤ ptSpan as.pt) (hn : count + m = n)
    (hleft : m ≤ left) :
    ∃ s', vpageReserve as n left addr count s = some s' ∧
      AsState clr as rel used s' ∧ Grows as.pt used s used s' ∧
      (∀ a, memTranslate as.pt s'.mem a = memTranslate as.pt s.mem a) ∧
      (∀ k < m * pageSize, pageReserved as.pt s'.mem (addr + k) = true) ∧
      ∀ a, OutOf as.pt addr m a → pageReserved as.pt s'.mem a = pageReserved as.pt s.mem a := by
  induction left generalizing s addr m count with
  | zero =>
    obtain rfl : m = 0 := by omega
    exact ⟨s, rfl, hs, .refl _ _ _, fun _ => rfl, fun k hk => by omega, fun _ _ => rfl⟩
  | succ left ih =>
    have hrv := hs.rv64
    rw [Bao.vpageReserve]
    cases run with
    | nil =>
      rw [if_neg (by omega)]
      exact ⟨s, rfl, hs, .refl _ _ _, fun _ => rfl, fun k hk => by omega, fun _ _ => rfl⟩
    | @cons _ lvl pte m entry hl invalid free aligned rest =>
      have hpages := lvlPages_pos lvl
      have hsize := hrv.lvlsize_eq hl
      rw [Nat.add_mul, ← hsize] at hspan
      have hw : pteValid (pteSetRsw (s.mem pte) pteRswRsrv) = false := by
        rw [pteValid_pteSetRsw, invalid]
      have hs₁ : AsState clr as rel used (s.write pte (pteSetRsw (s.mem pte) pteRswRsrv)) :=
        hs.write (pteTable_of_invalid hw)
      -- The block and the rest of the run have no address in common.
      have hapart : ∀ k < ptLvlsize as.pt lvl,
          OutOf as.pt (addr + ptLvlsize as.pt lvl) m (addr + k) := fun k hk j hj =>
        mod_ne_of_lt (by omega) (by omega)
      have hrest := rest.congr_mem hrv hs.tree entry
        (by simpa using hapart 0 (hrv.lvlsize_pos hl))
        (PtTree.entry_write_of_leaf (pteTable_of_invalid invalid))
        (fun _ hne => Function.update_of_ne hne (pteSetRsw (s.mem pte) pteRswRsrv) s.mem)
      obtain ⟨s', hok, hs', hgrows, htrans, hin, hout⟩ := ih hs₁ hrest
        (by omega) (show count + lvlPages lvl + m = n by omega) (by omega)
      rw [if_pos (by omega), hrv.lvls, entry.firstInvalid invalid (Nat.zero_le lvl) (by omega)]
      simp only [hrv.lvlsize_div hl]
      have hmark := hs.reserved_mark entry invalid
      refine ⟨s', hok, hs', (Grows.write entry (pteTable_of_invalid hw)).comp hgrows, fun a => ?_,
        fun k hk => ?_, fun a ha => ?_⟩
      · rw [htrans, hs.translate_mark entry invalid hw]
      · rw [Nat.add_mul, ← hsize] at hk
        by_cases hk' : k < ptLvlsize as.pt lvl
        · rw [hout _ (hapart k hk'), hmark, if_pos]
          exact (blockOf_of_lt hrv hl aligned (by omega) (by omega)).symm
        · have := hin (k - ptLvlsize as.pt lvl) (by omega)
          rwa [show addr + ptLvlsize as.pt lvl + (k - ptLvlsize as.pt lvl) = addr + k by omega]
            at this
      · rw [hout a (ha.drop hrv hl), hmark, if_neg (ha.blockOf_ne hrv hl aligned (by omega))]

end Reserve

/-! ## The first loop -/

/-- Where a search that counts has begun. -/
def VpageScan.start (c : VpageScan) : Nat := if c.count = 0 then c.addr else c.vpage

/-- The search behind the block it is at; behind the last block of a table it begins again at the
root table. -/
def VpageScan.behind (pt : PageTable) (c : VpageScan) : VpageScan :=
  { c with
    lvl := if ptGetpteindexByVa pt c.addr c.lvl + 1 < ptNentries pt c.lvl then c.lvl else 0
    addr := u64 (c.addr + ptLvlsize pt c.lvl) }

/-- The entry is a leaf or marked as reserved. -/
def PteTaken (w : Word) : Prop :=
  pteCheckRsw w pteRswRsrv = true ∨ pteValid w = true ∧ pteTable w = false

/-- The steps of the search at an entry, as long as it does not fail. -/
inductive EntryStep (clr : Colors) (as : AddrSpace) (at_ n pte : Nat) (c : VpageScan)
    (s : MemState) : VpageScan → MemState → Prop
  | restart (hat : at_ = 0) (taken : PteTaken (s.mem pte)) (leaf : pteTable (s.mem pte) = false) :
      EntryStep clr as at_ n pte c s
        (VpageScan.behind as.pt { c with count := 0, vpage := 0, failed := false }) s
  | restartTable (hat : at_ = 0) (taken : PteTaken (s.mem pte))
      (table : pteTable (s.mem pte) = true) :
      EntryStep clr as at_ n pte c s
        { c with lvl := c.lvl + 1, count := 0, vpage := 0, failed := false } s
  | count (free : ¬ PteTaken (s.mem pte)) (invalid : pteValid (s.mem pte) = false)
      (allocable : pteAllocable as (s.mem pte) c.lvl (n - c.count) c.addr = true) :
      EntryStep clr as at_ n pte c s (VpageScan.behind as.pt
        { c with vpage := c.start, count := c.count + lvlPages c.lvl }) s
  | newTable {base : Nat} {s' : MemState} (free : ¬ PteTaken (s.mem pte))
      (invalid : pteValid (s.mem pte) = false) (lvl_lt : c.lvl + 1 < 3)
      (large : pteAllocable as (s.mem pte) c.lvl (n - c.count) c.addr = false)
      (alloc : memAllocPt clr as pte c.lvl c.addr s = .ok (base, s')) :
      EntryStep clr as at_ n pte c s { c with lvl := c.lvl + 1 } s'
  | table (free : ¬ PteTaken (s.mem pte)) (table : pteTable (s.mem pte) = true) :
      EntryStep clr as at_ n pte c s { c with lvl := c.lvl + 1 } s

/-- A step of the search. -/
def ScanStep (clr : Colors) (as : AddrSpace) (at_ n : Nat) (x y : VpageScan × MemState) : Prop :=
  x.1.count < n ∧ ∃ pte, PtEntry as.pt x.2.mem x.1.addr x.1.lvl pte ∧
    EntryStep clr as at_ n pte x.1 x.2 y.1 y.2

/-- A step that goes on in the same table. -/
def StayStep (clr : Colors) (as : AddrSpace) (at_ n : Nat) (x y : VpageScan × MemState) : Prop :=
  ScanStep clr as at_ n x y ∧ y.1.lvl = x.1.lvl ∧
    ptGetpteindexByVa as.pt x.1.addr x.1.lvl + 1 < ptNentries as.pt x.1.lvl

/-- What the inner loop does: it stays in its table until the last step. When there are pages to go,
that leads to the table below or back to the root table, behind the last entry if the root table is
aligned. -/
def TableRun (clr : Colors) (as : AddrSpace) (at_ n : Nat) (x z : VpageScan × MemState) : Prop :=
  ∃ y, Relation.ReflTransGen (StayStep clr as at_ n) x y ∧ ScanStep clr as at_ n y z ∧
    (z.1.count < n → z.1.lvl = y.1.lvl + 1 ∨ z.1.lvl = 0 ∧ (as.pt.root % ptSize as.pt 0 = 0 →
      ¬ ptGetpteindexByVa as.pt y.1.addr y.1.lvl + 1 < ptNentries as.pt y.1.lvl))

section Entry

variable {c : VpageScan}

theorem not_pteTaken {w : Word} : ¬ PteTaken w ↔
    pteCheckRsw w pteRswRsrv = false ∧ (pteValid w = true → pteTable w = true) := by
  simp [PteTaken]

/-- An iteration of the inner loop of `mem_alloc_vpage` is a step, unless there is no new table or
the hint fails. -/
theorem vpageTable_succ (clr : Colors) (hrv : as.pt.Rv64) (hl : c.lvl < 3) (at_ left : Nat)
    (hfail : c.failed = false) (hlt : c.count < n) (h : PtEntry as.pt s.mem c.addr c.lvl pte)
    (hnew : c.lvl + 1 < 3 → pteValid (s.mem pte) = false → ∀ base s',
      memAllocPt clr as pte c.lvl c.addr s = .ok (base, s') →
        PtEntry as.pt s'.mem c.addr c.lvl pte ∧ pteTable (s'.mem pte) = true) :
    (c.lvl + 1 < 3 ∧ pteValid (s.mem pte) = false ∧
      ∃ e, memAllocPt clr as pte c.lvl c.addr s = .error e ∧
        vpageTable clr as at_ n (left + 1) pte c s = .error e) ∨
      (at_ ≠ 0 ∧ ∃ c', vpageTable clr as at_ n (left + 1) pte c s = .ok (c', s) ∧
        c'.failed = true ∧ c'.vpage = 0) ∨
      (∃ c' s' q, EntryStep clr as at_ n pte c s c' s' ∧ c'.failed = false ∧
        c'.lvl = c.lvl + 1 ∧ PtEntry as.pt s'.mem c'.addr c'.lvl q ∧
        vpageTable clr as at_ n (left + 1) pte c s = .ok (c', s')) ∨
      ∃ c' : VpageScan, EntryStep clr as at_ n pte c s (c'.behind as.pt) s ∧ c'.failed = false ∧
        c'.addr = c.addr ∧ c'.lvl = c.lvl ∧ (at_ ≠ 0 → c'.count = c.count + lvlPages c.lvl) ∧
        vpageTable clr as at_ n (left + 1) pte c s =
          if left = 0 then
            .ok ({ c' with lvl := 0, addr := u64 (c.addr + ptLvlsize as.pt c.lvl) }, s)
          else vpageTable clr as at_ n left (pte + 8)
            { c' with addr := u64 (c.addr + ptLvlsize as.pt c.lvl) } s := by
  have htaken : PteTaken (s.mem pte) ↔ (pteCheckRsw (s.mem pte) pteRswRsrv ||
      (pteValid (s.mem pte) && !pteTable (s.mem pte))) = true := by
    simp [PteTaken]
  rw [vpageTable, if_pos hlt]
  by_cases htk : PteTaken (s.mem pte)
  · simp only [vpageEntry, if_pos (htaken.mp htk)]
    by_cases hat : at_ = 0
    · simp only [hat, ne_eq, not_true_eq_false, decide_false, Bool.false_eq_true, if_false]
      cases htable : pteTable (s.mem pte) with
      | true =>
        exact .inr (.inr (.inl ⟨_, s, _, .restartTable rfl htk htable, rfl, rfl, h.next htable,
          rfl⟩))
      | false =>
        exact .inr (.inr (.inr ⟨_, .restart rfl htk htable, rfl, rfl, rfl, by simp, rfl⟩))
    · simp only [decide_eq_true hat, if_true]
      exact .inr (.inl ⟨hat, _, rfl, rfl, rfl⟩)
  obtain ⟨hfree, htab⟩ := not_pteTaken.mp htk
  simp only [vpageEntry, if_neg (mt htaken.mpr htk)]
  cases hv : pteValid (s.mem pte) with
  | true =>
    exact .inr (.inr (.inl ⟨_, s, _, .table htk (htab hv), hfail, rfl, h.next (htab hv),
      by simp [hfail, htab hv]⟩))
  | false =>
    simp only [Bool.not_false, if_true]
    cases hallocable : pteAllocable as (s.mem pte) c.lvl (n - c.count) c.addr with
    | true =>
      refine .inr (.inr (.inr ⟨_, .count htk hv hallocable, hfail, rfl, rfl, fun _ => rfl, ?_⟩))
      simp only [if_true, hfail, Bool.false_eq_true, if_false, pteTable_of_invalid hv,
        hrv.lvlsize_div hl, VpageScan.start]
    | false =>
      -- A page can always be counted, so there is a level below this one.
      have hl1 : c.lvl + 1 < 3 := by
        by_contra hlast
        have : c.lvl = as.pt.dscr.lvls - 1 := by rw [hrv.lvls]; omega
        simp [pteAllocable, this] at hallocable
      simp only [Bool.false_eq_true, if_false]
      cases halloc : memAllocPt clr as pte c.lvl c.addr s with
      | error e => exact .inl ⟨hl1, trivial, e, rfl, rfl⟩
      | ok r =>
        obtain ⟨hentry, htable⟩ := hnew hl1 hv r.1 r.2 halloc
        refine .inr (.inr (.inl ⟨_, r.2, _, .newTable htk hv hl1 hallocable halloc, hfail, rfl,
          hentry.next htable, ?_⟩))
        simp [Except.map, hfail, htable]

theorem pteAllocable_fits {w : Word} {lvl left addr : Nat} (hrv : as.pt.Rv64) (hl : lvl < 3)
    (hleft : 0 < left) (hpage : addr % pageSize = 0)
    (h : pteAllocable as w lvl left addr = true) :
    lvlPages lvl ≤ left ∧ addr % ptLvlsize as.pt lvl = 0 := by
  simp only [pteAllocable, hrv.lvls, Bool.or_eq_true, Bool.and_eq_true, decide_eq_true_eq] at h
  rcases h with rfl | ⟨⟨-, hfits⟩, hmod⟩
  · exact ⟨hleft, by rwa [hrv.lvlsize hl]⟩
  · rw [hrv.lvlsize_eq hl] at hfits
    exact ⟨Nat.le_of_mul_le_mul_right hfits (by decide), hmod⟩

end Entry

/-- What holds during the search: the pages counted so far are a free run that ends at the address
of the search, and nothing has changed for the translation and the reservations. -/
structure Scan (clr : Colors) (as : AddrSpace) (rel : Bool) (used₀ : Set Nat) (s₀ : MemState)
    (at_ n : Nat) (c : VpageScan) (s : MemState) : Prop where
  state : AsReach clr as rel used₀ s₀ s
  trans : ∀ a, memTranslate as.pt s.mem a = memTranslate as.pt s₀.mem a
  reserved : ∀ a, pageReserved as.pt s.mem a = pageReserved as.pt s₀.mem a
  count_le : c.count ≤ n
  run : FreeRun as.pt s.mem c.start c.count
  page : c.start % pageSize = 0
  addr : c.addr % ptSpan as.pt = (c.start + c.count * pageSize) % ptSpan as.pt
  hint : at_ ≠ 0 → c.start = pageOf at_

namespace Scan

variable {at_ left : Nat} {c c' : VpageScan}

theorem addr_mod (hsc : Scan clr as rel used₀ s₀ at_ n c s) (hrv : as.pt.Rv64) {lvl : Nat}
    (hl : lvl < 3) :
    c.addr % ptLvlsize as.pt lvl = (c.start + c.count * pageSize) % ptLvlsize as.pt lvl := by
  have hdvd := lvlsize_dvd_span hrv hl
  rw [← Nat.mod_mod_of_dvd _ hdvd, hsc.addr, Nat.mod_mod_of_dvd _ hdvd]

theorem addr_page (hsc : Scan clr as rel used₀ s₀ at_ n c s) (hrv : as.pt.Rv64) :
    c.addr % pageSize = 0 := by
  have hmod := hsc.addr_mod hrv (show 2 < 3 by decide)
  rw [hrv.lvlsize (by decide)] at hmod
  exact hmod.trans ((Nat.add_mul_mod_self_right _ _ _).trans hsc.page)

theorem outOf (hsc : Scan clr as rel used₀ s₀ at_ n c s) (hspan : n * pageSize ≤ ptSpan as.pt)
    (hlt : c.count < n) : OutOf as.pt c.start c.count c.addr := by
  intro k hk
  have := Nat.mul_lt_mul_of_pos_right hlt (show 0 < pageSize by decide)
  rw [hsc.addr]
  exact (mod_ne_of_lt (by omega) (by omega)).symm

theorem u64_mod_span (hrv : as.pt.Rv64) (x : Nat) : u64 x % ptSpan as.pt = x % ptSpan as.pt := by
  refine Nat.mod_mod_of_dvd _ ?_
  rcases hrv.nentries_zero with h | h <;> rw [ptSpan, h, hrv.lvlsize (by decide)] <;> decide

theorem entry_behind (hrv : as.pt.Rv64) {a lvl pte : Nat} (hl : lvl < 3)
    (h : PtEntry as.pt s.mem a lvl pte)
    (hin : ptGetpteindexByVa as.pt a lvl + 1 < ptNentries as.pt lvl) :
    PtEntry as.pt s.mem (u64 (a + ptLvlsize as.pt lvl)) lvl (pte + 8) ∧
      ptGetpteindexByVa as.pt (u64 (a + ptLvlsize as.pt lvl)) lvl =
        ptGetpteindexByVa as.pt a lvl + 1 := by
  have hblock : blockOf as.pt (a + ptLvlsize as.pt lvl) lvl =
      blockOf as.pt (u64 (a + ptLvlsize as.pt lvl)) lvl := by
    rw [blockOf_eq hrv hl, blockOf_eq hrv hl, u64_mod_span hrv]
  refine ⟨(h.next_block hrv hl hin).congr_va hrv hl hblock, ?_⟩
  rw [← hrv.index_next hl hin]
  exact index_eq_of_blockOf_eq hrv hl hblock.symm

theorem entryStep (hsc : Scan clr as rel used₀ s₀ at_ n c s) (hspan : n * pageSize ≤ ptSpan as.pt)
    (hlt : c.count < n) (h : PtEntry as.pt s.mem c.addr c.lvl pte)
    (hstep : EntryStep clr as at_ n pte c s c' s') : Scan clr as rel used₀ s₀ at_ n c' s' := by
  obtain ⟨used, hs, hgrows⟩ := hsc.state
  have hrv := hs.rv64
  have hl := hs.tree.lvl_lt h
  have hpage := hsc.addr_page hrv
  cases hstep with
  | restart hat taken leaf =>
    have hmod : u64 (c.addr + ptLvlsize as.pt c.lvl) % pageSize = 0 := by
      have hdvd : u64 (c.addr + ptLvlsize as.pt c.lvl) % pageSize = _ :=
        Nat.mod_mod_of_dvd _ (by decide)
      rw [hdvd, hrv.lvlsize_eq hl, Nat.add_mul_mod_self_right, hpage]
    exact ⟨hsc.state, hsc.trans, hsc.reserved, Nat.zero_le n, .nil _, hmod,
      congrArg (· % _) (by simp [VpageScan.start, VpageScan.behind]), fun hne => absurd hat hne⟩
  | restartTable hat taken table =>
    exact ⟨hsc.state, hsc.trans, hsc.reserved, Nat.zero_le n, .nil _, hpage,
      congrArg (· % _) (by simp [VpageScan.start]), fun hne => absurd hat hne⟩
  | count free invalid allocable =>
    obtain ⟨hfits, haligned⟩ := pteAllocable_fits hrv hl (by omega) hpage allocable
    have hpages := lvlPages_pos c.lvl
    have hstart : VpageScan.start (VpageScan.behind as.pt
        { c with vpage := c.start, count := c.count + lvlPages c.lvl }) = c.start :=
      if_neg (by simp only [VpageScan.behind]; omega)
    have hblock : blockOf as.pt c.addr c.lvl =
        blockOf as.pt (c.start + c.count * pageSize) c.lvl := by
      rw [blockOf_eq hrv hl, blockOf_eq hrv hl, hsc.addr]
    refine ⟨hsc.state, hsc.trans, hsc.reserved, ?_, ?_, ?_, ?_, ?_⟩
    · simp only [VpageScan.behind]
      omega
    · rw [hstart]
      exact hsc.run.snoc hrv hl (h.congr_va hrv hl hblock) invalid (not_pteTaken.mp free).1
        (hsc.addr_mod hrv hl ▸ haligned)
    · rw [hstart]
      exact hsc.page
    · rw [hstart]
      simp only [VpageScan.behind, u64_mod_span hrv]
      rw [Nat.add_mod, hsc.addr, ← Nat.add_mod, Nat.add_mul, ← hrv.lvlsize_eq hl, Nat.add_assoc]
    · rw [hstart]
      exact hsc.hint
  | newTable free invalid lvl_lt large alloc =>
    obtain herr | ⟨base, s₁, hok, hs', hgrows', new⟩ := hs.allocPt h lvl_lt invalid
    · rw [herr] at alloc
      cases alloc
    rw [hok] at alloc
    cases alloc
    refine ⟨⟨_, hs', hgrows.comp hgrows'⟩, fun a => ?_, fun a => ?_, hsc.count_le, ?_, hsc.page,
      hsc.addr, hsc.hint⟩
    · rw [PtTree.translate_newPt hs.tree hrv h lvl_lt new, hsc.trans]
    · rw [PtTree.reserved_newPt hs.tree hrv h lvl_lt new (not_pteTaken.mp free).1, hsc.reserved]
    · exact hsc.run.congr_mem hrv hs.tree h (hsc.outOf hspan hlt) new.entry new.split.mem_eq
  | table free table =>
    exact ⟨hsc.state, hsc.trans, hsc.reserved, hsc.count_le, hsc.run, hsc.page, hsc.addr, hsc.hint⟩

theorem step {x y : VpageScan × MemState} (hspan : n * pageSize ≤ ptSpan as.pt)
    (hsc : Scan clr as rel used₀ s₀ at_ n x.1 x.2) (step : ScanStep clr as at_ n x y) :
    Scan clr as rel used₀ s₀ at_ n y.1 y.2 := by
  obtain ⟨hlt, pte, h, hstep⟩ := step
  exact hsc.entryStep hspan hlt h hstep

theorem tableRun {x z : VpageScan × MemState} (hspan : n * pageSize ≤ ptSpan as.pt)
    (hsc : Scan clr as rel used₀ s₀ at_ n x.1 x.2) (run : TableRun clr as at_ n x z) :
    Scan clr as rel used₀ s₀ at_ n z.1 z.2 := by
  obtain ⟨y, steps, hlast, -⟩ := run
  suffices hy : Scan clr as rel used₀ s₀ at_ n y.1 y.2 from hy.step hspan hlast
  clear hlast
  induction steps with
  | refl => exact hsc
  | tail _ hstay ih => exact ih.step hspan hstay.1

theorem index_lt_of_fits (hsc : Scan clr as rel used₀ s₀ at_ n c s) (hrv : as.pt.Rv64)
    (hat : at_ ≠ 0)
    (hfits : pageOf at_ % ptSpan as.pt + n * pageSize ≤ ptSpan as.pt) (hlvl : c.lvl = 0)
    (hlt : c.count + lvlPages c.lvl < n) :
    ptGetpteindexByVa as.pt c.addr c.lvl + 1 < ptNentries as.pt c.lvl := by
  have hsize := hrv.lvlsize_eq (show 0 < 3 by decide)
  have hmul := Nat.mul_lt_mul_of_pos_right hlt (show 0 < pageSize by decide)
  rw [hlvl, Nat.add_mul, ← hsize] at hmul
  rw [hlvl]
  refine index_lt_of_room hrv ?_
  rw [hsc.addr, hsc.hint hat, ← Nat.mod_add_mod, Nat.mod_eq_of_lt (by omega)]
  omega

section

variable (hspan : n * pageSize ≤ ptSpan as.pt)
  (hfits : as.pt.root % ptSize as.pt 0 = 0 ∨
    at_ ≠ 0 ∧ pageOf at_ % ptSpan as.pt + n * pageSize ≤ ptSpan as.pt)
  (hsc : Scan clr as rel used₀ s₀ at_ n c s) (hfail : c.failed = false)

include hspan hfits hsc hfail

theorem vpageTableRun (hlt : c.count < n) (h : PtEntry as.pt s.mem c.addr c.lvl pte)
    (hleft : as.pt.root % ptSize as.pt 0 = 0 ∨ 0 < c.lvl →
      ptGetpteindexByVa as.pt c.addr c.lvl + left + 1 = ptNentries as.pt c.lvl) :
    vpageTable clr as at_ n (left + 1) pte c s = .error .noTable ∨
      (at_ ≠ 0 ∧ ∃ c' s', vpageTable clr as at_ n (left + 1) pte c s = .ok (c', s') ∧
        c'.failed = true ∧ c'.vpage = 0) ∨
      ∃ c' s', vpageTable clr as at_ n (left + 1) pte c s = .ok (c', s') ∧
        TableRun clr as at_ n (c, s) (c', s') ∧ c'.failed = false ∧
        (c'.count < n → ∃ q, PtEntry as.pt s'.mem c'.addr c'.lvl q) := by
  induction left using Nat.strong_induction_on generalizing c s pte with
  | _ left ih =>
  obtain ⟨used, hs, -⟩ := hsc.state
  have hrv := hs.rv64
  have hl := hs.tree.lvl_lt h
  obtain ⟨hl1, hinv, e, halloc, herr⟩ | ⟨hat, c', hok, hfailed, hzero⟩ |
    ⟨c', s', q, hstep, hgo, hlvl, hq, hok⟩ | ⟨c', hstep, hgo, haddr, hlvl, hcount, hok⟩ :=
      vpageTable_succ clr hrv hl at_ left hfail hlt h fun hl1 hinv _ _ hok => by
        obtain herr | ⟨_, _, hok', -, -, new⟩ := hs.allocPt h hl1 hinv
        · cases herr.symm.trans hok
        · cases hok'.symm.trans hok
          exact ⟨new.entry h, new.table⟩
  · obtain hno | ⟨_, _, hok, -⟩ := hs.allocPt h hl1 hinv
    · cases hno.symm.trans halloc
      exact .inl herr
    · cases hok.symm.trans halloc
  · exact .inr (.inl ⟨hat, c', s, hok, hfailed, hzero⟩)
  · exact .inr (.inr ⟨c', s', hok, ⟨_, .refl, ⟨hlt, pte, h, hstep⟩, fun _ => .inl hlvl⟩, hgo,
      fun _ => ⟨q, hq⟩⟩)
  obtain ⟨lvl', addr', count, vpage, failed⟩ := c'
  dsimp only at haddr hlvl hgo hcount hok
  subst haddr hlvl hgo
  -- The block was not the last one of the table, or the search is at the root table again.
  have hbehind : VpageScan.behind as.pt ⟨c.lvl, c.addr, count, vpage, false⟩ =
      ⟨if left = 0 then 0 else c.lvl, u64 (c.addr + ptLvlsize as.pt c.lvl), count, vpage,
        false⟩ := by
    simp only [VpageScan.behind, VpageScan.mk.injEq, and_true]
    by_cases hin : as.pt.root % ptSize as.pt 0 = 0 ∨ 0 < c.lvl
    · have hend := hleft hin
      split <;> split <;> omega
    · rw [show c.lvl = 0 by omega, ite_self, ite_self]
  rw [hbehind] at hstep
  have hsc' := hsc.entryStep hspan hlt h hstep
  have hscan : ScanStep clr as at_ n (c, s) (_, s) := ⟨hlt, pte, h, hstep⟩
  rw [hok]
  cases left with
  | zero =>
    exact .inr (.inr ⟨_, s, rfl, ⟨_, .refl, hscan, fun _ => .inr ⟨rfl, fun hroot => by
      simp only
      omega⟩⟩, rfl, fun _ => ⟨_, .root⟩⟩)
  | succ left =>
    rw [if_neg (Nat.succ_ne_zero left)] at hsc' hscan ⊢
    by_cases hlt' : count < n
    · have hin : ptGetpteindexByVa as.pt c.addr c.lvl + 1 < ptNentries as.pt c.lvl := by
        by_cases hin : as.pt.root % ptSize as.pt 0 = 0 ∨ 0 < c.lvl
        · have := hleft hin
          omega
        · obtain ⟨hat, hwin⟩ := hfits.resolve_left fun hroot => hin (.inl hroot)
          exact hsc.index_lt_of_fits hrv hat hwin (by omega) (by rw [← hcount hat]; exact hlt')
      obtain ⟨hnext, hindex⟩ := entry_behind hrv hl h hin
      obtain herr | hfailed | ⟨c', s', hok', ⟨y, steps, hlast⟩, hgo, hentry⟩ :=
        ih left (Nat.lt_succ_self left) hsc' rfl hlt' hnext fun hin => by
          have := hleft hin
          simp only [hindex]
          omega
      · exact .inl herr
      · exact .inr (.inl hfailed)
      · exact .inr (.inr ⟨c', s', hok', ⟨y, steps.head ⟨hscan, rfl, hin⟩, hlast⟩, hgo, hentry⟩)
    · rw [vpageTable, if_neg hlt']
      exact .inr (.inr ⟨_, s, rfl, ⟨_, .refl, hscan, fun h => absurd h hlt'⟩, rfl,
        fun h => absurd h hlt'⟩)

theorem vpageRound (hlt : c.count < n) (h : PtEntry as.pt s.mem c.addr c.lvl pte)
    (hleft : left = ptNentries as.pt c.lvl -
      ptGetpteindex as.pt pte c.lvl) :
    vpageTable clr as at_ n left pte c s = .error .noTable ∨
      (at_ ≠ 0 ∧ ∃ c' s', vpageTable clr as at_ n left pte c s = .ok (c', s') ∧
        c'.failed = true ∧ c'.vpage = 0) ∨
      ∃ c' s', vpageTable clr as at_ n left pte c s = .ok (c', s') ∧
        TableRun clr as at_ n (c, s) (c', s') ∧ c'.failed = false ∧
        (c'.count < n → ∃ q, PtEntry as.pt s'.mem c'.addr c'.lvl q) := by
  obtain ⟨used, hs, -⟩ := hsc.state
  have hl := hs.tree.lvl_lt h
  have hindex := hs.rv64.getpteindex_lt hl pte
  obtain ⟨left, rfl⟩ := Nat.exists_eq_succ_of_ne_zero (show left ≠ 0 by omega)
  refine hsc.vpageTableRun hspan hfits hfail hlt h fun hin => ?_
  have heq : ptGetpteindex as.pt pte c.lvl = ptGetpteindexByVa as.pt c.addr c.lvl := by
    rcases hin with hroot | hpos
    · exact h.getpteindex_of_aligned hs.rv64 hroot hl
    · obtain ⟨lvl, hlvl⟩ := Nat.exists_eq_succ_of_ne_zero hpos.ne'
      rw [hlvl] at h hl ⊢
      exact h.getpteindex hs.rv64 hl
  omega

theorem vpageSearchRun {sec : Section} {rounds : Nat}
    (hentry : c.count < n → ∃ q, PtEntry as.pt s.mem c.addr c.lvl q)
    (hok : vpageSearch clr as sec at_ n rounds c s = .ok (c', s')) :
    c'.vpage = 0 ∨ c'.failed = false ∧ c'.count = n ∧ Scan clr as rel used₀ s₀ at_ n c' s' := by
  induction rounds generalizing c s with
  | zero => cases hok
  | succ rounds ih =>
    rw [vpageSearch] at hok
    by_cases hlt : c.count < n
    · obtain ⟨q, h⟩ := hentry hlt
      obtain ⟨used, hs, -⟩ := hsc.state
      have hl := hs.tree.lvl_lt h
      rw [if_pos ⟨hlt, by rw [hfail]; rfl⟩, hs.rv64.lvls, if_neg (show ¬ 3 ≤ c.lvl by omega)] at hok
      split at hok
      · cases hok
        exact .inl rfl
      · simp only [h.getPte] at hok
        obtain herr | ⟨-, c₁, s₁, hround, hfailed, hzero⟩ | ⟨c₁, s₁, hround, run, hgo, hentry₁⟩ :=
          hsc.vpageRound hspan hfits hfail hlt h rfl
        · rw [herr] at hok
          cases hok
        · rw [hround] at hok
          cases rounds with
          | zero => cases hok
          | succ rounds =>
            simp only [vpageSearch, hfailed] at hok
            rw [if_neg (by simp)] at hok
            cases hok
            exact .inl hzero
        · rw [hround] at hok
          exact ih (hsc.tableRun hspan run) hgo hentry₁ hok
    · rw [if_neg fun h => hlt h.1] at hok
      cases hok
      have := hsc.count_le
      exact .inr ⟨hfail, by omega, hsc⟩

end

end Scan

/-! ## What is returned -/

/-- What `mem_alloc_vpage` does when it returns pages: they were neither mapped nor reserved, they
and no others get reserved, and no translation changes. -/
structure VpagesTaken (clr : Colors) (as : AddrSpace) (rel : Bool) (used : Set Nat) (at_ n : Nat)
    (s : MemState) (v : Nat) (s' : MemState) : Prop where
  state : AsReach clr as rel used s s'
  page : v % pageSize = 0
  hint : at_ ≠ 0 → v = pageOf at_
  pages : ∀ k < n * pageSize, memTranslate as.pt s.mem (v + k) = none ∧
    pageReserved as.pt s.mem (v + k) = false ∧ pageReserved as.pt s'.mem (v + k) = true
  outside : ∀ a, OutOf as.pt v n a → pageReserved as.pt s'.mem a = pageReserved as.pt s.mem a
  trans : ∀ a, memTranslate as.pt s'.mem a = memTranslate as.pt s.mem a

section Alloc

variable {section_ at_ rounds v : Nat}

theorem AsState.allocVpage (hs : AsState clr as rel used s) (hn : 1 ≤ n)
    (hspan : n * pageSize ≤ ptSpan as.pt)
    (hfits : as.pt.root % ptSize as.pt 0 = 0 ∨
      at_ ≠ 0 ∧ pageOf at_ % ptSpan as.pt + n * pageSize ≤ ptSpan as.pt)
    (hok : memAllocVpage clr as section_ at_ n rounds s = .ok (v, s')) (hv : v ≠ 0) :
    VpagesTaken clr as rel used at_ n s v s' := by
  simp only [memAllocVpage] at hok
  split at hok
  · cases hok
  rename_i sec hsec
  split at hok
  · cases hok
    exact absurd rfl hv
  split at hok
  · cases hok
  rename_i c s₁ hsearch
  have hstart :
      Scan clr as rel used s at_ n { addr := pageOf (if at_ ≠ 0 then at_ else sec.beg) } s := by
    refine ⟨hs.reach, fun _ => rfl, fun _ => rfl, Nat.zero_le n, .nil _, ?_, ?_, fun hat => ?_⟩
    · exact Nat.mul_mod_left _ _
    · simp [VpageScan.start]
    · simp [VpageScan.start, hat]
  obtain hzero | ⟨hgo, hcount, hsc⟩ :=
    hstart.vpageSearchRun hspan hfits rfl (fun _ => ⟨_, .root⟩) hsearch
  · rw [if_neg fun h => h.1 hzero] at hok
    cases hok
    exact absurd hzero hv
  have hvpage : c.start = c.vpage := if_neg (by omega)
  obtain ⟨used₁, hs₁, hgrows⟩ := hsc.state
  have hrun := hsc.run
  rw [hvpage, hcount] at hrun
  obtain ⟨s₂, hreserve, hs₂, hgrows₂, htrans, hin, hout⟩ :=
    hs₁.vpageReserve hrun hspan (Nat.zero_add n) le_rfl
  rw [hreserve] at hok
  obtain ⟨rfl, rfl⟩ : c.vpage = v ∧ s₂ = s' := by
    split at hok <;> rename_i hc
    · cases hok
      exact ⟨rfl, rfl⟩
    · cases hok
      exact absurd ⟨hv, by rw [hgo]; rfl⟩ hc
  refine ⟨⟨used₁, hs₂, hgrows.comp hgrows₂⟩, hvpage ▸ hsc.page,
    fun hat => hvpage ▸ hsc.hint hat, fun k hk => ?_,
    fun a ha => ?_, fun a => ?_⟩
  · obtain ⟨hnone, hfree⟩ := hrun.free_page hs.rv64 hk
    exact ⟨by rw [← hsc.trans, hnone], by rw [← hsc.reserved, hfree], hin k hk⟩
  · rw [hout a ha, hsc.reserved]
  · rw [htrans, hsc.trans]

/-- `mem_alloc_vpage` returns pages that were neither mapped nor reserved. It reserves them and no
others, and it changes no translation. The pages are the hint's if there is one; with a hint, the
root table need not be aligned as long as the pages do not go over its end. -/
theorem memAllocVpage_fresh (hs : AsState clr as rel used s) (hn : 1 ≤ n)
    (hspan : n * pageSize ≤ ptSpan as.pt)
    (hfits : as.pt.root % ptSize as.pt 0 = 0 ∨
      at_ ≠ 0 ∧ pageOf at_ % ptSpan as.pt + n * pageSize ≤ ptSpan as.pt)
    (hok : memAllocVpage clr as section_ at_ n rounds s = .ok (v, s')) (hv : v ≠ 0) :
    v % pageSize = 0 ∧ (at_ ≠ 0 → v = pageOf at_) ∧
      (∀ k < n * pageSize, memTranslate as.pt s.mem (v + k) = none ∧
        pageReserved as.pt s.mem (v + k) = false ∧ pageReserved as.pt s'.mem (v + k) = true) ∧
      (∀ a, OutOf as.pt v n a → pageReserved as.pt s'.mem a = pageReserved as.pt s.mem a) ∧
      ∀ a, memTranslate as.pt s'.mem a = memTranslate as.pt s.mem a := by
  obtain ⟨-, hpage, hhint, hpages, hout, htrans⟩ := hs.allocVpage hn hspan hfits hok hv
  exact ⟨hpage, hhint, hpages, hout, htrans⟩

end Alloc

/-- Three pages are reserved for a guest that has no tables yet, and then four others, which begin
in the table of the first ones and end in the next table. -/
theorem memAllocVpage_fresh_two_tables :
    ∃ s s', memAllocVpage {} emptyGuest 0 0x40000000 3 8 clearState = .ok (0x40000000, s) ∧
      memAllocVpage {} emptyGuest 0 0x401fe000 4 8 s = .ok (0x401fe000, s') ∧
      pageReserved emptyGuest.pt s.mem 0x40000000 = true ∧
      pageReserved emptyGuest.pt s'.mem 0x40000000 = true ∧
      ∀ k < 4 * pageSize, memTranslate emptyGuest.pt s.mem (0x401fe000 + k) = none ∧
        pageReserved emptyGuest.pt s.mem (0x401fe000 + k) = false ∧
        pageReserved emptyGuest.pt s'.mem (0x401fe000 + k) = true := by
  have hout : OutOf emptyGuest.pt 0x401fe000 4 0x40000000 := by
    intro k hk
    rw [show ptSpan emptyGuest.pt = 0x20000000000 by decide]
    simp only [pageSize] at hk
    omega
  have hfst : ((memAllocVpage {} emptyGuest 0 0x40000000 3 8 clearState).toOption.bind fun r =>
      (memAllocVpage {} emptyGuest 0 0x401fe000 4 8 r.2).toOption.map fun r' => (r.1, r'.1)) =
        some (0x40000000, 0x401fe000) := by decide +kernel
  obtain ⟨⟨v, s⟩, hok, hfst⟩ := Option.bind_eq_some_iff.mp hfst
  obtain ⟨⟨v', s'⟩, hok', heq⟩ := Option.map_eq_some_iff.mp hfst
  cases heq
  rw [toOption_eq_some] at hok hok'
  obtain ⟨⟨used, hs, -⟩, -, -, hpages, -⟩ := clearState_as.allocVpage (by decide) (by decide)
    (.inl (by decide)) hok (by decide)
  have hfresh := memAllocVpage_fresh hs (by decide) (by decide) (.inl (by decide)) hok' (by decide)
  have hfirst := (hpages 0 (by decide)).2.2
  refine ⟨s, s', hok, hok', hfirst, ?_, hfresh.2.2.1⟩
  rw [hfresh.2.2.2.1 0x40000000 hout, hfirst]

/-- The address one range of the root table above the page becomes reserved with it. -/
theorem memAllocVpage_reserves_alias :
    pageReserved emptyGuest.pt clearState.mem (0x40000000 + 2 ^ 41) = false ∧
      (memAllocVpage {} emptyGuest 0 0x40000000 1 4 clearState).toOption.map (fun r =>
        (r.1, pageReserved emptyGuest.pt r.2.mem (0x40000000 + 2 ^ 41))) =
          some (0x40000000, true) := by
  decide +kernel

end Bao
