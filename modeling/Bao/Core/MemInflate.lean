import Bao.Core.MemExpand

/-!
# Tables for a range

`mem_inflate_pt` splits the entries of a range, level by level. At each level it goes through the
range in steps of the level's block size, and begins with the first address of the range instead of
the first address of a block. When the range ends in a smaller part of a block than it begins with,
the last step goes over the end, and the block in which the range ends is left out.
-/

namespace Bao

/-! ## One level -/

/-- The way of the address leads to the level through tables, or ends at an entry that is not valid:
it does not come to a superpage, which `pt_get_pte` would take for a table. -/
def WayClear (pt : PageTable) (mem : PhysMem) (a lvl : Nat) : Prop :=
  (∃ q, PtEntry pt mem a lvl q) ∨ ∃ j q, j < lvl ∧ PtEntry pt mem a j q ∧ pteValid (mem q) = false

/-- New tables below entries of one level, for blocks that satisfy `new`. -/
structure LvlGrown (pt : PageTable) (lvl : Nat) (new : Nat → Prop) (mem mem' : PhysMem) : Prop where
  entry : ∀ {a j q}, PtEntry pt mem a j q → PtEntry pt mem' a j q
  only : ∀ {a j q}, PtEntry pt mem' a j q → PtEntry pt mem a j q ∨
    j = lvl + 1 ∧ new (blockOf pt a lvl)
  clear : ∀ {a l}, l ≤ lvl + 1 → WayClear pt mem a l → WayClear pt mem' a l

variable {clr : Colors} {as : AddrSpace} {rel : Bool} {used : Set Nat} {s s' : MemState}

section Level

variable {va vaddr top lvl pte rounds : Nat} {new : Nat → Prop} {pt : PageTable}
  {mem mem' mem'' : PhysMem}

theorem LvlGrown.refl (pt : PageTable) (lvl : Nat) (new : Nat → Prop) (mem : PhysMem) :
    LvlGrown pt lvl new mem mem := ⟨fun h => h, .inl, fun _ h => h⟩

theorem LvlGrown.comp (h : LvlGrown pt lvl new mem mem') (h' : LvlGrown pt lvl new mem' mem'') :
    LvlGrown pt lvl new mem mem'' where
  entry he := h'.entry (h.entry he)
  only he := (h'.only he).elim h.only .inr
  clear hl hc := h'.clear hl (h.clear hl hc)

theorem Expanded.grown {base : Nat} (hrv : as.pt.Rv64) (tree : PtTree as.pt mem)
    (h : PtEntry as.pt mem va lvl pte) (hl : lvl + 1 < 3) (hnew : new (blockOf as.pt va lvl))
    (ex : Expanded as lvl pte base mem mem') : LvlGrown as.pt lvl new mem mem' where
  entry := ex.split.entry
  only hq := (PtTree.entry_of_split tree hrv h hl ex.split hq).imp_right
    fun ⟨hlvl, hblock, _⟩ => ⟨hlvl, hblock ▸ hnew⟩
  clear := by
    rintro a l hle (⟨q, hq⟩ | ⟨j, q, hj, hq, hinv⟩)
    · exact .inl ⟨q, ex.split.entry hq⟩
    · by_cases heq : q = pte
      · subst heq
        obtain rfl := (tree.inj hq h).1
        obtain rfl : l = j + 1 := by omega
        exact .inl ⟨_, (ex.split.entry hq).next ex.split.table⟩
      · exact .inr ⟨j, q, hj, ex.split.entry hq, by rwa [ex.split.mem_eq hq heq]⟩

theorem PtEntry.getPte_none {a j l q : Nat} (h : PtEntry pt mem a j q)
    (hinv : pteValid (mem q) = false) (hj : j < l) : ptGetPte pt mem l a = none := by
  induction l with
  | zero => omega
  | succ l ih =>
    rcases Nat.lt_succ_iff_lt_or_eq.mp hj with hj | rfl
    · simp only [ptGetPte, ih hj]
    · simp only [ptGetPte, h.getPte, hinv, Bool.false_eq_true, if_false]

/-- `mem_expand_pte` for an address whose way is clear: where the way reaches the level, it then
reaches the next one. -/
theorem AsState.expand_reaches (hs : AsState clr as rel used s) (hway : WayClear as.pt s.mem va lvl)
    (hl : lvl + 1 < 3) (hnew : new (blockOf as.pt va lvl)) :
    memExpandPte clr as va lvl s = .error .noTable ∨
      ∃ used' s', used ⊆ used' ∧ memExpandPte clr as va lvl s = .ok s' ∧
        AsState clr as rel used' s' ∧ LvlGrown as.pt lvl new s.mem s'.mem ∧
        ((∃ q, PtEntry as.pt s.mem va lvl q) → ∃ q, PtEntry as.pt s'.mem va (lvl + 1) q) := by
  have hlvls : ¬ as.pt.dscr.lvls - 1 ≤ lvl := by rw [hs.rv64.lvls]; omega
  rcases hway with ⟨pte, h⟩ | ⟨j, q, hj, hq, hinv⟩
  · by_cases htable : pteTable (s.mem pte) = true
    · refine .inr ⟨used, s, subset_rfl, ?_, hs, .refl .., fun _ => ⟨_, h.next htable⟩⟩
      simp only [memExpandPte, if_neg hlvls, h.getPte, htable, if_true]
    · rw [Bool.not_eq_true] at htable
      obtain herr | ⟨base, s', hok, -, hs', ex⟩ := hs.expand h hl htable
      · exact .inl herr
      · exact .inr ⟨_, s', Set.subset_insert _ _, hok, hs', ex.grown hs.rv64 hs.tree h hl hnew,
          fun _ => ⟨_, (ex.split.entry h).next ex.split.table⟩⟩
  · refine .inr ⟨used, s, subset_rfl, ?_, hs, .refl .., ?_⟩
    · simp only [memExpandPte, if_neg hlvls, hq.getPte_none hinv hj]
    · rintro ⟨p, hp⟩
      obtain ⟨q', hq', htable⟩ := hp.above hj
      rw [← hq.unique hq'] at htable
      rw [pteTable_valid htable] at hinv
      cases hinv

theorem PageTable.Rv64.lvlsize_cases (hrv : pt.Rv64) (hl : lvl + 1 < 3) :
    ptLvlsize pt lvl = 2 ^ 30 ∨ ptLvlsize pt lvl = 2 ^ 21 := by
  rw [hrv.lvlsize (by omega)]
  obtain rfl | rfl : lvl = 0 ∨ lvl = 1 := by omega
  · exact .inl rfl
  · exact .inr rfl

/-- The steps of the inner loop do not wrap around when the range ends before the place in the last
block of the address space that they would come to. -/
theorem step_lt {vaddr top L : Nat} (hL : L = 2 ^ 30 ∨ L = 2 ^ 21) (hlt : vaddr < top)
    (htop : top ≤ 2 ^ 64 - L + vaddr % L) : vaddr + L < 2 ^ 64 := by
  rcases hL with rfl | rfl <;> omega

theorem AsState.inflateLvl (new : Nat → Prop) (hs : AsState clr as rel used s) (hl : lvl + 1 < 3)
    (hway : ∀ k, vaddr + k * ptLvlsize as.pt lvl < top →
      WayClear as.pt s.mem (vaddr + k * ptLvlsize as.pt lvl) lvl)
    (hnew : ∀ k, vaddr + k * ptLvlsize as.pt lvl < top →
      new (blockOf as.pt (vaddr + k * ptLvlsize as.pt lvl) lvl))
    (hwrap : top ≤ 2 ^ 64 - ptLvlsize as.pt lvl + vaddr % ptLvlsize as.pt lvl)
    (hrounds : top - vaddr + pageSize ≤ rounds * pageSize) :
    inflateLvl clr as top lvl rounds vaddr s = .error .noTable ∨
      ∃ used' s', used ⊆ used' ∧ inflateLvl clr as top lvl rounds vaddr s = .ok s' ∧
        AsState clr as rel used' s' ∧ LvlGrown as.pt lvl new s.mem s'.mem ∧
        ∀ k, vaddr + k * ptLvlsize as.pt lvl < top →
          (∃ q, PtEntry as.pt s.mem (vaddr + k * ptLvlsize as.pt lvl) lvl q) →
          ∃ q, PtEntry as.pt s'.mem (vaddr + k * ptLvlsize as.pt lvl) (lvl + 1) q := by
  induction rounds generalizing vaddr s used with
  | zero => simp only [pageSize] at hrounds; omega
  | succ rounds ih =>
    rw [Bao.inflateLvl]
    by_cases hlt : vaddr < top
    swap
    · rw [if_neg hlt]
      exact .inr ⟨used, s, subset_rfl, rfl, hs, .refl .., fun k hk => by omega⟩
    rw [if_pos hlt]
    have hway₀ := hway 0 (by omega)
    have hnew₀ := hnew 0 (by omega)
    rw [Nat.zero_mul, Nat.add_zero] at hway₀ hnew₀
    obtain herr | ⟨used₁, s₁, hsub, hok, hs₁, hgrown, hnext⟩ := hs.expand_reaches hway₀ hl hnew₀
    · exact .inl (by rw [herr])
    have hsize := hs.rv64.lvlsize_eq (show lvl < 3 by omega)
    have hstep : ∀ k, vaddr + ptLvlsize as.pt lvl + k * ptLvlsize as.pt lvl =
        vaddr + (k + 1) * ptLvlsize as.pt lvl := fun k => by rw [Nat.add_mul]; omega
    have hpages : pageSize ≤ ptLvlsize as.pt lvl := by
      rw [hsize]
      exact Nat.le_mul_of_pos_left _ (lvlPages_pos lvl)
    simp only [hok, u64_of_lt (step_lt (hs.rv64.lvlsize_cases hl) hlt hwrap)]
    obtain herr | ⟨used₂, s₂, hsub₂, hok₂, hs₂, hgrown₂, hrest⟩ := ih hs₁
      (fun k hk => hstep k ▸ hgrown.clear (Nat.le_succ lvl) (hway (k + 1) (hstep k ▸ hk)))
      (fun k hk => hstep k ▸ hnew (k + 1) (hstep k ▸ hk))
      (by rwa [Nat.add_mod_right])
      (by simp only [pageSize] at *; omega)
    · exact .inl herr
    refine .inr ⟨used₂, s₂, hsub.trans hsub₂, hok₂, hs₂, hgrown.comp hgrown₂, fun k hk hq => ?_⟩
    cases k with
    | zero =>
      rw [Nat.zero_mul, Nat.add_zero] at hq ⊢
      obtain ⟨q', hq'⟩ := hnext hq
      exact ⟨q', hgrown₂.entry hq'⟩
    | succ k =>
      obtain ⟨q, hq⟩ := hq
      exact hstep k ▸ hrest k (by rw [hstep k]; exact hk)
        ⟨q, by rw [hstep k]; exact hgrown.entry hq⟩

/-- When the range ends behind that place, the steps go around the address space for ever. -/
theorem inflateLvl_stuck {s' : MemState} (hrv : as.pt.Rv64) (hl : lvl + 1 < 3)
    (hwrap : 2 ^ 64 - ptLvlsize as.pt lvl + vaddr % ptLvlsize as.pt lvl < top)
    (h64 : vaddr < 2 ^ 64) : Bao.inflateLvl clr as top lvl rounds vaddr s ≠ .ok s' := by
  induction rounds generalizing vaddr s with
  | zero => exact fun h => by cases h
  | succ rounds ih =>
    have hL := hrv.lvlsize_cases hl
    intro h
    rw [Bao.inflateLvl, if_pos (by rcases hL with hL | hL <;> rw [hL] at hwrap <;> omega)] at h
    split at h
    · cases h
    · refine ih ?_ (u64_lt _) h
      rcases hL with hL | hL <;> rw [hL] at hwrap ⊢ <;> unfold u64 <;> omega

end Level

/-! ## The range -/

/-- The blocks of a level that the steps come to. -/
def SteppedOn (pt : PageTable) (va length lvl block : Nat) : Prop :=
  ∃ k, va + k * ptLvlsize pt lvl < va + length ∧ blockOf pt (va + k * ptLvlsize pt lvl) lvl = block

/-- A step of the loop comes to the block of a level in which the range ends, or that block leads to
a table already. -/
def EndReached (pt : PageTable) (mem : PhysMem) (va length lvl : Nat) : Prop :=
  SteppedOn pt va length lvl (blockOf pt (va + length - 1) lvl) ∨
    ∃ q, PtEntry pt mem (va + length - 1) (lvl + 1) q

/-- What `mem_inflate_pt` needs for a range: no step of the first level wraps around, and the blocks
in which the range ends are reached. -/
structure InflateOk (pt : PageTable) (mem : PhysMem) (va length : Nat) : Prop where
  wrap : va + length ≤ 2 ^ 64 - ptLvlsize pt 0 + va % ptLvlsize pt 0
  last : ∀ lvl < 2, EndReached pt mem va length lvl

/-- An address of the range lies in a block that is stepped on, or in the block in which the range
ends. -/
theorem step_or_end {va length L a : Nat} (hpos : 0 < L) (hlo : va ≤ a) (hhi : a < va + length) :
    (∃ k, va + k * L < va + length ∧ (va + k * L) / L = a / L) ∨ (va + length - 1) / L = a / L := by
  have hdiv : va / L ≤ a / L := Nat.div_le_div_right hlo
  have hstep : (va + (a / L - va / L) * L) / L = a / L := by
    rw [Nat.add_mul_div_right _ _ hpos]
    omega
  by_cases hin : (a / L - va / L) * L < length
  · exact .inl ⟨a / L - va / L, by omega, hstep⟩
  refine .inr ?_
  have h₁ := Nat.div_add_mod' a L
  have h₂ := Nat.div_add_mod' va L
  have h₃ := Nat.mod_lt va hpos
  have h₄ : (a / L - va / L) * L = a / L * L - va / L * L := Nat.sub_mul _ _ _
  refine Nat.div_eq_of_lt_le (by omega) ?_
  rw [Nat.succ_mul]
  omega

section Range

variable {va length lvl rounds : Nat}

theorem PtEntry.move {pt : PageTable} {mem : PhysMem} {a b q : Nat} (hrv : pt.Rv64) (hl : lvl < 3)
    (hblock : blockOf pt b lvl = blockOf pt a lvl) (h : PtEntry pt mem b (lvl + 1) q) :
    ∃ q, PtEntry pt mem a (lvl + 1) q := by
  obtain ⟨p, hp, htable, -⟩ := h.up
  exact ⟨_, (hp.congr_va hrv hl hblock).next htable⟩

theorem reaches_of_steps (hrv : as.pt.Rv64) (hl : lvl < 3)
    (hend : EndReached as.pt s.mem va length lvl)
    (hsteps : ∀ k, va + k * ptLvlsize as.pt lvl < va + length →
      ∃ q, PtEntry as.pt s.mem (va + k * ptLvlsize as.pt lvl) (lvl + 1) q) {a : Nat} (hlo : va ≤ a)
    (hhi : a < va + length) : ∃ q, PtEntry as.pt s.mem a (lvl + 1) q := by
  rcases step_or_end (hrv.lvlsize_pos hl) hlo hhi with ⟨k, hk, hdiv⟩ | hdiv
  · obtain ⟨q, hq⟩ := hsteps k hk
    exact hq.move hrv hl (blockOf_eq_of_div_eq hrv hl hdiv)
  have hblock := blockOf_eq_of_div_eq hrv hl hdiv
  rcases hend with ⟨k, hk, hlast⟩ | ⟨q, hq⟩
  · obtain ⟨q, hq⟩ := hsteps k hk
    exact hq.move hrv hl (hlast.trans hblock)
  · exact hq.move hrv hl hblock

theorem memInflatePt_eq (hrv : as.pt.Rv64) (hwrap : va + length < 2 ^ 64) :
    memInflatePt clr as va length rounds s =
      (Bao.inflateLvl clr as (va + length) 0 rounds va s).bind
        (Bao.inflateLvl clr as (va + length) 1 rounds va) := by
  rw [memInflatePt, hrv.lvls, u64_of_lt hwrap, show List.range (3 - 1) = [0, 1] from rfl]
  simp only [List.foldlM_cons, List.foldlM_nil]
  cases Bao.inflateLvl clr as (va + length) 0 rounds va s with
  | error e => rfl
  | ok s₁ => exact bind_pure (Bao.inflateLvl clr as (va + length) 1 rounds va s₁)

theorem LvlGrown.endReached {mem mem' : PhysMem}
    (h : LvlGrown as.pt lvl (SteppedOn as.pt va length lvl) mem mem')
    (hq : ∃ q, PtEntry as.pt mem' (va + length - 1) (lvl + 1) q) :
    EndReached as.pt mem va length lvl := by
  obtain ⟨q, hq⟩ := hq
  exact (h.only hq).symm.imp (fun hnew => hnew.2) fun hold => ⟨q, hold⟩

/-- `mem_inflate_pt`, when the steps of its first level do not wrap around and those of its second
one come to no superpage. -/
theorem AsState.inflate (hs : AsState clr as rel used s) (hpages : length % pageSize = 0)
    (h64 : va + length < 2 ^ 64)
    (hwrap : va + length ≤ 2 ^ 64 - ptLvlsize as.pt 0 + va % ptLvlsize as.pt 0)
    (hclear : EndReached as.pt s.mem va length 0 ∨
      WayClear as.pt s.mem (va + length - 1) 1)
    (hrounds : length / pageSize < rounds) :
    memInflatePt clr as va length rounds s = .error .noTable ∨
      ∃ (used' : Set Nat) (s₁ s' : MemState), used ⊆ used' ∧
        memInflatePt clr as va length rounds s = .ok s' ∧ AsState clr as rel used' s' ∧
        LvlGrown as.pt 0 (SteppedOn as.pt va length 0) s.mem s₁.mem ∧
        LvlGrown as.pt 1 (SteppedOn as.pt va length 1) s₁.mem s'.mem ∧
        ((∀ lvl < 2, EndReached as.pt s.mem va length lvl) →
          ∀ a, va ≤ a → a < va + length → ∃ q, PtEntry as.pt s'.mem a 2 q) := by
  have hrv := hs.rv64
  have hbound : va + length - va + pageSize ≤ rounds * pageSize := by
    simp only [pageSize] at *
    omega
  rw [memInflatePt_eq hrv h64]
  obtain herr | ⟨used₁, s₁, hsub₁, hok₁, hs₁, hgrown₁, hsteps₁⟩ :=
    hs.inflateLvl (SteppedOn as.pt va length 0) (show 0 + 1 < 3 by decide)
      (fun k _ => .inl ⟨_, .root⟩) (fun k hk => ⟨k, hk, rfl⟩) hwrap hbound
  · exact .inl (by rw [herr]; rfl)
  have hreach₁ : EndReached as.pt s.mem va length 0 →
      ∀ a, va ≤ a → a < va + length → ∃ q, PtEntry as.pt s₁.mem a 1 q := fun hend a =>
    reaches_of_steps hrv (by decide)
      (hend.imp_right (Exists.imp fun _ hq => hgrown₁.entry hq))
      (fun k hk => hsteps₁ k hk ⟨_, .root⟩)
  -- An address of the second level is below a table, or in the block in which the range ends.
  have hway : ∀ a, va ≤ a → a < va + length → WayClear as.pt s₁.mem a 1 := by
    intro a hlo hhi
    rcases hclear with hend | hclear
    · exact .inl (hreach₁ hend a hlo hhi)
    have hlast := hgrown₁.clear le_rfl hclear
    rcases step_or_end (hrv.lvlsize_pos (show 0 < 3 by decide)) hlo hhi with ⟨k, hk, hdiv⟩ | hdiv
    · obtain ⟨q, hq⟩ := hsteps₁ k hk ⟨_, .root⟩
      exact .inl (hq.move hrv (by decide) (blockOf_eq_of_div_eq hrv (by decide) hdiv))
    have hblock := blockOf_eq_of_div_eq hrv (by decide) hdiv
    rcases hlast with ⟨q, hq⟩ | ⟨j, q, hj, hq, hinv⟩
    · exact .inl (hq.move hrv (by decide) hblock)
    · obtain rfl : j = 0 := by omega
      exact .inr ⟨0, q, hj, hq.congr_va hrv (by decide) hblock, hinv⟩
  have hwrap₁ : va + length ≤ 2 ^ 64 - ptLvlsize as.pt 1 + va % ptLvlsize as.pt 1 := by
    rw [hrv.lvlsize (by decide)] at hwrap ⊢
    omega
  rw [hok₁]
  obtain herr | ⟨used₂, s₂, hsub₂, hok₂, hs₂, hgrown₂, hsteps₂⟩ :=
    hs₁.inflateLvl (SteppedOn as.pt va length 1) (show 1 + 1 < 3 by decide)
      (fun k hk => hway _ (by omega) hk) (fun k hk => ⟨k, hk, rfl⟩) hwrap₁ hbound
  · exact .inl herr
  refine .inr ⟨used₂, s₁, s₂, hsub₁.trans hsub₂, hok₂, hs₂, hgrown₁, hgrown₂, fun hend a => ?_⟩
  exact reaches_of_steps hrv (by decide) ((hend 1 (by decide)).imp_right (Exists.imp fun _ hq =>
    hgrown₂.entry (hgrown₁.entry hq)))
    (fun k hk => hsteps₂ k hk (hreach₁ (hend 0 (by decide)) _ (by omega) hk))

/-- The last entries of the range can be reached through tables. -/
def AllReached (pt : PageTable) (va length : Nat) (mem : PhysMem) : Prop :=
  ∀ a, va ≤ a → a < va + length → ∃ pte, PtEntry pt mem a 2 pte ∧
    ptGetPte pt mem (pt.dscr.lvls - 1) a = some pte

/-- `mem_inflate_pt` for a range of pages, with fresh pages for the tables. When no step wraps
around and the blocks in which the range ends are reached, it returns, and for every address of the
range the entry of the last level exists and the way to it leads through table entries. Nothing less
will do, unless the range ends in a superpage of the first level, through which the steps of the
second level then write to the memory behind it. -/
theorem memInflatePt_reaches (hs : AsState clr as rel used s) (hpages : length % pageSize = 0)
    (hpos : 0 < length) (h64 : va + length < 2 ^ 64) (hrounds : length / pageSize < rounds)
    (hroom : memInflatePt clr as va length rounds s ≠ .error .noTable) :
    (InflateOk as.pt s.mem va length →
      ∃ s', memInflatePt clr as va length rounds s = .ok s' ∧ AllReached as.pt va length s'.mem) ∧
    (WayClear as.pt s.mem (va + length - 1) 1 →
      (∃ s', memInflatePt clr as va length rounds s = .ok s' ∧
        AllReached as.pt va length s'.mem) → InflateOk as.pt s.mem va length) := by
  constructor
  · intro hok
    obtain herr | ⟨-, -, s', -, hok', -, -, -, hreach⟩ :=
      hs.inflate hpages h64 hok.wrap (.inl (hok.last 0 (by decide))) hrounds
    · exact absurd herr hroom
    refine ⟨s', hok', fun a hlo hhi => ?_⟩
    obtain ⟨q, hq⟩ := hreach hok.last a hlo hhi
    exact ⟨q, hq, by rw [hs.rv64.lvls]; exact hq.getPte⟩
  · rintro hclear ⟨s', hok, hall⟩
    have hwrap : va + length ≤ 2 ^ 64 - ptLvlsize as.pt 0 + va % ptLvlsize as.pt 0 := by
      by_contra hlt
      rw [memInflatePt_eq hs.rv64 h64] at hok
      obtain ⟨s₁, hok₁, -⟩ := bind_eq_ok.mp hok
      exact inflateLvl_stuck hs.rv64 (by decide) (by omega) (by omega) hok₁
    refine ⟨hwrap, fun lvl hlvl => ?_⟩
    obtain herr | ⟨-, s₁, s₂, -, hok₂, -, hgrown₁, hgrown₂, -⟩ :=
      hs.inflate hpages h64 hwrap (.inr hclear) hrounds
    · exact absurd herr hroom
    cases hok.symm.trans hok₂
    obtain ⟨q, hq, -⟩ := hall (va + length - 1) (by omega) (by omega)
    interval_cases lvl
    · -- The entry of the second level was there before the second loop.
      obtain ⟨p, hp, -⟩ := hq.up
      rcases hgrown₂.only hp with hp | ⟨hlvl, -⟩
      · exact hgrown₁.endReached ⟨p, hp⟩
      · cases hlvl
    · refine (hgrown₂.endReached ⟨q, hq⟩).imp_right fun ⟨q, hq⟩ => ⟨q, ?_⟩
      rcases hgrown₁.only hq with hq | ⟨hlvl, -⟩
      · exact hq
      · cases hlvl

end Range

/-- 514 pages that begin two pages in front of a block of 2 MiB and end two pages in front of the
next one. -/
theorem memInflatePt_reaches_blocks :
    ∃ s', memInflatePt {} emptyGuest 0x401fe000 0x202000 515 clearState = .ok s' ∧
      (ptGetPte emptyGuest.pt s'.mem 2 0x401ff000).isSome = true ∧
      (ptGetPte emptyGuest.pt s'.mem 2 0x403ff000).isSome = true := by
  have hroom : memInflatePt {} emptyGuest 0x401fe000 0x202000 515 clearState ≠
      .error .noTable := ne_error_of_isOk (by decide +kernel)
  have hend : ∀ lvl < 2, EndReached emptyGuest.pt clearState.mem 0x401fe000 0x202000 lvl := by
    intro lvl hlvl
    interval_cases lvl
    · exact .inl ⟨0, by decide, by decide⟩
    · exact .inl ⟨1, by decide, by decide⟩
  obtain ⟨s', hok, hreach⟩ := (memInflatePt_reaches clearState_as (by decide) (by decide)
    (by decide) (by decide) hroom).1 ⟨by decide, hend⟩
  obtain ⟨p, -, hp⟩ := hreach 0x401ff000 (by decide) (by decide)
  obtain ⟨q, -, hq⟩ := hreach 0x403ff000 (by decide) (by decide)
  exact ⟨s', hok, Option.isSome_iff_exists.mpr ⟨p, hp⟩, Option.isSome_iff_exists.mpr ⟨q, hq⟩⟩

/-- Two pages of which the second one begins a block of 2 MiB: the step from the first page goes
over the end, and there is no table for the second page. -/
theorem memInflatePt_misses_page :
    (memInflatePt {} emptyGuest 0x401ff000 0x2000 3 clearState).toOption.map (fun s' =>
      ((ptGetPte emptyGuest.pt s'.mem 2 0x401ff000).isSome,
        ptGetPte emptyGuest.pt s'.mem 2 0x40200000)) = some (true, none) := by
  decide +kernel

end Bao
