import Bao.Core.IpcShmem
import Bao.Foundation.Count
import Mathlib.Order.CompletePartialOrder

/-!
# Recolouring an image

`mem_map_reclr` maps the pages of an image that have a colour of the VM where they are, and copies
the others to pages of the VM's colours. It computes the number of these in advance, copies through
two windows in the address space of the cpu, and finds the page behind the window with
`pp_next_clr`. The main result says that the number is right, and that the three walks over the
pages stay in step.
-/

namespace Bao

open Foundation

/-! ## The function -/

/-- `reclrd_num` of `mem_map_reclr`: whole periods of the colours, and the rest one by one. -/
def reclrdNum (clr : Colors) (colors base n : Nat) : Nat :=
  let period := clr.num * clr.size
  let clrOffset := base / pageSize % period
  (List.range (n % period)).foldl
    (fun num i => if !colors.testBit ((i + clrOffset) / clr.size % clr.num) then num + 1 else num)
    (n / period * clr.size * bitmapCount (fun c => colors.testBit c) 0 clr.num false)

/-- `memcpy` of a page, between virtual addresses of the cpu. It faults at an address that is not
mapped. -/
def copyPage (cpu : AddrSpace) (dst src : Nat) (s : MemState) : Except MemError MemState :=
  match memTranslate cpu.pt s.mem dst, memTranslate cpu.pt s.mem src with
  | some dst, some src => .ok (s.copy dst src pageSize)
  | _, _ => .error .null

/-- The variables of the loop of `mem_map_reclr`. -/
structure ReclrPos where
  i : Nat := 0
  vaddr : Nat
  paddr : Nat
  clrdVaddr : Nat
  physVa : Nat
  index : Nat := 0

/-- The variables at the end of an iteration. -/
def ReclrPos.next (c : ReclrPos) (clrdVaddr index : Nat) : ReclrPos :=
  ⟨c.i + 1, c.vaddr + pageSize, c.paddr + pageSize, clrdVaddr, c.physVa + pageSize, index⟩

/-- The body of the loop of `mem_map_reclr`, for an image at `base`. -/
def reclrStep (clr : Colors) (cpu as : AddrSpace) (reclrdBase base : Nat) (flags : Word)
    (c : ReclrPos) (s : MemState) : Except MemError (ReclrPos × MemState) :=
  let clrOffset := base / pageSize % (clr.num * clr.size)
  match ptGetPte as.pt s.mem (as.pt.dscr.lvls - 1) c.vaddr with
  | none => .error .null
  | some pte =>
    if as.colors.testBit ((c.i + clrOffset) / clr.size % clr.num) then
      .ok (c.next c.clrdVaddr c.index, s.write pte (pteSet c.paddr pteTypePage flags))
    else do
      let s ← copyPage cpu c.clrdVaddr c.physVa s
      match ppNextClr clr reclrdBase as.colors c.index with
      | none => .error .rounds
      | some index =>
        let clrdPaddr := reclrdBase + index * pageSize
        .ok (c.next (c.clrdVaddr + pageSize) (index + 1),
          s.write pte (pteSet clrdPaddr pteTypePage flags))

/-- The loop of `mem_map_reclr`, with `left` pages to go. -/
def reclrLoop (clr : Colors) (cpu as : AddrSpace) (reclrdBase base : Nat) (flags : Word) :
    (left : Nat) → ReclrPos → MemState → Except MemError MemState
  | 0, _, s => .ok s
  | left + 1, c, s => do
    let (c, s) ← reclrStep clr cpu as reclrdBase base flags c s
    reclrLoop clr cpu as reclrdBase base flags left c s

/-- `reclrd_va_base`, `phys_va_base` and the base of `reclrd_ppages`. -/
structure ReclrWindows where
  reclrdVaBase : Nat
  physVaBase : Nat
  reclrdBase : Nat

/-- What `mem_map_reclr` does with pages to recolour before its loop. It does not look whether it
gets the pages, and whether the windows are mapped. -/
def reclrWindows (clr : Colors) (cpu as : AddrSpace) (va : Nat) (ppages : Ppages)
    (n rounds : Nat) (s : MemState) : Except MemError (ReclrWindows × MemState) := do
  let num := reclrdNum clr as.colors ppages.base n
  let (reclrdVaBase, s) ← memAllocVpage clr cpu secHypVm 0 num rounds s
  match memAllocPpagesClr clr s.pools.bits as.colors num false s.pools.pools with
  | none => .error .rounds
  | some (reclrdPpages, pools) =>
    let (_, s) ← memMap clr cpu reclrdVaBase (some reclrdPpages) num pteHypFlags rounds
      { s with pools }
    let (physVaBase, s) ← memAllocVpage clr cpu secHypVm 0 n rounds s
    let (_, s) ← memMap clr cpu physVaBase (some ppages) n pteHypFlags rounds s
    let s ← memInflatePt clr as (pageOf va) (n * pageSize) rounds s
    .ok (⟨reclrdVaBase, physVaBase, reclrdPpages.base⟩, s)

/-- The variables before the loop. -/
def ReclrWindows.start (w : ReclrWindows) (va base : Nat) : ReclrPos where
  vaddr := pageOf va
  paddr := base
  clrdVaddr := w.reclrdVaBase
  physVa := w.physVaBase

/-- What `mem_map_reclr` does with pages to recolour, up to the end of its loop. -/
def reclrMap (clr : Colors) (cpu as : AddrSpace) (va : Nat) (ppages : Ppages) (n : Nat)
    (flags : Word) (rounds : Nat) (s : MemState) : Except MemError (ReclrWindows × MemState) := do
  let (w, s) ← reclrWindows clr cpu as va ppages n rounds s
  let s ← reclrLoop clr cpu as w.reclrdBase ppages.base flags n (w.start va ppages.base) s
  .ok (w, s)

/-- What `mem_map_reclr` does behind its loop: the pages of the image that were copied and the
windows are released. -/
def reclrRelease (clr : Colors) (cpu as : AddrSpace) (ppages : Ppages) (n rounds : Nat)
    (w : ReclrWindows) (s : MemState) : Except MemError MemState :=
  let num := reclrdNum clr as.colors ppages.base n
  let unusedPages : Ppages := ⟨ppages.base, num, 2 ^ 64 - 1 - as.colors % 2 ^ 64⟩
  match memFreePpagesClr clr unusedPages s.pools with
  | none => .error .rounds
  | some pools => do
    let s ← memFreeVpage clr cpu w.reclrdVaBase num false rounds { s with pools }
    memFreeVpage clr cpu w.physVaBase n false rounds s

/-- `mem_map_reclr`, with the address space of the cpu; the flag is `false` for the result `-1`. -/
def memMapReclr (clr : Colors) (cpu as : AddrSpace) (va : Nat) (ppages : Option Ppages) (n : Nat)
    (flags : Word) (rounds : Nat) (s : MemState) : Except MemError (Bool × MemState) :=
  match ppages with
  | none => .error .error
  | some ppages =>
    if allClrs clr as.colors ∨ reclrdNum clr as.colors ppages.base n = 0 then
      memMap clr as va (some ppages) n flags rounds s
    else do
      let (w, s) ← reclrMap clr cpu as va ppages n flags rounds s
      let s ← reclrRelease clr cpu as ppages n rounds w s
      .ok (true, s)

/-! ## The number of pages to recolour -/

section Count

variable {clr : Colors} {colors base n : Nat}

/-- Whether a page of the image has one of the VM's colours. -/
def imageHasClr (clr : Colors) (base colors i : Nat) : Bool :=
  colors.testBit (clr.ofPage (base / pageSize + i))

theorem ofPage_periodic (clr : Colors) : Function.Periodic clr.ofPage (clr.num * clr.size) := by
  intro y
  rcases Nat.eq_zero_or_pos clr.size with hzero | hpos
  · simp [hzero]
  · rw [Colors.ofPage, Nat.add_mul_div_right _ _ hpos, Nat.add_mod_right]
    rfl

/-- The colour that `mem_map_reclr` tests is that of the page of the image. -/
theorem ofPage_offset (clr : Colors) (x i : Nat) :
    (i + x % (clr.num * clr.size)) / clr.size % clr.num = clr.ofPage (x + i) := by
  have hmod := (ofPage_periodic clr).map_mod_nat
  change clr.ofPage _ = _
  rw [← hmod (x + i), ← hmod, Nat.add_comm x, Nat.add_mod_mod]

/-- `mem_map_reclr` counts the pages of the image whose colour is not one of the VM's. -/
theorem reclrdNum_eq (clr : Colors) (colors base n : Nat) :
    reclrdNum clr colors base n = misses (imageHasClr clr base colors) n := by
  have htest : Function.Periodic (fun i => colors.testBit (clr.ofPage i)) (clr.num * clr.size) :=
    fun i => by simp only [ofPage_periodic clr i]
  have himage : Function.Periodic (imageHasClr clr base colors) (clr.num * clr.size) :=
    fun i => by simp only [imageHasClr, ← Nat.add_assoc, ofPage_periodic clr _]
  have hperiod : misses (imageHasClr clr base colors) (clr.num * clr.size) =
      clr.size * misses (fun c => colors.testBit c) clr.num := by
    rw [show imageHasClr clr base colors = fun i =>
      colors.testBit (clr.ofPage (base / pageSize + i)) from rfl, misses_shift htest]
    rcases Nat.eq_zero_or_pos clr.size with hzero | hpos
    · rw [hzero, Nat.mul_zero, Nat.zero_mul]
      rfl
    · rw [← misses_div (fun c => colors.testBit c) hpos]
      refine misses_congr fun i hi => ?_
      rw [Colors.ofPage, Nat.mod_eq_of_lt (Nat.div_lt_of_lt_mul (by rwa [Nat.mul_comm]))]
  simp only [reclrdNum, ofPage_offset]
  rw [foldl_range_misses fun i => colors.testBit (clr.ofPage (base / pageSize + i)),
    bitmapCount_zero, misses_periodic himage n, hperiod, Nat.mul_assoc]
  rfl

end Count

/-! ## The loop -/

section Copy

variable {p k : Nat}

theorem page_add_div (hp : p % pageSize = 0) (hk : k < pageSize) :
    (p + k) / pageSize = p / pageSize := by
  simp only [pageSize] at *
  omega

theorem eq_of_page_div {q : Nat} (hp : p % pageSize = 0) (hq : q % pageSize = 0)
    (h : p / pageSize = q / pageSize) : p = q := by
  simp only [pageSize] at *
  omega

theorem MemState.copy_page (s : MemState) (dst src : Nat) (hk : k < pageSize) :
    (s.copy dst src pageSize).mem (dst + k) = s.mem (src + k) := by
  simp only [MemState.copy]
  rw [if_pos ⟨by omega, by omega⟩, Nat.add_sub_cancel_left]

theorem MemState.copy_of_ne (s : MemState) {dst a : Nat} (src : Nat) (hdst : dst % pageSize = 0)
    (hne : a / pageSize ≠ dst / pageSize) : (s.copy dst src pageSize).mem a = s.mem a := by
  refine if_neg fun hin => hne ?_
  simp only [pageSize] at *
  omega

end Copy

/-- What a run of the loop is about: an image of `n` pages at `base`, the range from `va` on, and
the pages `os` of the walk from `reclrdBase`. -/
structure Recolouring where
  clr : Colors
  as : AddrSpace
  va : Nat
  base : Nat
  n : Nat
  reclrdBase : Nat
  os : List Nat

namespace Recolouring

/-- Whether page `i` of the image stays where it is. -/
def hasClr (x : Recolouring) (i : Nat) : Bool := imageHasClr x.clr x.base x.as.colors i

/-- The number of pages to copy in front of page `i`. -/
def copies (x : Recolouring) (i : Nat) : Nat := misses x.hasClr i

/-- The page that `mem_map_reclr` maps for page `i` of the image. -/
def page (x : Recolouring) (i : Nat) : Nat :=
  if x.hasClr i then x.base + i * pageSize
  else x.reclrdBase + x.os.getD (x.copies i) 0 * pageSize

/-- What the loop of `mem_map_reclr` relies on: there are as many pages in the walk as there are
pages to copy, and none of them is used otherwise; the windows show these pages and the image; and
there are tables of the last level for the range. -/
structure Ready (x : Recolouring) (cpu : AddrSpace) (w : ReclrWindows) (s : MemState) : Prop where
  cpuRv64 : cpu.pt.Rv64
  cpuTree : PtTree cpu.pt s.mem
  rv64 : x.as.pt.Rv64
  tree : PtTree x.as.pt s.mem
  vaPage : x.va % pageSize = 0
  span : x.n * pageSize ≤ ptSpan x.as.pt
  tables : ∀ i < x.n, ∃ pte, PtEntry x.as.pt s.mem (x.va + i * pageSize) 2 pte
  image : ∀ i < x.n, PageAddr (x.base + i * pageSize)
  walk : clrIndices (ppNextClr x.clr x.reclrdBase x.as.colors) (x.copies x.n) 0 = some x.os
  nodup : x.os.Nodup
  pages : ∀ o ∈ x.os, PageAddr (x.reclrdBase + o * pageSize)
  apart : ∀ i < x.n, ∀ o ∈ x.os, x.base + i * pageSize ≠ x.reclrdBase + o * pageSize
  imageTables : ∀ i < x.n, (x.base + i * pageSize) / pageSize ∉ tableFrames x.as.pt s.mem
  pagesTables : ∀ o ∈ x.os, (x.reclrdBase + o * pageSize) / pageSize ∉ tableFrames x.as.pt s.mem
  pagesCpu : ∀ o ∈ x.os, (x.reclrdBase + o * pageSize) / pageSize ∉ tableFrames cpu.pt s.mem
  tablesCpu : Disjoint (tableFrames x.as.pt s.mem) (tableFrames cpu.pt s.mem)
  reclrdWindow : ∀ j < x.os.length, memTranslate cpu.pt s.mem (w.reclrdVaBase + j * pageSize) =
    some (x.reclrdBase + x.os.getD j 0 * pageSize)
  physWindow : ∀ i < x.n,
    memTranslate cpu.pt s.mem (w.physVaBase + i * pageSize) = some (x.base + i * pageSize)

/-- The memory in the loop, with the first pages mapped and their contents in place. -/
structure Done (x : Recolouring) (s₀ : MemState) (mapped copied : Nat) (s : MemState) : Prop where
  other : ∀ a, a / pageSize ∉ tableFrames x.as.pt s₀.mem →
    (∀ o ∈ x.os, a / pageSize ≠ (x.reclrdBase + o * pageSize) / pageSize) → s.mem a = s₀.mem a
  tree : PtTree x.as.pt s.mem
  frames : tableFrames x.as.pt s.mem ⊆ tableFrames x.as.pt s₀.mem
  tables : ∀ i < x.n, ∃ pte, PtEntry x.as.pt s.mem (x.va + i * pageSize) 2 pte
  trans : ∀ i < mapped, ∀ k < pageSize,
    memTranslate x.as.pt s.mem (x.va + i * pageSize + k) = some (x.page i + k)
  contents : ∀ i < copied, ∀ k < pageSize,
    s.mem (x.page i + k) = s₀.mem (x.base + i * pageSize + k)

variable {x : Recolouring} {cpu : AddrSpace} {w : ReclrWindows} {flags : Word} {s₀ s : MemState}
  {i j mapped copied index : Nat}

section Pages

variable (ready : x.Ready cpu w s₀) (hi : i < x.n)

include ready hi

theorem Ready.copies_lt (hclr : x.hasClr i = false) : x.copies i < x.os.length := by
  rw [clrIndices_length ready.walk]
  exact misses_lt hclr hi

theorem Ready.page_cases : x.hasClr i = true ∧ x.page i = x.base + i * pageSize ∨
    x.hasClr i = false ∧ x.os.getD (x.copies i) 0 ∈ x.os ∧
      x.page i = x.reclrdBase + x.os.getD (x.copies i) 0 * pageSize := by
  cases hclr : x.hasClr i with
  | true => exact .inl ⟨rfl, by rw [page, hclr, if_pos rfl]⟩
  | false =>
    refine .inr ⟨rfl, ?_, by rw [page, hclr, if_neg Bool.false_ne_true]⟩
    rw [List.getD_eq_getElem _ _ (ready.copies_lt hi hclr)]
    exact List.getElem_mem _

theorem Ready.pageAddr : PageAddr (x.page i) := by
  obtain ⟨-, heq⟩ | ⟨-, hmem, heq⟩ := ready.page_cases hi <;> rw [heq]
  · exact ready.image i hi
  · exact ready.pages _ hmem

theorem Ready.notMem_tables : x.page i / pageSize ∉ tableFrames x.as.pt s₀.mem := by
  obtain ⟨-, heq⟩ | ⟨-, hmem, heq⟩ := ready.page_cases hi <;> rw [heq]
  · exact ready.imageTables i hi
  · exact ready.pagesTables _ hmem

theorem Ready.page_inj (hj : j < x.n) (h : x.page i = x.page j) : i = j := by
  obtain ⟨-, hi'⟩ | ⟨hclri, hmemi, hi'⟩ := ready.page_cases hi <;>
    obtain ⟨-, hj'⟩ | ⟨hclrj, hmemj, hj'⟩ := ready.page_cases hj <;> rw [hi', hj'] at h
  · exact Nat.eq_of_mul_eq_mul_right (by decide) (Nat.add_left_cancel h)
  · exact absurd h (ready.apart i hi _ hmemj)
  · exact absurd h.symm (ready.apart j hj _ hmemi)
  · have hget := Nat.eq_of_mul_eq_mul_right (by decide) (Nat.add_left_cancel h)
    rw [List.getD_eq_getElem _ _ (ready.copies_lt hi hclri),
      List.getD_eq_getElem _ _ (ready.copies_lt hj hclrj), ready.nodup.getElem_inj_iff] at hget
    exact misses_inj hclri hclrj hget

end Pages

section Steps

variable (ready : x.Ready cpu w s₀)

include ready

theorem Done.start : x.Done s₀ 0 0 s₀ where
  other _ _ _ := rfl
  tree := ready.tree
  frames := subset_rfl
  tables := ready.tables
  trans i hi := absurd hi (Nat.not_lt_zero i)
  contents i hi := absurd hi (Nat.not_lt_zero i)

theorem Done.image_eq (rec : x.Done s₀ mapped copied s) (hi : i < x.n) {k : Nat}
    (hk : k < pageSize) :
    s.mem (x.base + i * pageSize + k) = s₀.mem (x.base + i * pageSize + k) := by
  have hpage := (ready.image i hi).page
  refine rec.other _ ?_ fun o ho heq => ?_ <;> rw [page_add_div hpage hk] at *
  · exact ready.imageTables i hi
  · exact ready.apart i hi o ho (eq_of_page_div hpage (ready.pages o ho).page heq)

theorem Done.translate_cpu (rec : x.Done s₀ mapped copied s) (a : Nat) :
    memTranslate cpu.pt s.mem a = memTranslate cpu.pt s₀.mem a :=
  ready.cpuTree.translate_congr ready.cpuRv64 fun _ pte hpte =>
    rec.other pte (fun hin => Set.disjoint_left.mp ready.tablesCpu hin hpte.mem_tableFrames)
      fun o ho heq => ready.pagesCpu o ho (heq ▸ hpte.mem_tableFrames)

theorem Done.keep (rec : x.Done s₀ i i s) (hi : i < x.n) (hclr : x.hasClr i = true) :
    x.Done s₀ i (i + 1) s :=
  { rec with
    contents := fun j hj k hk => by
      rcases Nat.lt_succ_iff_lt_or_eq.mp hj with hlt | rfl
      · exact rec.contents j hlt k hk
      · rw [page, hclr, if_pos rfl]
        exact rec.image_eq ready hi hk }

theorem Done.copy (rec : x.Done s₀ i i s) (hi : i < x.n) (hclr : x.hasClr i = false) :
    ∃ s₁, copyPage cpu (w.reclrdVaBase + x.copies i * pageSize) (w.physVaBase + i * pageSize) s =
        .ok s₁ ∧ x.Done s₀ i (i + 1) s₁ ∧
      ∀ {a l q}, PtEntry x.as.pt s.mem a l q → PtEntry x.as.pt s₁.mem a l q := by
  have hdst := ready.pageAddr hi
  have hnotables := ready.notMem_tables hi
  obtain ⟨htrue, -⟩ | ⟨-, hmem, heq⟩ := ready.page_cases hi
  · rw [hclr] at htrue
    cases htrue
  -- The tables of the VM are not in the page that is written.
  have htables : ∀ {a l q}, PtEntry x.as.pt s.mem a l q →
      (s.copy (x.page i) (x.base + i * pageSize) pageSize).mem q = s.mem q := fun hq =>
    s.copy_of_ne _ hdst.page fun hin => hnotables (hin ▸ rec.frames hq.mem_tableFrames)
  refine ⟨_, ?_, ⟨fun a hno hpages => ?_, rec.tree.congr_mem htables, ?_, fun j hj => ?_,
    fun j hj k hk => ?_, fun j hj k hk => ?_⟩, (PtTree.entry_congr htables).mpr⟩
  · rw [copyPage, rec.translate_cpu ready, rec.translate_cpu ready,
      ready.reclrdWindow _ (ready.copies_lt hi hclr), ready.physWindow i hi, ← heq]
  · rw [s.copy_of_ne _ hdst.page (by rw [heq]; exact hpages _ hmem), rec.other a hno hpages]
  · rintro f ⟨a, l, q, hq, rfl⟩
    exact rec.frames ((PtTree.entry_congr htables).mp hq).mem_tableFrames
  · obtain ⟨pte, hpte⟩ := rec.tables j hj
    exact ⟨pte, (PtTree.entry_congr htables).mpr hpte⟩
  · rw [rec.tree.translate_congr ready.rv64 fun _ _ hq => htables hq, rec.trans j hj k hk]
  · rcases Nat.lt_succ_iff_lt_or_eq.mp hj with hlt | rfl
    · have hpage := ready.pageAddr (hlt.trans hi)
      rw [s.copy_of_ne _ hdst.page, rec.contents j hlt k hk]
      intro hsame
      rw [page_add_div hpage.page hk] at hsame
      exact hlt.ne (ready.page_inj (hlt.trans hi) hi (eq_of_page_div hpage.page hdst.page hsame))
    · rw [s.copy_page _ _ hk, rec.image_eq ready hi hk]

theorem Done.setPage (rec : x.Done s₀ i (i + 1) s) (hi : i < x.n) (hflags : pteValid flags = true)
    {pte : Nat} (hpte : PtEntry x.as.pt s.mem (x.va + i * pageSize) 2 pte) :
    x.Done s₀ (i + 1) (i + 1) (s.write pte (pteSet (x.page i) pteTypePage flags)) := by
  have hleaf := pteTable_pteSet_leaf (x.page i) flags
  have hframe := rec.frames hpte.mem_tableFrames
  have hspan := ready.span
  refine ⟨fun a hno hpages => ?_, rec.tree.write hleaf, ?_, fun j hj => ?_, fun j hj k hk => ?_,
    fun j hj k hk => ?_⟩
  · rw [s.write_of_ne (fun heq : a = pte => hno (heq ▸ hframe)), rec.other a hno hpages]
  · rintro f ⟨a, l, q, hq, rfl⟩
    exact rec.frames (PtTree.entry_of_write hleaf hq).mem_tableFrames
  · obtain ⟨q, hq⟩ := rec.tables j hj
    exact ⟨q, rec.tree.entry_write hpte le_rfl hq⟩
  · have hpage (j : Nat) : (x.va + j * pageSize) % pageSize = 0 := by
      rw [Nat.add_mul_mod_self_right, ready.vaPage]
    rw [MemState.write, rec.tree.translate_setPage ready.rv64 hpte (ready.pageAddr hi) hflags,
      blockOf_page ready.rv64 (hpage j) hk]
    rcases Nat.lt_succ_iff_lt_or_eq.mp hj with hlt | rfl
    · have hout : OutOf x.as.pt (x.va + i * pageSize) 1 (x.va + j * pageSize) := fun l hl => by
        have hji := Nat.mul_lt_mul_of_pos_right hlt (show 0 < pageSize by decide)
        have hin := Nat.mul_le_mul_right pageSize (show i + 1 ≤ x.n from hi)
        rw [Nat.succ_mul] at hin
        exact mod_ne_of_lt (by omega) (by omega)
      rw [if_neg (hout.blockOf_ne ready.rv64 (by decide)
        (by rw [ready.rv64.lvlsize (by decide)]; exact hpage i) le_rfl), rec.trans j hlt k hk]
    · rw [if_pos rfl, Nat.add_mod, hpage j, Nat.zero_add, Nat.mod_mod, Nat.mod_eq_of_lt hk]
  · have hpage := ready.pageAddr (show j < x.n by omega)
    rw [s.write_of_ne, rec.contents j hj k hk]
    rintro rfl
    rw [page_add_div hpage.page hk] at hframe
    exact ready.notMem_tables (by omega) hframe

end Steps

/-- The variables of the loop at page `i`. -/
def pos (x : Recolouring) (w : ReclrWindows) (i index : Nat) : ReclrPos where
  i := i
  vaddr := x.va + i * pageSize
  paddr := x.base + i * pageSize
  clrdVaddr := w.reclrdVaBase + x.copies i * pageSize
  physVa := w.physVaBase + i * pageSize
  index := index

/-- The walk of the loop goes on with the pages for the rest of the image. -/
def WalkAt (x : Recolouring) (i index : Nat) : Prop :=
  clrIndices (ppNextClr x.clr x.reclrdBase x.as.colors) (x.copies x.n - x.copies i) index =
    some (x.os.drop (x.copies i))

section Loop

variable (ready : x.Ready cpu w s₀) (hflags : pteValid flags = true)

include ready hflags

theorem Done.step (rec : x.Done s₀ i i s) (hi : i < x.n) (walk : x.WalkAt i index) :
    ∃ index' s', reclrStep x.clr cpu x.as x.reclrdBase x.base flags (x.pos w i index) s =
        .ok (x.pos w (i + 1) index', s') ∧ x.WalkAt (i + 1) index' ∧
      x.Done s₀ (i + 1) (i + 1) s' := by
  obtain ⟨pte, hpte⟩ := rec.tables i hi
  have hget : ptGetPte x.as.pt s.mem (x.as.pt.dscr.lvls - 1) (x.va + i * pageSize) = some pte := by
    rw [ready.rv64.lvls]
    exact hpte.getPte
  have hsucc : x.copies (i + 1) = _ := misses_succ x.hasClr i
  have hnext (y : Nat) : y + (i + 1) * pageSize = y + i * pageSize + pageSize := by
    rw [Nat.succ_mul, Nat.add_assoc]
  have htest : x.as.colors.testBit (x.clr.ofPage (x.base / pageSize + i)) = x.hasClr i := rfl
  simp only [reclrStep, pos, hget, ofPage_offset, htest]
  cases hclr : x.hasClr i with
  | true =>
    have hsame : x.copies (i + 1) = x.copies i := by rw [hsucc, hclr]; rfl
    have hset := (rec.keep ready hi hclr).setPage ready hi hflags hpte
    rw [page, hclr, if_pos rfl] at hset
    refine ⟨index, _, ?_, by rwa [WalkAt, hsame], hset⟩
    rw [if_pos rfl]
    simp only [ReclrPos.next, hnext, hsame]
  | false =>
    have hmore : x.copies (i + 1) = x.copies i + 1 := by rw [hsucc, hclr]; rfl
    obtain ⟨s₁, hcopy, rec₁, hentry⟩ := rec.copy ready hi hclr
    have hset := rec₁.setPage ready hi hflags (hentry hpte)
    -- The walk has another page, which is the one behind the window.
    have hlt := ready.copies_lt hi hclr
    obtain ⟨m, hm⟩ : ∃ m, x.copies x.n - x.copies i = m + 1 :=
      ⟨_, (Nat.succ_pred_eq_of_pos (Nat.sub_pos_of_lt (misses_lt hclr hi))).symm⟩
    rw [WalkAt, hm, List.drop_eq_getElem_cons hlt] at walk
    obtain ⟨o, rest, ho, hrest, heq⟩ := clrIndices_succ walk
    obtain ⟨hget', rfl⟩ := List.cons.inj heq
    rw [page, hclr, if_neg Bool.false_ne_true, List.getD_eq_getElem _ _ hlt, hget'] at hset
    refine ⟨o + 1, _, ?_, ?_, hset⟩
    · rw [if_neg Bool.false_ne_true, hcopy]
      simp only [ho, ReclrPos.next, hmore, Nat.succ_mul, Nat.add_assoc]
      rfl
    · rw [WalkAt, hmore, show x.copies x.n - (x.copies i + 1) = m by omega]
      exact hrest

theorem Done.loop {left : Nat} (rec : x.Done s₀ i i s) (hleft : i + left = x.n)
    (walk : x.WalkAt i index) :
    ∃ s', reclrLoop x.clr cpu x.as x.reclrdBase x.base flags left (x.pos w i index) s = .ok s' ∧
      x.Done s₀ x.n x.n s' := by
  induction left generalizing i index s with
  | zero =>
    obtain rfl : i = x.n := hleft
    exact ⟨s, rfl, rec⟩
  | succ left ih =>
    obtain ⟨index', s₁, hstep, walk', rec'⟩ := rec.step ready hflags (by omega) walk
    obtain ⟨s', hloop, hdone⟩ := ih rec' (by omega) walk'
    exact ⟨s', by rw [reclrLoop, hstep]; exact hloop, hdone⟩

end Loop

end Recolouring

/-! ## The tables of the range -/

section Inflate

variable {clr : Colors} {as : AddrSpace} {s s' : MemState} {va top lvl rounds : Nat}

theorem inflateLvl_of_tables {vaddr : Nat} (hrv : as.pt.Rv64) (hl : lvl < 2)
    (hwrap : top + ptLvlsize as.pt lvl ≤ 2 ^ 64)
    (htables : ∀ a, vaddr ≤ a → a < top → ∃ q, PtEntry as.pt s.mem a 2 q)
    (hok : inflateLvl clr as top lvl rounds vaddr s = .ok s') : s' = s := by
  induction rounds generalizing vaddr with
  | zero => cases hok
  | succ rounds ih =>
    rw [inflateLvl] at hok
    split at hok
    · rename_i hlt
      obtain ⟨q, hq⟩ := htables vaddr le_rfl hlt
      obtain ⟨p, hp, htable⟩ := hq.above hl
      have hlvls : ¬ as.pt.dscr.lvls - 1 ≤ lvl := by rw [hrv.lvls]; omega
      have hexpand : memExpandPte clr as vaddr lvl s = .ok s := by
        simp only [memExpandPte, if_neg hlvls, hp.getPte, htable, if_true]
      simp only [hexpand, u64_of_lt (show vaddr + ptLvlsize as.pt lvl < 2 ^ 64 by omega)] at hok
      exact ih (fun a hlo hhi => htables a (by omega) hhi) hok
    · cases hok
      rfl

theorem memInflatePt_of_tables {length : Nat} (hrv : as.pt.Rv64)
    (hwrap : va + length + 2 ^ 30 ≤ 2 ^ 64)
    (htables : ∀ a, va ≤ a → a < va + length → ∃ q, PtEntry as.pt s.mem a 2 q)
    (hok : memInflatePt clr as va length rounds s = .ok s') : s' = s := by
  have h₀ := hrv.lvlsize_le (show 0 < 3 by decide)
  have h₁ := hrv.lvlsize_le (show 1 < 3 by decide)
  rw [memInflatePt_eq hrv (by omega)] at hok
  cases hfirst : inflateLvl clr as (va + length) 0 rounds va s with
  | error e =>
    rw [hfirst] at hok
    cases hok
  | ok s₁ =>
    rw [hfirst] at hok
    obtain rfl := inflateLvl_of_tables hrv (by decide) (by omega) htables hfirst
    exact inflateLvl_of_tables hrv (by decide) (by omega) htables hok

end Inflate

section Map

variable {clr : Colors} {as : AddrSpace} {s s' : MemState} {va base n rounds q : Nat} {flags : Word}

theorem memMapFind_of_table {left vaddr paddr down lvl pte lvl' pte' : Nat} (hrv : as.pt.Rv64)
    (tree : PtTree as.pt s.mem) (hq : PtEntry as.pt s.mem vaddr 2 q)
    (h : PtEntry as.pt s.mem vaddr lvl pte)
    (hok : memMapFind clr as left vaddr paddr down lvl s = .ok (lvl', pte', s')) :
    s' = s ∧ lvl' = 2 ∧ PtEntry as.pt s.mem vaddr 2 pte' ∧
      vaddr % pageSize = 0 ∧ paddr % pageSize = 0 := by
  have hpage : ptLvlsize as.pt 2 = pageSize := hrv.lvlsize (by decide)
  induction down generalizing lvl pte with
  | zero => cases hok
  | succ down ih =>
    have hl := tree.lvl_lt h
    simp only [memMapFind, h.getPte, hrv.lvlTerminal hl, if_true] at hok
    rcases Nat.lt_or_ge lvl 2 with hlt | hge
    · -- Above the last level the way leads through tables.
      obtain ⟨p, hp, htable⟩ := hq.above hlt
      obtain rfl := hp.unique h
      have hv := pteTable_valid htable
      simp only [ptPteMappable, hv, htable, Bool.not_true, Bool.false_and, Bool.false_eq_true,
        if_false] at hok
      exact ih (hp.next htable) hok
    · obtain rfl : lvl = 2 := by omega
      split at hok
      · rename_i hmap
        cases hok
        simp only [ptPteMappable, Bool.and_eq_true, Bool.not_eq_true', decide_eq_true_eq,
          hpage] at hmap
        exact ⟨rfl, rfl, h, hmap.1.2, hmap.2⟩
      · split at hok
        · simp only [memAllocPt, hrv.lvls] at hok
          cases hok
        · split at hok
          · cases hok
          · rename_i htable
            rw [tree.last h] at htable
            cases htable rfl

theorem memMapLoop_base_page (hrv : as.pt.Rv64) (tree : PtTree as.pt s.mem) (hn : 1 ≤ n)
    (hq : PtEntry as.pt s.mem va 2 q)
    (hok : memMapLoop clr as true n flags rounds ⟨va, base, 0⟩ s = .ok s') :
    base % pageSize = 0 := by
  cases rounds with
  | zero => cases hok
  | succ rounds =>
    rw [memMapLoop, if_pos (show 0 < n from hn)] at hok
    split at hok
    · cases hok
    rename_i lvl pte s₁ hfind
    exact (memMapFind_of_table hrv tree hq .root hfind).2.2.2.2

theorem memMapLoop_of_tables {f : Nat → Option Nat} {c : MapPos}
    (req : MapRequest as.pt va base n flags) (m : Mapping as.pt va base n f c s)
    (htables : ∀ i < n, ∃ pte, PtEntry as.pt s.mem (va + i * pageSize) 2 pte)
    (hok : memMapLoop clr as true n flags rounds c s = .ok s') :
    (∀ a, memTranslate as.pt s'.mem a = mappedTo as.pt va base n f a) ∧
      ∀ b, b / pageSize ∉ tableFrames as.pt s.mem → s'.mem b = s.mem b := by
  have hrv := req.rv64
  have hpage : ptLvlsize as.pt 2 = pageSize := hrv.lvlsize (by decide)
  induction rounds generalizing c s with
  | zero => cases hok
  | succ rounds ih =>
    rw [memMapLoop] at hok
    split at hok
    swap
    · rename_i hdone
      cases hok
      have hcount : c.count = n := Nat.le_antisymm m.count_le (by omega)
      exact ⟨fun a => hcount ▸ m.trans a, fun _ _ => rfl⟩
    rename_i hlt
    split at hok
    · cases hok
    rename_i lvl pte s₁ hfind
    obtain ⟨q, hq⟩ := htables c.count hlt
    rw [← show c.vaddr = va + c.count * pageSize from m.vaddr] at hq
    obtain ⟨rfl, rfl, entry, hv, hp⟩ :=
      memMapFind_of_table hrv m.tree hq .root hfind
    simp only at hok
    split at hok
    · cases hok
    rename_i c₂ s₂ hfill
    obtain ⟨c', s'', hfill', filled, -⟩ := memMapFill_filled clr req m (show 2 < 3 by decide)
      (fun _ _ => entry) (by rwa [hpage]) (by rwa [hpage]) (entry.index_add_left hrv (by decide))
    cases hfill.symm.trans hfill'
    obtain ⟨htrans, hother⟩ := ih filled.mapping (fun i hi => by
      obtain ⟨pte, hpte⟩ := htables i hi
      exact ⟨pte, filled.entries le_rfl hpte⟩) hok
    have hgrows : Grows as.pt ∅ s₁ ∅ s₂ := filled.grows
    refine ⟨htrans, fun b hb => ?_⟩
    rw [hother b fun hin => hb ((hgrows.frames hin).resolve_right (by simp)),
      ← show s₂.mem b = s₁.mem b from filled.other b fun hq heq =>
        hb (heq ▸ PtEntry.mem_tableFrames hq)]

end Map

/-! ## The whole function -/

/-- A window of `n` pages in `SEC_HYP_VM`. -/
def InHypVm (v n : Nat) : Prop := baoVmBase ≤ v ∧ v + n * pageSize ≤ baoVasTop

/-- What `mem_map_reclr` finds: the address spaces of the cpu and of the VM, with tables apart from
each other, an image that no table is in, and tables of the last level for the range. -/
structure ReclrSetup (clr : Colors) (cpu as : AddrSpace) (va base n : Nat) (used : Set Nat)
    (s : MemState) : Prop where
  hyp : AsState clr cpu false used s
  rv64 : as.pt.Rv64
  tree : PtTree as.pt s.mem
  vm : tableFrames as.pt s.mem ⊆ used
  root : cpu.pt.root % ptSize cpu.pt 0 = 0
  secs : ∀ v, baoVmBase ≤ v → v < baoVasTop → memFindSec cpu v = some secHypVm
  apart : Disjoint (tableFrames as.pt s.mem) (tableFrames cpu.pt s.mem)
  image : frames base n ⊆ used
  imageVm : Disjoint (frames base n) (tableFrames as.pt s.mem)
  imageHyp : Disjoint (frames base n) (tableFrames cpu.pt s.mem)
  top : base + n * pageSize ≤ 2 ^ 56
  window : pageOf va % ptSpan as.pt + n * pageSize ≤ ptSpan as.pt
  below : pageOf va + n * pageSize + 2 ^ 30 ≤ 2 ^ 64
  tables : ∀ i < n, ∃ pte, PtEntry as.pt s.mem (pageOf va + i * pageSize) 2 pte

/-- The pages at the offsets from the base. -/
def walkFrames (r : Ppages) (os : List Nat) : Set Nat :=
  {f | ∃ o ∈ os, (r.base + o * pageSize) / pageSize = f}

/-- The pages `os` of the walk from the base are different pages that are not in use. The pools then
give other pages for the tables of the cpu. -/
structure FreshPages (clr : Colors) (cpu : AddrSpace) (r : Ppages) (m : PoolMem) (used : Set Nat)
    (os : List Nat) : Prop where
  offsets : r.offsets clr = some os
  nodup : os.Nodup
  pages : ∀ o ∈ os, PageAddr (r.base + o * pageSize)
  fresh : ∀ o ∈ os, (r.base + o * pageSize) / pageSize ∉ used
  tables : TablesFresh clr cpu false m (used ∪ walkFrames r os)

/-- `mem_map_reclr` gets as many fresh pages as there are to recolour. They are neither pages of the
image nor tables. -/
def GetsFreshPages (clr : Colors) (cpu as : AddrSpace) (base n rounds : Nat) (s : MemState) :
    Prop :=
  ∀ v s₁ r m,
    memAllocVpage clr cpu secHypVm 0 (reclrdNum clr as.colors base n) rounds s = .ok (v, s₁) →
    memAllocPpagesClr clr s₁.pools.bits as.colors (reclrdNum clr as.colors base n) false
      s₁.pools.pools = some (r, m) →
    reclrdNum clr as.colors base n ≤ r.size ∧ ∃ os, FreshPages clr cpu r m
      (tableFrames cpu.pt s₁.mem ∪ (tableFrames as.pt s.mem ∪ frames base n)) os

section Assembly

variable {clr : Colors} {cpu as : AddrSpace} {va base n rounds v k i : Nat} {flags : Word}
  {used : Set Nat} {s s' s₁ : MemState} {w : ReclrWindows} {os : List Nat} {pt : PageTable}

theorem exists_of_mem_clrIndices {next : Nat → Option Nat} {o : Nat}
    (h : clrIndices next k i = some os) (ho : o ∈ os) : ∃ j, next j = some o := by
  induction k generalizing i os with
  | zero =>
    cases h
    cases ho
  | succ k ih =>
    obtain ⟨j, rest, hj, hrest, rfl⟩ := clrIndices_succ h
    rcases List.mem_cons.mp ho with rfl | ho
    · exact ⟨i, hj⟩
    · exact ih hrest ho

theorem Recolouring.Ready.hasClr {x : Recolouring} (ready : x.Ready cpu w s)
    (hperiod : x.clr.num * x.clr.size ≤ 2 ^ 52) (hi : i < x.n) :
    x.as.colors.testBit (x.clr.ofPage (x.page i / pageSize)) = true := by
  obtain ⟨hclr, heq⟩ | ⟨-, hmem, heq⟩ := ready.page_cases hi <;>
    rw [heq, Nat.add_mul_div_right _ _ (by decide)]
  · exact hclr
  · obtain ⟨j, hj⟩ := exists_of_mem_clrIndices ready.walk hmem
    obtain ⟨hrounds, hbit, -⟩ := nextClrLoop_spec hj
    have htop := (ready.pages _ hmem).top
    rw [ppNextClrColor_of_lt (by omega) hperiod (by simp only [pageSize] at htop; omega)] at hbit
    exact hbit

theorem InHypVm.ne_zero (h : InHypVm v n) : v ≠ 0 := by
  have := h.1
  simp only [baoVmBase] at this
  omega

theorem span_cases (hrv : pt.Rv64) : ptSpan pt = 2 ^ 39 ∨ ptSpan pt = 2 ^ 41 := by
  rcases hrv.nentries_zero with h | h <;> rw [ptSpan, h, hrv.lvlsize (by decide)] <;> simp

theorem InHypVm.window (hrv : pt.Rv64) (h : InHypVm v n) :
    v % ptSpan pt + n * pageSize ≤ ptSpan pt := by
  obtain ⟨hlo, hhi⟩ := h
  simp only [baoVmBase, baoVasTop] at hlo hhi
  rcases span_cases hrv with hspan | hspan <;> rw [hspan] <;> omega

theorem ReclrSetup.map_true (setup : ReclrSetup clr cpu as va base n used s) {pp : Option Ppages}
    {s₂ : MemState} {ok : Bool} (hv : InHypVm v k) (hk : 1 ≤ k) (hpage : v % pageSize = 0)
    (hok : memMap clr cpu v pp k pteHypFlags rounds s₁ = .ok (ok, s₂)) : ok = true := by
  obtain ⟨hlo, hhi⟩ := hv
  have hlast : u64 (v + k * pageSize + (2 ^ 64 - 1)) = v + k * pageSize - 1 := by
    simp only [u64, baoVasTop, pageSize] at *
    omega
  refine memMap_true hpage (setup.secs v hlo ?_) ?_ hok
  · simp only [pageSize] at hhi
    omega
  · rw [hlast]
    refine setup.secs _ ?_ ?_ <;>
    · simp only [pageSize] at *
      omega

/-- What the windows of `mem_map_reclr` are: the cpu sees the pages of the walk and the image in
them, and the image and the VM's tables are as they were. -/
structure WindowsMapped (clr : Colors) (cpu as : AddrSpace) (base n : Nat) (r : Ppages)
    (os : List Nat) (w : ReclrWindows) (s s₀ : MemState) : Prop where
  tree : PtTree cpu.pt s₀.mem
  basePage : base % pageSize = 0
  keeps : ∀ a, a / pageSize ∈ tableFrames as.pt s.mem ∪ frames base n → s₀.mem a = s.mem a
  noTable : ∀ f ∈ tableFrames as.pt s.mem ∪ frames base n ∪ walkFrames r os,
    f ∉ tableFrames cpu.pt s₀.mem
  reclrd : ∀ j < os.length, memTranslate cpu.pt s₀.mem (w.reclrdVaBase + j * pageSize) =
    some (r.base + os.getD j 0 * pageSize)
  phys : ∀ i < n,
    memTranslate cpu.pt s₀.mem (w.physVaBase + i * pageSize) = some (base + i * pageSize)

section

variable (setup : ReclrSetup clr cpu as va base n used s)

include setup

variable {r : Ppages} {m : PoolMem} {s₀ : MemState}

/-- The memory that the VM needs, and the pages of the walk, when the cpu's tables have grown before
and after these pages were taken. -/
theorem ReclrSetup.grown {used₁ used₀ : Set Nat} (fresh : FreshPages clr cpu r m
      (tableFrames cpu.pt s₁.mem ∪ (tableFrames as.pt s.mem ∪ frames base n)) os)
    (hgrows₁ : Grows cpu.pt used s used₁ s₁)
    (hgrows : Grows cpu.pt (tableFrames cpu.pt s₁.mem ∪ (tableFrames as.pt s.mem ∪ frames base n) ∪
      walkFrames r os) { s₁ with pools := m } used₀ s₀) :
    (∀ a, a / pageSize ∈ tableFrames as.pt s.mem ∪ frames base n → s₀.mem a = s.mem a) ∧
      ∀ f ∈ tableFrames as.pt s.mem ∪ frames base n ∪ walkFrames r os,
        f ∉ tableFrames cpu.pt s₀.mem := by
  have hused : ∀ f ∈ tableFrames as.pt s.mem ∪ frames base n, f ∈ used := by
    rintro f (hf | hf)
    · exact setup.vm hf
    · exact setup.image hf
  have hold : ∀ f ∈ tableFrames as.pt s.mem ∪ frames base n, f ∉ tableFrames cpu.pt s.mem := by
    rintro f (hf | hf)
    · exact Set.disjoint_left.mp setup.apart hf
    · exact Set.disjoint_left.mp setup.imageHyp hf
  have hno₁ : ∀ f ∈ tableFrames as.pt s.mem ∪ frames base n, f ∉ tableFrames cpu.pt s₁.mem :=
    fun f hf => hgrows₁.notMem_tableFrames (hused f hf) (hold f hf)
  refine ⟨fun a ha => ?_, ?_⟩
  · rw [hgrows.keeps a (.inl (.inr ha)) (hno₁ _ ha), hgrows₁.keeps a (hused _ ha) (hold _ ha)]
  · rintro f (hf | ⟨o, ho, rfl⟩)
    · exact hgrows.notMem_tableFrames (.inl (.inr hf)) (hno₁ f hf)
    · exact hgrows.notMem_tableFrames (.inr ⟨o, ho, rfl⟩) fun hin =>
        fresh.fresh o ho (.inl hin)

/-- What `mem_map_reclr` does before it comes to the VM's tables. -/
theorem ReclrSetup.windows (hclr : allClrs clr as.colors = false)
    (hnum : reclrdNum clr as.colors base n ≠ 0) (hfresh : GetsFreshPages clr cpu as base n rounds s)
    (hreclrd : InHypVm w.reclrdVaBase (reclrdNum clr as.colors base n))
    (hphys : InHypVm w.physVaBase n)
    (hok : reclrWindows clr cpu as va ⟨base, n, 0⟩ n rounds s = .ok (w, s')) :
    ∃ (r : Ppages) (m : PoolMem) (os : List Nat) (s₁ s₀ : MemState), FreshPages clr cpu r m
        (tableFrames cpu.pt s₁.mem ∪ (tableFrames as.pt s.mem ∪ frames base n)) os ∧
      r.size = reclrdNum clr as.colors base n ∧ r.colors = as.colors ∧ w.reclrdBase = r.base ∧
      WindowsMapped clr cpu as base n r os w s s₀ ∧
      memInflatePt clr as (pageOf va) (n * pageSize) rounds s₀ = .ok s' := by
  obtain ⟨⟨reclrdVa, s₁⟩, hvpage, hok⟩ := bind_eq_ok.mp hok
  dsimp only at hok
  split at hok
  · cases hok
  rename_i r m halloc
  obtain ⟨⟨ok₁, s₃⟩, hmap₁, hok⟩ := bind_eq_ok.mp hok
  obtain ⟨⟨physVa, s₄⟩, hvpage₂, hok⟩ := bind_eq_ok.mp hok
  obtain ⟨⟨ok₂, s₀⟩, hmap₂, hok⟩ := bind_eq_ok.mp hok
  obtain ⟨s₂, hinflate, hok⟩ := bind_eq_ok.mp hok
  cases hok
  obtain ⟨hsize, os, fresh⟩ := hfresh _ _ _ _ hvpage halloc
  have hn : 1 ≤ reclrdNum clr as.colors base n := Nat.pos_of_ne_zero hnum
  obtain ⟨hrsize, hrclr⟩ := memAllocPpagesClr_request hclr hn halloc hsize
  have hwin₁ := hreclrd.window setup.hyp.rv64
  have hwin₂ := hphys.window setup.hyp.rv64
  -- The window for the coloured pages.
  have taken₁ := setup.hyp.allocVpage hn (by omega) (.inl setup.root) hvpage hreclrd.ne_zero
  obtain ⟨used₁, hs₁, hgrows₁⟩ := taken₁.state
  have hs₂ : AsState clr cpu false (tableFrames cpu.pt s₁.mem ∪ (tableFrames as.pt s.mem ∪
      frames base n) ∪ walkFrames r os) { s₁ with pools := m } :=
    ⟨hs₁.rv64, hs₁.tree, fun f hf => .inl (.inl hf), fresh.tables⟩
  obtain rfl := setup.map_true hreclrd hn taken₁.page hmap₁
  obtain ⟨hfalse, -⟩ | ⟨⟨used₃, hs₃, hgrows₃⟩, hin, -⟩ := hs₂.mapColoured (by rw [hrclr, hclr])
    hrsize taken₁.page (by simp only [InHypVm, baoVasTop] at hreclrd; omega) (by omega) (by decide)
    (fun k hk => (taken₁.trans _).trans (taken₁.pages k hk).1) fresh.offsets fresh.pages hmap₁
  · cases hfalse
  -- The window for the image.
  have hpages : 1 ≤ n := Nat.pos_of_ne_zero fun hzero => by
    rw [reclrdNum_eq, hzero] at hn
    cases hn
  have taken₂ := hs₃.allocVpage hpages (by omega) (.inl setup.root) hvpage₂ hphys.ne_zero
  obtain rfl := setup.map_true hphys hpages taken₂.page hmap₂
  obtain ⟨used₄, hs₄, -⟩ := taken₂.state
  have hbase := hs₄.base_page_of_mapped hpages hmap₂
  obtain ⟨⟨used₀, hs₀, hgrows₀⟩, hkeep, himage⟩ := taken₂.mapGiven hs₃
    ⟨hs₃.rv64, taken₂.page, hbase, hwin₂, setup.top, by decide⟩ hmap₂
  obtain ⟨hkeeps, hno⟩ := setup.grown fresh hgrows₁ (hgrows₃.comp hgrows₀)
  refine ⟨r, m, os, s₁, s₀, fresh, hrsize, hrclr, rfl, ⟨hs₀.tree, hbase, hkeeps, hno,
    fun j hj => ?_, fun i hi => ?_⟩, hinflate⟩
  · have := hkeep _ _ (hin j hj 0 (by decide))
    rwa [List.getD_eq_getElem _ _ hj]
  · exact himage _ (Nat.mul_lt_mul_of_pos_right hi (by decide))

theorem ReclrSetup.ready {s₂ : MemState} (hclr : allClrs clr as.colors = false)
    (fresh : FreshPages clr cpu r m
      (tableFrames cpu.pt s₁.mem ∪ (tableFrames as.pt s.mem ∪ frames base n)) os)
    (hsize : r.size = reclrdNum clr as.colors base n) (hcolors : r.colors = as.colors)
    (mapped : WindowsMapped clr cpu as base n r os w s s₀)
    (hinflate : memInflatePt clr as (pageOf va) (n * pageSize) rounds s₀ = .ok s₂) :
    s₂ = s₀ ∧ Recolouring.Ready ⟨clr, as, pageOf va, base, n, r.base, os⟩ cpu w s₀ := by
  have hrv := setup.rv64
  have hwindow := setup.window
  have hva : pageOf va % pageSize = 0 := Nat.mul_mod_left _ _
  have hbase := mapped.basePage
  -- The VM's tables are as they were.
  have hmem : ∀ {a l q}, PtEntry as.pt s.mem a l q → s₀.mem q = s.mem q := fun hq =>
    mapped.keeps _ (.inl hq.mem_tableFrames)
  have hframes : tableFrames as.pt s₀.mem ⊆ tableFrames as.pt s.mem := by
    rintro f ⟨a, l, q, hq, rfl⟩
    exact ((PtTree.entry_congr hmem).mp hq).mem_tableFrames
  have htables : ∀ i < n, ∃ pte, PtEntry as.pt s₀.mem (pageOf va + i * pageSize) 2 pte := by
    intro i hi
    obtain ⟨pte, hpte⟩ := setup.tables i hi
    exact ⟨pte, (PtTree.entry_congr hmem).mpr hpte⟩
  have himage : ∀ i < n, (base + i * pageSize) / pageSize ∈ frames base n := fun i hi => by
    rw [Nat.add_mul_div_right _ _ (by decide)]
    exact ⟨Nat.le_add_right _ _, by omega⟩
  have hnew : ∀ i < n, ∀ o ∈ os, base + i * pageSize ≠ r.base + o * pageSize := fun i hi o ho heq =>
    fresh.fresh o ho (.inr (.inr (heq ▸ himage i hi)))
  refine ⟨?_, ⟨setup.hyp.rv64, mapped.tree, hrv, setup.tree.congr_mem hmem, hva,
    show n * pageSize ≤ ptSpan as.pt by omega, htables, fun i hi => ⟨?_, ?_⟩, ?_, fresh.nodup,
    fresh.pages, hnew, fun i hi hin => ?_, fun o ho hin => ?_, fun o ho => ?_, ?_, mapped.reclrd,
    mapped.phys⟩⟩
  · refine memInflatePt_of_tables hrv setup.below (fun a hlo hhi => ?_) hinflate
    obtain ⟨pte, hpte⟩ := htables ((a - pageOf va) / pageSize)
      (Nat.div_lt_of_lt_mul (by rw [Nat.mul_comm]; omega))
    have hoff : (pageOf va + (a - pageOf va) / pageSize * pageSize) % pageSize = 0 := by
      rw [Nat.add_mul_mod_self_right, hva]
    have hblock := blockOf_page hrv hoff (Nat.mod_lt (a - pageOf va) (by decide))
    rw [Nat.add_assoc, Nat.div_add_mod', Nat.add_sub_cancel' hlo] at hblock
    exact ⟨pte, hpte.congr_va hrv (by decide) hblock.symm⟩
  · rw [Nat.add_mul_mod_self_right, hbase]
  · have := setup.top
    have := Nat.mul_lt_mul_of_pos_right hi (show 0 < pageSize by decide)
    dsimp only at *
    omega
  · have := fresh.offsets
    rwa [Ppages.offsets, hcolors, hclr, if_pos (by rfl), hsize, reclrdNum_eq] at this
  · exact Set.disjoint_left.mp setup.imageVm (himage i hi) (hframes hin)
  · exact fresh.fresh o ho (.inr (.inl (hframes hin)))
  · exact mapped.noTable _ (.inr ⟨o, ho, rfl⟩)
  · exact Set.disjoint_left.mpr fun f hf => mapped.noTable f (.inl (.inl (hframes hf)))

theorem ReclrSetup.unchanged (hnum : reclrdNum clr as.colors base n = 0)
    (hflags : pteValid flags = true)
    (hok : memMap clr as va (some ⟨base, n, 0⟩) n flags rounds s = .ok (true, s')) :
    ∀ i < n, imageHasClr clr base as.colors i = true ∧ ∀ k < pageSize,
      memTranslate as.pt s'.mem (pageOf va + i * pageSize + k) =
        some ((base / pageSize + i) * pageSize + k) ∧
      s'.mem ((base / pageSize + i) * pageSize + k) =
        s.mem ((base / pageSize + i) * pageSize + k) := by
  intro i hi
  have hwindow := setup.window
  have hall : allClrs clr 0 = true := rfl
  simp only [memMap] at hok
  split at hok
  · cases hok
  simp only [memMapPages, hall, Bool.not_true, Bool.false_eq_true, if_false] at hok
  cases hloop : memMapLoop clr as true n flags rounds ⟨pageOf va, base, 0⟩ s with
  | error e =>
    rw [hloop] at hok
    cases hok
  | ok s₁ =>
  rw [hloop] at hok
  cases hok
  obtain ⟨q, hq⟩ := setup.tables 0 (by omega)
  rw [Nat.zero_mul, Nat.add_zero] at hq
  have hbase := memMapLoop_base_page setup.rv64 setup.tree (by omega) hq hloop
  have req : MapRequest as.pt (pageOf va) base n flags :=
    ⟨setup.rv64, Nat.mul_mod_left _ _, hbase, hwindow, setup.top, hflags⟩
  obtain ⟨htrans, hother⟩ := memMapLoop_of_tables req
    (.start setup.tree (pageOf va) base n) setup.tables hloop
  rw [reclrdNum_eq] at hnum
  refine ⟨forall_of_misses hnum i hi, fun k hk => ⟨?_, ?_⟩⟩
  · have hin := Nat.mul_lt_mul_of_pos_right hi (show 0 < pageSize by decide)
    have hle := Nat.mul_le_mul_right pageSize (show i + 1 ≤ n from hi)
    rw [Nat.succ_mul] at hle
    have haddr : (pageOf va + i * pageSize + k) % ptSpan as.pt =
        pageOf va % ptSpan as.pt + (i * pageSize + k) := by
      rw [Nat.add_assoc, ← Nat.mod_add_mod, Nat.mod_eq_of_lt (by omega)]
    rw [htrans, mappedTo, haddr, if_pos (by omega), Nat.add_sub_cancel_left, Nat.add_mul,
      Nat.div_mul_cancel (Nat.dvd_of_mod_eq_zero hbase), Nat.add_assoc]
  · have hframe : ((base / pageSize + i) * pageSize + k) / pageSize ∈ frames base n := by
      rw [Nat.mul_comm, Nat.mul_add_div (by decide), Nat.div_eq_of_lt hk]
      exact ⟨by omega, by omega⟩
    exact hother _ (Set.disjoint_left.mp setup.imageVm hframe)

end

theorem reclrdNum_card (clr : Colors) (colors base n : Nat) :
    reclrdNum clr colors base n =
      ((Finset.range n).filter fun i => ¬ HasClr clr base colors i).card := by
  rw [reclrdNum_eq, misses, Nat.count_eq_card_filter_range]
  exact congrArg Finset.card (Finset.filter_congr fun i _ => by simp [HasClr, imageHasClr])

end Assembly

/-- Each page of the range is mapped to a page that has one of the VM's colours and the contents of
the page of the image, and different virtual pages are mapped to different pages. -/
def ImageRecoloured (clr : Colors) (as : AddrSpace) (va base n : Nat) (s s' : MemState) : Prop :=
  ∃ page : Nat → Nat,
    (∀ i < n, as.colors.testBit (clr.ofPage (page i)) = true ∧ ∀ k < pageSize,
      memTranslate as.pt s'.mem (pageOf va + i * pageSize + k) = some (page i * pageSize + k) ∧
      s'.mem (page i * pageSize + k) = s.mem ((base / pageSize + i) * pageSize + k)) ∧
    ∀ i < n, ∀ j < n, page i = page j → i = j

/-- From the root, one entry leads to a table, and one entry of that table to a table of the last
level. -/
def OnePath (pt : PageTable) (mem : PhysMem) (i table j last : Nat) : Prop :=
  (∀ k < ptNentries pt 0, pteTable (mem (pt.rootPa + 8 * k)) = true →
    k = i ∧ pteAddr (mem (pt.rootPa + 8 * k)) = table) ∧
  (∀ k < 512, pteTable (mem (table + 8 * k)) = true →
    k = j ∧ pteAddr (mem (table + 8 * k)) = last) ∧
  ∀ k < 512, pteTable (mem (last + 8 * k)) = false

instance (pt : PageTable) (mem : PhysMem) (i table j last : Nat) :
    Decidable (OnePath pt mem i table j last) :=
  inferInstanceAs (Decidable (_ ∧ _ ∧ _))

section OnePath

variable {pt : PageTable} {mem : PhysMem} {i table j last va lvl pte : Nat}

theorem index_lt_of_pos (hrv : pt.Rv64) (h0 : 0 < lvl) (hl : lvl < 3) (va : Nat) :
    ptGetpteindexByVa pt va lvl < 512 := by
  rw [← hrv.nentries h0 hl]
  exact hrv.index_lt hl va

theorem OnePath.entry (h : OnePath pt mem i table j last) (hrv : pt.Rv64)
    (hentry : PtEntry pt mem va lvl pte) :
    (lvl = 0 ∧ pte = pt.rootPa + 8 * ptGetpteindexByVa pt va 0) ∨
      (lvl = 1 ∧ ptGetpteindexByVa pt va 0 = i ∧ pte = table + 8 * ptGetpteindexByVa pt va 1) ∨
      (lvl = 2 ∧ ptGetpteindexByVa pt va 0 = i ∧ ptGetpteindexByVa pt va 1 = j ∧
        pte = last + 8 * ptGetpteindexByVa pt va 2) := by
  obtain ⟨hroot, hmid, hlast⟩ := h
  induction hentry with
  | root => exact .inl ⟨rfl, rfl⟩
  | next hentry htable ih =>
    obtain ⟨rfl, rfl⟩ | ⟨rfl, hi, rfl⟩ | ⟨rfl, -, -, rfl⟩ := ih
    · obtain ⟨hi, haddr⟩ := hroot _ (hrv.index_lt (by decide) va) htable
      exact .inr (.inl ⟨rfl, hi, by rw [haddr]⟩)
    · obtain ⟨hj, haddr⟩ := hmid _ (index_lt_of_pos hrv (by decide) (by decide) va) htable
      exact .inr (.inr ⟨rfl, hi, hj, by rw [haddr]⟩)
    · rw [hlast _ (index_lt_of_pos hrv (by decide) (by decide) va)] at htable
      cases htable

variable (h : OnePath pt mem i table j last) (hrv : pt.Rv64)

include h hrv

theorem OnePath.bounds (hentry : PtEntry pt mem va lvl pte) :
    (lvl = 0 ∧ pt.rootPa ≤ pte ∧ pte < pt.rootPa + 0x4000) ∨
      (lvl = 1 ∧ table ≤ pte ∧ pte < table + 0x1000) ∨
      (lvl = 2 ∧ last ≤ pte ∧ pte < last + 0x1000) := by
  have h0 := hrv.index_lt (show 0 < 3 by decide) va
  have h1 := index_lt_of_pos hrv (show 0 < 1 by decide) (by decide) va
  have h2 := index_lt_of_pos hrv (show 0 < 2 by decide) (by decide) va
  have hn : ptNentries pt 0 ≤ 2048 := by rcases hrv.nentries_zero with hn | hn <;> omega
  rcases h.entry hrv hentry with ⟨rfl, rfl⟩ | ⟨rfl, -, rfl⟩ | ⟨rfl, -, -, rfl⟩ <;> omega

theorem OnePath.tree (hpos : 0 < pt.rootPa ∧ pt.rootPa + 0x4000 ≤ table ∧ table + 0x1000 ≤ last) :
    PtTree pt mem where
  inj {va va' lvl lvl' pte} hva hva' := by
    have hlvl : lvl = lvl' := by
      have := h.bounds hrv hva
      have := h.bounds hrv hva'
      omega
    subst hlvl
    refine ⟨rfl, ?_⟩
    rcases h.entry hrv hva with ⟨rfl, hpte⟩ | ⟨rfl, hi, hpte⟩ | ⟨rfl, hi, hj, hpte⟩ <;>
      rcases h.entry hrv hva' with ⟨hl, hpte'⟩ | ⟨hl, hi', hpte'⟩ | ⟨hl, hi', hj', hpte'⟩ <;>
      cases hl <;> simp only [blockOf, Nat.zero_add, Nat.reduceAdd] <;> omega
  last {va pte} hentry := by
    rcases h.entry hrv hentry with ⟨hl, -⟩ | ⟨hl, -⟩ | ⟨-, -, -, rfl⟩
    · cases hl
    · cases hl
    · exact h.2.2 _ (index_lt_of_pos hrv (by decide) (by decide) va)
  pos {va lvl pte} hentry := by
    have := h.bounds hrv hentry
    omega

end OnePath

/-- A guest of the even colour. -/
def evenGuest : AddrSpace := ⟨⟨sv39x4PtDscr, 0x80004000, 0x80004000⟩, vmSecs, .vm, 1⟩

/-- Its tables for the pages from 0x40000000 on. -/
def evenState : MemState :=
  (clearState.write (0x80004000 + 8) (pteSet 0x80008000 pteTypeTable pteHypFlags)).write 0x80008000
    (pteSet 0x80009000 pteTypeTable pteHypFlags)

theorem evenState_table {a : Nat} (h : pteTable (evenState.mem a) = true) :
    a = 0x80004000 + 8 ∨ a = 0x80008000 := by
  by_contra hne
  obtain ⟨hfirst, hsecond⟩ := not_or.mp hne
  rw [evenState, MemState.write_of_ne _ hsecond, MemState.write_of_ne _ hfirst] at h
  exact absurd h (by decide : ¬ pteTable 0 = true)

theorem evenState_path : OnePath evenGuest.pt evenState.mem 1 0x80008000 0 0x80009000 := by
  have hroot : evenGuest.pt.rootPa = 0x80004000 := rfl
  have hn : ptNentries evenGuest.pt 0 = 2048 := rfl
  refine ⟨fun k hk h => ?_, fun k _ h => ?_, fun k _ => ?_⟩
  · have := evenState_table h
    obtain rfl : k = 1 := by omega
    exact ⟨rfl, by decide⟩
  · have := evenState_table h
    obtain rfl : k = 0 := by omega
    exact ⟨rfl, by decide⟩
  · rw [← Bool.not_eq_true]
    intro h
    have := evenState_table h
    omega

variable {f : Nat}

theorem evenState_frames (hf : f ∈ tableFrames evenGuest.pt evenState.mem) :
    0x80004 ≤ f ∧ f < 0x8000a := by
  obtain ⟨va, lvl, pte, hentry, rfl⟩ := hf
  have := evenState_path.bounds (.inr rfl) hentry
  simp only [evenGuest, pageSize] at *
  omega

theorem evenState_root (i : Nat) (hi : i < ptNentries smallCpu.pt 0) :
    pteTable (evenState.mem (smallCpu.pt.rootPa + 8 * i)) = false := by
  have hroot : smallCpu.pt.rootPa = 0x80000000 := rfl
  have hn : ptNentries smallCpu.pt 0 = 512 := rfl
  rw [← Bool.not_eq_true]
  intro h
  have := evenState_table h
  omega

theorem evenState_frames_cpu (hf : f ∈ tableFrames smallCpu.pt evenState.mem) : f = 0x80000 := by
  obtain ⟨va, lvl, pte, hentry, rfl⟩ := hf
  have hindex : ptGetpteindexByVa smallCpu.pt va 0 < 512 :=
    PageTable.Rv64.index_lt (.inl rfl) (by decide) va
  rw [(hentry.eq_root (.inl rfl) evenState_root).2]
  simp only [smallCpu, emptyCpu, pageSize] at *
  omega

theorem evenState_setup : ReclrSetup (cacheEnumerate (twoLevels 64 128)) smallCpu evenGuest
    0x40000000 0x90000000 2 {f | f < 0x80100 ∨ 0x80110 ≤ f} evenState where
  hyp := by
    refine ⟨.inl rfl, .of_root (.inl rfl) (by decide) evenState_root, fun f hf => ?_,
      .of_pools clearState_framesWf (by decide) rfl (by decide) fun g hg k hk _ => ?_⟩
    · have := evenState_frames_cpu hf
      simp only [Set.mem_ofPred_eq]
      omega
    · cases List.mem_singleton.mp hg
      simp only [Set.mem_ofPred_eq, PoolGeom.frame, pageSize] at *
      omega
  rv64 := .inr rfl
  tree := evenState_path.tree (.inr rfl) (by decide)
  vm f hf := by
    have := evenState_frames hf
    simp only [Set.mem_ofPred_eq]
    omega
  root := by decide
  secs v hlo hhi := by
    refine List.findIdx?_eq_some_iff_getElem.mpr ⟨by decide, ?_, fun j hj => ?_⟩
    · change (decide (baoVmBase ≤ v) && decide (v ≤ baoVasTop - 1)) = true
      rw [decide_eq_true hlo, decide_eq_true (by omega)]
      rfl
    · -- The other sections end below this one.
      have hstop : ∀ j < secHypVm, (smallCpu.secs.getD j ⟨0, 0⟩).stop < baoVmBase := by decide
      have := hstop j hj
      rw [List.getD_eq_getElem _ _ (hj.trans (by decide))] at this
      simp only [Bool.and_eq_true, decide_eq_true_eq]
      omega
  apart := Set.disjoint_left.mpr fun f hf hcpu => by
    have := evenState_frames hf
    have := evenState_frames_cpu hcpu
    omega
  image f hf := by
    simp only [frames, Set.mem_Ico, Set.mem_ofPred_eq, pageSize] at *
    omega
  imageVm := Set.disjoint_left.mpr fun f himage hf => by
    have := evenState_frames hf
    simp only [frames, Set.mem_Ico, pageSize] at himage
    omega
  imageHyp := Set.disjoint_left.mpr fun f himage hf => by
    have := evenState_frames_cpu hf
    simp only [frames, Set.mem_Ico, pageSize] at himage
    omega
  top := by decide
  window := by decide
  below := by decide
  tables i hi := by
    interval_cases i <;> exact ⟨_, .next (.next .root (by decide)) (by decide)⟩

theorem evenState_fresh : GetsFreshPages (cacheEnumerate (twoLevels 64 128)) smallCpu evenGuest
    0x90000000 2 20 evenState := by
  intro v s₁ r m hv hr
  have hnum : reclrdNum (cacheEnumerate (twoLevels 64 128)) evenGuest.colors 0x90000000 2 = 1 := by
    decide +kernel
  rw [hnum] at hv hr ⊢
  have hrun : (memAllocVpage (cacheEnumerate (twoLevels 64 128)) smallCpu secHypVm 0 1 20
      evenState).toOption.map (fun p =>
        (decide (OnePath smallCpu.pt p.2.mem 384 0x80100000 0 0x80101000),
          (memAllocPpagesClr (cacheEnumerate (twoLevels 64 128)) p.2.pools.bits evenGuest.colors 1
            false p.2.pools.pools).map fun q => (q.1, geoms q.2.pools, [0, 1, 2].all q.2.bits))) =
      some (true, some (⟨0x80102000, 1, 1⟩, [⟨0x80100000, 16, 0⟩], true)) := by decide +kernel
  rw [hv] at hrun
  simp only [Except.toOption, Option.map_some, hr, Option.some.injEq, Prod.mk.injEq,
    decide_eq_true_eq] at hrun
  obtain ⟨hpath, rfl, hgeoms, hbits⟩ := hrun
  have hused : ∀ f ∈ tableFrames smallCpu.pt s₁.mem ∪ (tableFrames evenGuest.pt evenState.mem ∪
      frames 0x90000000 2), f = 0x80100 ∨ f = 0x80101 ∨ f < 0x80100 ∨ 0x80110 ≤ f := by
    rintro f (⟨va, lvl, pte, hentry, rfl⟩ | hf | hf)
    · have := hpath.bounds (.inl rfl) hentry
      simp only [smallCpu, emptyCpu, pageSize] at *
      omega
    · have := evenState_frames hf
      omega
    · simp only [frames, Set.mem_Ico, pageSize] at hf
      omega
  refine ⟨le_rfl, [0], ⟨by decide +kernel, by decide, ?_, ?_, ?_⟩⟩
  · rintro o ho
    cases List.mem_singleton.mp ho
    exact ⟨by decide, by decide⟩
  · rintro o ho hin
    cases List.mem_singleton.mp ho
    have := hused _ hin
    simp only [pageSize] at this
    omega
  · refine .of_pools clearState_framesWf (by decide) hgeoms (by decide) fun g hg k hk hclear => ?_
    cases List.mem_singleton.mp hg
    have hk3 : 3 ≤ k := by
      by_contra hlt
      have hbit := List.all_eq_true.mp hbits k (by simp only [List.mem_cons]; omega)
      rw [show PoolGeom.bit ⟨0x80100000, 16, 0⟩ k = k from Nat.zero_add k, hbit] at hclear
      cases hclear
    rintro (hin | ⟨o, ho, hin⟩)
    · have := hused _ hin
      simp only [PoolGeom.frame, pageSize] at *
      omega
    · cases List.mem_singleton.mp ho
      simp only [PoolGeom.frame, pageSize] at *
      omega

end Bao
