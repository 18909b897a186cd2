import Bao.Core.AsInit
import Bao.Core.MapClr

/-!
# Mapping the configuration

`mem_map_vm_config` maps the header of the configuration into the global section of the hypervisor:
first one page, from which it reads how long the header is, and then the pages behind it. The second
range is asked for at `vm_config_ptr + PAGE_SIZE`. This is arithmetic on a pointer to
`struct config`, so the range begins not one page, but a page for each byte of the structure behind
the first one.
-/

namespace Bao

/-- `SEC_HYP_GLOBAL`. -/
def secHypGlobal : Nat := 0

/-- `sizeof(struct config)`: the header of a device tree, six words, and `vmlist`, which has no
elements of its own. -/
def sizeofConfig : Nat := 40 + 6 * 8

/-- The place of `config_header_size` in `struct config`. -/
def configHeaderSizeOff : Nat := 40

def memPpagesGet (base size : Nat) : Ppages := ⟨base, size, 0⟩

/-- The part of `mem_map_vm_config` for a header of more than a page. -/
def memMapVmConfigRest (clr : Colors) (cpu : AddrSpace) (configAddr vmConfigPtr
    configHeaderSize rounds : Nat) (s : MemState) : Except MemError (Bool × MemState) :=
  let n := numPages (configHeaderSize - pageSize)
  match memAllocVpage clr cpu secHypGlobal (u64 (vmConfigPtr + sizeofConfig * pageSize)) n rounds
      s with
  | .error e => .error e
  | .ok (va, s) =>
    if va = 0 then .ok (false, s)
    else
      match memMap clr cpu va (some (memPpagesGet (u64 (configAddr + pageSize)) n)) n pteHypFlags
          rounds s with
      | .error e => .error e
      | .ok (_, s) => .ok (true, s)

/-- `mem_map_vm_config` up to the call of `config_adjust_to_va`: its result and `vm_config_ptr`.
What `mem_map` returns is ignored. Reading the header through an address that is not mapped is an
error. -/
def memMapVmConfig (clr : Colors) (cpu : AddrSpace) (configAddr rounds : Nat) (s : MemState) :
    Except MemError ((Bool × Nat) × MemState) :=
  match memAllocVpage clr cpu secHypGlobal 0 1 rounds s with
  | .error e => .error e
  | .ok (vmConfigPtr, s) =>
    if vmConfigPtr = 0 then .ok ((false, 0), s)
    else
      match memMap clr cpu vmConfigPtr (some (memPpagesGet configAddr 1)) 1 pteHypFlags rounds
          s with
      | .error e => .error e
      | .ok (_, s) =>
        match memTranslate cpu.pt s.mem (vmConfigPtr + configHeaderSizeOff) with
        | none => .error .error
        | some pa =>
          let configHeaderSize := (s.mem pa).toNat
          if pageSize < configHeaderSize then
            (memMapVmConfigRest clr cpu configAddr vmConfigPtr configHeaderSize rounds s).map
              fun r => ((r.1, vmConfigPtr), r.2)
          else .ok ((true, vmConfigPtr), s)

/-! ## What a successful call has done -/

section Ok

variable {clr : Colors} {cpu : AddrSpace} {s s' : MemState} {configAddr ptr rounds : Nat}

theorem memMapVmConfigRest_ok {configHeaderSize : Nat}
    (h : memMapVmConfigRest clr cpu configAddr ptr configHeaderSize rounds s = .ok (true, s')) :
    ∃ va s₁ ok, memAllocVpage clr cpu secHypGlobal (u64 (ptr + sizeofConfig * pageSize))
        (numPages (configHeaderSize - pageSize)) rounds s = .ok (va, s₁) ∧ va ≠ 0 ∧
      memMap clr cpu va (some (memPpagesGet (u64 (configAddr + pageSize))
        (numPages (configHeaderSize - pageSize)))) (numPages (configHeaderSize - pageSize))
        pteHypFlags rounds s₁ = .ok (ok, s') := by
  simp only [memMapVmConfigRest] at h
  split at h
  · cases h
  rename_i va s₁ halloc
  split at h
  · cases h
  rename_i hva
  split at h
  · cases h
  rename_i ok s₂ hmap
  cases h
  exact ⟨va, s₁, ok, halloc, hva, hmap⟩

theorem memMapVmConfig_ok
    (h : memMapVmConfig clr cpu configAddr rounds s = .ok ((true, ptr), s')) :
    ∃ s₁ ok s₂ pa, memAllocVpage clr cpu secHypGlobal 0 1 rounds s = .ok (ptr, s₁) ∧ ptr ≠ 0 ∧
      memMap clr cpu ptr (some (memPpagesGet configAddr 1)) 1 pteHypFlags rounds s₁ =
        .ok (ok, s₂) ∧
      memTranslate cpu.pt s₂.mem (ptr + configHeaderSizeOff) = some pa ∧
      ((s₂.mem pa).toNat ≤ pageSize ∧ s' = s₂ ∨ pageSize < (s₂.mem pa).toNat ∧
        memMapVmConfigRest clr cpu configAddr ptr (s₂.mem pa).toNat rounds s₂ =
          .ok (true, s')) := by
  simp only [memMapVmConfig] at h
  split at h
  · cases h
  rename_i v s₁ halloc
  split at h
  · cases h
  rename_i hv
  split at h
  · cases h
  rename_i ok s₂ hmap
  split at h
  · cases h
  rename_i pa hread
  split at h
  · next hlong =>
    cases hrest : memMapVmConfigRest clr cpu configAddr v (s₂.mem pa).toNat rounds s₂ with
    | error e =>
      rw [hrest] at h
      cases h
    | ok r =>
      rw [hrest] at h
      obtain ⟨ok', s₃⟩ := r
      cases h
      exact ⟨s₁, ok, s₂, pa, halloc, hv, hmap, hread, .inr ⟨hlong, hrest⟩⟩
  · next hshort =>
    cases h
    exact ⟨s₁, ok, s', pa, halloc, hv, hmap, hread, .inl ⟨Nat.le_of_not_lt hshort, rfl⟩⟩

end Ok

/-! ## Sections -/

theorem memFindSec_spec {as : AddrSpace} {va i : Nat} (h : memFindSec as va = some i) :
    ∃ sec, as.secs[i]? = some sec ∧ sec.beg ≤ va ∧ va ≤ sec.stop := by
  obtain ⟨hi, hsec, -⟩ := List.findIdx?_eq_some_iff_getElem.mp h
  simp only [Bool.and_eq_true, decide_eq_true_eq] at hsec
  exact ⟨as.secs[i], List.getElem?_eq_getElem hi, hsec⟩

/-- The address space of a cpu, with the sections of the hypervisor. -/
structure HypAs (cpu : AddrSpace) : Prop where
  dscr : cpu.pt.dscr = sv39PtDscr
  root : cpu.pt.root % pageSize = 0
  secs : ∃ imageEnd dmemBeg, cpu.secs = hypSecs imageEnd dmemBeg ∧ imageEnd ≤ dmemBeg ∧
    baoVasBase ≤ dmemBeg ∧ dmemBeg ≤ baoCpuBase

section Hyp

variable {clr : Colors} {cpu : AddrSpace} {rel : Bool} {used : Set Nat} {s s' : MemState}

theorem HypAs.span (hcpu : HypAs cpu) : ptSpan cpu.pt = 2 ^ 39 := by
  have hsize : ptSpan cpu.pt = ptSpan ⟨sv39PtDscr, 0, 0⟩ := by
    rw [← hcpu.dscr]
    rfl
  rw [hsize]
  decide

theorem HypAs.root_mod (hcpu : HypAs cpu) : cpu.pt.root % ptSize cpu.pt 0 = 0 := by
  have hsize : ptSize cpu.pt 0 = ptSize ⟨sv39PtDscr, 0, 0⟩ 0 := by
    rw [← hcpu.dscr]
    rfl
  rw [hsize]
  exact hcpu.root

variable {va n rounds : Nat} {as : AddrSpace} {pp : Option Ppages} {flags : Word}

theorem HypAs.lt_top (hcpu : HypAs cpu) {i : Nat} (h : memFindSec cpu va = some i) :
    va < baoVasTop := by
  obtain ⟨imageEnd, dmemBeg, hsecs, himage, -, hend⟩ := hcpu.secs
  obtain ⟨sec, hsec, -, hle⟩ := memFindSec_spec h
  have hmem := List.mem_of_getElem? hsec
  simp only [hsecs, hypSecs, List.mem_cons, List.not_mem_nil, or_false] at hmem
  simp only [baoVasTop, baoCpuBase, baoVmBase, baoVasBase] at *
  rcases hmem with rfl | rfl | rfl | rfl | rfl <;> simp only at hle <;> omega

theorem HypAs.global (hcpu : HypAs cpu) :
    ∃ beg, cpu.secs[secHypGlobal]? = some ⟨beg, baoCpuBase - 1⟩ ∧ baoVasBase ≤ beg := by
  obtain ⟨imageEnd, dmemBeg, hsecs, -, hbeg, -⟩ := hcpu.secs
  exact ⟨dmemBeg, by rw [hsecs]; rfl, hbeg⟩

theorem memAllocVpage_hint {sec : Section} {section_ at_ v : Nat}
    (hsec : as.secs[section_]? = some sec) (hn : 1 ≤ n) (hat : at_ ≠ 0)
    (hok : memAllocVpage clr as section_ at_ n rounds s = .ok (v, s')) (hv : v ≠ 0) :
    memFindSec as at_ = some section_ ∧
      n ≤ u64 (u64 (sec.stop + 1) + (2 ^ 64 - pageOf at_)) / pageSize := by
  simp only [memAllocVpage, hsec] at hok
  split at hok
  · cases hok
    exact absurd rfl hv
  rename_i hfind
  refine ⟨by_contra fun h => hfind ⟨hat, h⟩, ?_⟩
  by_contra hroom
  cases rounds with
  | zero => cases hok
  | succ rounds =>
    rw [vpageSearch, if_pos ⟨show 0 < n from hn, rfl⟩, if_pos (by simpa using hroom)] at hok
    simp only [ne_eq, not_true_eq_false, false_and, if_false] at hok
    cases hok
    exact absurd rfl hv

theorem memMap_sec (hok : memMap clr as va pp n flags rounds s = .ok (true, s')) :
    ∃ i, memFindSec as (pageOf va) = some i := by
  simp only [memMap] at hok
  split at hok
  · cases hok
  · next hsec => exact Option.ne_none_iff_exists'.mp fun hnone => hsec (.inl hnone)

theorem memMap_false (hok : memMap clr as va pp n flags rounds s = .ok (false, s')) : s' = s := by
  simp only [memMap] at hok
  split at hok
  · cases hok
    rfl
  · cases hpages : memMapPages clr as (pageOf va) pp n flags rounds s <;> rw [hpages] at hok <;>
      cases hok

/-! ## The two ranges -/

variable {configAddr ptr rounds : Nat}

/-- The first page is mapped, if the header can be read through it. The page behind it is left as it
was. -/
theorem AsState.mapConfigPage {ok : Bool} {s₁ s₂ : MemState} (hs : AsState clr cpu rel used s)
    (hcpu : HypAs cpu) (hpage : configAddr % pageSize = 0) (htop : configAddr + pageSize ≤ 2 ^ 56)
    (halloc : memAllocVpage clr cpu secHypGlobal 0 1 rounds s = .ok (ptr, s₁)) (hptr : ptr ≠ 0)
    (hmap : memMap clr cpu ptr (some (memPpagesGet configAddr 1)) 1 pteHypFlags rounds s₁ =
      .ok (ok, s₂))
    (hread : memTranslate cpu.pt s₂.mem (ptr + configHeaderSizeOff) ≠ none) :
    (ptr % pageSize = 0 ∧ ptr < baoVasTop) ∧ AsReach clr cpu rel used s s₂ ∧
      (∀ k < pageSize, memTranslate cpu.pt s₂.mem (ptr + k) = some (configAddr + k)) ∧
      memTranslate cpu.pt s₂.mem (ptr + pageSize) =
        memTranslate cpu.pt s.mem (ptr + pageSize) := by
  have hspan := hcpu.span
  have taken := hs.allocVpage le_rfl (by rw [hspan]; decide) (.inl hcpu.root_mod) halloc hptr
  have haligned := taken.page
  obtain ⟨used₁, hs₁, hgrows⟩ := taken.state
  have req : MapRequest cpu.pt ptr configAddr 1 pteHypFlags := by
    refine ⟨hs.rv64, taken.page, hpage, ?_, by omega, by decide⟩
    rw [hspan]
    simp only [pageSize] at *
    omega
  cases ok with
  | false =>
    -- The page was not mapped before.
    rw [memMap_false hmap, taken.trans] at hread
    exact absurd (taken.pages configHeaderSizeOff (by decide)).1 hread
  | true =>
    obtain ⟨hfalse, -⟩ | ⟨⟨used₂, hs₂, hgrows₂⟩, htrans⟩ := hs₁.mapGiven req hmap
    · cases hfalse
    obtain ⟨i, hi⟩ := memMap_sec hmap
    rw [pageOf, Nat.div_mul_cancel (Nat.dvd_of_mod_eq_zero haligned)] at hi
    refine ⟨⟨haligned, hcpu.lt_top hi⟩, ⟨used₂, hs₂, hgrows.comp hgrows₂⟩, fun k hk => ?_, ?_⟩
    · rw [htrans, mappedTo, if_pos] <;> simp only [hspan, pageSize] at *
      · congr 2
        omega
      · omega
    · rw [htrans, mappedTo, if_neg, taken.trans]
      simp only [hspan, pageSize] at *
      omega

/-- The range behind the first page is not where it should be: the page that follows the first one
stays as it is. -/
theorem AsState.mapConfigRest {configHeaderSize : Nat} (hs : AsState clr cpu rel used s)
    (hcpu : HypAs cpu) (hpage : configAddr % pageSize = 0)
    (htop : configAddr + configHeaderSize ≤ 2 ^ 56) (hsize : pageSize < configHeaderSize)
    (hptr : ptr % pageSize = 0) (hlt : ptr < baoVasTop)
    (hok : memMapVmConfigRest clr cpu configAddr ptr configHeaderSize rounds s = .ok (true, s')) :
    memTranslate cpu.pt s'.mem (ptr + pageSize) = memTranslate cpu.pt s.mem (ptr + pageSize) := by
  have hspan := hcpu.span
  obtain ⟨beg, hsec, hbeg⟩ := hcpu.global
  have hbase : u64 (configAddr + pageSize) = configAddr + pageSize :=
    u64_of_lt (by simp only [pageSize] at *; omega)
  have hat : u64 (ptr + sizeofConfig * pageSize) = ptr + 0x58000 :=
    u64_of_lt (by simp only [sizeofConfig, pageSize, baoVasTop] at *; omega)
  have hn : 1 ≤ numPages (configHeaderSize - pageSize) ∧
      configAddr + pageSize + numPages (configHeaderSize - pageSize) * pageSize ≤ 2 ^ 56 := by
    rw [numPages, align_eq (by simp only [pageSize] at *; omega)]
    simp only [pageSize] at *
    omega
  obtain ⟨va, s₁, ok, halloc, hva, hmap⟩ := memMapVmConfigRest_ok hok
  rw [hat] at halloc
  rw [hbase] at hmap
  generalize numPages (configHeaderSize - pageSize) = n at halloc hmap hn
  obtain ⟨hfind, hroom⟩ := memAllocVpage_hint hsec hn.1 (by omega) halloc hva
  obtain ⟨sec, hsec', hlo, hhi⟩ := memFindSec_spec hfind
  rw [hsec] at hsec'
  cases hsec'
  have hpageOf : pageOf (ptr + 0x58000) = ptr + 0x58000 := by
    simp only [pageOf, pageSize] at *
    omega
  rw [hpageOf] at hroom
  -- The range lies in the global section, and that in one range of the root table.
  have hfits : ptr + 0x58000 + n * pageSize ≤ baoCpuBase := by
    simp only [u64, baoCpuBase, pageSize] at *
    omega
  have taken := hs.allocVpage hn.1 (by simp only [baoCpuBase, baoVasBase, pageSize] at *; omega)
    (.inl hcpu.root_mod) halloc hva
  obtain ⟨used₁, hs₁, -⟩ := taken.state
  obtain rfl : va = ptr + 0x58000 := (taken.hint (by omega)).trans hpageOf
  have req : MapRequest cpu.pt (ptr + 0x58000) (configAddr + pageSize) n pteHypFlags := by
    refine ⟨hs.rv64, taken.page, ?_, ?_, hn.2, by decide⟩
    · simp only [pageSize] at *
      omega
    · simp only [hspan, baoCpuBase, baoVasBase, pageSize] at *
      omega
  obtain ⟨-, rfl⟩ | ⟨-, htrans⟩ := hs₁.mapGiven req hmap
  · exact taken.trans _
  · rw [htrans, mappedTo, if_neg, taken.trans]
    simp only [hspan, baoCpuBase, baoVasBase, pageSize] at *
    omega

end Hyp

/-- When `mem_map_vm_config` succeeds, and the page behind the first page of the configuration was
not mapped, the header is mapped as a whole exactly if it has not more than a page. -/
theorem memMapVmConfig_contiguous_iff {clr : Colors} {cpu : AddrSpace} {rel : Bool}
    {used : Set Nat} {s s' : MemState} {configAddr ptr rounds : Nat} (hcpu : HypAs cpu)
    (hs : AsState clr cpu rel used s) (hpage : configAddr % pageSize = 0)
    (hused : configAddr / pageSize ∈ used)
    (hdata : configAddr / pageSize ∉ tableFrames cpu.pt s.mem)
    (htop : configAddr + max pageSize (s.mem (configAddr + configHeaderSizeOff)).toNat ≤ 2 ^ 56)
    (hok : memMapVmConfig clr cpu configAddr rounds s = .ok ((true, ptr), s'))
    (hfree : memTranslate cpu.pt s.mem (ptr + pageSize) = none) :
    (∀ k < (s.mem (configAddr + configHeaderSizeOff)).toNat,
      memTranslate cpu.pt s'.mem (ptr + k) = some (configAddr + k)) ↔
    (s.mem (configAddr + configHeaderSizeOff)).toNat ≤ pageSize := by
  obtain ⟨s₁, ok, s₂, pa, halloc, hptr, hmap, hread, hrest⟩ := memMapVmConfig_ok hok
  obtain ⟨⟨haligned, hlt⟩, ⟨used₂, hs₂, hgrows⟩, hfirst, hsecond⟩ := hs.mapConfigPage hcpu hpage
    (by omega) halloc hptr hmap (by rw [hread]; exact Option.some_ne_none _)
  have hword : s₂.mem pa = s.mem (configAddr + configHeaderSizeOff) := by
    rw [hfirst _ (by decide), Option.some.injEq] at hread
    rw [← hread]
    have hframe : (configAddr + configHeaderSizeOff) / pageSize = configAddr / pageSize := by
      simp only [configHeaderSizeOff, pageSize] at *
      omega
    exact hgrows.keeps _ (hframe ▸ hused) (hframe ▸ hdata)
  rw [hword] at hrest
  obtain ⟨hshort, rfl⟩ | ⟨hlong, hrest⟩ := hrest
  · exact iff_of_true (fun k hk => hfirst k (by omega)) hshort
  · refine iff_of_false (fun hall => ?_) (by omega)
    have hbehind := hs₂.mapConfigRest hcpu hpage (by omega) hlong haligned hlt hrest
    rw [hall pageSize hlong, hsecond, hfree] at hbehind
    cases hbehind

/-- Memory with a configuration at `0x90000000`, whose header has the given size. -/
def configState (size : Word) : MemState :=
  clearState.write (0x90000000 + configHeaderSizeOff) size

theorem configState_root (size : Word) (i : Nat) (hi : i < ptNentries smallCpu.pt 0) :
    pteTable ((configState size).mem (smallCpu.pt.rootPa + 8 * i)) = false := by
  have hroot : smallCpu.pt.rootPa = 0x80000000 := rfl
  have hn : ptNentries smallCpu.pt 0 = 512 := rfl
  rw [configState, MemState.write_of_ne _ (by simp only [configHeaderSizeOff]; omega)]
  exact show pteTable 0 = false by decide

theorem configState_frames {size : Word} {f : Nat}
    (hf : f ∈ tableFrames smallCpu.pt (configState size).mem) : f = 0x80000 := by
  obtain ⟨va, lvl, pte, hentry, rfl⟩ := hf
  have hindex : ptGetpteindexByVa smallCpu.pt va 0 < 512 :=
    PageTable.Rv64.index_lt (.inl rfl) (by decide) va
  rw [(hentry.eq_root (.inl rfl) (configState_root size)).2]
  simp only [smallCpu, emptyCpu, pageSize] at *
  omega

theorem configState_as (size : Word) :
    AsState {} smallCpu false {f | f < 0x80100 ∨ 0x80110 ≤ f} (configState size) := by
  refine ⟨.inl rfl, .of_root (.inl rfl) (by decide) (configState_root size), fun f hf => ?_,
    .of_pools clearState_framesWf (by decide) rfl (by decide) fun g hg k hk _ => ?_⟩
  · have := configState_frames hf
    simp only [Set.mem_ofPred_eq]
    omega
  · cases List.mem_singleton.mp hg
    simp only [Set.mem_ofPred_eq, PoolGeom.frame, pageSize] at *
    omega

theorem smallCpu_hyp : HypAs smallCpu :=
  ⟨rfl, by decide, _, _, rfl, by decide, by decide, by decide⟩

/-- A header of half a page. -/
theorem memMapVmConfig_contiguous_half_page :
    ∃ ptr s', memMapVmConfig {} smallCpu 0x90000000 8 (configState 0x800) = .ok ((true, ptr), s') ∧
      ∀ k < 0x800, memTranslate smallCpu.pt s'.mem (ptr + k) = some (0x90000000 + k) := by
  have hrun : (memMapVmConfig {} smallCpu 0x90000000 8 (configState 0x800)).toOption.map (fun r =>
      (r.1.1, memTranslate smallCpu.pt (configState 0x800).mem (r.1.2 + pageSize))) =
        some (true, none) := by decide +kernel
  obtain ⟨⟨⟨ok, ptr⟩, s'⟩, hok, heq⟩ := Option.map_eq_some_iff.mp hrun
  obtain ⟨rfl, hfree⟩ := Prod.mk.inj heq
  rw [toOption_eq_some] at hok
  have hdata : 0x90000000 / pageSize ∉ tableFrames smallCpu.pt (configState 0x800).mem :=
    fun hf => absurd (configState_frames hf) (by decide)
  have hiff := memMapVmConfig_contiguous_iff smallCpu_hyp (configState_as 0x800) (by decide)
    (by simp only [Set.mem_ofPred_eq]; decide) hdata (by decide) hok hfree
  exact ⟨ptr, s', hok, hiff.mpr (by decide)⟩

/-- A header of one page and a half. Its second page is not mapped behind the first one, but 88
pages after it. -/
theorem memMapVmConfig_second_page_apart :
    (memMapVmConfig {} smallCpu 0x90000000 8 (configState 0x1800)).toOption.map (fun r =>
      (r.1.1, memTranslate smallCpu.pt r.2.mem r.1.2,
        memTranslate smallCpu.pt r.2.mem (r.1.2 + 0x1000),
        memTranslate smallCpu.pt r.2.mem (r.1.2 + 88 * 0x1000))) =
      some (true, some 0x90000000, none, some 0x90001000) := by
  decide +kernel

end Bao
