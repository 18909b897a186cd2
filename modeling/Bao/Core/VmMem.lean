import Bao.Core.MemVpage
import Bao.Core.MemBoot

/-!
# Isolation of the memory of VMs

The masters of the VMs set up the memory regions of their VMs after `mem_init`, in any order and
interleaved with requests of the hypervisor for itself. The stage-2 tables that come out of this
translate no address of a VM's region to a page of another VM's region or of the hypervisor, as long
as no region takes superpages from a pool that begins at the wrong place.

The last part shows what such a pool does: `pp_alloc` measures alignment from a wrong origin there,
and the entry for the superpage maps pages that were not allocated.
-/

namespace Bao

open Foundation

/-! ## Memory regions of a VM -/

/-- `vm_copy_img_to_rgn`. The two mappings in the hypervisor's address space run out of levels on
pages that are not aligned. -/
def vmCopyImgToRgn (config : VmConfig) (reg : MemRegion) (s : MemState) :
    Except MemError MemState :=
  let nImg := numPages config.image.size
  let dstPhys := reg.phys + (config.image.baseAddr - reg.base)
  if nImg = 0 ∨ config.image.loadAddr % pageSize = 0 ∧ dstPhys % pageSize = 0 then
    .ok (s.copy dstPhys config.image.loadAddr (nImg * pageSize))
  else .error .level

/-- The pages of a region before and after the image in it. -/
def imgBefore (config : VmConfig) (reg : MemRegion) : Nat :=
  (config.image.baseAddr - reg.base) / pageSize

def imgAfter (config : VmConfig) (reg : MemRegion) : Nat :=
  (reg.base + reg.size - (config.image.baseAddr + config.image.size)) / pageSize

/-- `vm_map_img_rgn_inplace`, which does not look at the result of `mem_alloc_vpage`. -/
def vmMapImgRgnInplace (clr : Colors) (as : AddrSpace) (config : VmConfig) (reg : MemRegion)
    (rounds : Nat) (s : MemState) : Except MemError MemState := do
  let nBefore := imgBefore config reg
  let nAft := imgAfter config reg
  let nImg := numPages config.image.size
  let (va, s) ← memAllocVpage clr as 0 reg.base (nBefore + nAft + nImg) rounds s
  let (_, s) ← memMap clr as va none nBefore pteVmFlags rounds s
  let (_, s) ← memMap clr as (va + nBefore * pageSize) (some ⟨config.image.loadAddr, nImg, 0⟩)
    nImg pteVmFlags rounds s
  let (_, s) ← memMap clr as (va + (nBefore + nImg) * pageSize) none nAft pteVmFlags rounds s
  .ok s

/-- `vm_map_img_rgn`. -/
def vmMapImgRgn (clr : Colors) (as : AddrSpace) (config : VmConfig) (reg : MemRegion)
    (rounds : Nat) (s : MemState) : Except MemError MemState :=
  if reg.placePhys then (vmCopyImgToRgn config reg s).bind (vmMapMemRegion clr as reg rounds)
  else vmMapImgRgnInplace clr as config reg rounds s

def imgIsInRgn (config : VmConfig) (reg : MemRegion) : Bool :=
  rangeInRange config.image.baseAddr config.image.size reg.base reg.size

/-- The loop body of `vm_init_mem_regions`. -/
def vmInitMemRegion (clr : Colors) (as : AddrSpace) (config : VmConfig) (reg : MemRegion)
    (rounds : Nat) (s : MemState) : Except MemError MemState :=
  if imgIsInRgn config reg then vmMapImgRgn clr as config reg rounds s
  else vmMapMemRegion clr as reg rounds s

/-! ## The system -/

/-- The memory, the address space of each VM that has one, and how many of its regions are set
up. -/
structure VmSys where
  s : MemState
  as : Nat → Option AddrSpace
  done : Nat → Nat

inductive VmSysAction where
  /-- The hypervisor allocates pages for itself. -/
  | hyp (n : Nat) (aligned : Bool)
  /-- `as_init` for a VM, whose root table is mapped at some address of the hypervisor. -/
  | asInit (vm root : Nat)
  /-- The master of a VM sets up the next region. -/
  | mapRegion (vm rounds : Nat)

namespace VmSys

def init (s : MemState) : VmSys := ⟨s, fun _ => none, fun _ => 0⟩

/-- `as_init` with `mem_alloc_page` for the root table; without pages it clears through null. -/
def asInit (sys : VmSys) (vm root : Nat) : Option VmSys :=
  let n := ptSize ⟨sv39x4PtDscr, 0, 0⟩ 0 / pageSize
  let (pages, s) := sys.s.allocHyp n true
  if pages.size = 0 then none
  else
    let as : AddrSpace := ⟨⟨sv39x4PtDscr, root, pages.base⟩, vmSecs, .vm, 0⟩
    some { sys with
      s := s.clear pages.base (n * pageSize)
      as := Function.update sys.as vm (some as) }

def mapRegion (clr : Colors) (cfg : BootConfig) (sys : VmSys) (vm rounds : Nat) :
    Option VmSys := do
  let config ← cfg.vmlist[vm]?
  let as ← sys.as vm
  let reg ← config.regions[sys.done vm]?
  let s ← (vmInitMemRegion clr as config reg rounds sys.s).toOption
  some { sys with s := s, done := Function.update sys.done vm (sys.done vm + 1) }

def step (clr : Colors) (cfg : BootConfig) (sys : VmSys) : VmSysAction → Option VmSys
  | .hyp n aligned => some { sys with s := (sys.s.allocHyp n aligned).2 }
  | .asInit vm root => if sys.as vm = none then sys.asInit vm root else none
  | .mapRegion vm rounds => sys.mapRegion clr cfg vm rounds

/-- The address lies in a memory region of the VM. -/
def InRegion (cfg : BootConfig) (vm va : Nat) : Prop :=
  ∃ config, cfg.vmlist[vm]? = some config ∧
    ∃ reg ∈ config.regions, reg.base ≤ va ∧ va < reg.base + reg.size

/-- `va` in a region of `vm` is translated to the page `f`. -/
def Reaches (cfg : BootConfig) (sys : VmSys) (vm va f : Nat) : Prop :=
  InRegion cfg vm va ∧ ∃ as pa, sys.as vm = some as ∧
    memTranslate as.pt sys.s.mem va = some pa ∧ pa / pageSize = f

/-- No page is reached from regions of two VMs, and no page of the hypervisor is reached. -/
def Isolated (cfg : BootConfig) (sys : VmSys) : Prop :=
  (∀ vm vm' va va' f, vm ≠ vm' → sys.Reaches cfg vm va f → ¬ sys.Reaches cfg vm' va' f) ∧
    ∀ vm va f, sys.Reaches cfg vm va f → ∀ r ∈ sys.s.hyp, f ∉ frames r.base r.size

end VmSys

/-! ## Setting up a region -/

/-- The numbers of pages that are mapped on demand for the regions of a VM, piece by piece. -/
def VmConfig.onDemand (config : VmConfig) : List Nat :=
  config.regions.flatMap fun reg =>
    if reg.placePhys then []
    else if imgIsInRgn config reg then [imgBefore config reg, imgAfter config reg]
    else [numPages reg.size]

/-- Regions of whole pages inside the guest-physical addresses that the root table covers, placed at
page boundaries. -/
def BootConfig.RegionsOk (cfg : BootConfig) : Prop :=
  ∀ config ∈ cfg.vmlist, config.image.baseAddr + config.image.size < 2 ^ 64 ∧
    ∀ reg ∈ config.regions, reg.base % pageSize = 0 ∧ reg.size % pageSize = 0 ∧
      reg.base + reg.size ≤ 2 ^ 41

/-- Where a VM has enough pages on demand for a superpage, every memory region that can hold one
begins at a multiple of half a superpage. -/
def BootConfig.SuperpagesOk (cfg : BootConfig) : Prop :=
  ∀ config ∈ cfg.vmlist, ∀ n ∈ config.onDemand, ∀ lvl < 2, lvlPages lvl ≤ n →
    ∀ r ∈ cfg.regions, lvlPages lvl ≤ r.size / pageSize →
      lvlPages lvl ∣ 2 * (r.base / pageSize)

/-- What belongs to a VM before any of its regions is set up: the pages that its regions are placed
at, and those of its image. -/
structure VmOwns (own : PageOwners) (vm : Nat) (config : VmConfig) : Prop where
  placed : ∀ reg ∈ config.regions, reg.placePhys = true → reg.phys % pageSize = 0 ∧
    reg.phys + numPages reg.size * pageSize ≤ 2 ^ 56 ∧
    ∀ f ∈ frames reg.phys (numPages reg.size), own f = some (.guest vm)
  image : config.image.loadAddr % pageSize = 0 ∧
    config.image.loadAddr + numPages config.image.size * pageSize ≤ 2 ^ 56 ∧
    ∀ f ∈ frames config.image.loadAddr (numPages config.image.size), own f = some (.guest vm)

/-- What the proofs need to know about a region of a VM. -/
structure RegionOk (G : List PoolGeom) (config : VmConfig) (reg : MemRegion) : Prop where
  mem : reg ∈ config.regions
  page : reg.base % pageSize = 0
  whole : reg.size % pageSize = 0
  stop : reg.base + reg.size ≤ 2 ^ 41
  image : config.image.baseAddr + config.image.size < 2 ^ 64
  blocks : ∀ n ∈ config.onDemand, SuperpageSafe G n

section Region

variable {G : List PoolGeom} {own own' : PageOwners} {s s' : MemState} {clr : Colors}
  {as : AddrSpace} {vm : Nat} {config : VmConfig} {reg : MemRegion} {rounds : Nat}

theorem VmOwns.mono (hle : own.Le own') (h : VmOwns own vm config) : VmOwns own' vm config where
  placed := fun reg hreg hp =>
    let ⟨hpage, htop, hown⟩ := h.placed reg hreg hp
    ⟨hpage, htop, fun f hf => hle (hown f hf)⟩
  image := ⟨h.image.1, h.image.2.1, fun f hf => hle (h.image.2.2 f hf)⟩

theorem RegionOk.numPages_mul (ok : RegionOk G config reg) :
    numPages reg.size * pageSize = reg.size := by
  have hstop := ok.stop
  exact Bao.numPages_mul (by simp only [pageSize]; omega) ok.whole

theorem RegionOk.image_mul (ok : RegionOk G config reg) (himg : imgIsInRgn config reg = true)
    (hsize : config.image.size % pageSize = 0) :
    numPages config.image.size * pageSize = config.image.size ∧
      reg.base ≤ config.image.baseAddr ∧
      config.image.baseAddr + config.image.size ≤ reg.base + reg.size := by
  have hstop := ok.stop
  rw [imgIsInRgn, rangeInRange_iff ok.image (by omega)] at himg
  exact ⟨Bao.numPages_mul (by simp only [pageSize]; omega) hsize, himg⟩

theorem OwnerInv.mapMemRegion (wf : FramesWf G) (inv : OwnerInv G own s) (has : VmAs own vm as)
    (howns : VmOwns own vm config) (ok : RegionOk G config reg)
    (hsafe : reg.placePhys = false → SuperpageSafe G (numPages reg.size))
    (h : vmMapMemRegion clr as reg rounds s = .ok s') :
    ∃ own', own.Le own' ∧ OwnerInv G own' s' := by
  have hstop : reg.base + numPages reg.size * pageSize ≤ 2 ^ 41 := by
    rw [ok.numPages_mul]; exact ok.stop
  simp only [vmMapMemRegion] at h
  split at h
  · cases h
  rename_i va s₁ halloc
  obtain ⟨⟨own₁, hle₁, inv₁⟩, -⟩ := inv.allocVpage wf has ok.page hstop halloc
  split at h
  · cases h
  rename_i hva
  rw [not_not] at hva
  subst hva
  obtain ⟨⟨done, s₂⟩, hmap, rfl⟩ := map_eq_ok.mp h
  have howns₁ := howns.mono hle₁
  by_cases hplaced : reg.placePhys = true
  · rw [if_pos hplaced] at hmap
    obtain ⟨own₂, hle₂, inv₂⟩ := inv₁.mapGiven wf (has.mono hle₁) rfl ok.page hstop
      (howns₁.placed reg ok.mem hplaced) hmap
    exact ⟨own₂, hle₁.trans hle₂, inv₂⟩
  · rw [if_neg hplaced] at hmap
    rw [Bool.not_eq_true] at hplaced
    obtain ⟨own₂, hle₂, inv₂⟩ := inv₁.mapFresh wf (has.mono hle₁) ok.page hstop
      (hsafe hplaced) hmap
    exact ⟨own₂, hle₁.trans hle₂, inv₂⟩

theorem OwnerInv.copyImg (inv : OwnerInv G own s) (howns : VmOwns own vm config)
    (ok : RegionOk G config reg) (hplaced : reg.placePhys = true)
    (himg : imgIsInRgn config reg = true) (hsize : config.image.size % pageSize = 0)
    (h : vmCopyImgToRgn config reg s = .ok s') : OwnerInv G own s' := by
  simp only [vmCopyImgToRgn] at h
  split at h
  swap
  · cases h
  cases h
  have hwhole := ok.numPages_mul
  obtain ⟨hn, hlo, hhi⟩ := ok.image_mul himg hsize
  obtain ⟨hpage, -, hown⟩ := howns.placed reg ok.mem hplaced
  refine inv.extend (.refl own) inv.geoms_eq inv.marked (fun vm' lvl f hf i hi => ?_)
    fun r hr => .inl hr
  refine .inl ⟨hf, if_neg fun hin => ?_⟩
  rw [hn] at hin
  clear hn
  have := hown f (by
    simp only [frames, Set.mem_Ico]
    simp only [pageSize] at *
    omega)
  rw [hf] at this
  cases this

theorem OwnerInv.mapImgInplace (wf : FramesWf G) (inv : OwnerInv G own s) (has : VmAs own vm as)
    (howns : VmOwns own vm config) (ok : RegionOk G config reg)
    (himg : imgIsInRgn config reg = true) (hsize : config.image.size % pageSize = 0)
    (hbefore : SuperpageSafe G (imgBefore config reg))
    (hafter : SuperpageSafe G (imgAfter config reg))
    (h : vmMapImgRgnInplace clr as config reg rounds s = .ok s') :
    ∃ own', own.Le own' ∧ OwnerInv G own' s' := by
  have hstop := ok.stop
  have hpage := ok.page
  obtain ⟨hn, hlo, hhi⟩ := ok.image_mul himg hsize
  -- Together the three pieces are not longer than the region.
  have htotal : (imgBefore config reg + imgAfter config reg + numPages config.image.size) *
      pageSize ≤ reg.size := by
    simp only [imgBefore, imgAfter, pageSize] at *
    omega
  obtain ⟨⟨va, s₁⟩, halloc, h⟩ := bind_eq_ok.mp h
  obtain ⟨⟨_, s₂⟩, hmap₁, h⟩ := bind_eq_ok.mp h
  obtain ⟨⟨_, s₃⟩, hmap₂, h⟩ := bind_eq_ok.mp h
  obtain ⟨⟨_, s₄⟩, hmap₃, h⟩ := bind_eq_ok.mp h
  cases h
  obtain ⟨⟨own₁, hle₁, inv₁⟩, hva⟩ := inv.allocVpage wf has hpage (by omega) halloc
  have hvapage : va % pageSize = 0 := by rcases hva with rfl | rfl <;> [rfl; exact hpage]
  have has₁ := has.mono hle₁
  obtain ⟨own₂, hle₂, inv₂⟩ := inv₁.mapFresh wf has₁ hvapage
    (by simp only [pageSize] at *; omega) hbefore hmap₁
  have has₂ := has₁.mono hle₂
  obtain ⟨own₃, hle₃, inv₃⟩ := inv₂.mapGiven wf has₂ rfl (by simp only [pageSize] at *; omega)
    (by simp only [pageSize] at *; omega) ((howns.mono hle₁).mono hle₂).image hmap₂
  obtain ⟨own₄, hle₄, inv₄⟩ := inv₃.mapFresh wf (has₂.mono hle₃)
    (by simp only [pageSize] at *; omega) (by simp only [pageSize] at *; omega) hafter hmap₃
  exact ⟨own₄, ((hle₁.trans hle₂).trans hle₃).trans hle₄, inv₄⟩

theorem RegionOk.mem_onDemand (ok : RegionOk G config reg) (hplaced : reg.placePhys = false)
    {n : Nat} (hn : n ∈ (if imgIsInRgn config reg then [imgBefore config reg, imgAfter config reg]
      else [numPages reg.size])) : SuperpageSafe G n :=
  ok.blocks n (List.mem_flatMap.mpr ⟨reg, ok.mem, by simpa [hplaced] using hn⟩)

theorem OwnerInv.initMemRegion (wf : FramesWf G) (inv : OwnerInv G own s) (has : VmAs own vm as)
    (howns : VmOwns own vm config) (ok : RegionOk G config reg)
    (hsize : config.image.size % pageSize = 0)
    (h : vmInitMemRegion clr as config reg rounds s = .ok s') :
    ∃ own', own.Le own' ∧ OwnerInv G own' s' := by
  simp only [vmInitMemRegion] at h
  split at h
  · rename_i himg
    simp only [vmMapImgRgn] at h
    split at h
    · rename_i hplaced
      obtain ⟨s₁, hcopy, hmap⟩ := bind_eq_ok.mp h
      exact (inv.copyImg howns ok hplaced himg hsize hcopy).mapMemRegion wf has howns ok
        (by simp [hplaced]) hmap
    · rename_i hplaced
      rw [Bool.not_eq_true] at hplaced
      exact inv.mapImgInplace wf has howns ok himg hsize
        (ok.mem_onDemand hplaced (by simp [himg])) (ok.mem_onDemand hplaced (by simp [himg])) h
  · rename_i himg
    exact inv.mapMemRegion wf has howns ok
      (fun hplaced => ok.mem_onDemand hplaced (by simp [himg])) h

end Region

/-! ## Runs -/

/-- Every marked page has an owner, the tables of each VM stay with that VM, and the VM owns what is
set aside for it. -/
def VmSys.Inv (cfg : BootConfig) (G : List PoolGeom) (sys : VmSys) : Prop :=
  ∃ own, OwnerInv G own sys.s ∧ (∀ vm as, sys.as vm = some as → VmAs own vm as) ∧
    ∀ vm config, cfg.vmlist[vm]? = some config → VmOwns own vm config

section Run

variable {clr : Colors} {cfg : BootConfig} {G : List PoolGeom} {sys sys' : VmSys}

theorem VmSys.Inv.asInit (wf : FramesWf G) (inv : sys.Inv cfg G) {vm root : Nat}
    (h : sys.asInit vm root = some sys') : sys'.Inv cfg G := by
  obtain ⟨own, hinv, has, howns⟩ := inv
  simp only [VmSys.asInit, show ptSize ⟨sv39x4PtDscr, 0, 0⟩ 0 / pageSize = 4 from rfl,
    MemState.allocHyp] at h
  split at h
  · cases h
  rename_i hpos
  cases h
  obtain ⟨hgeoms, grant⟩ := (hinv.allocPpages wf 4 true).resolve_left fun h => hpos h.1
  set pages := (sys.s.allocPpages 4 true).1
  have hle := grant.le_give fun _ => .table vm 0
  have hpage := grant.page
  refine ⟨_, hinv.extend hle hgeoms (grant.marked _) (fun vm' lvl f hf i hi => ?_) (fun r hr => ?_),
    fun vm' as has' => ?_, fun vm' config hc => (howns vm' config hc).mono hle⟩
  · simp only [MemState.clear, show (sys.s.allocPpages 4 true).2.mem = sys.s.mem from rfl]
    by_cases hmem : f ∈ frames pages.base 4
    · right
      rw [if_pos (by simp only [frames, Set.mem_Ico, pageSize] at *; omega)]
      exact .of_invalid pteValid_zero
    · left
      rw [Owners.give_of_notMem hmem] at hf
      exact ⟨hf, if_neg (by simp only [frames, Set.mem_Ico, pageSize] at *; omega)⟩
  · rcases List.mem_cons.mp hr with rfl | hr
    · right
      intro f hf
      rw [grant.size] at hf
      exact .inr ⟨vm, 0, Owners.give_of_mem hf⟩
    · exact .inl hr
  · by_cases hvm : vm' = vm
    · subst hvm
      simp only [Function.update_self, Option.some.injEq] at has'
      subst has'
      refine ⟨rfl, rfl, rfl, hpage, fun i hi => Owners.give_of_mem ?_⟩
      simp only [frames, Set.mem_Ico]
      omega
    · simp only [Function.update_of_ne hvm] at has'
      exact (has vm' as has').mono hle

theorem BootConfig.regionOk (hregs : cfg.RegionsOk) (hsuper : cfg.SuperpagesOk)
    (hG : ∀ g ∈ G, ∃ r ∈ cfg.regions, g.base = r.base ∧ g.size = r.size / pageSize)
    {config : VmConfig} (hc : config ∈ cfg.vmlist) {reg : MemRegion} (hreg : reg ∈ config.regions) :
    RegionOk G config reg := by
  obtain ⟨himage, hall⟩ := hregs config hc
  obtain ⟨hpage, hwhole, hstop⟩ := hall reg hreg
  refine ⟨hreg, hpage, hwhole, hstop, himage, fun n hn lvl hl hle g hg hsize => ?_⟩
  obtain ⟨r, hr, hbase, hrsize⟩ := hG g hg
  rw [hbase]
  exact hsuper config hc n hn lvl hl hle r hr (hrsize ▸ hsize)

theorem VmSys.Inv.step (wf : FramesWf G) (hcfg : cfg.ConfigOk) (hregs : cfg.RegionsOk)
    (hsuper : cfg.SuperpagesOk)
    (hG : ∀ g ∈ G, ∃ r ∈ cfg.regions, g.base = r.base ∧ g.size = r.size / pageSize)
    (inv : sys.Inv cfg G) {a : VmSysAction} (h : sys.step clr cfg a = some sys') :
    sys'.Inv cfg G := by
  cases a with
  | hyp n aligned =>
    cases h
    obtain ⟨own, hinv, has, howns⟩ := inv
    obtain ⟨own', hle, hinv'⟩ := hinv.allocHyp wf n aligned
    exact ⟨own', hinv', fun vm as h => (has vm as h).mono hle,
      fun vm config h => (howns vm config h).mono hle⟩
  | asInit vm root =>
    simp only [VmSys.step] at h
    split at h
    · exact inv.asInit wf h
    · cases h
  | mapRegion vm rounds =>
    simp only [VmSys.step, mapRegion, Option.bind_eq_bind, Option.bind_eq_some_iff] at h
    obtain ⟨config, hconfig, as, has_eq, reg, hreg, s', hs', heq⟩ := h
    cases heq
    obtain ⟨own, hinv, has, howns⟩ := inv
    have hc := List.mem_of_getElem? hconfig
    have ok := BootConfig.regionOk hregs hsuper hG hc (List.mem_of_getElem? hreg)
    obtain ⟨own', hle, hinv'⟩ := hinv.initMemRegion wf (has vm as has_eq) (howns vm config hconfig)
      ok (hcfg.image config hc).2.1 (toOption_eq_some.mp hs')
    exact ⟨own', hinv', fun vm as h => (has vm as h).mono hle,
      fun vm config h => (howns vm config h).mono hle⟩

theorem VmSys.Inv.isolated (inv : sys.Inv cfg G) : sys.Isolated cfg := by
  obtain ⟨own, hinv, has, -⟩ := inv
  have hguest : ∀ vm va f, sys.Reaches cfg vm va f → own f = some (.guest vm) := by
    rintro vm va f ⟨-, as, pa, has_eq, htrans, rfl⟩
    exact hinv.translate (has vm as has_eq) htrans
  constructor
  · intro vm vm' va va' f hne h h'
    have heq := (hguest vm va f h).symm.trans (hguest vm' va' f h')
    rw [Option.some.injEq, Owner.guest.injEq] at heq
    exact hne heq
  · intro vm va f h r hr hf
    have hown := hguest vm va f h
    rcases hinv.hyp r hr f hf with ho | ⟨vm', lvl, ho⟩
    · rw [hown] at ho; cases ho
    · rw [hown] at ho; cases ho

theorem mem_vmPpages {vm : Nat} {config : VmConfig} (hc : cfg.vmlist[vm]? = some config)
    {reg : MemRegion} (hreg : reg ∈ config.regions) (hplaced : reg.placePhys = true) :
    (vm, ⟨reg.phys, numPages reg.size, 0⟩) ∈ cfg.vmPpages := by
  refine List.mem_flatMap.mpr ⟨(config, vm), List.mem_zipIdx_iff_getElem?.mpr hc, ?_⟩
  exact List.mem_map.mpr ⟨reg, List.mem_filter.mpr ⟨hreg, hplaced⟩, rfl⟩

theorem VmSys.Inv.init {s : MemState} (hplat : cfg.PlatformOk) (hcfg : cfg.ConfigOk)
    {mapConfig prime : List (Nat × Bool)} {work : Nat → PoolWork} {bits : Bitmap} {mem : PhysMem}
    (hboot : memInit cfg mapConfig prime work bits mem = some s)
    (hpools : ∀ x ∈ cfg.vmPpages, ∃ g ∈ geoms s.pools.pools, g.Inside x.2) :
    (VmSys.init s).Inv cfg (geoms s.pools.pools) := by
  obtain ⟨wf, -, own, hinv, hplaced, himage⟩ := memInit_spec hplat hcfg hboot
  refine ⟨own, hinv, fun vm as h => (by cases h), fun vm config hc => ⟨fun reg hreg hp => ?_, ?_⟩⟩
  · have hmem := mem_vmPpages hc hreg hp
    obtain ⟨g, hg, hin⟩ := hpools _ hmem
    exact ⟨(hcfg.placed _ hmem).1, hin.2.trans (wf.top g hg), hplaced _ hmem ⟨g, hg, hin⟩⟩
  · obtain ⟨hal, hsize, hlo, hhi⟩ := hcfg.image config (List.mem_of_getElem? hc)
    have htop := hcfg.config.2
    have hbound : config.image.size + pageSize ≤ 2 ^ 64 := by simp only [pageSize]; omega
    rw [numPages_mul hbound hsize, numPages_of_mod hbound hsize]
    exact ⟨hal, by omega, himage vm config hc⟩

/-- In every run of the masters after `mem_init`, the VMs are isolated from each other and from the
hypervisor, when no VM can be given a superpage from a pool that begins at the wrong place. -/
theorem vm_mem_isolated {s : MemState} (hplat : cfg.PlatformOk) (hcfg : cfg.ConfigOk)
    (hregs : cfg.RegionsOk) (hsuper : cfg.SuperpagesOk)
    {mapConfig prime : List (Nat × Bool)} {work : Nat → PoolWork} {bits : Bitmap} {mem : PhysMem}
    (hboot : memInit cfg mapConfig prime work bits mem = some s)
    (hpools : ∀ x ∈ cfg.vmPpages, ∃ g ∈ geoms s.pools.pools, g.Inside x.2)
    {actions : List VmSysAction} (hrun : run (VmSys.step clr cfg) (.init s) actions = some sys) :
    sys.Isolated cfg := by
  obtain ⟨wf, hG, -⟩ := memInit_spec hplat hcfg hboot
  have hinv : sys.Inv cfg (geoms s.pools.pools) :=
    run_invariant (fun _ _ _ inv h => inv.step wf hcfg hregs hsuper hG h)
      (.init hplat hcfg hboot hpools) hrun
  exact hinv.isolated

end Run

/-- `mem_translate` on the address space of a VM. -/
def VmSys.translate (sys : VmSys) (vm va : Nat) : Option Nat :=
  (sys.as vm).bind fun as => memTranslate as.pt sys.s.mem va

theorem VmSys.reaches_of_translate {cfg : BootConfig} {sys : VmSys} {vm va pa : Nat}
    (hin : InRegion cfg vm va) (h : sys.translate vm va = some pa) :
    sys.Reaches cfg vm va (pa / pageSize) := by
  obtain ⟨as, has, hpa⟩ := Option.bind_eq_some_iff.mp h
  exact ⟨hin, as, pa, has, hpa, rfl⟩

/-- Two VMs on a platform with one memory region of 1600 pages. The first has 2 MiB on demand, the
second a page placed at page 639 of the region; each has its image in a page of its own. -/
def twoVms (base : Nat) : BootConfig where
  regions := [⟨base, 1600 * pageSize, false, 0⟩]
  cpuNum := 1
  cpuStructSize := pageSize
  imagePages := 1
  configPages := 0
  loadAddr := base
  configArg := base + 8 * pageSize
  configSize := 3 * pageSize
  vmlist := [
    { image := ⟨0x10000000, base + 9 * pageSize, pageSize⟩
      cpuNum := 1
      regions := [⟨0x40000000, 0x200000, false, 0⟩, ⟨0x10000000, pageSize, false, 0⟩] },
    { image := ⟨0x10000000, base + 10 * pageSize, pageSize⟩
      cpuNum := 1
      regions := [⟨0x40000000, pageSize, true, base + 639 * pageSize⟩,
        ⟨0x10000000, pageSize, false, 0⟩] }]

/-- `mem_init` for `twoVms` in a memory of zeros. -/
def twoVmsBoot (base : Nat) : Option MemState :=
  memInit (twoVms base) [] [] (fun _ => {}) (fun _ => false) fun _ => 0

/-- Both masters set up all regions, one after the other. -/
def twoVmsRun (base : Nat) (s : MemState) : Option VmSys :=
  run (VmSys.step {} (twoVms base)) (.init s) [.asInit 0 0x1000, .mapRegion 0 20, .mapRegion 0 20,
    .asInit 1 0x6000, .mapRegion 1 20, .mapRegion 1 20]

/-- With the region at a multiple of 2 MiB, the first VM gets a superpage and all is well. -/
theorem vm_mem_isolated_twoVms : ∃ s sys, twoVmsBoot 0x80000000 = some s ∧
    twoVmsRun 0x80000000 s = some sys ∧ sys.translate 0 0x40000000 = some 0x80400000 ∧
    sys.translate 1 0x40000000 = some 0x8027f000 ∧ sys.Isolated (twoVms 0x80000000) := by
  refine exists_some₂_of (P := fun s sys => geoms s.pools.pools = [⟨0x80000000, 1600, 0⟩] ∧
      sys.translate 0 0x40000000 = some 0x80400000 ∧ sys.translate 1 0x40000000 = some 0x8027f000)
    (by decide +kernel) fun s sys hboot hrun h => ⟨h.2.1, h.2.2, vm_mem_isolated ⟨by decide,
      by decide, by decide, by decide, by decide, by decide⟩ ⟨by decide, by decide, by decide,
      by decide, by decide⟩ ?_ ?_ hboot ?_ hrun⟩
  · unfold BootConfig.RegionsOk; decide
  · unfold BootConfig.SuperpagesOk; decide
  · rw [h.1]; decide

/-- With the region 512 KiB behind such a multiple, the 512 pages for the first VM begin at page 640
of the region, but its entry maps the pages from 384 on, and with them the page of the second
VM. -/
theorem vm_mem_not_isolated : (twoVms 0x80080000).PlatformOk ∧ (twoVms 0x80080000).ConfigOk ∧
    (twoVms 0x80080000).RegionsOk ∧ ∃ s sys, twoVmsBoot 0x80080000 = some s ∧
      (∀ x ∈ (twoVms 0x80080000).vmPpages, ∃ g ∈ geoms s.pools.pools, g.Inside x.2) ∧
      twoVmsRun 0x80080000 s = some sys ∧ ¬ sys.Isolated (twoVms 0x80080000) := by
  obtain ⟨s, hboot, sys, hrun, hgeoms, h0, h1⟩ :
      ∃ s ∈ twoVmsBoot 0x80080000, ∃ sys ∈ twoVmsRun 0x80080000 s,
        geoms s.pools.pools = [⟨0x80080000, 1600, 0⟩] ∧
        sys.translate 0 0x400ff000 = some 0x802ff000 ∧
        sys.translate 1 0x40000000 = some 0x802ff000 := by decide +kernel
  refine ⟨⟨by decide, by decide, by decide, by decide, by decide, by decide⟩,
    ⟨by decide, by decide, by decide, by decide, by decide⟩, ?_, s, sys, hboot, ?_, hrun,
    fun hiso => ?_⟩
  · unfold BootConfig.RegionsOk; decide
  · rw [hgeoms]; decide
  · have hin : VmSys.InRegion (twoVms 0x80080000) 0 0x400ff000 :=
      ⟨_, rfl, ⟨0x40000000, 0x200000, false, 0⟩, by decide, by decide, by decide⟩
    have hin' : VmSys.InRegion (twoVms 0x80080000) 1 0x40000000 :=
      ⟨_, rfl, ⟨0x40000000, pageSize, true, 0x80080000 + 639 * pageSize⟩, by decide, by decide,
        by decide⟩
    exact hiso.1 0 1 _ _ _ (by decide) (VmSys.reaches_of_translate hin h0)
      (VmSys.reaches_of_translate hin' h1)

end Bao
