import Bao.Core.MemInit

/-!
# What booting establishes

When `mem_init` comes back without `ERROR` on a sane platform, the owners of all marked pages are
known: the pages that the configuration places in a pool belong to the VM they are placed for, the
pages of a VM's image inside the configuration belong to that VM, and the pages of the hypervisor to
the hypervisor. The invariant `BootInv` says this for the pools that exist so far.
-/

namespace Bao

open Foundation

/-- Platforms whose memory regions are whole pages apart from each other, below what an entry can
address and above the first GiB, so that the null pointer leads nowhere. The hypervisor is loaded at
a page and does not reach into the upper half of the addresses. -/
structure BootConfig.PlatformOk (cfg : BootConfig) : Prop where
  aligned : ∀ r ∈ cfg.regions, r.base % pageSize = 0 ∧ r.size % pageSize = 0
  apart : cfg.regions.Pairwise fun r r' => r.base + r.size ≤ r'.base ∨ r'.base + r'.size ≤ r.base
  low : ∀ r ∈ cfg.regions, 2 ^ 30 ≤ r.base
  top : ∀ r ∈ cfg.regions, r.base + r.size ≤ 2 ^ 56
  load : cfg.loadAddr % pageSize = 0
  hyp : cfg.cpuBaseAddr + cfg.cpuSize ≤ 2 ^ 63

/-- The pool of a memory region. -/
def BootConfig.geom (cfg : BootConfig) (i : Nat) : PoolGeom :=
  let r := cfg.regions.getD i ⟨0, 0, false, 0⟩
  ⟨r.base, r.size / pageSize, i * 2 ^ 64⟩

namespace BootConfig.PlatformOk

variable {cfg : BootConfig} {i : Nat}

theorem getD_mem (cfg : BootConfig) (hi : i < cfg.regions.length) :
    cfg.regions.getD i ⟨0, 0, false, 0⟩ ∈ cfg.regions := by
  rw [List.getD_eq_getElem _ _ hi]
  exact List.getElem_mem hi

theorem stop (ok : cfg.PlatformOk) (hi : i < cfg.regions.length) :
    (cfg.geom i).stop = (cfg.regions.getD i ⟨0, 0, false, 0⟩).base +
      (cfg.regions.getD i ⟨0, 0, false, 0⟩).size := by
  have := (ok.aligned _ (getD_mem cfg hi)).2
  simp only [PoolGeom.stop, PoolGeom.page, geom, pageSize] at *
  omega

theorem framesWf (ok : cfg.PlatformOk) {idxs : List Nat} (hnodup : idxs.Nodup)
    (hlt : ∀ i ∈ idxs, i < cfg.regions.length) : FramesWf (idxs.map cfg.geom) := by
  have htop : ∀ i ∈ idxs, (cfg.geom i).stop ≤ 2 ^ 56 := by
    intro i hi
    rw [ok.stop (hlt i hi)]
    exact ok.top _ (getD_mem cfg (hlt i hi))
  have hsize : ∀ i ∈ idxs, (cfg.geom i).size < 2 ^ 64 := by
    intro i hi
    have := htop i hi
    simp only [PoolGeom.stop, PoolGeom.page, pageSize] at this
    omega
  refine ⟨⟨?_, ?_, ?_⟩, ?_, ?_⟩
  · simp only [List.forall_mem_map]
    exact fun i hi => Nat.lt_of_le_of_lt (htop i hi) (by decide)
  · rw [List.pairwise_map]
    refine hnodup.imp_of_mem fun {i j} hi hj hij => ?_
    rw [ok.stop (hlt i hi), ok.stop (hlt j hj)]
    have hpair := List.pairwise_iff_getElem.mp ok.apart
    have hi' := hlt i hi
    have hj' := hlt j hj
    simp only [geom, List.getD_eq_getElem _ _ hi', List.getD_eq_getElem _ _ hj']
    rcases Nat.lt_or_gt_of_ne hij with h | h
    · exact hpair i j hi' hj' h
    · exact (hpair j i hj' hi' h).symm
  · rw [List.pairwise_map]
    refine hnodup.imp_of_mem fun {i j} hi hj hij => ?_
    have hi' := hsize i hi
    have hj' := hsize j hj
    simp only [PoolGeom.bit, geom] at *
    omega
  · simp only [List.forall_mem_map]
    exact fun i hi => (ok.aligned _ (getD_mem cfg (hlt i hi))).1
  · simpa only [List.forall_mem_map] using htop

end BootConfig.PlatformOk

/-- A page of the configuration belongs to the VM whose image it holds. -/
def BootConfig.configOwner (cfg : BootConfig) (f : Nat) : Owner :=
  match cfg.vmlist.findIdx? fun vm =>
      vm.image.loadAddr / pageSize ≤ f && f < (vm.image.loadAddr + vm.image.size) / pageSize with
  | some i => .guest i
  | none => .reserved

/-- Configurations that place page-aligned ranges, and whose images are disjoint page-aligned ranges
of the configuration binary. -/
structure BootConfig.ConfigOk (cfg : BootConfig) : Prop where
  placed : ∀ x ∈ cfg.vmPpages, x.2.Sane
  shmem : ∀ r ∈ cfg.shmemPpages, r.Sane
  config : cfg.configAddr % pageSize = 0 ∧ cfg.configAddr + cfg.configSize ≤ 2 ^ 56
  image : ∀ vm ∈ cfg.vmlist, vm.image.loadAddr % pageSize = 0 ∧ vm.image.size % pageSize = 0 ∧
    cfg.configAddr ≤ vm.image.loadAddr ∧
    vm.image.loadAddr + vm.image.size ≤ cfg.configAddr + cfg.configSize
  apart : cfg.vmlist.Pairwise fun vm vm' =>
    vm.image.loadAddr + vm.image.size ≤ vm'.image.loadAddr ∨
      vm'.image.loadAddr + vm'.image.size ≤ vm.image.loadAddr

section Boot

variable {G : List PoolGeom} {own : PageOwners} {s : MemState} {cfg : BootConfig}

theorem OwnerInv.hypWork (wf : FramesWf G) (inv : OwnerInv G own s) (requests : List (Nat × Bool)) :
    ∃ own', own.Le own' ∧ OwnerInv G own' (s.hypWork requests) := by
  induction requests generalizing own s with
  | nil => exact ⟨own, .refl own, inv⟩
  | cons r requests ih =>
    obtain ⟨own₁, hle, inv₁⟩ := inv.allocHyp wf r.1 r.2
    obtain ⟨own', hle', inv'⟩ := ih inv₁
    exact ⟨own', hle.trans hle', inv'⟩

/-- The pools with the indices `idxs` exist, and what is reserved in them has its owners. -/
structure BootInv (cfg : BootConfig) (own : PageOwners) (idxs : List Nat) (b : BootState) :
    Prop where
  inv : OwnerInv (idxs.map cfg.geom) own b.s
  placed : ∀ i ∈ idxs, ∀ x ∈ cfg.vmPpages, (cfg.geom i).Inside x.2 →
    ∀ f ∈ frames x.2.base x.2.size, own f = some (.guest x.1)
  config : b.found = true → ∀ f ∈ frames cfg.configAddr (numPages cfg.configSize),
    own f = some (cfg.configOwner f)

variable {bits : Bitmap} {p : NewPool} {idxs : List Nat} {i : Nat} {b b' : BootState}
  {work : Nat → PoolWork}

theorem Marked.mono {G' : List PoolGeom} (hsub : ∀ g ∈ G, g ∈ G') (hm : Marked G own bits) :
    Marked G' own bits := by
  intro f o hf
  obtain ⟨g, hg, hrest⟩ := hm f o hf
  exact ⟨g, hsub g hg, hrest⟩

theorem BootConfig.configOwner_ne_table (cfg : BootConfig) (f vm lvl : Nat) :
    cfg.configOwner f ≠ .table vm lvl := by
  unfold configOwner
  split <;> simp

theorem BootConfig.ConfigOk.numPages_eq (ok : cfg.ConfigOk) :
    numPages cfg.configSize = (cfg.configSize + pageSize - 1) / pageSize := by
  have hlt := ok.config.2
  rw [numPages, align_eq (by simp only [pageSize]; omega), Nat.mul_div_cancel _ (by decide)]

theorem BootConfig.ConfigOk.inside (ok : cfg.ConfigOk) {g : PoolGeom} (wf : FramesWf G)
    (hg : g ∈ G)
    (hin : rangeInRange cfg.configAddr cfg.configSize g.base (g.size * pageSize) = true) :
    g.Inside ⟨cfg.configAddr, numPages cfg.configSize, 0⟩ := by
  obtain ⟨hal, hlt⟩ := ok.config
  have hstop := wf.bound g hg
  have hgal := wf.aligned g hg
  rw [rangeInRange_iff (by omega) hstop] at hin
  refine ⟨hin.1, ?_⟩
  simp only [ok.numPages_eq, PoolGeom.stop, PoolGeom.page, pageSize] at *
  omega

theorem BootConfig.ConfigOk.sane (ok : cfg.ConfigOk) :
    Ppages.Sane ⟨cfg.configAddr, numPages cfg.configSize, 0⟩ := by
  obtain ⟨hal, hlt⟩ := ok.config
  refine ⟨hal, ?_⟩
  simp only [ok.numPages_eq, pageSize] at *
  omega

theorem reservePhysicalMemory_spec (ok : cfg.ConfigOk) {p' : NewPool} {found found' : Bool}
    (wf : FramesWf G) (hg : p.pool.toPoolGeom ∈ G) (hm : Marked G own p.bits)
    (hfound : found = true → ∀ f ∈ frames cfg.configAddr (numPages cfg.configSize),
      own f = some (cfg.configOwner f))
    (h : memReservePhysicalMemory cfg found p = some (found', p')) :
    p'.pool.toPoolGeom = p.pool.toPoolGeom ∧ ∃ own', own.Le own' ∧ Marked G own' p'.bits ∧
      (∀ f vm lvl, own' f = some (.table vm lvl) → own f = some (.table vm lvl)) ∧
      (∀ x ∈ cfg.vmPpages, p.pool.Inside x.2 →
        ∀ f ∈ frames x.2.base x.2.size, own' f = some (.guest x.1)) ∧
      (found' = true → ∀ f ∈ frames cfg.configAddr (numPages cfg.configSize),
        own' f = some (cfg.configOwner f)) := by
  obtain ⟨p₁, hcfg, hconfig⟩ := Option.bind_eq_some_iff.mp h
  -- The list of reservations with the owners they are made for.
  set l : List ((Nat → Owner) × Ppages) :=
    cfg.vmPpages.map (fun x => (fun _ => .guest x.1, x.2)) ++
      cfg.shmemPpages.map fun r => (fun _ => .reserved, r) with hl
  have hsnd : l.map Prod.snd = cfg.vmPpages.map Prod.snd ++ cfg.shmemPpages := by
    simp [hl, Function.comp_def]
  have hsane : ∀ x ∈ l, x.2.Sane := by
    intro x hx
    rcases List.mem_append.mp hx with hx | hx
    · obtain ⟨y, hy, rfl⟩ := List.mem_map.mp hx
      exact ok.placed y hy
    · obtain ⟨r, hr, rfl⟩ := List.mem_map.mp hx
      exact ok.shmem r hr
  rw [memReserveVmCfg, ← hsnd] at hcfg
  obtain ⟨hgeom, -, own₁, hle, hm₁, hnew, hall⟩ := p.reserveAll_spec wf hg hm l hsane hcfg
  have htables : ∀ f vm lvl, own₁ f = some (.table vm lvl) → own f = some (.table vm lvl) := by
    intro f vm lvl hf
    rcases hnew f _ hf with hf | ⟨x, hx, ha⟩
    · exact hf
    · rcases List.mem_append.mp hx with hx | hx
      · obtain ⟨y, -, rfl⟩ := List.mem_map.mp hx; cases ha
      · obtain ⟨r, -, rfl⟩ := List.mem_map.mp hx; cases ha
  have hplaced : ∀ x ∈ cfg.vmPpages, p.pool.Inside x.2 →
      ∀ f ∈ frames x.2.base x.2.size, own₁ f = some (.guest x.1) := fun x hx hin f hf =>
    hall (fun _ => .guest x.1, x.2) (List.mem_append_left _ (List.mem_map.mpr ⟨x, hx, rfl⟩))
      hin f hf
  simp only [memReserveConfig] at hconfig
  split at hconfig
  · rename_i hold
    cases hconfig
    exact ⟨hgeom, own₁, hle, hm₁, htables, hplaced, fun _ f hf => hle (hfound hold f hf)⟩
  split at hconfig
  · rename_i hin
    obtain ⟨p₂, hres, heq⟩ := Option.map_eq_some_iff.mp hconfig
    cases heq
    have hg₁ : p₁.pool.toPoolGeom ∈ G := hgeom ▸ hg
    obtain ⟨hgeom₂, -, ⟨hout, -⟩ | ⟨-, hnone, hgive⟩⟩ := p₁.reserve_spec wf hg₁ hm₁ ok.sane hres
    · exact absurd (ok.inside wf hg₁ hin) hout
    · have hle₂ := Owners.le_give (o := cfg.configOwner) hnone
      refine ⟨hgeom₂.trans hgeom, _, hle.trans hle₂, hgive cfg.configOwner, fun f vm lvl hf => ?_,
        fun x hx hin f hf => hle₂ (hplaced x hx hin f hf), fun _ f hf => Owners.give_of_mem hf⟩
      by_cases hmem : f ∈ frames cfg.configAddr (numPages cfg.configSize)
      · rw [Owners.give_of_mem hmem, Option.some.injEq] at hf
        exact absurd hf (cfg.configOwner_ne_table f vm lvl)
      · rw [Owners.give_of_notMem hmem] at hf
        exact htables f vm lvl hf
  · cases hconfig
    exact ⟨hgeom, own₁, hle, hm₁, htables, hplaced, by simp⟩

/-- A pool that is pushed with its reservations. The invariant of before may be that of another pool
list, since the root pool gets its reservations while it is in the list. -/
theorem BootState.push_spec (hcfg : cfg.ConfigOk) (inv : OwnerInv G own s) (hmem : b.s.mem = s.mem)
    (hhyp : b.s.hyp = s.hyp) (wf : FramesWf ((idxs ++ [i]).map cfg.geom))
    (hgeoms : geoms b.s.pools.pools = idxs.map cfg.geom) (hp : p.pool.toPoolGeom = cfg.geom i)
    (hm : Marked ((idxs ++ [i]).map cfg.geom) own p.bits)
    (hplaced : ∀ i ∈ idxs, ∀ x ∈ cfg.vmPpages, (cfg.geom i).Inside x.2 →
      ∀ f ∈ frames x.2.base x.2.size, own f = some (.guest x.1))
    (hfound : b.found = true → ∀ f ∈ frames cfg.configAddr (numPages cfg.configSize),
      own f = some (cfg.configOwner f)) (h : b.push cfg p = some b') :
    ∃ own', own.Le own' ∧ BootInv cfg own' (idxs ++ [i]) b' := by
  obtain ⟨⟨found', p'⟩, hres, heq⟩ := Option.map_eq_some_iff.mp h
  cases heq
  have hg : p.pool.toPoolGeom ∈ (idxs ++ [i]).map cfg.geom := by rw [hp]; simp
  obtain ⟨hgeom, own', hle, hm', htables, hnew, hconfig⟩ :=
    reservePhysicalMemory_spec hcfg wf hg hm hfound hres
  refine ⟨own', hle, ⟨inv.extend hle ?_ hm' (fun vm lvl f hf j _ => ?_) fun r hr => ?_, ?_,
    hconfig⟩⟩
  · simp only [geoms, List.map_append, List.map_cons, List.map_nil] at hgeoms ⊢
    rw [hgeoms, hgeom, hp]
  · exact .inl ⟨htables f vm lvl hf, congrFun hmem _⟩
  · exact .inl (hhyp ▸ hr)
  · intro j hj x hx hin f hf
    rcases List.mem_append.mp hj with hj | hj
    · exact hle (hplaced j hj x hx hin f hf)
    · rw [List.mem_singleton.mp hj] at hin
      exact hnew x hx (hp ▸ hin) f hf

theorem bitmapPages_le (size : Nat) :
    bitmapPages size * pageSize * 8 ≤ size + 8 * pageSize := by
  unfold bitmapPages
  by_cases h : size % (8 * pageSize) ≠ 0
  · rw [if_pos h]; simp only [pageSize]; omega
  · rw [if_neg h]; simp only [pageSize]; omega

theorem Marked.clearBitmap (hplat : cfg.PlatformOk) {pool : PoolGeom}
    (hlt : ∀ j ∈ idxs, j < cfg.regions.length) (hi : i < cfg.regions.length) (hne : i ∉ idxs)
    (hpool : pool = cfg.geom i) (hm : Marked (idxs.map cfg.geom) own bits) :
    Marked (idxs.map cfg.geom) own (clearBitmap bits pool) := by
  intro f o hf
  obtain ⟨g, hg, k, hk, heq, hbit⟩ := hm f o hf
  refine ⟨g, hg, k, hk, heq, ?_⟩
  obtain ⟨j, hj, rfl⟩ := List.mem_map.mp hg
  have hjtop := hplat.top _ (BootConfig.PlatformOk.getD_mem cfg (hlt j hj))
  have hitop := hplat.top _ (BootConfig.PlatformOk.getD_mem cfg hi)
  have hji : j ≠ i := fun h => hne (h ▸ hj)
  have hlen := bitmapPages_le pool.size
  rw [Bao.clearBitmap, if_neg, hbit]
  subst hpool
  simp only [PoolGeom.bit, BootConfig.geom, pageSize] at *
  omega

/-- `pp_init` on the pool list leaves a pool for the region, whose bitmap marks no owned page. -/
theorem ppInit_spec (hplat : cfg.PlatformOk) (work : PoolWork) (wf : FramesWf (idxs.map cfg.geom))
    (hlt : ∀ j ∈ idxs, j < cfg.regions.length) (hi : i < cfg.regions.length) (hne : i ∉ idxs)
    (inv : OwnerInv (idxs.map cfg.geom) own s) :
    let r := ppInit i (cfg.regions.getD i ⟨0, 0, false, 0⟩) work s
    r.1.pool.toPoolGeom = cfg.geom i ∧ ∃ own', own.Le own' ∧
      OwnerInv (idxs.map cfg.geom) own' r.2 ∧
      Marked ((idxs ++ [i]).map cfg.geom) own' r.1.bits := by
  have hmem := BootConfig.PlatformOk.getD_mem cfg hi
  have htop := hplat.top _ hmem
  have hgeom : (⟨align (cfg.regions.getD i ⟨0, 0, false, 0⟩).base pageSize,
      numPages (cfg.regions.getD i ⟨0, 0, false, 0⟩).size, i * 2 ^ 64⟩ : PoolGeom) =
        cfg.geom i := by
    rw [align_of_mod (by simp only [pageSize]; omega) (hplat.aligned _ hmem).1,
      numPages_of_mod (by simp only [pageSize]; omega) (hplat.aligned _ hmem).2, BootConfig.geom]
  have hsub : ∀ g ∈ idxs.map cfg.geom, g ∈ (idxs ++ [i]).map cfg.geom := by
    simp only [List.map_append]
    exact fun g hg => List.mem_append_left _ hg
  simp only [ppInit]
  split
  · exact ⟨hgeom, own, .refl own, inv, inv.marked.mono hsub⟩
  obtain ⟨own₁, hle₁, inv₁⟩ := inv.allocHyp wf (bitmapPages
    (numPages (cfg.regions.getD i ⟨0, 0, false, 0⟩).size)) false
  split
  · exact ⟨hgeom, own₁, hle₁, inv₁, inv₁.marked.mono hsub⟩
  obtain ⟨own₂, hle₂, inv₂⟩ := inv₁.hypWork wf work.vpage
  split
  · exact ⟨hgeom, own₂, hle₁.trans hle₂, inv₂, inv₂.marked.mono hsub⟩
  obtain ⟨own₃, hle₃, inv₃⟩ := inv₂.hypWork wf work.map
  exact ⟨hgeom, own₃, (hle₁.trans hle₂).trans hle₃, inv₃,
    (inv₃.marked.clearBitmap hplat hlt hi hne hgeom).mono hsub⟩

theorem BootInv.hypWork (wf : FramesWf (idxs.map cfg.geom)) (inv : BootInv cfg own idxs b)
    (requests : List (Nat × Bool)) :
    ∃ own', own.Le own' ∧ BootInv cfg own' idxs { b with s := b.s.hypWork requests } := by
  obtain ⟨own', hle, inv'⟩ := inv.inv.hypWork wf requests
  exact ⟨own', hle, inv', fun j hj x hx hin f hf => hle (inv.placed j hj x hx hin f hf),
    fun hf f hmem => hle (inv.config hf f hmem)⟩

theorem BootInv.createPpool (hplat : cfg.PlatformOk) (hcfg : cfg.ConfigOk) (hnodup : idxs.Nodup)
    (hlt : ∀ j ∈ idxs, j < cfg.regions.length) (hi : i < cfg.regions.length) (hne : i ∉ idxs)
    (inv : BootInv cfg own idxs b)
    (h : memCreatePpool cfg work b (cfg.regions.getD i ⟨0, 0, false, 0⟩, i) = some b') :
    ∃ own' idxs', own.Le own' ∧ BootInv cfg own' idxs' b' ∧
      (idxs' = idxs ∨ idxs' = idxs ++ [i]) := by
  have wf := hplat.framesWf hnodup hlt
  obtain ⟨own₁, hle₁, inv₁⟩ := inv.hypWork wf (work i).cache
  simp only [memCreatePpool] at h
  split at h
  · obtain ⟨hgeom, own₂, hle₂, inv₂, hm₂⟩ := ppInit_spec hplat (work i) wf hlt hi hne inv₁.inv
    have wf' : FramesWf ((idxs ++ [i]).map cfg.geom) := by
      refine hplat.framesWf ?_ ?_
      · rw [List.nodup_append]
        exact ⟨hnodup, List.nodup_singleton i, fun a ha b hb hab =>
          hne (List.mem_singleton.mp hb ▸ hab ▸ ha)⟩
      · intro j hj
        rcases List.mem_append.mp hj with hj | hj
        · exact hlt j hj
        · rw [List.mem_singleton.mp hj]; exact hi
    obtain ⟨own', hle', hinv⟩ := BootState.push_spec (b := ⟨_, b.found⟩) hcfg inv₂ rfl rfl wf'
      inv₂.geoms_eq hgeom hm₂
      (fun j hj x hx hin f hf => hle₂ (inv₁.placed j hj x hx hin f hf))
      (fun hf f hmem => hle₂ (inv₁.config hf f hmem)) h
    exact ⟨own', idxs ++ [i], (hle₁.trans hle₂).trans hle', hinv, .inr rfl⟩
  · cases h
    exact ⟨own₁, idxs, hle₁, inv₁, .inl rfl⟩

theorem BootInv.createPpools (hplat : cfg.PlatformOk) (hcfg : cfg.ConfigOk) (l : List Nat)
    (hnodup : (idxs ++ l).Nodup) (hlt : ∀ j ∈ idxs ++ l, j < cfg.regions.length)
    (inv : BootInv cfg own idxs b)
    (h : (l.map fun i => (cfg.regions.getD i ⟨0, 0, false, 0⟩, i)).foldlM
      (memCreatePpool cfg work) b = some b') :
    ∃ own' idxs', idxs'.Nodup ∧ (∀ j ∈ idxs', j < cfg.regions.length) ∧
      BootInv cfg own' idxs' b' := by
  induction l generalizing idxs own b with
  | nil =>
    cases h
    rw [List.append_nil] at hnodup hlt
    exact ⟨own, idxs, hnodup, hlt, inv⟩
  | cons i l ih =>
    rw [List.map_cons, List.foldlM_cons] at h
    obtain ⟨b₁, hstep, hrest⟩ := Option.bind_eq_some_iff.mp h
    have hperm : (idxs ++ i :: l).Perm (i :: (idxs ++ l)) := List.perm_middle
    have hnodup' := hperm.nodup_iff.mp hnodup
    obtain ⟨own₁, idxs₁, -, inv₁, hidxs⟩ := inv.createPpool hplat hcfg
      (List.Nodup.of_append_left hnodup) (fun j hj => hlt j (List.mem_append_left _ hj))
      (hlt i (by simp)) (fun hi => (List.nodup_cons.mp hnodup').1 (List.mem_append_left _ hi)) hstep
    rcases hidxs with rfl | rfl
    · refine ih (List.nodup_cons.mp hnodup').2 (fun j hj => hlt j ?_) inv₁ hrest
      rcases List.mem_append.mp hj with hj | hj
      · exact List.mem_append_left _ hj
      · exact List.mem_append_right _ (List.mem_cons_of_mem i hj)
    · exact ih (by simpa using hnodup) (by simpa using hlt) inv₁ hrest

theorem zipIdx_filter_eq (cfg : BootConfig) (root : Nat) :
    cfg.regions.zipIdx.filter (·.2 ≠ root) =
      ((List.range cfg.regions.length).filter (· ≠ root)).map
        fun i => (cfg.regions.getD i ⟨0, 0, false, 0⟩, i) := by
  have hzip : cfg.regions.zipIdx =
      (List.range cfg.regions.length).map fun i => (cfg.regions.getD i ⟨0, 0, false, 0⟩, i) := by
    refine List.ext_getElem (by simp) fun n h1 h2 => ?_
    have hn : n < cfg.regions.length := by simpa using h1
    simp [List.getElem?_eq_getElem hn]
  rw [hzip, List.filter_map]
  rfl

theorem BootConfig.cpuSize_mod (cfg : BootConfig) : cfg.cpuSize % pageSize = 0 := by
  have hboot : cfg.cpuBootAllocSize % pageSize = 0 := by
    have := align_mod cfg.cpuStructSize
    rw [cpuBootAllocSize, show ((List.range' 1 (sv39PtDscr.lvls - 1)).map
      (ptSize ⟨sv39PtDscr, 0, 0⟩)).sum = 2 * pageSize by decide]
    simp only [pageSize] at *
    omega
  rw [cpuSize, Nat.mul_mod, hboot, Nat.mul_zero, Nat.zero_mod]

theorem BootConfig.PlatformOk.rootPpages_sane (hplat : cfg.PlatformOk) (size : Nat)
    (hsize : size ≤ 2 ^ 44) : ∀ r ∈ rootPpages cfg size, r.Sane := by
  have hcpu := cfg.cpuSize_mod
  have hload := hplat.load
  have hhyp := hplat.hyp
  have hlen := bitmapPages_le size
  have hbase : cfg.cpuBaseAddr = cfg.loadAddr + cfg.imagePages * pageSize +
    cfg.configPages * pageSize := rfl
  have himage : numPages cfg.imageSize = cfg.imagePages := by
    rw [imageSize, numPages_of_mod (by simp only [pageSize] at *; omega) (Nat.mul_mod_left _ _),
      Nat.mul_div_cancel _ (by decide)]
  have hcpuPages : numPages cfg.cpuSize = cfg.cpuSize / pageSize :=
    numPages_of_mod (by simp only [pageSize] at *; omega) hcpu
  intro r hr
  simp only [rootPpages, himage, hcpuPages, List.mem_cons, List.not_mem_nil, or_false] at hr
  rcases hr with rfl | rfl | rfl <;> refine ⟨?_, ?_⟩ <;> simp only [pageSize] at * <;> omega

theorem ppRootInit_spec (hplat : cfg.PlatformOk) (mem : PhysMem) {hyp : List Ppages}
    (hi : i < cfg.regions.length)
    (h : ppRootInit cfg bits i (cfg.regions.getD i ⟨0, 0, false, 0⟩) = some (p, hyp)) :
    p.pool.toPoolGeom = cfg.geom i ∧
      ∃ own, OwnerInv [cfg.geom i] own ⟨⟨p.bits, [p.pool]⟩, mem, hyp⟩ := by
  have hmem := BootConfig.PlatformOk.getD_mem cfg hi
  have htop := hplat.top _ hmem
  have wf : FramesWf ([i].map cfg.geom) :=
    hplat.framesWf (List.nodup_singleton i) (by simpa using hi)
  set region := cfg.regions.getD i ⟨0, 0, false, 0⟩
  have hgeom : (⟨align region.base pageSize, region.size / pageSize, i * 2 ^ 64⟩ : PoolGeom) =
      cfg.geom i := by
    rw [align_of_mod (by simp only [pageSize]; omega) (hplat.aligned _ hmem).1]; rfl
  simp only [ppRootInit] at h
  split at h
  · cases h
  obtain ⟨p', hres, heq⟩ := Option.map_eq_some_iff.mp h
  cases heq
  have hsane := hplat.rootPpages_sane (region.size / pageSize) (by simp only [pageSize]; omega)
  set l : List ((Nat → Owner) × Ppages) :=
    (rootPpages cfg (region.size / pageSize)).map fun r => (fun _ => .hyp, r) with hl
  have hsnd : l.map Prod.snd = rootPpages cfg (region.size / pageSize) := by
    simp [hl, Function.comp_def]
  rw [← hsnd] at hres
  have hnobody : ∀ bits, Marked ([i].map cfg.geom) (fun _ => none) bits :=
    fun _ f o hf => by cases hf
  obtain ⟨hgeom', -, own, -, hm, hnew, hall⟩ := NewPool.reserveAll_spec wf
    (List.mem_singleton.mpr hgeom) (hnobody _) l
    (fun x hx => by obtain ⟨r, hr, rfl⟩ := List.mem_map.mp hx; exact hsane r hr) hres
  refine ⟨hgeom'.trans hgeom, own,
    ⟨congrArg (fun g => [g]) (hgeom'.trans hgeom), hm, ?_, ?_⟩⟩
  · intro vm lvl f hf
    rcases hnew f _ hf with hf | ⟨x, hx, ha⟩
    · cases hf
    · obtain ⟨r, -, rfl⟩ := List.mem_map.mp hx; cases ha
  · intro r hr f hf
    obtain ⟨r₀, hr₀, hr⟩ := List.mem_flatMap.mp hr
    rw [hgeom, marksInPool] at hr
    split at hr
    · rename_i hrange
      have hg : cfg.geom i ∈ [i].map cfg.geom := by simp
      have hin := (wf.inRange_iff hg (hsane r₀ hr₀)).mp hrange
      obtain ⟨k, hk, hholds, hframe⟩ := hin.holds wf hg (hsane r₀ hr₀)
      rw [hk, List.mem_singleton] at hr
      refine .inl (hall (_, r₀) (List.mem_map.mpr ⟨r₀, hr₀, rfl⟩) (hgeom ▸ hin) f ?_)
      rw [hr] at hf
      rwa [← hholds.1] at hf
    · cases hr

theorem BootConfig.ConfigOk.configOwner_eq (ok : cfg.ConfigOk) {vm : VmConfig}
    (hvm : cfg.vmlist[i]? = some vm) {f : Nat}
    (hf : f ∈ frames vm.image.loadAddr (vm.image.size / pageSize)) :
    f ∈ frames cfg.configAddr (numPages cfg.configSize) ∧ cfg.configOwner f = .guest i := by
  obtain ⟨hi, rfl⟩ := List.getElem?_eq_some_iff.mp hvm
  obtain ⟨hal, hsize, hlo, hhi⟩ := ok.image _ (List.getElem_mem hi)
  simp only [frames, Set.mem_Ico] at hf ⊢
  refine ⟨by simp only [ok.numPages_eq, pageSize] at *; omega, ?_⟩
  unfold configOwner
  have hfind : cfg.vmlist.findIdx? (fun vm => vm.image.loadAddr / pageSize ≤ f &&
      f < (vm.image.loadAddr + vm.image.size) / pageSize) = some i := by
    rw [List.findIdx?_eq_some_iff_getElem]
    refine ⟨hi, ?_, fun j hji hp => ?_⟩
    · simp only [Bool.and_eq_true, decide_eq_true_eq]
      simp only [pageSize] at *
      omega
    · -- An image before it with the same page would overlap.
      simp only [Bool.and_eq_true, decide_eq_true_eq] at hp
      have hapart := List.pairwise_iff_getElem.mp ok.apart j i (by omega) hi hji
      obtain ⟨hal', hsize', -⟩ :=
        ok.image _ (List.getElem_mem (show j < cfg.vmlist.length by omega))
      simp only [pageSize] at *
      omega
  rw [hfind]

theorem memInit_spec (hplat : cfg.PlatformOk) (hcfg : cfg.ConfigOk)
    {mapConfig prime : List (Nat × Bool)} {mem : PhysMem}
    (h : memInit cfg mapConfig prime work bits mem = some s) :
    FramesWf (geoms s.pools.pools) ∧
    (∀ g ∈ geoms s.pools.pools, ∃ r ∈ cfg.regions, g.base = r.base ∧ g.size = r.size / pageSize) ∧
    ∃ own, OwnerInv (geoms s.pools.pools) own s ∧
      (∀ x ∈ cfg.vmPpages, (∃ g ∈ geoms s.pools.pools, g.Inside x.2) →
        ∀ f ∈ frames x.2.base x.2.size, own f = some (.guest x.1)) ∧
      ∀ i vm, cfg.vmlist[i]? = some vm →
        ∀ f ∈ frames vm.image.loadAddr (vm.image.size / pageSize), own f = some (.guest i) := by
  simp only [memInit, Option.bind_eq_bind, Option.bind_eq_some_iff] at h
  obtain ⟨root, hroot, ⟨p, hyp⟩, hinit, pool, hpool, b₀, hpush, b, hcreate, hfound⟩ := h
  have hlt : root < cfg.regions.length := by
    obtain ⟨hlt, -⟩ := List.findIdx?_eq_some_iff_getElem.mp hroot
    exact hlt
  have wf : FramesWf (([] ++ [root]).map cfg.geom) :=
    hplat.framesWf (List.nodup_singleton root) (by simpa using hlt)
  obtain ⟨-, own₀, inv₀⟩ := ppRootInit_spec hplat mem hlt hinit
  obtain ⟨own₁, -, inv₁⟩ := inv₀.hypWork wf mapConfig
  set s₁ := MemState.hypWork ⟨⟨p.bits, [p.pool]⟩, mem, hyp⟩ mapConfig
  have hgeom : pool.toPoolGeom = cfg.geom root := by
    have hgeoms := inv₁.geoms_eq
    cases hpools : s₁.pools.pools with
    | nil => simp [hpools] at hpool
    | cons q qs =>
      simp only [hpools, List.head?_cons, Option.some.injEq] at hpool
      simp only [geoms, hpools, List.nil_append, List.map_cons, List.cons.injEq] at hgeoms
      rw [← hpool, hgeoms.1]
  obtain ⟨own₂, -, inv₂⟩ := BootState.push_spec hcfg inv₁ rfl rfl wf rfl hgeom
    inv₁.marked (by simp) (by simp) hpush
  rw [memCreatePpools, zipIdx_filter_eq] at hcreate
  obtain ⟨own₃, -, inv₃⟩ := inv₂.hypWork wf ((1, false) :: prime)
  obtain ⟨own, idxs, hnodup, hidxs, inv⟩ := inv₃.createPpools hplat hcfg _ (by
      rw [List.nil_append, List.singleton_append, List.nodup_cons]
      exact ⟨by simp, List.nodup_range.filter _⟩) (by
      intro j hj
      simp only [List.nil_append, List.singleton_append, List.mem_cons, List.mem_filter,
        List.mem_range] at hj
      rcases hj with rfl | hj
      · exact hlt
      · exact hj.1) hcreate
  split at hfound
  swap
  · cases hfound
  rename_i hb
  cases hfound
  rw [inv.inv.geoms_eq]
  refine ⟨hplat.framesWf hnodup hidxs, ?_, own, inv.inv, ?_, ?_⟩
  · intro g hg
    obtain ⟨i, hi, rfl⟩ := List.mem_map.mp hg
    exact ⟨_, BootConfig.PlatformOk.getD_mem cfg (hidxs i hi), rfl, rfl⟩
  · rintro x hx ⟨g, hg, hin⟩
    obtain ⟨i, hi, rfl⟩ := List.mem_map.mp hg
    exact inv.placed i hi x hx hin
  · intro i vm hvm f hf
    obtain ⟨hmem, howner⟩ := hcfg.configOwner_eq hvm hf
    rw [inv.config hb f hmem, howner]

end Boot

end Bao
