import Bao.Armv8.VgicMsg

/-!
# Clusters of cpus

A platform lists its clusters by their number of cores. The id of a cpu counts the cores of all
clusters, its MPIDR has the number of the cluster and that of the core in the cluster. Here are both
conversions of `platform.c`, and what becomes of an interrupt that is routed by affinity.
-/

namespace Bao.Armv8

def mpidrRes1 : BitVec 64 := 0x80000000
def mpidrRes0Msk : BitVec 64 := ~~~(0xffffff <<< 49 ||| 0x1f <<< 25)
def mpidrUBit : BitVec 64 := 1 <<< 30

/-- The number of cpus, and the cores of each cluster (`arch.clusters.core_num`). -/
structure Platform where
  cpuNum : Nat
  coreNum : List Nat

/-- The loop of `platform_arch_cpuid_to_mpdir` from cluster `i` on, with `j` cores before it: the
cluster of a cpu and the core in it. -/
def clusterLoop (cpuid : Nat) : List Nat → Nat → Nat → Option (Nat × Nat)
  | [], _, _ => none
  | cores :: rest, i, j =>
    if cpuid < j + cores then some (i, cpuid - j) else clusterLoop cpuid rest (i + 1) (j + cores)

/-- The affinity that `platform_arch_cpuid_to_mpdir` computes; `none` is its `ERROR`. Without
clusters it is the id of the cpu. -/
def cpuidAffinity (plat : Platform) (cpuid : Nat) : Option (BitVec 64) :=
  if plat.coreNum ≠ [] then
    (clusterLoop cpuid plat.coreNum 0 0).map fun found =>
      BitVec.ofNat 64 found.1 <<< 8 ||| BitVec.ofNat 64 found.2 &&& 0xff
  else some (BitVec.ofNat 64 cpuid)

def platformArchCpuidToMpdir (plat : Platform) (cpuid : Nat) : Option (BitVec 64) :=
  if plat.cpuNum < cpuid then
    -- the complement of `MPIDR_RES1` has 32 bits
    some (~~~(0x7fffffff &&& mpidrRes0Msk))
  else
    (cpuidAffinity plat cpuid).map fun mpidr =>
      if plat.cpuNum = 1 then mpidr ||| mpidrRes1 ||| mpidrUBit else mpidr ||| mpidrRes1

/-- In the loop over the clusters before that of `mpidr`, each number of cores replaces the one
before. -/
def platformArchMpidrToCpuid (plat : Platform) (mpidr : BitVec 64) : Int :=
  let aff1 := (mpidr >>> 8 &&& 0xff).toNat
  let cpuid := (plat.coreNum.take aff1).foldl (fun _ cores => cores) 0
  match plat.coreNum[min aff1 plat.coreNum.length]? with
  | some cores => cpuid + cores
  | none => -1

/-! ## Clusters and cores -/

/-- The cpu is the core `core` of the cluster `cluster`. -/
def Platform.InCluster (plat : Platform) (cpuid cluster core : Nat) : Prop :=
  ∃ cores, plat.coreNum[cluster]? = some cores ∧ core < cores ∧
    (plat.coreNum.take cluster).sum + core = cpuid

/-- The cluster of a cpu and its core in it; without clusters there is one of all cpus. -/
def Platform.locate (plat : Platform) (cpuid : Nat) : Nat × Nat :=
  if plat.coreNum ≠ [] then (clusterLoop cpuid plat.coreNum 0 0).getD (0, 0) else (0, cpuid)

def Platform.cluster (plat : Platform) (cpuid : Nat) : Nat := (plat.locate cpuid).1
def Platform.core (plat : Platform) (cpuid : Nat) : Nat := (plat.locate cpuid).2

/-- The cores of the clusters, at most 256 each, are the cpus. -/
structure Platform.Clustered (plat : Platform) : Prop where
  sum_eq : plat.coreNum.sum = plat.cpuNum
  le : ∀ cores ∈ plat.coreNum, cores ≤ 256

variable {cpuid : Nat} {plat : Platform}

theorem clusterLoop_spec (coreNum : List Nat) (i j : Nat) (hj : j ≤ cpuid)
    (hlt : cpuid < j + coreNum.sum) :
    ∃ k core cores, clusterLoop cpuid coreNum i j = some (i + k, core) ∧
      coreNum[k]? = some cores ∧ core < cores ∧ j + (coreNum.take k).sum + core = cpuid := by
  induction coreNum generalizing i j with
  | nil => simp at hlt; omega
  | cons cores rest ih =>
    rw [clusterLoop]
    by_cases hin : cpuid < j + cores
    · exact ⟨0, cpuid - j, cores, if_pos hin, rfl, by omega, by simp; omega⟩
    · rw [List.sum_cons] at hlt
      obtain ⟨k, core, found, hloop, hfound, hcore, hsum⟩ :=
        ih (i + 1) (j + cores) (by omega) (by omega)
      refine ⟨k + 1, core, found, ?_, hfound, hcore, ?_⟩
      · rw [if_neg hin, hloop, Nat.add_assoc, Nat.add_comm 1]
      · rw [List.take_succ_cons, List.sum_cons]
        omega

/-! ## Affinities -/

theorem affinity_or {x flags : BitVec 64} (h : flags &&& mpidrAffMsk = 0#64) :
    (x ||| flags) &&& mpidrAffMsk = x &&& mpidrAffMsk := by
  rw [BitVec.and_or_distrib_right, h, BitVec.or_zero]

theorem getLsbD_mpidrAffMsk (i : Nat) : mpidrAffMsk.getLsbD i = decide (i < 16) := by
  rw [mpidrAffMsk, show (0xffff : BitVec 64) = BitVec.ofNat 64 (2 ^ 16 - 1) from rfl,
    BitVec.getLsbD_ofNat, Nat.testBit_two_pow_sub_one]
  grind

theorem toNat_affinity_fields (cluster : Nat) {core : Nat} (hcore : core < 256) :
    ((BitVec.ofNat 64 cluster <<< 8 ||| BitVec.ofNat 64 core &&& 0xff) &&& mpidrAffMsk).toNat =
      cluster % 256 * 256 + core := by
  apply Nat.eq_of_testBit_eq
  intro i
  rw [Nat.mul_comm, show 256 = 2 ^ 8 from rfl, Nat.testBit_two_pow_mul_add _ hcore,
    BitVec.testBit_toNat, BitVec.getLsbD_and, getLsbD_mpidrAffMsk, BitVec.getLsbD_or,
    BitVec.getLsbD_shiftLeft, BitVec.getLsbD_and, BitVec.getLsbD_ofNat, BitVec.getLsbD_ofNat,
    show (0xff : BitVec 64) = BitVec.ofNat 64 (2 ^ 8 - 1) from rfl, BitVec.getLsbD_ofNat,
    Nat.testBit_two_pow_sub_one, Nat.testBit_mod_two_pow]
  grind

theorem toNat_aff1 (mpidr : BitVec 64) :
    (mpidr >>> 8 &&& 0xff).toNat = (mpidr &&& mpidrAffMsk).toNat / 256 := by
  have haff : mpidrAffMsk.toNat = 2 ^ 16 - 1 := rfl
  have hff : (0xff : BitVec 64).toNat = 2 ^ 8 - 1 := rfl
  rw [BitVec.toNat_and, BitVec.toNat_and, BitVec.toNat_ushiftRight, haff, hff,
    Nat.and_two_pow_sub_one_eq_mod, Nat.and_two_pow_sub_one_eq_mod, Nat.shiftRight_eq_div_pow]
  omega

theorem affinity_cpuidToMpdir {aff : BitVec 64} (hcpu : cpuid < plat.cpuNum)
    (haff : cpuidAffinity plat cpuid = some aff) :
    ∃ mpidr, platformArchCpuidToMpdir plat cpuid = some mpidr ∧
      mpidr &&& mpidrAffMsk = aff &&& mpidrAffMsk := by
  rw [platformArchCpuidToMpdir, if_neg (by omega), haff]
  refine ⟨_, rfl, ?_⟩
  have hres : mpidrRes1 &&& mpidrAffMsk = 0#64 := by decide
  have hu : mpidrUBit &&& mpidrAffMsk = 0#64 := by decide
  split
  · rw [affinity_or hu, affinity_or hres]
  · rw [affinity_or hres]

theorem cluster_lt {cluster core : Nat} (h : plat.InCluster cpuid cluster core) :
    cluster < plat.coreNum.length := by
  obtain ⟨cores, hcores, -⟩ := h
  exact (List.getElem?_eq_some_iff.mp hcores).1

section Clustered

variable {plat : Platform} (hplat : plat.Clustered) {cpuid : Nat} (hcpu : cpuid < plat.cpuNum)
include hplat hcpu

theorem clusterLoop_eq :
    clusterLoop cpuid plat.coreNum 0 0 = some (plat.cluster cpuid, plat.core cpuid) ∧
      plat.InCluster cpuid (plat.cluster cpuid) (plat.core cpuid) := by
  have hlt : cpuid < 0 + plat.coreNum.sum := by rw [hplat.sum_eq]; omega
  obtain ⟨k, core, cores, hloop, hcores, hcore, hsum⟩ :=
    clusterLoop_spec plat.coreNum 0 0 (Nat.zero_le _) hlt
  have hne : plat.coreNum ≠ [] := by
    intro hnil
    rw [hnil] at hcores
    simp at hcores
  have hlocate : plat.locate cpuid = (k, core) := by
    rw [Platform.locate, if_pos hne, hloop, Nat.zero_add, Option.getD_some]
  rw [Nat.zero_add] at hloop hsum
  rw [Platform.cluster, Platform.core, hlocate]
  exact ⟨hloop, cores, hcores, hcore, hsum⟩

theorem inCluster : plat.InCluster cpuid (plat.cluster cpuid) (plat.core cpuid) :=
  (clusterLoop_eq hplat hcpu).2

theorem core_lt : plat.core cpuid < 256 := by
  obtain ⟨cores, hcores, hcore, -⟩ := inCluster hplat hcpu
  have := hplat.le cores (List.mem_of_getElem? hcores)
  omega

theorem toNat_affinity :
    ∃ mpidr, platformArchCpuidToMpdir plat cpuid = some mpidr ∧
      (mpidr &&& mpidrAffMsk).toNat = plat.cluster cpuid % 256 * 256 + plat.core cpuid := by
  have hne : plat.coreNum ≠ [] := by
    intro hnil
    have := hplat.sum_eq
    rw [hnil, List.sum_nil] at this
    omega
  have haff := cpuidAffinity.eq_1 plat cpuid
  rw [if_pos hne, (clusterLoop_eq hplat hcpu).1, Option.map_some] at haff
  obtain ⟨mpidr, hmpidr, heq⟩ := affinity_cpuidToMpdir hcpu haff
  refine ⟨mpidr, hmpidr, ?_⟩
  rw [heq]
  exact toNat_affinity_fields _ (core_lt hplat hcpu)

end Clustered

/-! ## Back and forth -/

theorem foldl_replace (l : List Nat) (a : Nat) : l.foldl (fun _ b => b) a = l.getLast?.getD a := by
  induction l generalizing a with
  | nil => rfl
  | cons b l ih => rw [List.foldl_cons, ih, List.getLast?_cons, Option.getD_some]

/-- The number of cores of a cluster, 0 where there is none. -/
def Platform.cores (plat : Platform) (cluster : Nat) : Nat := plat.coreNum.getD cluster 0

/-- What `platform_arch_mpidr_to_cpuid` computes: the cores of the cluster and of the one before
it. -/
theorem platformArchMpidrToCpuid_eq {mpidr : BitVec 64} {cluster core : Nat}
    (haff : (mpidr &&& mpidrAffMsk).toNat = cluster * 256 + core) (hcore : core < 256)
    (hlt : cluster < plat.coreNum.length) :
    platformArchMpidrToCpuid plat mpidr =
      ((if cluster = 0 then 0 else plat.cores (cluster - 1)) + plat.cores cluster : Nat) := by
  have haff1 : (mpidr >>> 8 &&& 0xff).toNat = cluster := by rw [toNat_aff1, haff]; omega
  rw [platformArchMpidrToCpuid, haff1, Nat.min_eq_left hlt.le, List.getElem?_eq_getElem hlt,
    foldl_replace, List.getLast?_take]
  simp only [Platform.cores, List.getD_eq_getElem?_getD, List.getElem?_eq_getElem hlt]
  by_cases hzero : cluster = 0
  · simp [hzero]
  · have hprev : cluster - 1 < plat.coreNum.length := by omega
    simp [hzero, List.getElem?_eq_getElem hprev]

theorem eq_of_locate_eq (hplat : plat.Clustered) {other : Nat} (hcpu : cpuid < plat.cpuNum)
    (hother : other < plat.cpuNum) (hcluster : plat.cluster other = plat.cluster cpuid)
    (hcore : plat.core other = plat.core cpuid) : other = cpuid := by
  obtain ⟨_, -, -, hsum⟩ := inCluster hplat hcpu
  obtain ⟨_, -, -, hsum'⟩ := inCluster hplat hother
  rw [← hsum, ← hsum', hcluster, hcore]

/-- A cpu id comes back from its MPIDR exactly when the cores of its cluster and of the cluster
before are as many as the id says, and two cpus have the same affinity only if the numbers of their
clusters agree in the eight bits of an affinity field. -/
theorem cpuid_mpidr_inverse_iff {plat : Platform} (hplat : plat.Clustered) {cpuid : Nat}
    (hcpu : cpuid < plat.cpuNum) :
    ∃ mpidr, platformArchCpuidToMpdir plat cpuid = some mpidr ∧
      (platformArchMpidrToCpuid plat mpidr = cpuid ↔
        (if plat.cluster cpuid % 256 = 0 then 0 else plat.cores (plat.cluster cpuid % 256 - 1)) +
          plat.cores (plat.cluster cpuid % 256) = cpuid) ∧
      ∀ other < plat.cpuNum, other ≠ cpuid →
        ∃ mpidr', platformArchCpuidToMpdir plat other = some mpidr' ∧
          (mpidr' &&& mpidrAffMsk ≠ mpidr &&& mpidrAffMsk ↔
            ¬ (plat.cluster other ≠ plat.cluster cpuid ∧ plat.core other = plat.core cpuid ∧
              plat.cluster other % 256 = plat.cluster cpuid % 256)) := by
  obtain ⟨mpidr, hmpidr, haff⟩ := toNat_affinity hplat hcpu
  have hcore := core_lt hplat hcpu
  have hlt := cluster_lt (inCluster hplat hcpu)
  refine ⟨mpidr, hmpidr, ?_, fun other hother hne => ?_⟩
  · rw [platformArchMpidrToCpuid_eq haff hcore (by omega)]
    exact Int.ofNat_inj
  · obtain ⟨mpidr', hmpidr', haff'⟩ := toNat_affinity hplat hother
    have hcore' := core_lt hplat hother
    refine ⟨mpidr', hmpidr', ?_⟩
    have hloc := eq_of_locate_eq hplat hcpu hother
    rw [ne_eq, ← BitVec.toNat_inj, haff, haff']
    omega

/-- Three clusters of one core: the id of the last cpu comes back. -/
theorem cpuid_mpidr_inverse_three :
    let plat : Platform := { cpuNum := 3, coreNum := [1, 1, 1] }
    plat.Clustered ∧ ∃ mpidr, platformArchCpuidToMpdir plat 2 = some mpidr ∧
      platformArchMpidrToCpuid plat mpidr = 2 := by
  have hplat : Platform.Clustered { cpuNum := 3, coreNum := [1, 1, 1] } :=
    ⟨by decide, by decide⟩
  obtain ⟨mpidr, hmpidr, hiff, -⟩ := cpuid_mpidr_inverse_iff hplat (show 2 < 3 by decide)
  exact ⟨hplat, mpidr, hmpidr, hiff.mpr (by decide)⟩

/-- Two clusters of two cores: no id comes back. -/
theorem cpuid_mpidr_not_inverse :
    let plat : Platform := { cpuNum := 4, coreNum := [2, 2] }
    plat.Clustered ∧
      (platformArchCpuidToMpdir plat 0).map (platformArchMpidrToCpuid plat) = some 2 ∧
      (platformArchCpuidToMpdir plat 1).map (platformArchMpidrToCpuid plat) = some 2 ∧
      (platformArchCpuidToMpdir plat 2).map (platformArchMpidrToCpuid plat) = some 4 ∧
      (platformArchCpuidToMpdir plat 3).map (platformArchMpidrToCpuid plat) = some 4 :=
  ⟨⟨by decide, by decide⟩, by decide +kernel, by decide +kernel, by decide +kernel,
    by decide +kernel⟩

/-! ## Routes -/

section Routes

variable {n : Nat} {g : VgicConfig n} {plat : Platform}

/-- The physical cpus of the VM are cpus of the platform, which is given by its clusters or has
none. -/
structure VgicConfig.OnPlatform (g : VgicConfig n) (plat : Platform) : Prop where
  clusters : plat.Clustered ∨ plat.coreNum = []
  mpidr : ∀ p < plat.cpuNum, platformArchCpuidToMpdir plat p = some (g.cpuIdToMpidr p)
  physId_lt : ∀ v, g.physId v < plat.cpuNum

theorem affinity_mod_core (hon : g.OnPlatform plat) {p : Nat} (hp : p < plat.cpuNum) :
    (g.cpuIdToMpidr p &&& mpidrAffMsk).toNat % 64 = plat.core p % 64 := by
  have hmpidr := hon.mpidr p hp
  rcases hon.clusters with hplat | hnil
  · obtain ⟨mpidr, hsome, haff⟩ := toNat_affinity hplat hp
    obtain rfl : mpidr = g.cpuIdToMpidr p := Option.some.inj (hsome.symm.trans hmpidr)
    rw [haff]
    omega
  · have hnone : ¬ plat.coreNum ≠ [] := fun hne => hne hnil
    obtain ⟨mpidr, hsome, haff⟩ := affinity_cpuidToMpdir hp (if_neg hnone)
    obtain rfl : mpidr = g.cpuIdToMpidr p := Option.some.inj (hsome.symm.trans hmpidr)
    have hmask : mpidrAffMsk.toNat = 2 ^ 16 - 1 := rfl
    rw [haff, BitVec.toNat_and, hmask, Nat.and_two_pow_sub_one_eq_mod, BitVec.toNat_ofNat,
      Platform.core, Platform.locate, if_neg hnone]
    omega

theorem vmGetVcpuByMpidr_affinity (g : VgicConfig n) {route mpidr : BitVec 64}
    (h : route &&& mpidrAffMsk = mpidr &&& mpidrAffMsk) :
    vmGetVcpuByMpidr g.vmpidr (route &&& mpidrAffMsk) = vmGetVcpuByMpidr g.vmpidr mpidr := by
  simp only [vmGetVcpuByMpidr, BitVec.and_assoc, BitVec.and_self, h]

/-- Some vcpu has the affinity of `t`, the first one of which is taken. -/
theorem vmGetVcpuByMpidr_isSome (g : VgicConfig n) (t : Fin n) :
    ∃ w, vmGetVcpuByMpidr g.vmpidr (g.vmpidr t) = some w := by
  rw [← Option.isSome_iff_exists, vmGetVcpuByMpidr, List.find?_isSome]
  exact ⟨t, List.mem_finRange t, by simp⟩

theorem irm_and_res0 (route : BitVec 64) :
    route &&& gicdIrouterRes0Msk &&& gicdIrouterIrmBit = route &&& gicdIrouterIrmBit := by
  rw [BitVec.and_assoc]
  rfl

section Mask

variable (hv : g.version = .gicv3) (v : Fin n) {r : IntRef n} (hspi : gicIsPriv r.id = false)
  (i : VgicInt n) {route : BitVec 64}
include hv hspi

theorem ptarget_of_unicast (hon : g.OnPlatform plat) (hirm : route &&& gicdIrouterIrmBit = 0)
    {w : Fin n} (hw : vmGetVcpuByMpidr g.vmpidr (route &&& mpidrAffMsk) = some w) (p : Nat) :
    vgicIntPtarget g v (vgicIntSetRoute g v r i route) p =
      decide (p = plat.core (g.physId w) % 64) := by
  rw [← affinity_mod_core hon (hon.physId_lt w)]
  simp only [vgicIntPtarget, vgicIntSetRoute, hspi, hv, Bool.false_eq_true, if_false, irm_and_res0,
    hirm, ne_eq, not_true_eq_false, hw]

theorem ptarget_of_irm (hirm : route &&& gicdIrouterIrmBit ≠ 0) (p : Nat) :
    vgicIntPtarget g v (vgicIntSetRoute g v r i route) p =
      (g.cpus.testBit p && decide (p < 32) && decide (p ≠ g.physId v % 32)) := by
  simp only [vgicIntPtarget, vgicIntSetRoute, hspi, hv, Bool.false_eq_true, if_false, irm_and_res0,
    hirm, ne_eq, not_false_eq_true, if_true]

end Mask

/-- A route to the affinity of a vcpu is forwarded to its cpu exactly when the core of the vcpu that
is found has the number of the cpu, and one to all is forwarded to the other cpus of the VM exactly
when they are in the 32 bits of the mask. -/
theorem vgicIntPtarget_route_iff (hv : g.version = .gicv3) (hon : g.OnPlatform plat) (v t : Fin n)
    {r : IntRef n} (hspi : gicIsPriv r.id = false) (i : VgicInt n) :
    (∀ route, route &&& gicdIrouterIrmBit = 0 →
      route &&& mpidrAffMsk = g.vmpidr t &&& mpidrAffMsk →
      ((∀ p, vgicIntPtarget g v (vgicIntSetRoute g v r i route) p = decide (p = g.physId t)) ↔
        ∃ w, vmGetVcpuByMpidr g.vmpidr (g.vmpidr t) = some w ∧
          plat.core (g.physId w) % 64 = g.physId t)) ∧
    ∀ route, route &&& gicdIrouterIrmBit ≠ 0 →
      ((∀ p, vgicIntPtarget g v (vgicIntSetRoute g v r i route) p =
          (g.cpus.testBit p && decide (p ≠ g.physId v))) ↔
        ∀ p, g.cpus.testBit p = true → p ≠ g.physId v → p < 32 ∧ p ≠ g.physId v % 32) := by
  refine ⟨fun route hirm haff => ?_, fun route hirm => ?_⟩
  · obtain ⟨w, hw⟩ := vmGetVcpuByMpidr_isSome g t
    have hfound := (vmGetVcpuByMpidr_affinity g haff).trans hw
    simp only [ptarget_of_unicast hv v hspi i hon hirm hfound, hw, Option.some.injEq,
      exists_eq_left', decide_eq_decide]
    exact ⟨fun hall => (hall _).mp rfl, fun heq p => by rw [heq]⟩
  · simp only [ptarget_of_irm hv v hspi i hirm]
    refine forall_congr' fun p => ?_
    -- the own cpu is in neither mask
    by_cases hown : p = g.physId v
    · have : p < 32 → p = g.physId v % 32 := fun hlt => by rw [← hown, Nat.mod_eq_of_lt hlt]
      grind
    · grind

end Routes

/-- The two clusters of one core each. -/
def twoClustersPlatform : Platform := { cpuNum := 2, coreNum := [1, 1] }

theorem twoClusters_onPlatform : twoClusters.OnPlatform twoClustersPlatform where
  clusters := .inl ⟨by decide, by decide⟩
  mpidr p hp := by
    have hp' : p < 2 := hp
    obtain rfl | rfl : p = 0 ∨ p = 1 := by omega
    · decide +kernel
    · decide +kernel
  physId_lt v := v.isLt

/-- The vcpu on the core of the first cluster gets what is routed to it. -/
theorem vgicIntPtarget_route_first :
    twoClusters.physId 0 = 0 ∧
      ∀ p, vgicIntPtarget twoClusters 1 (vgicIntSetRoute twoClusters 1 (.spi 40) {} 0) p =
        decide (p = 0) :=
  ⟨rfl, ((vgicIntPtarget_route_iff (v := 1) (t := 0) (r := .spi 40) rfl twoClusters_onPlatform
    (by decide) {}).1 0 (by decide) (by decide)).mpr ⟨0, by decide, by decide⟩⟩

/-- What is routed to the vcpu in the second cluster is forwarded to the cpu in the first one. -/
theorem vgicIntPtarget_route_second :
    twoClusters.OnPlatform twoClustersPlatform ∧ twoClusters.physId 1 = 1 ∧
      (0x100 : BitVec 64) &&& mpidrAffMsk = twoClusters.vmpidr 1 &&& mpidrAffMsk ∧
      (0x100 : BitVec 64) &&& gicdIrouterIrmBit = 0 ∧
      let i := vgicIntSetRoute twoClusters 0 (.spi 40) {} 0x100
      vgicIntPtarget twoClusters 0 i 0 = true ∧ vgicIntPtarget twoClusters 0 i 1 = false :=
  ⟨twoClusters_onPlatform, by decide, by decide, by decide, by decide, by decide⟩

end Bao.Armv8
