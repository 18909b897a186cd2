import Bao.Core.Config
import Bao.Riscv.PageTable

/-!
# The identity map of physical memory

`as_map_physical_identity` of `arch/riscv/mem.c` enters the memory regions of the platform into the
root table of the hypervisor, in blocks of 1 GiB. It rounds both ends of a region down, so that the
block in which a region ends is left out, and with it the whole of a region that does not reach
beyond the block it begins in.
-/

namespace Bao

/-- `num_entries` for a region. It is an `int`, and the loop makes no round when it is negative. -/
def identityEntries (lvlSize : Nat) (reg : MemRegion) : Nat :=
  let base := reg.base - reg.base % lvlSize
  let stop := u64 (reg.base + reg.size)
  let top := stop - stop % lvlSize
  let numEntries := u64 (top + (2 ^ 64 - base) + (2 ^ 64 - 1)) / lvlSize + 1
  if numEntries % 2 ^ 32 < 2 ^ 31 then numEntries % 2 ^ 32 else 0

/-- The loop over the entries of a region. -/
def identityLoop (pt : PageTable) : (left addr : Nat) → PhysMem → PhysMem
  | 0, _, mem => mem
  | left + 1, addr, mem =>
    let index := ptGetpteindexByVa pt addr 0
    identityLoop pt left (u64 (addr + ptLvlsize pt 0))
      (Function.update mem (pt.rootPa + 8 * index) (pteSet addr pteTypePage pteHypFlags))

def asMapPhysicalIdentity (pt : PageTable) (regions : List MemRegion) (mem : PhysMem) : PhysMem :=
  regions.foldl (fun mem reg => identityLoop pt (identityEntries (ptLvlsize pt 0) reg)
    (reg.base - reg.base % ptLvlsize pt 0) mem) mem

/-- The address belongs to the region. -/
def MemRegion.Has (reg : MemRegion) (a : Nat) : Prop := reg.base ≤ a ∧ a < reg.base + reg.size

/-- The blocks of 1 GiB that the map has for a region: from the one in which it begins to the one
before that in which it ends. -/
def MemRegion.Maps (reg : MemRegion) (i : Nat) : Prop :=
  reg.base / 2 ^ 30 ≤ i ∧ i < (reg.base + reg.size) / 2 ^ 30

instance (reg : MemRegion) (i : Nat) : Decidable (reg.Maps i) :=
  inferInstanceAs (Decidable (_ ∧ _))

section Sv39

variable {pt : PageTable} {mem : PhysMem} {regions : List MemRegion} {reg : MemRegion} {a i : Nat}

theorem sv39_lvlsize (hpt : pt.dscr = sv39PtDscr) : ptLvlsize pt 0 = 2 ^ 30 := by
  rw [ptLvlsize, hpt]; rfl

theorem sv39_index (hpt : pt.dscr = sv39PtDscr) (ha : a < 2 ^ 39) :
    ptGetpteindexByVa pt a 0 = a / 2 ^ 30 := by
  have hnent : ptNentries pt 0 = 512 := by rw [ptNentries, hpt]; rfl
  rw [PageTable.Rv64.index (.inl hpt) (by decide), sv39_lvlsize hpt, hnent, Nat.mod_eq_of_lt]
  omega

/-- The difference of the ends, in blocks. When it is 0, the subtraction of one wraps around, and
the count, which is `2 ^ 34`, is 0 as an `int`. -/
theorem identityEntries_eq (htop : reg.base + reg.size ≤ 2 ^ 39) :
    identityEntries (2 ^ 30) reg = (reg.base + reg.size) / 2 ^ 30 - reg.base / 2 ^ 30 := by
  have hle : reg.base / 2 ^ 30 ≤ (reg.base + reg.size) / 2 ^ 30 := Nat.div_le_div_right (by omega)
  unfold identityEntries
  simp only [u64_of_lt (show reg.base + reg.size < 2 ^ 64 by omega)]
  rcases Nat.eq_or_lt_of_le hle with heq | hlt
  · have hwrap : u64 (reg.base + reg.size - (reg.base + reg.size) % 2 ^ 30 +
        (2 ^ 64 - (reg.base - reg.base % 2 ^ 30)) + (2 ^ 64 - 1)) = 2 ^ 64 - 1 := by
      unfold u64
      omega
    rw [hwrap, ← heq, Nat.sub_self]
    rfl
  · have hdiff : u64 (reg.base + reg.size - (reg.base + reg.size) % 2 ^ 30 +
        (2 ^ 64 - (reg.base - reg.base % 2 ^ 30)) + (2 ^ 64 - 1)) =
        ((reg.base + reg.size) / 2 ^ 30 - reg.base / 2 ^ 30) * 2 ^ 30 - 1 := by
      unfold u64
      omega
    rw [hdiff]
    split <;> omega

theorem identityLoop_apply (hpt : pt.dscr = sv39PtDscr) {left addr : Nat}
    (haddr : addr % 2 ^ 30 = 0) (htop : addr / 2 ^ 30 + left ≤ 512) :
    identityLoop pt left addr mem (pt.rootPa + 8 * i) =
      if addr / 2 ^ 30 ≤ i ∧ i < addr / 2 ^ 30 + left then
        pteSet (i * 2 ^ 30) pteTypePage pteHypFlags
      else mem (pt.rootPa + 8 * i) := by
  induction left generalizing addr mem with
  | zero => rw [if_neg (by omega), identityLoop]
  | succ left ih =>
    have hnext : u64 (addr + 2 ^ 30) = addr + 2 ^ 30 := u64_of_lt (by omega)
    have hdiv : (addr + 2 ^ 30) / 2 ^ 30 = addr / 2 ^ 30 + 1 := Nat.add_div_right _ (by decide)
    rw [identityLoop, sv39_lvlsize hpt, hnext, ih (by omega) (by omega), hdiv,
      sv39_index hpt (by omega)]
    by_cases hi : i = addr / 2 ^ 30
    · rw [if_neg (by omega), if_pos (by omega), hi, Function.update_self,
        Nat.div_mul_cancel (Nat.dvd_of_mod_eq_zero haddr)]
    · rw [Function.update_of_ne (by omega)]
      exact if_congr (by omega) rfl rfl

theorem asMapPhysicalIdentity_apply (mem : PhysMem) (i : Nat) (hpt : pt.dscr = sv39PtDscr)
    (htop : ∀ reg ∈ regions, reg.base + reg.size ≤ 2 ^ 39) :
    asMapPhysicalIdentity pt regions mem (pt.rootPa + 8 * i) =
      if ∃ reg ∈ regions, reg.Maps i then pteSet (i * 2 ^ 30) pteTypePage pteHypFlags
      else mem (pt.rootPa + 8 * i) := by
  induction regions generalizing mem with
  | nil => simp [asMapPhysicalIdentity]
  | cons reg regions ih =>
    obtain ⟨hreg, htop⟩ := List.forall_mem_cons.mp htop
    rw [asMapPhysicalIdentity, List.foldl_cons, ← asMapPhysicalIdentity, ih _ htop]
    have hloop : identityLoop pt (identityEntries (ptLvlsize pt 0) reg)
        (reg.base - reg.base % ptLvlsize pt 0) mem (pt.rootPa + 8 * i) =
        if reg.Maps i then pteSet (i * 2 ^ 30) pteTypePage pteHypFlags
        else mem (pt.rootPa + 8 * i) := by
      rw [sv39_lvlsize hpt, identityEntries_eq hreg, identityLoop_apply hpt (by omega) (by omega)]
      refine if_congr ?_ rfl rfl
      unfold MemRegion.Maps
      omega
    rw [hloop]
    by_cases hhere : reg.Maps i <;> simp [hhere]

theorem memTranslate_root (hpt : pt.dscr = sv39PtDscr) (ha : a < 2 ^ 39)
    (hentry : pteTable (mem (pt.rootPa + 8 * (a / 2 ^ 30))) = false) :
    memTranslate pt mem a =
      let pte := pt.rootPa + 8 * (a / 2 ^ 30)
      if pte ≠ 0 ∧ pteValid (mem pte) then
        some (pteAddr (mem pte) / 2 ^ 30 * 2 ^ 30 + a % 2 ^ 30)
      else none := by
  have hlvls : pt.dscr.lvls = 3 := by rw [hpt]; rfl
  simp only [memTranslate, hlvls, sv39_index hpt ha, memTranslateLoop, hentry, Bool.not_false,
    Bool.or_true, if_true, sv39_lvlsize hpt]

theorem memTranslate_identity (hpt : pt.dscr = sv39PtDscr) (hroot : 0 < pt.rootPa)
    (ha : a < 2 ^ 39)
    (hentry : mem (pt.rootPa + 8 * (a / 2 ^ 30)) =
      pteSet (a / 2 ^ 30 * 2 ^ 30) pteTypePage pteHypFlags) :
    memTranslate pt mem a = some a := by
  have htable : pteTable (pteSet (a / 2 ^ 30 * 2 ^ 30) pteTypePage pteHypFlags) = false := by
    rw [pteTable, pteSet_and_low _ _ _ _ (by decide)]; decide
  have hvalid : pteValid (pteSet (a / 2 ^ 30 * 2 ^ 30) pteTypePage pteHypFlags) = true := by
    rw [pteValid, pteSet_and_low _ _ _ _ (by decide)]; decide
  have haddr : pteAddr (pteSet (a / 2 ^ 30 * 2 ^ 30) pteTypePage pteHypFlags) =
      a / 2 ^ 30 * 2 ^ 30 :=
    pteAddr_pteSet (by omega) (by simp only [pageSize]; omega) (by decide)
  rw [memTranslate_root hpt ha (hentry ▸ htable)]
  simp only [hentry, hvalid, haddr]
  rw [if_pos ⟨by omega, trivial⟩, Nat.mul_div_cancel _ (by decide), Nat.div_add_mod']

theorem memTranslate_clear (hpt : pt.dscr = sv39PtDscr) (ha : a < 2 ^ 39)
    (hentry : mem (pt.rootPa + 8 * (a / 2 ^ 30)) = 0) : memTranslate pt mem a = none := by
  rw [memTranslate_root hpt ha (by rw [hentry]; decide)]
  simp only [hentry, pteValid_zero]
  simp

/-- After `as_map_physical_identity` on a fresh root table, every address of every region is mapped
to itself if and only if each region ends at a multiple of 1 GiB, or else the block in which it ends
is mapped for another region. -/
theorem asMapPhysicalIdentity_complete_iff (hpt : pt.dscr = sv39PtDscr) (hroot : 0 < pt.rootPa)
    (hfresh : ∀ i < 512, mem (pt.rootPa + 8 * i) = 0)
    (hregions : ∀ reg ∈ regions, 1 ≤ reg.size ∧ reg.base + reg.size ≤ 2 ^ 39) :
    (∀ reg ∈ regions, ∀ a, reg.Has a →
      memTranslate pt (asMapPhysicalIdentity pt regions mem) a = some a) ↔
    ∀ reg ∈ regions, 2 ^ 30 ∣ reg.base + reg.size ∨
      ∃ reg' ∈ regions, reg'.Maps ((reg.base + reg.size) / 2 ^ 30) := by
  have htop := fun reg hreg => (hregions reg hreg).2
  -- An address is mapped to itself exactly when its block is mapped for some region.
  have hiff : ∀ a < 2 ^ 39, memTranslate pt (asMapPhysicalIdentity pt regions mem) a = some a ↔
      ∃ reg ∈ regions, reg.Maps (a / 2 ^ 30) := by
    intro a ha
    have hentry := asMapPhysicalIdentity_apply mem (a / 2 ^ 30) hpt htop
    split at hentry
    · rename_i hmapped
      exact iff_of_true (memTranslate_identity hpt hroot ha hentry) hmapped
    · rename_i hclear
      rw [hfresh _ (by omega)] at hentry
      refine iff_of_false (fun h => ?_) hclear
      rw [memTranslate_clear hpt ha hentry] at h
      cases h
  constructor
  · intro h reg hreg
    by_cases hdvd : 2 ^ 30 ∣ reg.base + reg.size
    · exact .inl hdvd
    · obtain ⟨hsize, hbound⟩ := hregions reg hreg
      have hlast := h reg hreg (reg.base + reg.size - 1) ⟨by omega, by omega⟩
      rw [hiff _ (by omega), show (reg.base + reg.size - 1) / 2 ^ 30 =
        (reg.base + reg.size) / 2 ^ 30 by omega] at hlast
      exact .inr hlast
  · intro h reg hreg a ha
    have hbound := htop reg hreg
    obtain ⟨hlo, hhi⟩ := ha
    rw [hiff a (by omega)]
    by_cases hown : a / 2 ^ 30 < (reg.base + reg.size) / 2 ^ 30
    · exact ⟨reg, hreg, Nat.div_le_div_right hlo, hown⟩
    · have hblock : a / 2 ^ 30 = (reg.base + reg.size) / 2 ^ 30 := by omega
      rw [hblock]
      exact (h reg hreg).resolve_left (by omega)

end Sv39

/-- A region of 1 GiB that begins and ends at a multiple of it. -/
theorem asMapPhysicalIdentity_complete_aligned :
    let pt : PageTable := ⟨sv39PtDscr, 0xffffffc000000000, 0x80200000⟩
    ∀ a, 0x80000000 ≤ a → a < 0xc0000000 →
      memTranslate pt (asMapPhysicalIdentity pt [⟨0x80000000, 0x40000000, false, 0⟩] fun _ => 0) a =
        some a := by
  intro pt a hlo hhi
  exact (@asMapPhysicalIdentity_complete_iff pt _ _ rfl (by decide) (fun _ _ => rfl)
    (by decide)).mpr (by decide) _ (List.mem_singleton.mpr rfl) a ⟨hlo, hhi⟩

/-- A region of 512 MiB at the start of a block is not mapped at all. -/
theorem asMapPhysicalIdentity_incomplete :
    let pt : PageTable := ⟨sv39PtDscr, 0xffffffc000000000, 0x80200000⟩
    let reg : MemRegion := ⟨0x80000000, 0x20000000, false, 0⟩
    reg.Has 0x80000000 ∧
      memTranslate pt (asMapPhysicalIdentity pt [reg] fun _ => 0) 0x80000000 = none :=
  ⟨⟨by decide, by decide⟩, by decide +kernel⟩

end Bao
