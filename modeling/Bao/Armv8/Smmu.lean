import Mathlib.Data.List.Induction
import Bao.Foundation.Run
import Bao.Lib.Bitmap

/-!
# Stream matching of the SMMUv2

A VM gets a context bank of the SMMU with its page table and claims stream ids: single ones for its
devices and groups given by an id and a mask. `iommu_vm_arch_add` merges a claim with overlapping
stream match entries or writes a new entry. An entry that is replaced is only given up in the
software's bitmap; its register stays valid until the slot is used again.
-/

namespace Bao.Armv8

open Foundation

/-- A stream match register. Its mask has 15 bits; bit 15 of a mask that is written falls together
with the valid bit, which is set anyway. -/
structure Smr where
  valid : Bool := false
  id : BitVec 15 := 0
  mask : BitVec 15 := 0
  deriving DecidableEq

/-- The stream id `x` is one of those with that id outside the mask. -/
def StreamMatches (id mask x : BitVec 15) : Prop := (x ^^^ id) &&& ~~~mask = 0

instance (id mask x : BitVec 15) : Decidable (StreamMatches id mask x) :=
  inferInstanceAs (Decidable (_ = _))

def Smr.Matches (r : Smr) (x : BitVec 15) : Prop := r.valid = true ∧ StreamMatches r.id r.mask x

/-- The numbers of stream match entries and of context banks, for which the bitmaps have room. -/
structure SmmuConfig where
  smeNum : Nat
  ctxNum : Nat
  smeNum_le : smeNum ≤ 128
  ctxNum_le : ctxNum ≤ 128

/-- The registers and the bookkeeping of the SMMU, and the `ctx_id` of the VMs. A context bank is
given by the VM whose page table it uses, an S2CR by the number of its context bank. -/
structure Smmu (V : Type*) where
  smr : Nat → Smr := fun _ => {}
  s2cr : Nat → Nat := fun _ => 0
  cntxt : Nat → Option V := fun _ => none
  smeBitmap : Bitmap := fun _ => false
  grpBitmap : Bitmap := fun _ => false
  ctxbankBitmap : Bitmap := fun _ => false
  ctxId : V → Option Nat := fun _ => none

/-- The arguments of a call of `iommu_vm_arch_add`. -/
structure StreamClaim (V : Type*) where
  vm : V
  mask : BitVec 16
  id : BitVec 16
  deriving DecidableEq

section Functions

variable {V : Type*} [DecidableEq V] (g : SmmuConfig) (globalMask : V → BitVec 16)

def smmuAllocCtxbnk (s : Smmu V) : Option (Nat × Smmu V) :=
  (bitmapFindNth s.ctxbankBitmap g.ctxNum 1 0 false).map fun nth =>
    (nth, { s with ctxbankBitmap := bitmapSet s.ctxbankBitmap nth })

def smmuWriteCtxbnk (s : Smmu V) (ctxId : Nat) (vm : V) : Option (Smmu V) :=
  if s.ctxbankBitmap ctxId then some { s with cntxt := Function.update s.cntxt ctxId (some vm) }
  else none

/-- `iommu_vm_arch_init_ctx`; `none` is `ERROR`, and no context bank is a negative result. -/
def iommuVmArchInitCtx (s : Smmu V) (vm : V) : Option (Option Nat × Smmu V) :=
  match s.ctxId vm with
  | some ctx => some (some ctx, s)
  | none =>
    match smmuAllocCtxbnk g s with
    | none => some (none, s)
    | some (ctx, s) => (smmuWriteCtxbnk s ctx vm).map fun s =>
        (some ctx, { s with ctxId := Function.update s.ctxId vm (some ctx) })

/-- The loop of `smmu_compatible_sme_exists` from entry `sme` on with `left` entries to go; the
result is `included` and the bitmap of the entries. A conflict ends in `ERROR`, which is `none`. -/
def compatibleLoop (s : Smmu V) (mask id : BitVec 16) (ctx : Nat) (group : Bool) :
    (left sme : Nat) → Bitmap → Option (Bool × Bitmap)
  | 0, _, bitmap => some (false, bitmap)
  | left + 1, sme, bitmap =>
    let smeMask := (s.smr sme).mask.setWidth 16
    let maskR := mask &&& smeMask
    let diffId := ((s.smr sme).id.setWidth 16 ^^^ id) &&& ~~~(mask ||| smeMask)
    if bitmap sme = false ∨ diffId ≠ 0 then compatibleLoop s mask id ctx group left (sme + 1) bitmap
    else if group ∨ (s.grpBitmap sme ∧ (maskR = mask ∨ maskR = smeMask)) ∨ ctx = s.s2cr sme then
      if smeMask < mask then
        compatibleLoop s mask id ctx group left (sme + 1) (bitmapClear bitmap sme)
      else some (true, bitmap)
    else none

def smmuCompatibleSmeExists (s : Smmu V) (mask id : BitVec 16) (ctx : Nat) (group : Bool) :
    Option (Bool × Smmu V) :=
  (compatibleLoop s mask id ctx group g.smeNum 0 s.smeBitmap).map fun r =>
    (r.1, { s with smeBitmap := r.2 })

def smmuAllocSme (s : Smmu V) : Option Nat := bitmapFindNth s.smeBitmap g.smeNum 1 0 false

def smmuWriteSme (s : Smmu V) (sme : Nat) (mask id : BitVec 16) (group : Bool) :
    Option (Smmu V) :=
  if s.smeBitmap sme then none
  else some { s with
    smr := Function.update s.smr sme
      { valid := true, id := id.setWidth 15, mask := mask.setWidth 15 }
    smeBitmap := bitmapSet s.smeBitmap sme
    grpBitmap := if group then bitmapSet s.grpBitmap sme else s.grpBitmap }

def smmuWriteS2c (s : Smmu V) (sme ctx : Nat) : Option (Smmu V) :=
  if s.smeBitmap sme then some { s with s2cr := Function.update s.s2cr sme (ctx % 256) } else none

def prepMask (c : StreamClaim V) : BitVec 16 := (c.mask &&& 0x7fff) ||| globalMask c.vm

def prepId (c : StreamClaim V) : BitVec 16 := c.id &&& 0x7fff

/-- `iommu_vm_arch_add`, with its result; `none` is `ERROR`. -/
def iommuVmArchAdd (s : Smmu V) (c : StreamClaim V) : Option (Int × Smmu V) :=
  (iommuVmArchInitCtx g s c.vm).bind fun r =>
    let group : Bool := c.mask ≠ 0
    match r.1 with
    | none => some (-1, r.2)
    | some ctx =>
      (smmuCompatibleSmeExists g r.2 (prepMask globalMask c) (prepId c) ctx group).bind fun r =>
        if r.1 then some (0, r.2)
        else
          match smmuAllocSme g r.2 with
          | none => some (-1, r.2)
          | some sme =>
            ((smmuWriteSme r.2 sme (prepMask globalMask c) (prepId c) group).bind fun s =>
              smmuWriteS2c s sme ctx).map fun s => (0, s)

/-- A call that returns 0. -/
def addStream (s : Smmu V) (c : StreamClaim V) : Option (Smmu V) :=
  (iommuVmArchAdd g globalMask s c).bind fun r => if r.1 = 0 then some r.2 else none

/-- The claim is about the stream id `x`, with the global mask of the VM. -/
def Covers (c : StreamClaim V) (x : BitVec 15) : Prop :=
  StreamMatches ((prepId c).setWidth 15) ((prepMask globalMask c).setWidth 15) x

instance (c : StreamClaim V) (x : BitVec 15) : Decidable (Covers globalMask c x) :=
  inferInstanceAs (Decidable (StreamMatches ..))

def Overlap (c d : StreamClaim V) : Prop := ∃ x, Covers globalMask c x ∧ Covers globalMask d x

/-- Every claimed stream has an entry, and all its entries select the context bank of the VM that
claims it. -/
def Separated (cs : List (StreamClaim V)) (s : Smmu V) : Prop :=
  ∀ c ∈ cs, ∀ x, Covers globalMask c x → (∃ e, (s.smr e).Matches x) ∧
    ∀ e, (s.smr e).Matches x → s.ctxId c.vm = some (s.s2cr e) ∧ s.cntxt (s.s2cr e) = some c.vm

/-- What `iommu_vm_arch_add` takes for granted of a claim `d` that overlaps an earlier one `c`: the
one whose mask is the larger number covers the other. -/
def Nested (c d : StreamClaim V) : Prop :=
  Overlap globalMask c d →
    if ((prepMask globalMask c).setWidth 15).setWidth 16 < prepMask globalMask d then
      ∀ x, Covers globalMask c x → Covers globalMask d x
    else ∀ x, Covers globalMask d x → Covers globalMask c x

end Functions

/-! ## Ids and masks -/

variable {id mask : BitVec 15}

theorem streamMatches_iff {x : BitVec 15} : StreamMatches id mask x ↔
    ∀ i < 15, mask.getLsbD i = false → x.getLsbD i = id.getLsbD i := by
  have hbit : ∀ i < 15, ((x ^^^ id) &&& ~~~mask).getLsbD i =
      ((x.getLsbD i ^^ id.getLsbD i) && !mask.getLsbD i) := fun i hi => by
    rw [BitVec.getLsbD_and, BitVec.getLsbD_xor, BitVec.getLsbD_not, decide_eq_true hi,
      Bool.true_and]
  constructor
  · intro h i hi hmask
    have hzero := hbit i hi
    rw [show (x ^^^ id) &&& ~~~mask = 0 from h, hmask] at hzero
    grind
  · intro h
    refine BitVec.eq_of_getLsbD_eq fun i hi => ?_
    rw [hbit i hi]
    grind

theorem getLsbD_prepId {V : Type*} (c : StreamClaim V) : (prepId c).getLsbD 15 = false := by
  rw [prepId, BitVec.getLsbD_and]
  exact Bool.and_false _

/-- The test of `smmu_compatible_sme_exists` finds out whether the two have a common stream id. -/
theorem diffId_eq_zero_iff {id' mask' : BitVec 16} (hid : id'.getLsbD 15 = false) :
    (id.setWidth 16 ^^^ id') &&& ~~~(mask' ||| mask.setWidth 16) = 0 ↔
      ∃ x, StreamMatches id mask x ∧ StreamMatches (id'.setWidth 15) (mask'.setWidth 15) x := by
  have hbit : ∀ i < 16, ((id.setWidth 16 ^^^ id') &&& ~~~(mask' ||| mask.setWidth 16)).getLsbD i =
      ((id.getLsbD i ^^ id'.getLsbD i) && !(mask'.getLsbD i || mask.getLsbD i)) := fun i hi => by
    simp only [BitVec.getLsbD_and, BitVec.getLsbD_xor, BitVec.getLsbD_not, BitVec.getLsbD_or,
      BitVec.getLsbD_setWidth, decide_eq_true hi, Bool.true_and]
  simp only [streamMatches_iff, BitVec.getLsbD_setWidth]
  constructor
  · intro h
    -- The common stream id takes the bits of `id'` where `mask` leaves them open.
    refine ⟨id ^^^ ((id ^^^ id'.setWidth 15) &&& mask), fun i hi hm => ?_, fun i hi hm => ?_⟩
    · rw [BitVec.getLsbD_xor, BitVec.getLsbD_and, hm, Bool.and_false, Bool.xor_false]
    · have hzero := hbit i (by omega)
      rw [h] at hzero
      rw [BitVec.getLsbD_xor, BitVec.getLsbD_and, BitVec.getLsbD_xor, BitVec.getLsbD_setWidth]
      grind
  · rintro ⟨x, hx, hx'⟩
    refine BitVec.eq_of_getLsbD_eq fun i hi => ?_
    rw [hbit i hi]
    by_cases h15 : i < 15
    · have := hx i h15
      grind
    · obtain rfl : i = 15 := by omega
      grind

/-- An id and a mask cover all stream ids of another pair when they cover its id and its mask has no
further bit. -/
theorem streamMatches_subset_iff {id' mask' : BitVec 15} :
    (∀ x, StreamMatches id mask x → StreamMatches id' mask' x) ↔
      StreamMatches id' mask' id ∧ StreamMatches id' mask' (id ^^^ mask) := by
  simp only [streamMatches_iff]
  constructor
  · intro h
    refine ⟨h id fun _ _ _ => rfl, h (id ^^^ mask) fun i _ hm => ?_⟩
    rw [BitVec.getLsbD_xor, hm, Bool.xor_false]
  · rintro ⟨hid, hmask⟩ x hx i hi hm
    grind

instance {V : Type*} (globalMask : V → BitVec 16) (c d : StreamClaim V) :
    Decidable (Overlap globalMask c d) :=
  decidable_of_iff _ (diffId_eq_zero_iff (getLsbD_prepId d))

instance {V : Type*} (globalMask : V → BitVec 16) (c d : StreamClaim V) :
    Decidable (∀ x, Covers globalMask c x → Covers globalMask d x) :=
  decidable_of_iff _ streamMatches_subset_iff.symm

instance {V : Type*} (globalMask : V → BitVec 16) : DecidableRel (Nested globalMask) :=
  fun c d => by unfold Nested; infer_instance

/-! ## Merging -/

section Merging

variable {V : Type*} {g : SmmuConfig} {globalMask : V → BitVec 16} {s t u : Smmu V}
  {c d : StreamClaim V} {cs : List (StreamClaim V)}

/-- The entry has a stream id in common with the claim. -/
def Meets (globalMask : V → BitVec 16) (s : Smmu V) (c : StreamClaim V) (e : Nat) : Prop :=
  ∃ x, StreamMatches (s.smr e).id (s.smr e).mask x ∧ Covers globalMask c x

/-- The mask of the entry is a smaller number than that of the claim. -/
def Smaller (globalMask : V → BitVec 16) (s : Smmu V) (c : StreamClaim V) (e : Nat) : Prop :=
  (s.smr e).mask.setWidth 16 < prepMask globalMask c

variable {ctx left sme : Nat} {group included : Bool} {bitmap : Bitmap} {vm : V}

/-- The loop gives up entries with smaller masks that meet the claim, and stops at one that meets it
without a smaller mask. -/
theorem compatibleLoop_spec {bitmap' : Bitmap}
    (h : compatibleLoop s (prepMask globalMask c) (prepId c) ctx group left sme bitmap =
      some (included, bitmap')) :
    (∀ e, bitmap' e = true → bitmap e = true) ∧
    (∀ e, bitmap e = true → bitmap' e = true ∨
      Meets globalMask s c e ∧ Smaller globalMask s c e) ∧
    (included = true →
      ∃ e, bitmap' e = true ∧ Meets globalMask s c e ∧ ¬ Smaller globalMask s c e) := by
  induction left generalizing sme bitmap with
  | zero =>
    cases h
    exact ⟨fun e he => he, fun e he => .inl he, nofun⟩
  | succ left ih =>
    simp only [compatibleLoop] at h
    split at h
    · exact ih h
    · rename_i hmeet
      simp only [not_or, Bool.not_eq_false, not_not] at hmeet
      have hmeets : Meets globalMask s c sme :=
        (diffId_eq_zero_iff (getLsbD_prepId c)).mp hmeet.2
      split at h
      · split at h
        · rename_i hsmaller
          obtain ⟨hsub, hgone, hinc⟩ := ih h
          refine ⟨fun e he => ?_, fun e he => ?_, hinc⟩
          · have := hsub e he
            rw [bitmapClear_apply] at this
            split at this
            · cases this
            · exact this
          · by_cases hsme : e = sme
            · exact .inr (hsme ▸ ⟨hmeets, hsmaller⟩)
            · exact hgone e (by rwa [bitmapClear_apply, if_neg hsme])
        · rename_i hsmaller
          cases h
          exact ⟨fun e he => he, fun e he => .inl he, fun _ => ⟨sme, hmeet.1, hmeets, hsmaller⟩⟩
      · cases h

/-- What the entries and context banks are after the claims `cs`. -/
structure SmmuInv (globalMask : V → BitVec 16) (cs : List (StreamClaim V)) (s : Smmu V) : Prop where
  bank : ∀ vm ctx, s.ctxId vm = some ctx →
    ctx < 256 ∧ s.ctxbankBitmap ctx = true ∧ s.cntxt ctx = some vm
  live : ∀ e, s.smeBitmap e = true → (s.smr e).valid = true
  origin : ∀ e, (s.smr e).valid = true → ∃ c ∈ cs, s.ctxId c.vm = some (s.s2cr e) ∧
    (s.smr e).id = (prepId c).setWidth 15 ∧ (s.smr e).mask = (prepMask globalMask c).setWidth 15
  covered : ∀ c ∈ cs, ∃ e, s.smeBitmap e = true ∧ s.ctxId c.vm = some (s.s2cr e) ∧
    ∀ x, Covers globalMask c x → StreamMatches (s.smr e).id (s.smr e).mask x

theorem SmmuInv.initial : SmmuInv globalMask [] ({} : Smmu V) where
  bank := nofun
  live := nofun
  origin := nofun
  covered := nofun

theorem SmmuInv.vm_eq (inv : SmmuInv globalMask cs s) {vm' : V} (h : s.ctxId vm = some ctx)
    (h' : s.ctxId vm' = some ctx) : vm = vm' :=
  Option.some.inj ((inv.bank vm ctx h).2.2.symm.trans (inv.bank vm' ctx h').2.2)

theorem SmmuInv.meets (inv : SmmuInv globalMask cs s)
    (hvm : ∀ c ∈ cs, Overlap globalMask c d → c.vm = d.vm)
    (hnest : ∀ c ∈ cs, Nested globalMask c d) {e : Nat} (he : s.smeBitmap e = true)
    (hmeets : Meets globalMask s d e) : s.ctxId d.vm = some (s.s2cr e) ∧
      (Smaller globalMask s d e →
        ∀ x, StreamMatches (s.smr e).id (s.smr e).mask x → Covers globalMask d x) ∧
      (¬ Smaller globalMask s d e →
        ∀ x, Covers globalMask d x → StreamMatches (s.smr e).id (s.smr e).mask x) := by
  obtain ⟨c, hc, hctx, hid, hmask⟩ := inv.origin e (inv.live e he)
  unfold Meets at hmeets
  unfold Smaller
  rw [hid, hmask] at hmeets ⊢
  have hsub := hnest c hc hmeets
  refine ⟨hvm c hc hmeets ▸ hctx, fun hlt => ?_, fun hge => ?_⟩
  · rwa [if_pos hlt] at hsub
  · rwa [if_neg hge] at hsub

/-- A claim keeps its entry unless the new one covers it. -/
theorem SmmuInv.kept (inv : SmmuInv globalMask cs s)
    (hvm : ∀ c ∈ cs, Overlap globalMask c d → c.vm = d.vm) (hnest : ∀ c ∈ cs, Nested globalMask c d)
    (h : compatibleLoop s (prepMask globalMask d) (prepId d) ctx group left sme s.smeBitmap =
      some (included, bitmap)) (hc : c ∈ cs ++ [d]) :
    (∃ e, bitmap e = true ∧ s.ctxId c.vm = some (s.s2cr e) ∧
      ∀ x, Covers globalMask c x → StreamMatches (s.smr e).id (s.smr e).mask x) ∨
    c.vm = d.vm ∧ ∀ x, Covers globalMask c x → Covers globalMask d x := by
  rcases List.mem_append.mp hc with hc | hc
  · obtain ⟨e, he, hctx, hcov⟩ := inv.covered c hc
    rcases (compatibleLoop_spec h).2.1 e he with hlive | ⟨hmeets, hsmaller⟩
    · exact .inl ⟨e, hlive, hctx, hcov⟩
    · obtain ⟨hctx', hsub, -⟩ := inv.meets hvm hnest he hmeets
      exact .inr ⟨inv.vm_eq hctx hctx', fun x hx => hsub hsmaller x (hcov x hx)⟩
  · rw [List.mem_singleton.mp hc]
    exact .inr ⟨rfl, fun x hx => hx⟩

theorem SmmuInv.separated (hvm : ∀ c ∈ cs, ∀ d ∈ cs, Overlap globalMask c d → c.vm = d.vm)
    (inv : SmmuInv globalMask cs s) : Separated globalMask cs s := by
  intro c hc x hx
  constructor
  · obtain ⟨e, he, -, hcov⟩ := inv.covered c hc
    exact ⟨e, inv.live e he, hcov x hx⟩
  · rintro e ⟨hvalid, hmatch⟩
    obtain ⟨d, hd, hctx, hid, hmask⟩ := inv.origin e hvalid
    rw [hid, hmask] at hmatch
    rw [hvm c hc d hd ⟨x, hx, hmatch⟩]
    exact ⟨hctx, (inv.bank _ _ hctx).2.2⟩

variable [DecidableEq V]

theorem initCtx_cases (h : iommuVmArchInitCtx g s vm = some (some ctx, u)) :
    s.ctxId vm = some ctx ∧ u = s ∨
    s.ctxId vm = none ∧ ctx < g.ctxNum ∧ s.ctxbankBitmap ctx = false ∧ u = { s with
      ctxbankBitmap := Function.update s.ctxbankBitmap ctx true
      cntxt := Function.update s.cntxt ctx (some vm)
      ctxId := Function.update s.ctxId vm (some ctx) } := by
  unfold iommuVmArchInitCtx at h
  split at h
  · rename_i hctx
    cases h
    exact .inl ⟨hctx, rfl⟩
  · rename_i hnone
    split at h
    · cases h
    · rename_i ctx' v halloc
      obtain ⟨nth, hfind, heq⟩ := Option.map_eq_some_iff.mp halloc
      cases heq
      simp only [smmuWriteCtxbnk, bitmapSet, bitmapWrite, Function.update_self, if_true,
        Option.map_some, Option.some.injEq, Prod.mk.injEq] at h
      obtain ⟨rfl, rfl⟩ := h
      obtain ⟨-, hlt, hfree, -⟩ := (bitmapFindNth_spec (by decide)).mp hfind
      exact .inr ⟨hnone, hlt, hfree, rfl⟩

theorem SmmuInv.initCtx (inv : SmmuInv globalMask cs s)
    (h : iommuVmArchInitCtx g s vm = some (some ctx, u)) :
    SmmuInv globalMask cs u ∧ u.ctxId vm = some ctx := by
  rcases initCtx_cases h with ⟨hctx, rfl⟩ | ⟨hnone, hlt, hfree, rfl⟩
  · exact ⟨inv, hctx⟩
  · -- A VM that has a context bank keeps it.
    have hkeep : ∀ vm' x, s.ctxId vm' = some x →
        Function.update s.ctxId vm (some ctx) vm' = some x := by
      intro vm' x hx
      rwa [Function.update_of_ne]
      rintro rfl
      cases hnone.symm.trans hx
    refine ⟨⟨fun vm' x hx => ?_, inv.live, fun e he => ?_, fun c hc => ?_⟩,
      Function.update_self ..⟩
    · by_cases hvm : vm' = vm
      · subst hvm
        obtain rfl : ctx = x := by simpa using hx
        have := g.ctxNum_le
        exact ⟨by omega, Function.update_self .., Function.update_self ..⟩
      · obtain ⟨hlt', hused, hbank⟩ :=
          inv.bank vm' x ((Function.update_of_ne hvm ..).symm.trans hx)
        have hne : x ≠ ctx := by
          rintro rfl
          cases hused.symm.trans hfree
        exact ⟨hlt', (Function.update_of_ne hne ..).trans hused,
          (Function.update_of_ne hne ..).trans hbank⟩
    · obtain ⟨c, hc, hctx, hid, hmask⟩ := inv.origin e he
      exact ⟨c, hc, hkeep _ _ hctx, hid, hmask⟩
    · obtain ⟨e, he, hctx, hcov⟩ := inv.covered c hc
      exact ⟨e, he, hkeep _ _ hctx, hcov⟩

theorem addStream_cases (h : addStream g globalMask s c = some t) :
    ∃ ctx u included bitmap, iommuVmArchInitCtx g s c.vm = some (some ctx, u) ∧
      compatibleLoop u (prepMask globalMask c) (prepId c) ctx (c.mask ≠ 0) g.smeNum 0 u.smeBitmap =
        some (included, bitmap) ∧
      (included = true ∧ t = { u with smeBitmap := bitmap } ∨
        ∃ sme grp, bitmap sme = false ∧ t = { u with
          smr := Function.update u.smr sme
            ⟨true, (prepId c).setWidth 15, (prepMask globalMask c).setWidth 15⟩
          smeBitmap := Function.update bitmap sme true
          grpBitmap := grp
          s2cr := Function.update u.s2cr sme (ctx % 256) }) := by
  obtain ⟨⟨code, v⟩, hadd, hcode⟩ := Option.bind_eq_some_iff.mp h
  obtain ⟨rfl, rfl⟩ : code = 0 ∧ v = t := by
    simpa using hcode
  obtain ⟨⟨bank, u⟩, hinit, hadd⟩ := Option.bind_eq_some_iff.mp hadd
  cases bank with
  | none => cases hadd
  | some ctx =>
    obtain ⟨r, hcompat, hadd⟩ := Option.bind_eq_some_iff.mp hadd
    obtain ⟨⟨included, bitmap⟩, hloop, rfl⟩ := Option.map_eq_some_iff.mp hcompat
    refine ⟨ctx, u, included, bitmap, hinit, hloop, ?_⟩
    split at hadd
    · rename_i hinc
      cases hadd
      exact .inl ⟨hinc, rfl⟩
    · split at hadd
      · cases hadd
      · rename_i sme halloc
        have hfree : bitmap sme = false := ((bitmapFindNth_spec (by decide)).mp halloc).2.2.1
        obtain ⟨v, hwrite, hv⟩ := Option.map_eq_some_iff.mp hadd
        cases hv
        simp only [smmuWriteSme, smmuWriteS2c, bitmapSet, bitmapWrite, hfree, Bool.false_eq_true,
          if_false, Option.bind_some, Function.update_self, if_true, Option.some.injEq] at hwrite
        exact .inr ⟨sme, _, hfree, hwrite.symm⟩

theorem SmmuInv.addStream (inv : SmmuInv globalMask cs s)
    (hvm : ∀ c ∈ cs, Overlap globalMask c d → c.vm = d.vm)
    (hnest : ∀ c ∈ cs, Nested globalMask c d) (h : addStream g globalMask s d = some t) :
    SmmuInv globalMask (cs ++ [d]) t := by
  obtain ⟨ctx, u, included, bitmap, hinit, hloop, ht⟩ := addStream_cases h
  obtain ⟨inv, hctx⟩ := inv.initCtx hinit
  obtain ⟨hsub, -, hincluded⟩ := compatibleLoop_spec hloop
  rcases ht with ⟨hinc, rfl⟩ | ⟨sme, grp, hfree, rfl⟩
  · obtain ⟨w, hw, hmeets, hsmaller⟩ := hincluded hinc
    obtain ⟨hctxw, -, hcovw⟩ := inv.meets hvm hnest (hsub w hw) hmeets
    refine ⟨inv.bank, fun e he => inv.live e (hsub e he), fun e he => ?_, fun c hc => ?_⟩
    · obtain ⟨c, hc, hrest⟩ := inv.origin e he
      exact ⟨c, List.mem_append_left _ hc, hrest⟩
    · rcases inv.kept hvm hnest hloop hc with hkept | ⟨hcd, hcov⟩
      · exact hkept
      · exact ⟨w, hw, hcd ▸ hctxw, fun x hx => hcovw hsmaller x (hcov x hx)⟩
  · have hmod : ctx % 256 = ctx := Nat.mod_eq_of_lt (inv.bank _ _ hctx).1
    rw [hmod]
    refine ⟨inv.bank, fun e he => ?_, fun e he => ?_, fun c hc => ?_⟩
    · by_cases hsme : e = sme
      · simp only [hsme, Function.update_self]
      · simp only [Function.update_of_ne hsme] at he ⊢
        exact inv.live e (hsub e he)
    · by_cases hsme : e = sme
      · subst hsme
        refine ⟨d, by simp, ?_⟩
        simp only [Function.update_self]
        exact ⟨hctx, trivial, trivial⟩
      · simp only [Function.update_of_ne hsme] at he ⊢
        obtain ⟨c, hc, hrest⟩ := inv.origin e he
        exact ⟨c, List.mem_append_left _ hc, hrest⟩
    · rcases inv.kept hvm hnest hloop hc with ⟨e, he, hrest⟩ | ⟨hcd, hcov⟩
      · have hsme : e ≠ sme := by
          rintro rfl
          cases he.symm.trans hfree
        refine ⟨e, ?_⟩
        simp only [Function.update_of_ne hsme]
        exact ⟨he, hrest⟩
      · refine ⟨sme, ?_⟩
        simp only [Function.update_self]
        exact ⟨trivial, hcd ▸ hctx, hcov⟩

theorem smmuInv_of_run (hvm : ∀ c ∈ cs, ∀ d ∈ cs, Overlap globalMask c d → c.vm = d.vm)
    (hnest : cs.Pairwise (Nested globalMask)) (h : run (addStream g globalMask) {} cs = some s) :
    SmmuInv globalMask cs s := by
  induction cs using List.reverseRecOn generalizing s with
  | nil =>
    cases h
    exact .initial
  | append_singleton cs d ih =>
    obtain ⟨u, hu, hd⟩ := run_append.mp h
    obtain ⟨v, hv, hs⟩ := run_cons.mp hd
    cases hs
    rw [List.pairwise_append] at hnest
    have inv := ih (fun c hc d hd => hvm c (List.mem_append_left _ hc) d
      (List.mem_append_left _ hd)) hnest.1 hu
    exact inv.addStream (fun c hc => hvm c (List.mem_append_left _ hc) d (by simp))
      (fun c hc => hnest.2.2 c hc d (by simp)) hv

end Merging

/-- Claims that are nested where they overlap are kept apart exactly when those that overlap belong
to one VM: a claim of a group may take the streams of another VM's devices. -/
theorem iommuVmArchAdd_separated_iff {V : Type*} [DecidableEq V] (g : SmmuConfig)
    (globalMask : V → BitVec 16) (cs : List (StreamClaim V)) (s : Smmu V)
    (h : run (addStream g globalMask) {} cs = some s) (hnest : cs.Pairwise (Nested globalMask)) :
    Separated globalMask cs s ↔ ∀ c ∈ cs, ∀ d ∈ cs, Overlap globalMask c d → c.vm = d.vm := by
  constructor
  · rintro hsep c hc d hd ⟨x, hx, hx'⟩
    obtain ⟨⟨e, he⟩, hall⟩ := hsep c hc x hx
    exact Option.some.inj ((hall e he).2.symm.trans ((hsep d hd x hx').2 e he).2)
  · intro hvm
    exact (smmuInv_of_run hvm hnest h).separated hvm

def fourEntries : SmmuConfig := ⟨4, 2, by decide, by decide⟩

/-- A device and a group around it of one VM, and a device of another one. -/
def groupOverOwn : List (StreamClaim (Fin 2)) := [⟨0, 0, 0x10⟩, ⟨1, 0, 0x200⟩, ⟨0, 0xff, 0⟩]

theorem iommuVmArchAdd_separated_groupOverOwn : ∃ s,
    run (addStream fourEntries fun _ => 0) {} groupOverOwn = some s ∧
      Separated (fun _ => 0) groupOverOwn s := by
  refine exists_some_of (P := fun _ => True) (by decide +kernel) fun s hs _ =>
    (iommuVmArchAdd_separated_iff _ _ _ s hs ?_).mpr ?_
  · decide
  · decide

/-- A device of VM 0, and then a group of VM 1 that covers it. -/
def groupOverOther : List (StreamClaim (Fin 2)) := [⟨0, 0, 0x10⟩, ⟨1, 0xff, 0⟩]

/-- The group takes the entry of the device, whose stream then goes through the page table of the
other VM. -/
theorem iommuVmArchAdd_groupOverOther : ∃ s,
    run (addStream fourEntries fun _ => 0) {} groupOverOther = some s ∧
      (s.smr 0).Matches 0x10 ∧ s.cntxt (s.s2cr 0) = some 1 ∧
      ¬ Separated (fun _ => 0) groupOverOther s := by
  refine exists_some_of (P := fun s => s.smr 0 = ⟨true, 0, 0xff⟩ ∧ s.cntxt (s.s2cr 0) = some 1)
    (by decide +kernel) fun s _ h => ?_
  have hmatch : (s.smr 0).Matches 0x10 := by
    rw [h.1]
    exact ⟨rfl, by decide⟩
  refine ⟨hmatch, h.2, fun hsep => ?_⟩
  have hbank := ((hsep ⟨0, 0, 0x10⟩ (by decide) 0x10 (by decide)).2 0 hmatch).2
  cases h.2.symm.trans hbank

/-- Two claims of one VM that overlap and neither covers the other. -/
def crossing : List (StreamClaim (Fin 2)) := [⟨0, 2, 1⟩, ⟨0, 1, 2⟩]

-- The second claim is taken for included in the first, and its stream 2 has no entry.
example : ∃ s, run (addStream fourEntries fun _ => 0) {} crossing = some s ∧
    ¬ Separated (fun _ => 0) crossing s := by
  have hend : (run (addStream fourEntries fun _ => 0) {} crossing).map (·.smr) =
      some (Function.update (fun _ => {}) 0 ⟨true, 1, 2⟩) := by rfl
  obtain ⟨s, hs, hsmr⟩ := Option.map_eq_some_iff.mp hend
  refine ⟨s, hs, fun hsep => ?_⟩
  obtain ⟨⟨e, hvalid, hmatch⟩, -⟩ := hsep ⟨0, 1, 2⟩ (by decide) 2 (by decide)
  rw [hsmr] at hvalid hmatch
  by_cases he : e = 0
  · rw [he, Function.update_self] at hmatch
    exact absurd hmatch (by decide)
  · rw [Function.update_of_ne he] at hvalid
    cases hvalid

end Bao.Armv8
