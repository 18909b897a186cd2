import Bao.Core.PagePoolClr
import Bao.Riscv.IdentityMap

/-!
# Address spaces

The functions of `core/mem.c` on address spaces. They allocate pages from the pools and write
page-table entries into physical memory: tables come from pages of the colours of the address space,
superpages are split, and pages that have colours are mapped one by one. An execution that does not
come back gives an error that says why.

The loops that only end because they make progress take the number of rounds as an argument.
-/

namespace Bao

/-- `enum AS_TYPE`. -/
inductive AsType where
  | hyp
  | vm
  | hypCpy
  deriving DecidableEq, Repr

/-- `section_t`; the lock is the atomicity of the operations. -/
structure Section where
  beg : Nat
  stop : Nat
  deriving DecidableEq, Repr

/-- `addr_space_t` with the sections of its type. -/
structure AddrSpace where
  pt : PageTable
  secs : List Section
  type : AsType
  colors : Nat

def vmSecs : List Section := [⟨0, 2 ^ 64 - 1⟩]

/-- Why an execution does not come back. -/
inductive MemError where
  /-- There were no pages for a table, or the search for them did not return. What follows in the
  first case, when `mem_alloc_pt` returns the null pointer, is left out: `mem_alloc_vpage` reports
  an `ERROR`, `mem_map` follows the pointer or asks again and again, and `mem_expand_pte` leaves the
  entry without a table or follows the pointer. -/
  | noTable
  /-- `ERROR` for another reason. -/
  | error
  /-- The null pointer is dereferenced. -/
  | null
  /-- A level that the page table does not have. -/
  | level
  /-- The number of rounds of a loop is used up. -/
  | rounds
  deriving DecidableEq, Repr

/-- The pools and the physical memory. `hyp` is history: the pages marked for the hypervisor. -/
structure MemState where
  pools : PoolMem
  mem : PhysMem
  hyp : List Ppages

namespace MemState

/-- `mem_alloc_ppages` on the page pool list. -/
def allocPpages (s : MemState) (n : Nat) (aligned : Bool) : Ppages × MemState :=
  let r := memAllocPpages s.pools.bits n aligned s.pools.pools
  (r.1, { s with pools := r.2 })

/-- The same for pages that the hypervisor keeps for itself. -/
def allocHyp (s : MemState) (n : Nat) (aligned : Bool) : Ppages × MemState :=
  let r := s.allocPpages n aligned
  (r.1, if r.1.size = 0 then r.2 else { r.2 with hyp := r.1 :: r.2.hyp })

def write (s : MemState) (a : Nat) (w : Word) : MemState :=
  { s with mem := Function.update s.mem a w }

theorem write_self (s : MemState) (a : Nat) (w : Word) : (s.write a w).mem a = w := by
  simp [write]

theorem write_of_ne (s : MemState) {a b : Nat} (h : b ≠ a) (w : Word) :
    (s.write a w).mem b = s.mem b := by
  simp [write, h]

/-- `memset` to 0. -/
def clear (s : MemState) (a len : Nat) : MemState :=
  { s with mem := fun b => if a ≤ b ∧ b < a + len then 0 else s.mem b }

/-- `memcpy`. -/
def copy (s : MemState) (dst src len : Nat) : MemState :=
  { s with mem := fun b => if dst ≤ b ∧ b < dst + len then s.mem (src + (b - dst)) else s.mem b }

end MemState

def pageOf (a : Nat) : Nat := a / pageSize * pageSize

/-- `mem_find_sec`, which gives the index of a section here. -/
def memFindSec (as : AddrSpace) (va : Nat) : Option Nat :=
  as.secs.findIdx? fun sec => sec.beg ≤ va && va ≤ sec.stop

def pteAllocable (as : AddrSpace) (pte : Word) (lvl left addr : Nat) : Bool :=
  lvl = as.pt.dscr.lvls - 1 ||
    (ptLvlTerminal as.pt lvl && !pteValid pte && ptLvlsize as.pt lvl ≤ left * pageSize &&
      addr % ptLvlsize as.pt lvl = 0)

def ptPteMappable (as : AddrSpace) (pte : Word) (lvl left vaddr paddr : Nat) : Bool :=
  !pteValid pte && ptLvlsize as.pt lvl ≤ left * pageSize && vaddr % ptLvlsize as.pt lvl = 0 &&
    paddr % ptLvlsize as.pt lvl = 0

/-! ## Tables -/

/-- The pages that `mem_alloc_pt` asks for, below an entry of level `lvl`. -/
def tableRequest (clr : Colors) (as : AddrSpace) (lvl : Nat) (m : PoolMem) :
    Option (Ppages × PoolMem) :=
  let ptsize := ptSize as.pt lvl / pageSize
  memAllocPpagesClr clr m.bits as.colors ptsize (1 < ptsize) m.pools

/-- `mem_alloc_pt`. -/
def memAllocPt (clr : Colors) (as : AddrSpace) (parent lvl addr : Nat) (s : MemState) :
    Except MemError (Nat × MemState) :=
  if as.pt.dscr.lvls ≤ lvl + 1 then .error .level
  else
    match tableRequest clr as lvl s.pools with
    | none => .error .noTable
    | some (ppage, pools) =>
      if ppage.size = 0 then .error .noTable
      else
        let s : MemState := { s with pools, hyp := ppage :: s.hyp }
        let s := s.write parent (pteSet ppage.base pteTypeTable pteHypFlags)
        match ptGet as.pt s.mem (lvl + 1) addr with
        | none => .error .null
        | some tempPt => .ok (tempPt, s.clear tempPt pageSize)

/-- The loop of `mem_expand_pte` over the entries of the new table, with `left` of them to go. -/
def expandFill (vld rsv : Bool) (type flags : Word) (lvlsz : Nat) :
    (left pte paddr : Nat) → MemState → MemState
  | 0, _, _, s => s
  | left + 1, pte, paddr, s =>
    let s := if vld then s.write pte (pteSet paddr type flags)
      else if rsv then s.write pte (pteSetRsw (s.mem pte) pteRswRsrv)
      else s
    expandFill vld rsv type flags lvlsz left (pte + 8) (paddr + lvlsz) s

def memExpandPte (clr : Colors) (as : AddrSpace) (va lvl : Nat) (s : MemState) :
    Except MemError MemState :=
  if as.pt.dscr.lvls - 1 ≤ lvl then .ok s
  else
    match ptGetPte as.pt s.mem lvl va with
    | none => .ok s
    | some pte =>
      if pteTable (s.mem pte) then .ok s
      else
        let pteVal := s.mem pte
        let rsv := pteCheckRsw pteVal pteRswRsrv
        let vld := pteValid pteVal
        match memAllocPt clr as pte lvl va s with
        | .error e => .error e
        | .ok (pte, s) =>
          if vld || rsv then
            let left := ptNentries as.pt (lvl + 1) - ptGetpteindex as.pt pte (lvl + 1)
            let flags := if as.type = .hyp then pteHypFlags else pteVmFlags
            .ok (expandFill vld rsv ptPteType flags (ptLvlsize as.pt (lvl + 1)) left pte
              (pteAddr pteVal) s)
          else .ok s

/-- The inner loop of `mem_inflate_pt`. -/
def inflateLvl (clr : Colors) (as : AddrSpace) (top lvl : Nat) :
    (rounds vaddr : Nat) → MemState → Except MemError MemState
  | 0, _, _ => .error .rounds
  | rounds + 1, vaddr, s =>
    if vaddr < top then
      match memExpandPte clr as vaddr lvl s with
      | .error e => .error e
      | .ok s => inflateLvl clr as top lvl rounds (u64 (vaddr + ptLvlsize as.pt lvl)) s
    else .ok s

def memInflatePt (clr : Colors) (as : AddrSpace) (va length rounds : Nat) (s : MemState) :
    Except MemError MemState :=
  (List.range (as.pt.dscr.lvls - 1)).foldlM
    (fun s lvl => inflateLvl clr as (u64 (va + length)) lvl rounds va s) s

/-! ## Virtual pages -/

/-- The variables of `mem_alloc_vpage` that live across its loops. -/
structure VpageScan where
  lvl : Nat := 0
  addr : Nat
  count : Nat := 0
  vpage : Nat := 0
  failed : Bool := false

/-- What a round of the inner loop of `mem_alloc_vpage` does with an entry before it looks whether
the entry is a table. -/
def vpageEntry (clr : Colors) (as : AddrSpace) (at_ n pte : Nat) (c : VpageScan)
    (s : MemState) : Except MemError (VpageScan × MemState) :=
  let w := s.mem pte
  if pteCheckRsw w pteRswRsrv || (pteValid w && !pteTable w) then
    .ok ({ c with count := 0, vpage := 0, failed := at_ ≠ 0 }, s)
  else if !pteValid w then
    if pteAllocable as w c.lvl (n - c.count) c.addr then
      .ok ({ c with
        vpage := if c.count = 0 then c.addr else c.vpage
        count := c.count + ptLvlsize as.pt c.lvl / pageSize }, s)
    else (memAllocPt clr as pte c.lvl c.addr s).map fun r => (c, r.2)
  else .ok (c, s)

/-- The inner loop of `mem_alloc_vpage`, with `left` entries of the table to go. -/
def vpageTable (clr : Colors) (as : AddrSpace) (at_ n : Nat) :
    (left pte : Nat) → VpageScan → MemState → Except MemError (VpageScan × MemState)
  | 0, _, c, s => .ok (c, s)
  | left + 1, pte, c, s =>
    if c.count < n then
      match vpageEntry clr as at_ n pte c s with
      | .error e => .error e
      | .ok (c, s) =>
        if c.failed then .ok (c, s)
        else if pteTable (s.mem pte) then .ok ({ c with lvl := c.lvl + 1 }, s)
        else
          let c := { c with addr := u64 (c.addr + ptLvlsize as.pt c.lvl) }
          if left = 0 then .ok ({ c with lvl := 0 }, s)
          else vpageTable clr as at_ n left (pte + 8) c s
    else .ok (c, s)

/-- The search loop of `mem_alloc_vpage`. -/
def vpageSearch (clr : Colors) (as : AddrSpace) (sec : Section) (at_ n : Nat) :
    (rounds : Nat) → VpageScan → MemState → Except MemError (VpageScan × MemState)
  | 0, _, _ => .error .rounds
  | rounds + 1, c, s =>
    if c.count < n ∧ !c.failed then
      if u64 (u64 (sec.stop + 1) + (2 ^ 64 - c.addr)) / pageSize < n then
        .ok ({ c with vpage := 0, failed := true }, s)
      else if as.pt.dscr.lvls ≤ c.lvl then .error .level
      else
        match ptGetPte as.pt s.mem c.lvl c.addr with
        | none => .error .null
        | some pte =>
          let left := ptNentries as.pt c.lvl - ptGetpteindex as.pt pte c.lvl
          match vpageTable clr as at_ n left pte c s with
          | .error e => .error e
          | .ok (c, s) => vpageSearch clr as sec at_ n rounds c s
    else .ok (c, s)

/-- The first level at which the entry for an address is not valid, with that entry. -/
def firstInvalid (pt : PageTable) (mem : PhysMem) (addr : Nat) :
    (left lvl : Nat) → Option (Nat × Nat)
  | 0, _ => none
  | left + 1, lvl =>
    match ptGetPte pt mem lvl addr with
    | none => none
    | some pte => if pteValid (mem pte) then firstInvalid pt mem addr left (lvl + 1)
      else some (lvl, pte)

/-- The loop of `mem_alloc_vpage` that marks entries as reserved, with at most `left` pages to
go. -/
def vpageReserve (as : AddrSpace) (n : Nat) :
    (left addr count : Nat) → MemState → Option MemState
  | 0, _, _, s => some s
  | left + 1, addr, count, s =>
    if count < n then
      match firstInvalid as.pt s.mem addr as.pt.dscr.lvls 0 with
      | none => none
      | some (lvl, pte) =>
        vpageReserve as n left (addr + ptLvlsize as.pt lvl)
          (count + ptLvlsize as.pt lvl / pageSize)
          (s.write pte (pteSetRsw (s.mem pte) pteRswRsrv))
    else some s

/-- `mem_alloc_vpage`. Its second loop, which reserves, allocates nothing. -/
def memAllocVpage (clr : Colors) (as : AddrSpace) (section_ at_ n rounds : Nat)
    (s : MemState) : Except MemError (Nat × MemState) :=
  match as.secs[section_]? with
  | none => .error .null
  | some sec =>
    if at_ ≠ 0 ∧ memFindSec as at_ ≠ some section_ then .ok (0, s)
    else
      let addr := pageOf (if at_ ≠ 0 then at_ else sec.beg)
      match vpageSearch clr as sec at_ n rounds { addr } s with
      | .error e => .error e
      | .ok (c, s) =>
        if c.vpage ≠ 0 ∧ !c.failed then
          match vpageReserve as n n c.vpage 0 s with
          | none => .error .null
          | some s => .ok (c.vpage, s)
        else .ok (c.vpage, s)

/-! ## Release of virtual pages -/

/-- The pages of a leaf entry go back to the pools. -/
def freeLeaf (clr : Colors) (freePpages : Bool) (pte n : Nat) (s : MemState) :
    Except MemError MemState :=
  if freePpages then
    match memFreePpagesClr clr ⟨pteAddr (s.mem pte), n, 0⟩ s.pools with
    | none => .error .rounds
    | some pools => .ok { s with pools }
  else .ok s

/-- The inner loop of `mem_free_vpage`, with `left` entries of the table to go: the address and the
level at its end. Behind the last entry of the root table the level is -1, which the function does
not survive when there are pages to go. -/
def freeTable (clr : Colors) (as : AddrSpace) (top : Nat) (freePpages : Bool) (lvl : Nat) :
    (left pte vaddr : Nat) → MemState → Except MemError (Nat × Nat × MemState)
  | 0, _, vaddr, s =>
    if lvl = 0 ∧ vaddr < top then .error .level else .ok (vaddr, lvl - 1, s)
  | left + 1, pte, vaddr, s =>
    let lvlsz := ptLvlsize as.pt lvl
    if vaddr < top then
      if !pteTable (s.mem pte) then
        let vpageBase := vaddr - vaddr % lvlsz
        if vaddr > vpageBase ∨ top < u64 (vpageBase + lvlsz) then
          (memExpandPte clr as vaddr lvl s).map fun s => (vaddr, lvl + 1, s)
        else
          match freeLeaf clr freePpages pte (lvlsz / pageSize) s with
          | .error e => .error e
          | .ok s => freeTable clr as top freePpages lvl left (pte + 8) (u64 (vaddr + lvlsz))
              (s.write pte 0)
      else .ok (vaddr, lvl, s)
    else .ok (vaddr, lvl, s)

/-- The outer loop of `mem_free_vpage`. -/
def freeLoop (clr : Colors) (as : AddrSpace) (top : Nat) (freePpages : Bool) :
    (rounds vaddr lvl : Nat) → MemState → Except MemError MemState
  | 0, _, _, _ => .error .rounds
  | rounds + 1, vaddr, lvl, s =>
    if vaddr < top then
      if as.pt.dscr.lvls ≤ lvl then .error .level
      else
        match ptGetPte as.pt s.mem lvl vaddr with
        | none => .error .error
        | some pte =>
          if !pteValid (s.mem pte) then
            freeLoop clr as top freePpages rounds (u64 (vaddr + ptLvlsize as.pt lvl)) lvl s
          else if pteTable (s.mem pte) then
            freeLoop clr as top freePpages rounds vaddr (lvl + 1) s
          else
            let left := ptNentries as.pt lvl - ptGetpteindex as.pt pte lvl
            match freeTable clr as top freePpages lvl left pte vaddr s with
            | .error e => .error e
            | .ok (vaddr, lvl, s) => freeLoop clr as top freePpages rounds vaddr lvl s
    else .ok s

/-- `mem_free_vpage`. -/
def memFreeVpage (clr : Colors) (as : AddrSpace) (at_ n : Nat) (freePpages : Bool)
    (rounds : Nat) (s : MemState) : Except MemError MemState :=
  match memFindSec as at_ with
  | none => .error .null
  | some _ => freeLoop clr as (u64 (at_ + n * pageSize)) freePpages rounds at_ 0 s

/-! ## Mappings -/

/-- The loop of `mem_map` for coloured pages, with `left` of them to go. -/
def mapClrLoop (clr : Colors) (as : AddrSpace) (ppages : Ppages) (flags : Word) :
    (left vaddr index : Nat) → MemState → Except MemError MemState
  | 0, _, _, s => .ok s
  | left + 1, vaddr, index, s =>
    match ptGetPte as.pt s.mem (as.pt.dscr.lvls - 1) vaddr,
        ppNextClr clr ppages.base ppages.colors index with
    | some pte, some index =>
      let paddr := ppages.base + index * pageSize
      mapClrLoop clr as ppages flags left (vaddr + pageSize) (index + 1)
        (s.write pte (pteSet paddr pteTypePage flags))
    | none, _ => .error .null
    | _, none => .error .rounds

/-- The branch of `mem_map` for coloured pages. -/
def memMapColoured (clr : Colors) (as : AddrSpace) (vaddr : Nat) (ppages : Ppages) (n : Nat)
    (flags : Word) (rounds : Nat) (s : MemState) : Except MemError MemState :=
  match memInflatePt clr as vaddr (n * pageSize) rounds s with
  | .error e => .error e
  | .ok s => mapClrLoop clr as ppages flags ppages.size vaddr 0 s

/-- The loop of `mem_map` that goes down to the level to map at: that level and the entry. -/
def memMapFind (clr : Colors) (as : AddrSpace) (left vaddr paddr : Nat) :
    (down lvl : Nat) → MemState → Except MemError (Nat × Nat × MemState)
  | 0, _, _ => .error .level
  | down + 1, lvl, s =>
    match ptGetPte as.pt s.mem lvl vaddr with
    | none => .error .null
    | some pte =>
      if ptLvlTerminal as.pt lvl then
        if ptPteMappable as (s.mem pte) lvl left vaddr paddr then .ok (lvl, pte, s)
        else if !pteValid (s.mem pte) then
          match memAllocPt clr as pte lvl vaddr s with
          | .error e => .error e
          | .ok (_, s) => memMapFind clr as left vaddr paddr down (lvl + 1) s
        else if !pteTable (s.mem pte) then .error .error
        else memMapFind clr as left vaddr paddr down (lvl + 1) s
      else memMapFind clr as left vaddr paddr down (lvl + 1) s

/-- The variables of `mem_map` that live across its loops. -/
structure MapPos where
  vaddr : Nat
  paddr : Nat
  count : Nat := 0

/-- One leaf entry, and what moves on with it. -/
def MapPos.next (c : MapPos) (paddr lvlsz : Nat) : MapPos :=
  ⟨c.vaddr + lvlsz, paddr + lvlsz, c.count + lvlsz / pageSize⟩

/-- The inner loop of `mem_map`, with `left` entries of the table to go. `given` says that the
caller passed the pages. -/
def memMapFill (clr : Colors) (as : AddrSpace) (given : Bool) (n : Nat) (flags : Word) (lvl : Nat) :
    (left pte : Nat) → MapPos → MemState → Except MemError (MapPos × MemState)
  | 0, _, c, s => .ok (c, s)
  | left + 1, pte, c, s =>
    let lvlsz := ptLvlsize as.pt lvl
    if c.count < n ∧ lvlsz / pageSize ≤ n - c.count then
      if given then
        memMapFill clr as given n flags lvl left (pte + 8) (c.next c.paddr lvlsz)
          (s.write pte (pteSet c.paddr ptPteType flags))
      else
        match memAllocPpagesClr clr s.pools.bits as.colors (lvlsz / pageSize) true
            s.pools.pools with
        | none => .error .rounds
        | some (temp, pools) =>
          let s : MemState := { s with pools }
          if temp.size < lvlsz / pageSize then
            if lvl = as.pt.dscr.lvls - 1 then .error .error
            else
              match ptGetPte as.pt s.mem lvl c.vaddr with
              | none => .error .null
              | some pte =>
                if !pteValid (s.mem pte) then
                  (memAllocPt clr as pte lvl c.vaddr s).map fun r => (c, r.2)
                else .ok (c, s)
          else
            memMapFill clr as given n flags lvl left (pte + 8) (c.next temp.base lvlsz)
              (s.write pte (pteSet temp.base ptPteType flags))
    else .ok (c, s)

/-- The outer loop of `mem_map`. -/
def memMapLoop (clr : Colors) (as : AddrSpace) (given : Bool) (n : Nat) (flags : Word) :
    (rounds : Nat) → MapPos → MemState → Except MemError MemState
  | 0, _, _ => .error .rounds
  | rounds + 1, c, s =>
    if c.count < n then
      match memMapFind clr as (n - c.count) c.vaddr (if given then c.paddr else 0)
          as.pt.dscr.lvls 0 s with
      | .error e => .error e
      | .ok (lvl, pte, s) =>
        let left := ptNentries as.pt lvl - ptGetpteindex as.pt pte lvl
        match memMapFill clr as given n flags lvl left pte c s with
        | .error e => .error e
        | .ok (c, s) => memMapLoop clr as given n flags rounds c s
    else .ok s

/-- What `mem_map` does between its checks and its return. -/
def memMapPages (clr : Colors) (as : AddrSpace) (vaddr : Nat) (ppages : Option Ppages) (n : Nat)
    (flags : Word) (rounds : Nat) (s : MemState) : Except MemError MemState :=
  match ppages with
  | some ppages =>
    if !allClrs clr ppages.colors then memMapColoured clr as vaddr ppages n flags rounds s
    else memMapLoop clr as true n flags rounds ⟨vaddr, ppages.base, 0⟩ s
  | none =>
    if !allClrs clr as.colors then
      match memAllocPpagesClr clr s.pools.bits as.colors n false s.pools.pools with
      | none => .error .rounds
      | some (temp, pools) =>
        if temp.size < n then .error .error
        else memMapColoured clr as vaddr temp n flags rounds { s with pools }
    else memMapLoop clr as false n flags rounds ⟨vaddr, 0, 0⟩ s

/-- `mem_map`; the flag is `false` for the result `-1`. -/
def memMap (clr : Colors) (as : AddrSpace) (va : Nat) (ppages : Option Ppages) (n : Nat)
    (flags : Word) (rounds : Nat) (s : MemState) : Except MemError (Bool × MemState) :=
  let vaddr := pageOf va
  let sec := memFindSec as vaddr
  if sec = none ∨
      sec ≠ memFindSec as (u64 (vaddr + n * pageSize + (2 ^ 64 - 1))) then
    .ok (false, s)
  else (memMapPages clr as vaddr ppages n flags rounds s).map fun s => (true, s)

/-! ## Setting up an address space -/

/-- `mem_alloc_page` on the address space of the cpu: the virtual page, which is 0 when there are no
pages, and the physical pages behind it. -/
def memAllocPage (clr : Colors) (cpu : AddrSpace) (n sec : Nat) (physAligned : Bool)
    (rounds : Nat) (s : MemState) : Except MemError (Nat × Ppages × MemState) :=
  match memAllocPpagesClr clr s.pools.bits cpu.colors n physAligned s.pools.pools with
  | none => .error .rounds
  | some (ppages, pools) =>
    let s : MemState := { s with pools }
    if ppages.size = n then
      match memAllocVpage clr cpu sec 0 n rounds s with
      | .error e => .error e
      | .ok (vpage, s) =>
        if vpage = 0 then .error .error
        else
          (memMap clr cpu vpage (some ppages) n pteHypFlags rounds s).map fun r =>
            (vpage, ppages, r.2)
    else .ok (0, ppages, s)

/-- `BAO_VAS_BASE`, `BAO_CPU_BASE`, `BAO_VM_BASE` and `BAO_VAS_TOP`. -/
def baoVasBase : Nat := 0xffffffc000000000
def baoCpuBase : Nat := 0xffffffc040000000
def baoVmBase : Nat := 0xffffffe000000000
def baoVasTop : Nat := 0xfffffff000000000

/-- `hyp_secs`, for an image that ends at `imageEnd` and devices that end at `dmemBeg`. -/
def hypSecs (imageEnd dmemBeg : Nat) : List Section :=
  [⟨dmemBeg, baoCpuBase - 1⟩, ⟨baoVasBase, imageEnd - 1⟩, ⟨imageEnd, dmemBeg - 1⟩,
    ⟨baoCpuBase, baoVmBase - 1⟩, ⟨baoVmBase, baoVasTop - 1⟩]

/-- `SEC_HYP_PRIVATE` and `SEC_HYP_VM`. -/
def secHypPrivate : Nat := 3
def secHypVm : Nat := 4

/-- `as_arch_init`. -/
def asArchInit (regions : List MemRegion) (as : AddrSpace) (s : MemState) : MemState :=
  if as.type = .hyp then { s with mem := asMapPhysicalIdentity as.pt regions s.mem } else s

/-- `as_init`, for a root table that is given with its physical address or allocated. `hyp` are the
sections of the hypervisor. -/
def asInit (clr : Colors) (regions : List MemRegion) (cpu : AddrSpace) (hyp : List Section)
    (type : AsType) (rootPt : Option (Nat × Nat)) (colors rounds : Nat) (s : MemState) :
    Except MemError (AddrSpace × MemState) :=
  let isHyp := type = .hyp ∨ type = .hypCpy
  let dscr := if isHyp then sv39PtDscr else sv39x4PtDscr
  let secs := if isHyp then hyp else vmSecs
  let as (root rootPa : Nat) : AddrSpace := ⟨⟨dscr, root, rootPa⟩, secs, type, colors⟩
  match rootPt with
  | some (root, rootPa) =>
    .ok (as root rootPa, asArchInit regions (as root rootPa) s)
  | none =>
    let n := ptSize ⟨dscr, 0, 0⟩ 0 / pageSize
    match memAllocPage clr cpu n (if isHyp then secHypPrivate else secHypVm) true rounds s with
    | .error e => .error e
    | .ok (root, ppages, s) =>
      if root = 0 then .error .null
      else
        let as := as root ppages.base
        .ok (as, asArchInit regions as (s.clear ppages.base (n * pageSize)))

/-! ## Memory regions of a VM -/

/-- `vm_map_mem_region`, which does not look at the result of `mem_map`. -/
def vmMapMemRegion (clr : Colors) (as : AddrSpace) (reg : MemRegion) (rounds : Nat)
    (s : MemState) : Except MemError MemState :=
  let n := numPages reg.size
  match memAllocVpage clr as 0 reg.base n rounds s with
  | .error e => .error e
  | .ok (va, s) =>
    if va ≠ reg.base then .error .error
    else
      let ppages : Option Ppages := if reg.placePhys then some ⟨reg.phys, n, 0⟩ else none
      (memMap clr as va ppages n pteVmFlags rounds s).map Prod.snd

end Bao
