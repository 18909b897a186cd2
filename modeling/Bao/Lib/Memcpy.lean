import Mathlib.Logic.Function.Basic
import Bao.Foundation.Loop
import Bao.Lib.Util

/-!
# `memcpy`

`memcpy` copies words while source and destination are aligned and a whole word is left, and bytes
otherwise. Its index is an `int32_t` that it compares with the `uint32_t` count, with `count - 1`,
which wraps for an empty copy, and with a 64-bit sum. Index and count are therefore bit vectors
here, and addresses are 64-bit numbers. For every count below `2 ^ 31` both paths are the same
function, `copyBytes`.
-/

namespace Bao.Memcpy

open Foundation

abbrev ByteMemory := Nat → BitVec 8

def wordSize : Nat := 8

/-- The first `n` bytes of the word at `a`, with the lowest byte first. -/
def loadBytes (m : ByteMemory) (a : Nat) : (n : Nat) → BitVec 64
  | 0 => 0#64
  | n + 1 => loadBytes m a n ||| (m (a + n)).setWidth 64 <<< (8 * n)

def loadWord (m : ByteMemory) (a : Nat) : BitVec 64 := loadBytes m a wordSize

def storeWord (m : ByteMemory) (a : Nat) (w : BitVec 64) : ByteMemory :=
  fun x => if a ≤ x ∧ x < a + wordSize then w.extractLsb' (8 * (x - a)) 8 else m x

/-- The local variables of `memcpy`, the memory, and the addresses of the bytes that were read. -/
structure State where
  i : BitVec 32 := 0#32
  dstTmp : Nat
  srcTmp : Nat
  mem : ByteMemory
  reads : List Nat := []

/-- A round of the loop over words. `i + (WORD_SIZE - 1)` is a 64-bit sum, `count - 1` a 32-bit
difference. -/
def wordRound (count : BitVec 32) (s : State) : Round State State :=
  if s.i < count then
    if (count - 1).setWidth 64 < s.i.signExtend 64 + BitVec.ofNat 64 (wordSize - 1) then .exit s
    else .again {
      i := (s.i.signExtend 64 + BitVec.ofNat 64 wordSize).setWidth 32
      dstTmp := u64 (s.dstTmp + wordSize)
      srcTmp := u64 (s.srcTmp + wordSize)
      mem := storeWord s.mem s.dstTmp (loadWord s.mem s.srcTmp)
      reads := s.reads ++ List.range' s.srcTmp wordSize }
  else .exit s

/-- A round of the loop over the bytes behind the last word. -/
def tailRound (count : BitVec 32) (s : State) : Round State State :=
  if s.i < count then
    .again {
      i := s.i + 1
      dstTmp := u64 (s.dstTmp + 1)
      srcTmp := u64 (s.srcTmp + 1)
      mem := Function.update s.mem s.dstTmp (s.mem s.srcTmp)
      reads := s.reads ++ [s.srcTmp] }
  else .exit s

/-- A round of the loop for buffers that are not aligned. -/
def byteRound (count : BitVec 32) (s : State) : Round State State :=
  if s.i < count then
    let dst := u64 (s.dstTmp + (s.i.signExtend 64).toNat)
    let src := u64 (s.srcTmp + (s.i.signExtend 64).toNat)
    .again { s with
      i := s.i + 1
      mem := Function.update s.mem dst (s.mem src)
      reads := s.reads ++ [src] }
  else .exit s

/-- `memcpy` returns with the memory and the reads of `s`. -/
def Returns (m : ByteMemory) (dst src : Nat) (count : BitVec 32) (s : State) : Prop :=
  let init : State := { dstTmp := dst, srcTmp := src, mem := m }
  if src &&& (wordSize - 1) = 0 ∧ dst &&& (wordSize - 1) = 0 then
    ∃ t, Ends (wordRound count) init t ∧
      if t.i ≤ count - 1 then Ends (tailRound count) t s else s = t
  else Ends (byteRound count) init s

/-! ## Words and bytes -/

theorem getLsbD_loadBytes (m : ByteMemory) (a : Nat) {n : Nat} (hn : n ≤ wordSize) (b : Nat) :
    (loadBytes m a n).getLsbD b =
      (decide (b < 8 * n) && (m (a + b / 8)).getLsbD (b % 8)) := by
  induction n with
  | zero => simp [loadBytes]
  | succ n ih =>
    simp only [wordSize] at hn ih
    rw [loadBytes, BitVec.getLsbD_or, ih (by omega), BitVec.getLsbD_shiftLeft,
      BitVec.getLsbD_setWidth]
    obtain hlow | ⟨hin, hhigh⟩ | hout :
        b < 8 * n ∨ (8 * n ≤ b ∧ b < 8 * (n + 1)) ∨ 8 * (n + 1) ≤ b := by omega
    · have hnext : b < 8 * (n + 1) := by omega
      simp [hlow, hnext]
    · have hdiv : b / 8 = n := by omega
      have hmod : b % 8 = b - 8 * n := by omega
      have hword : b < 64 := by omega
      have hword' : b - 8 * n < 64 := by omega
      have hge : ¬b < 8 * n := by omega
      simp [hge, hhigh, hdiv, hmod, hword, hword']
    · have hge : ¬b < 8 * n := by omega
      have hge' : ¬b < 8 * (n + 1) := by omega
      rw [BitVec.getLsbD_of_ge (m (a + n)) _ (by omega)]
      simp [hge, hge']

theorem extractLsb'_loadWord (m : ByteMemory) (a : Nat) {k : Nat} (hk : k < wordSize) :
    (loadWord m a).extractLsb' (8 * k) 8 = m (a + k) := by
  apply BitVec.eq_of_getLsbD_eq
  intro b hb
  have hin : 8 * k + b < 8 * wordSize := by
    simp only [wordSize] at hk ⊢
    omega
  have hdiv : (8 * k + b) / 8 = k := by omega
  have hmod : (8 * k + b) % 8 = b := by omega
  rw [BitVec.getLsbD_extractLsb', loadWord, getLsbD_loadBytes m a le_rfl, hdiv, hmod]
  simp [hb, hin]

/-! ## The copy -/

/-- The copy of `n` bytes. -/
def copyBytes (m : ByteMemory) (dst src n : Nat) : ByteMemory :=
  fun a => if dst ≤ a ∧ a < dst + n then m (src + (a - dst)) else m a

variable {m : ByteMemory} {dst src n k : Nat}

theorem copyBytes_src (hdisj : dst + n ≤ src + k ∨ src + k < dst) :
    copyBytes m dst src n (src + k) = m (src + k) :=
  if_neg (by omega)

theorem copyBytes_succ (hdisj : dst + n ≤ src + n ∨ src + n < dst) :
    Function.update (copyBytes m dst src n) (dst + n) (copyBytes m dst src n (src + n)) =
      copyBytes m dst src (n + 1) := by
  funext a
  rw [copyBytes_src hdisj, Function.update_apply, copyBytes, copyBytes]
  by_cases ha : a = dst + n
  · subst ha
    simp
  · have hiff : dst ≤ a ∧ a < dst + n ↔ dst ≤ a ∧ a < dst + (n + 1) := by omega
    simp [ha, hiff]

theorem copyBytes_word (hdisj : dst + n + wordSize ≤ src + n ∨ src + n + wordSize ≤ dst) :
    storeWord (copyBytes m dst src n) (dst + n) (loadWord (copyBytes m dst src n) (src + n)) =
      copyBytes m dst src (n + wordSize) := by
  funext a
  rw [storeWord]
  by_cases ha : dst + n ≤ a ∧ a < dst + n + wordSize
  · rw [if_pos ha, extractLsb'_loadWord _ _ (by omega), Nat.add_assoc, copyBytes_src (by omega),
      copyBytes, if_pos (by omega)]
    congr 1
    omega
  · rw [if_neg ha, copyBytes, copyBytes]
    have hiff : dst ≤ a ∧ a < dst + n ↔ dst ≤ a ∧ a < dst + (n + wordSize) := by omega
    simp [hiff]

/-! ## The loops -/

/-- Two buffers of `count` bytes that do not overlap, for a count below `2 ^ 31`. -/
structure Buffers (dst src : Nat) (count : BitVec 32) : Prop where
  count_lt : count.toNat < 2 ^ 31
  dst_lt : dst < 2 ^ 64
  src_lt : src < 2 ^ 64
  dst_le : dst + count.toNat ≤ 2 ^ 64
  src_le : src + count.toNat ≤ 2 ^ 64
  disjoint : dst + count.toNat ≤ src ∨ src + count.toNat ≤ dst

/-- The first bytes, as many as the index says, have been copied. -/
structure Copied (m : ByteMemory) (dst src : Nat) (count : BitVec 32) (s : State) : Prop where
  le : s.i.toNat ≤ count.toNat
  mem : s.mem = copyBytes m dst src s.i.toNat
  reads : ∀ a ∈ s.reads, src ≤ a ∧ a < src + s.i.toNat

/-- In the aligned case the pointers move with the index. -/
structure Moved (m : ByteMemory) (dst src : Nat) (count : BitVec 32) (s : State) : Prop extends
    Copied m dst src count s where
  dstTmp : s.dstTmp = u64 (dst + s.i.toNat)
  srcTmp : s.srcTmp = u64 (src + s.i.toNat)

/-- In the other case they stay, and the index is added. -/
structure Indexed (m : ByteMemory) (dst src : Nat) (count : BitVec 32) (s : State) : Prop extends
    Copied m dst src count s where
  dstTmp : s.dstTmp = dst
  srcTmp : s.srcTmp = src

variable {count i : BitVec 32} {s t : State}

theorem toNat_signExtend (h : i.toNat < 2 ^ 31) : (i.signExtend 64).toNat = i.toNat := by
  have hmsb : i.msb = false := by
    rw [BitVec.msb_eq_decide]
    simp
    omega
  rw [BitVec.signExtend_eq_setWidth_of_msb_false hmsb, BitVec.toNat_setWidth]
  omega

theorem toNat_add_one (h : i.toNat < 2 ^ 31) : (i + 1).toNat = i.toNat + 1 := by
  rw [BitVec.toNat_add]
  simp
  omega

theorem toNat_sub_one (h : 0 < count.toNat) : (count - 1).toNat = count.toNat - 1 := by
  rw [BitVec.toNat_sub]
  simp
  omega

theorem lt_word_iff (hlt : count.toNat < 2 ^ 31) (hi : i.toNat < count.toNat) :
    (count - 1).setWidth 64 < i.signExtend 64 + BitVec.ofNat 64 (wordSize - 1) ↔
      count.toNat < i.toNat + wordSize := by
  have hsum : (i.signExtend 64 + BitVec.ofNat 64 (wordSize - 1)).toNat = i.toNat + 7 := by
    rw [BitVec.toNat_add, toNat_signExtend (by omega)]
    simp [wordSize]
    omega
  have hlast : ((count - 1).setWidth 64).toNat = count.toNat - 1 := by
    rw [BitVec.toNat_setWidth, toNat_sub_one (by omega)]
    omega
  rw [BitVec.lt_def, hsum, hlast]
  simp only [wordSize]
  omega

theorem toNat_add_word (h : i.toNat < 2 ^ 31) :
    ((i.signExtend 64 + BitVec.ofNat 64 wordSize).setWidth 32).toNat = i.toNat + wordSize := by
  rw [BitVec.toNat_setWidth, BitVec.toNat_add, toNat_signExtend h]
  simp [wordSize]
  omega

section

variable (hb : Buffers dst src count)

include hb

theorem Moved.dstTmp_eq (h : Moved m dst src count s) (hi : s.i.toNat < count.toNat) :
    s.dstTmp = dst + s.i.toNat := by
  have hdst := hb.dst_le
  rw [h.dstTmp, u64_of_lt (by omega)]

theorem Moved.srcTmp_eq (h : Moved m dst src count s) (hi : s.i.toNat < count.toNat) :
    s.srcTmp = src + s.i.toNat := by
  have hsrc := hb.src_le
  rw [h.srcTmp, u64_of_lt (by omega)]

theorem Copied.byte (h : Copied m dst src count s) (hi : s.i.toNat < count.toNat)
    (hnext : t.i.toNat = s.i.toNat + 1)
    (hmem : t.mem = Function.update s.mem (dst + s.i.toNat) (s.mem (src + s.i.toNat)))
    (hreads : t.reads = s.reads ++ [src + s.i.toNat]) : Copied m dst src count t := by
  have hdisj := hb.disjoint
  refine ⟨by omega, ?_, ?_⟩
  · rw [hmem, h.mem, copyBytes_succ (by omega), hnext]
  · intro a ha
    rw [hreads, List.mem_append, List.mem_singleton] at ha
    rcases ha with ha | rfl
    · have := h.reads a ha
      omega
    · omega

theorem Copied.word (h : Copied m dst src count s) (hi : s.i.toNat + wordSize ≤ count.toNat)
    (hnext : t.i.toNat = s.i.toNat + wordSize)
    (hmem : t.mem = storeWord s.mem (dst + s.i.toNat) (loadWord s.mem (src + s.i.toNat)))
    (hreads : t.reads = s.reads ++ List.range' (src + s.i.toNat) wordSize) :
    Copied m dst src count t := by
  have hdisj := hb.disjoint
  refine ⟨by omega, ?_, ?_⟩
  · rw [hmem, h.mem, copyBytes_word (by omega), hnext]
  · intro a ha
    rw [hreads, List.mem_append, List.mem_range'_1] at ha
    rcases ha with ha | ha
    · have := h.reads a ha
      omega
    · omega

theorem Moved.exists_ends_word (h : Moved m dst src count s) :
    ∃ t, Ends (wordRound count) s t ∧ Moved m dst src count t := by
  refine exists_ends (I := Moved m dst src count) (fun s => count.toNat - s.i.toNat) ?_ h
  intro s h
  have hlt := hb.count_lt
  unfold wordRound
  split
  · rename_i hi
    rw [BitVec.lt_def] at hi
    split
    · exact .inl ⟨s, rfl, h⟩
    · rename_i hword
      rw [lt_word_iff hlt hi] at hword
      have hnext := toNat_add_word (i := s.i) (by omega)
      have hdstTmp := h.dstTmp_eq hb hi
      have hsrcTmp := h.srcTmp_eq hb hi
      refine .inr ⟨_, rfl, ⟨h.toCopied.word hb (by omega) hnext ?_ ?_, ?_, ?_⟩, ?_⟩
      · rw [hdstTmp, hsrcTmp]
      · rw [hsrcTmp]
      · rw [hdstTmp, hnext, Nat.add_assoc]
      · rw [hsrcTmp, hnext, Nat.add_assoc]
      · rw [hnext]
        simp only [wordSize]
        omega
  · exact .inl ⟨s, rfl, h⟩

theorem Moved.exists_ends_tail (h : Moved m dst src count s) :
    ∃ t, Ends (tailRound count) s t ∧ Copied m dst src count t ∧ t.i.toNat = count.toNat := by
  refine exists_ends (I := Moved m dst src count) (fun s => count.toNat - s.i.toNat) ?_ h
  intro s h
  have hlt := hb.count_lt
  have hle := h.le
  unfold tailRound
  split
  · rename_i hi
    rw [BitVec.lt_def] at hi
    have hnext := toNat_add_one (i := s.i) (by omega)
    have hdstTmp := h.dstTmp_eq hb hi
    have hsrcTmp := h.srcTmp_eq hb hi
    refine .inr ⟨_, rfl, ⟨h.toCopied.byte hb hi hnext ?_ ?_, ?_, ?_⟩, ?_⟩
    · rw [hdstTmp, hsrcTmp]
    · rw [hsrcTmp]
    · rw [hdstTmp, hnext, Nat.add_assoc]
    · rw [hsrcTmp, hnext, Nat.add_assoc]
    · rw [hnext]
      omega
  · rename_i hi
    rw [BitVec.lt_def] at hi
    exact .inl ⟨s, rfl, h.toCopied, by omega⟩

theorem Indexed.exists_ends_byte (h : Indexed m dst src count s) :
    ∃ t, Ends (byteRound count) s t ∧ Copied m dst src count t ∧ t.i.toNat = count.toNat := by
  refine exists_ends (I := Indexed m dst src count) (fun s => count.toNat - s.i.toNat) ?_ h
  intro s h
  have hlt := hb.count_lt
  have hle := h.le
  unfold byteRound
  split
  · rename_i hi
    rw [BitVec.lt_def] at hi
    have hnext := toNat_add_one (i := s.i) (by omega)
    have hdst := hb.dst_le
    have hsrc := hb.src_le
    have hindex := toNat_signExtend (i := s.i) (by omega)
    have hdstAt : u64 (s.dstTmp + (s.i.signExtend 64).toNat) = dst + s.i.toNat := by
      rw [hindex, h.dstTmp, u64_of_lt (by omega)]
    have hsrcAt : u64 (s.srcTmp + (s.i.signExtend 64).toNat) = src + s.i.toNat := by
      rw [hindex, h.srcTmp, u64_of_lt (by omega)]
    refine .inr ⟨_, rfl, ⟨h.toCopied.byte hb hi hnext ?_ ?_, h.dstTmp, h.srcTmp⟩, ?_⟩
    · rw [hdstAt, hsrcAt]
    · rw [hsrcAt]
    · rw [hnext]
      omega
  · rename_i hi
    rw [BitVec.lt_def] at hi
    exact .inl ⟨s, rfl, h.toCopied, by omega⟩

end

theorem exists_returns (m : ByteMemory) (hb : Buffers dst src count) :
    ∃ s, Returns m dst src count s ∧ Copied m dst src count s ∧ s.i.toNat = count.toNat := by
  have hcopied : Copied m dst src count { dstTmp := dst, srcTmp := src, mem := m } := by
    refine ⟨by simp, ?_, by simp⟩
    funext a
    simp [copyBytes]
  unfold Returns
  dsimp only
  split
  · have hmoved : Moved m dst src count { dstTmp := dst, srcTmp := src, mem := m } :=
      ⟨hcopied, (u64_of_lt hb.dst_lt).symm, (u64_of_lt hb.src_lt).symm⟩
    obtain ⟨t, hends, ht⟩ := hmoved.exists_ends_word hb
    by_cases htail : t.i ≤ count - 1
    · obtain ⟨s, htends, hs⟩ := ht.exists_ends_tail hb
      exact ⟨s, ⟨t, hends, by rwa [if_pos htail]⟩, hs⟩
    · -- nothing is left; for an empty copy `count - 1` is the largest number
      refine ⟨t, ⟨t, hends, by rw [if_neg htail]⟩, ht.toCopied, le_antisymm ht.le ?_⟩
      rw [BitVec.le_def] at htail
      by_cases hzero : count.toNat = 0
      · omega
      · rw [toNat_sub_one (by omega)] at htail
        omega
  · exact Indexed.exists_ends_byte hb ⟨hcopied, rfl, rfl⟩

theorem Returns.unique {s : State} (h : Returns m dst src count s)
    (h' : Returns m dst src count t) : s = t := by
  unfold Returns at h h'
  dsimp only at h h'
  split at h
  · rename_i haligned
    rw [if_pos haligned] at h'
    obtain ⟨x, hx, hs⟩ := h
    obtain ⟨y, hy, ht⟩ := h'
    obtain rfl := hx.unique hy
    split at hs
    · rename_i htail
      rw [if_pos htail] at ht
      exact ht.unique hs
    · rename_i htail
      rw [if_neg htail] at ht
      exact hs.trans ht.symm
  · rename_i haligned
    rw [if_neg haligned] at h'
    exact h'.unique h

/-- For every count below `2 ^ 31` and buffers that do not overlap, whatever their alignment,
`memcpy` returns and has then copied the source, written nothing else and read only the source. -/
theorem memcpy_copies (m : ByteMemory) (hb : Buffers dst src count) :
    (∃ s, Returns m dst src count s) ∧ ∀ s, Returns m dst src count s →
      (∀ k < count.toNat, s.mem (dst + k) = m (src + k)) ∧
      (∀ a, a < dst ∨ dst + count.toNat ≤ a → s.mem a = m a) ∧
      ∀ a ∈ s.reads, src ≤ a ∧ a < src + count.toNat := by
  obtain ⟨t, ht, hcopied, hcount⟩ := exists_returns m hb
  refine ⟨⟨t, ht⟩, fun s hs => ?_⟩
  obtain rfl := ht.unique hs
  have hmem := hcopied.mem
  have hreads := hcopied.reads
  rw [hcount] at hmem hreads
  refine ⟨fun k hk => ?_, fun a ha => ?_, hreads⟩
  · rw [hmem, copyBytes, if_pos (by omega), Nat.add_sub_cancel_left]
  · rw [hmem, copyBytes, if_neg (by omega)]

/-- Eleven bytes between aligned buffers are copied as a word and three bytes. -/
theorem memcpy_copies_eleven : Buffers 0x1000 0x2000 11#32 ∧
    ∃ s, Returns (BitVec.ofNat 8) 0x1000 0x2000 11#32 s ∧ s.mem 0x100a = 0x0a#8 := by
  have hb : Buffers 0x1000 0x2000 11#32 :=
    ⟨by decide, by decide, by decide, by decide, by decide, by decide⟩
  obtain ⟨⟨s, hs⟩, hspec⟩ := memcpy_copies (BitVec.ofNat 8) hb
  exact ⟨hb, s, hs, (hspec s hs).1 10 (by decide)⟩

end Bao.Memcpy
