import Bao.Foundation.Logged
import Bao.Foundation.Loop
import Bao.Foundation.Positional

/-!
# `printk`

`vsprintk` goes through its format and writes to a buffer of `PRINT_TEXT_LEN` bytes. The format is
a function from indices to bytes, so that it can also be read behind its end, and the buffer keeps
what is written to it at any index. Both kinds of accesses are recorded.

The directives write their characters one after the other. `Writes` says which characters these are,
and that no access goes beyond the index where the next character goes. For the decimal directives
these are the ten places of the number, or one character and nine places where the number has more
digits; they are its representation exactly when it has at most ten.
-/

namespace Bao.Printk

open Foundation

abbrev Byte := BitVec 8

/-- The byte of a character. -/
def ch (c : Char) : Byte := BitVec.ofNat 8 c.toNat

def printTextLen : Nat := 0x100

/-- An access to the format or to the buffer, at an index. -/
inductive Access where
  | fmt (i : Nat)
  | buf (i : Nat)
  deriving DecidableEq

/-- An argument: a number, of which a directive without `l` takes the lower half, or a string with
its bytes up to the terminating `'\0'`. -/
inductive Arg where
  | word (w : BitVec 64)
  | text (s : List Byte)

/-- The buffer and the index that `str` points to. -/
structure Out where
  buf : Nat → Byte
  str : Nat

/-- `*str = c`. -/
def poke (o : Out) (c : Byte) : Logged Access Out :=
  .touch (.buf o.str) { o with buf := Function.update o.buf o.str c }

/-- `*str++ = c`. -/
def put (o : Out) (c : Byte) : Logged Access Out := do
  let o ← poke o c
  pure { o with str := o.str + 1 }

def emit : (o : Out) → List Byte → Logged Access Out
  | o, [] => pure o
  | o, c :: cs => do
    let o ← put o c
    emit o cs

def emitIf (cond : Bool) (o : Out) (cs : List Byte) : Logged Access Out :=
  if cond then emit o cs else pure o

/-! ## Directives -/

/-- The loop of `%x`, with `left` digits to go. -/
def hexLoop (number length lengthInBits : Nat) (zeroPadding : Bool) :
    (left i : Nat) → (keepZeros : Bool) → Out → Logged Access Out
  | 0, _, _, o => pure o
  | left + 1, i, keepZeros, o => do
    let byte := (number >>> (lengthInBits - (i + 1) * 4)) &&& 0xF
    let keepZeros := keepZeros || (byte != 0 || i == length - 1)
    let o ← emitIf (keepZeros || zeroPadding) o
      [BitVec.ofNat 8 (if byte ≤ 9 then byte + 0x30 else byte + (0x61 - 0xa))]
    hexLoop number length lengthInBits zeroPadding left (i + 1) keepZeros o

def printHex (zeroPadding isLong : Bool) (w : BitVec 64) (o : Out) : Logged Access Out :=
  let number := if isLong then w.toNat else (w.setWidth 32).toNat
  let length := if isLong then 16 else 8
  let lengthInBits := if isLong then 64 else 32
  hexLoop number length lengthInBits zeroPadding length 0 false o

/-- The loop that takes the divisor off the number as often as possible: the number that is left,
and the quotient. -/
def quotientLoop (divisor : Nat) : (fuel number quotient : Nat) → Nat × Nat
  | 0, number, quotient => (number, quotient)
  | fuel + 1, number, quotient =>
    if divisor ≤ number then quotientLoop divisor fuel (number - divisor) (quotient + 1)
    else (number, quotient)

def maxNumZeros : Nat := 9

/-- The loop over the decimal digits, with `left` rounds to go: the number that is left, and the
buffer. The last digit is not written by it. -/
def decimalLoop (zeroPadding : Bool) :
    (left i number divisor : Nat) → (keepZeros : Bool) → Out → Logged Access (Nat × Out)
  | 0, _, number, _, _, o => pure (number, o)
  | left + 1, i, number, divisor, keepZeros, o => do
    -- the loop ends within as many rounds as the number says, since the divisor is not 0
    let divided := quotientLoop divisor number number 0
    let keepZeros := keepZeros || divided.2 != 0
    let o ← emitIf (keepZeros || zeroPadding) o [BitVec.ofNat 8 (divided.2 + 0x30)]
    let newDivVal := (· * 10)^[maxNumZeros - 1 - i] 1
    decimalLoop zeroPadding left (i + 1) divided.1 newDivVal keepZeros o

def printDigits (zeroPadding : Bool) (number : Nat) (o : Out) : Logged Access Out := do
  let r ← decimalLoop zeroPadding maxNumZeros 0 number 1000000000 false o
  put r.2 (BitVec.ofNat 8 (r.1 + 0x30))

/-- `%d`, `%i` and `%u`. -/
def printDecimal (isUnsigned zeroPadding isLong : Bool) (w : BitVec 64) (o : Out) :
    Logged Access Out :=
  if isUnsigned then
    printDigits zeroPadding (if isLong then w.toNat else (w.setWidth 32).toNat) o
  else
    let numberSigned := if isLong then w else (w.setWidth 32).signExtend 64
    if numberSigned.slt 0 then do
      let o ← put o 0x2d
      printDigits zeroPadding (-numberSigned).toNat o
    else printDigits zeroPadding numberSigned.toNat o

/-- The loop of `%s`: `len` and the buffer at its end. -/
def printString : (s : List Byte) → (len : Nat) → Out → Logged Access (Nat × Out)
  | [], len, o => do
    let o ← poke o 0
    pure (len, o)
  | c :: s, len, o => do
    let o ← poke o c
    if c ≠ 0 ∧ len < printTextLen then printString s (len + 1) { o with str := o.str + 1 }
    else pure (len, o)

/-! ## The format -/

/-- The local variables of `vsprintk`; `fmt` is the index in the format. -/
structure State where
  fmt : Nat := 0
  out : Out
  len : Nat
  args : List Arg

/-- `va_arg` for a number. Where the argument is of the other kind or missing, nothing is known. -/
def vaArgWord : List Arg → Option (BitVec 64 × List Arg)
  | .word w :: args => some (w, args)
  | _ => none

/-- `va_arg` for a string. -/
def vaArgText : List Arg → Option (List Byte × List Arg)
  | .text s :: args => some (s, args)
  | _ => none

/-- The `switch` over the character of a directive. -/
def vsprintkSwitch (c : Byte) (zeroPadding isLong : Bool) (s : State) :
    Logged Access (Option State) :=
  if c = ch 'x' then
    match vaArgWord s.args with
    | some (w, args) => do
      let out ← printHex zeroPadding isLong w s.out
      pure (some { s with out, args })
    | none => pure none
  else if c = ch 'u' ∨ c = ch 'i' ∨ c = ch 'd' then
    match vaArgWord s.args with
    | some (w, args) => do
      let out ← printDecimal (c = ch 'u') zeroPadding isLong w s.out
      pure (some { s with out, args })
    | none => pure none
  else if c = ch 's' then
    match vaArgText s.args with
    | some (text, args) => do
      let r ← printString text s.len s.out
      pure (some { s with out := r.2, len := r.1, args })
    | none => pure none
  else if c = ch 'c' then
    match vaArgWord s.args with
    | some (w, args) => do
      let out ← put s.out (w.setWidth 8)
      pure (some { s with out, args })
    | none => pure none
  else if c = ch '%' then do
    let out ← put s.out c
    pure (some { s with out })
  else if c = ch '\t' then do
    let out ← emit s.out [ch '%', c]
    pure (some { s with out })
  else if c = ch '\n' then do
    let out ← emit s.out [ch '%', ch '\r', ch '\n']
    pure (some { s with out })
  else pure (some s)

def readFmt (fmt : Nat → Byte) (i : Nat) : Logged Access Byte := .touch (.fmt i) (fmt i)

/-- What `vsprintk` does behind a `'%'`. Each flag moves `fmt` on when it is there. -/
def vsprintkPercent (fmt : Nat → Byte) (s : State) : Logged Access (Option State) := do
  let c ← readFmt fmt s.fmt
  let zeroPadding : Bool := c = ch '0'
  let i := s.fmt + zeroPadding.toNat
  let c ← readFmt fmt i
  let isLong : Bool := c = ch 'l'
  let i := i + isLong.toNat
  let c ← readFmt fmt i
  vsprintkSwitch c zeroPadding isLong { s with fmt := i }

/-- The end of the body of the loop of `vsprintk`, which looks at the format once more. -/
def vsprintkTail (fmt : Nat → Byte) (s : State) : Logged Access (Round State (Option State)) := do
  let c ← readFmt fmt s.fmt
  let out ← emitIf (c = ch '\n') s.out [ch '\r', ch '\n']
  let out ← emitIf (c = ch '\t') out [c]
  pure (.again { s with fmt := s.fmt + 1, out })

/-- A round of the loop of `vsprintk`. It is left with `none` when an argument does not match. -/
def vsprintkRound (fmt : Nat → Byte) (s : State) : Logged Access (Round State (Option State)) := do
  let c ← readFmt fmt s.fmt
  if c = 0 then pure (.exit (some s))
  else if c ≠ ch '%' ∧ c ≠ ch '\n' ∧ c ≠ ch '\t' then do
    let out ← put s.out c
    pure (.again { s with fmt := s.fmt + 1, out })
  else if c = ch '%' then do
    let next ← vsprintkPercent fmt { s with fmt := s.fmt + 1 }
    match next with
    | none => pure (.exit none)
    | some s => vsprintkTail fmt s
  else vsprintkTail fmt s

/-- The loop of `strnlen`, with at most `left` bytes to go from `i`, as far as it counts. -/
def strnlenLoop (fmt : Nat → Byte) : (left i : Nat) → Logged Access Nat
  | 0, i => do
    let _ ← readFmt fmt i
    pure i
  | left + 1, i => do
    let c ← readFmt fmt i
    if c ≠ 0 then strnlenLoop fmt left (i + 1) else pure i

/-- `strnlen` of the format from index `i` on. -/
def strnlen (fmt : Nat → Byte) (i n : Nat) : Logged Access Nat := do
  let j ← strnlenLoop fmt n i
  pure (j - i)

/-- The state of `vsprintk` before its loop. -/
def vsprintkInit (fmt : Nat → Byte) (args : List Arg) (buf : Nat → Byte) : State where
  out := { buf, str := 0 }
  len := (strnlen fmt 0 printTextLen).val
  args := args

/-- The accesses that `vsprintk` makes, whether it returns or not. -/
def Accesses (fmt : Nat → Byte) (args : List Arg) (buf : Nat → Byte) (a : Access) : Prop :=
  let round := fun s => (vsprintkRound fmt s).val
  let init := vsprintkInit fmt args buf
  a ∈ (strnlen fmt 0 printTextLen).log ∨
    (∃ s, Visits round init s ∧ a ∈ (vsprintkRound fmt s).log) ∨
    ∃ s, Ends round init (some s) ∧
      (a ∈ (poke s.out 0).log ∨ a ∈ (strnlen fmt s.fmt printTextLen).log)

/-! ## What is written -/

/-- The buffer `o'` is `o` with the characters `cs` behind it. What is at `str` and above may have
changed. -/
structure Extends (o : Out) (cs : List Byte) (o' : Out) : Prop where
  str : o'.str = o.str + cs.length
  below : ∀ a < o.str, o'.buf a = o.buf a
  text : ∀ k (h : k < cs.length), o'.buf (o.str + k) = cs[k]

theorem Extends.refl (o : Out) : Extends o [] o :=
  ⟨rfl, fun _ _ => rfl, fun k h => absurd h (Nat.not_lt_zero k)⟩

theorem Extends.trans {o o' o'' : Out} {cs ds : List Byte} (h : Extends o cs o')
    (h' : Extends o' ds o'') : Extends o (cs ++ ds) o'' := by
  have hstr := h.str
  refine ⟨?_, fun a ha => ?_, fun k hk => ?_⟩
  · rw [h'.str, h.str, List.length_append]
    omega
  · rw [h'.below a (by omega), h.below a ha]
  · by_cases hcs : k < cs.length
    · rw [h'.below _ (by omega), h.text k hcs, List.getElem_append_left hcs]
    · have hds : k - cs.length < ds.length := by
        rw [List.length_append] at hk
        omega
      rw [show o.str + k = o'.str + (k - cs.length) by omega, h'.text _ hds,
        List.getElem_append_right (by omega)]

/-- The characters between two states of the buffer. -/
def written (o o' : Out) : List Byte :=
  (List.range (o'.str - o.str)).map fun k => o'.buf (o.str + k)

theorem Extends.written_eq {o o' : Out} {cs : List Byte} (h : Extends o cs o') :
    written o o' = cs := by
  apply List.ext_getElem
  · simp [written, h.str]
  · intro k hk hk'
    simp [written, h.text k hk']

/-- An access to the buffer, at `top` at the highest. -/
def Access.UpTo (top : Nat) (a : Access) : Prop := ∃ i ≤ top, a = .buf i

/-- `x` writes the characters `cs` to `o`, and its accesses are writes up to the index of the next
character. -/
structure Writes (o : Out) (cs : List Byte) (x : Logged Access Out) : Prop where
  ext : Extends o cs x.val
  upTo : x.All (Access.UpTo x.val.str)

theorem Writes.pure (o : Out) : Writes o [] (Pure.pure o) :=
  ⟨by simpa using Extends.refl o, by simp⟩

theorem Writes.poke (o : Out) (c : Byte) : Writes o [] (Printk.poke o c) := by
  refine ⟨⟨by simp [Printk.poke], fun a ha => ?_, fun k h => absurd h (Nat.not_lt_zero k)⟩, ?_⟩
  · simp [Printk.poke, Function.update_of_ne (show a ≠ o.str by omega)]
  · simp only [Printk.poke, Logged.all_touch, Logged.val_touch]
    exact ⟨o.str, le_rfl, rfl⟩

theorem Writes.put (o : Out) (c : Byte) : Writes o [c] (Printk.put o c) := by
  refine ⟨⟨by simp [Printk.put, Printk.poke], fun a ha => ?_, fun k h => ?_⟩, ?_⟩
  · simp [Printk.put, Printk.poke, Function.update_of_ne (show a ≠ o.str by omega)]
  · obtain rfl : k = 0 := by simpa using h
    simp [Printk.put, Printk.poke]
  · simp only [Printk.put, Printk.poke, Logged.all_bind, Logged.all_touch, Logged.all_pure,
      Logged.val_bind, Logged.val_touch, Logged.val_pure, and_true]
    exact ⟨o.str, by omega, rfl⟩

theorem Access.UpTo.mono {top top' : Nat} {a : Access} (h : a.UpTo top) (hle : top ≤ top') :
    a.UpTo top' := by
  obtain ⟨i, hi, rfl⟩ := h
  exact ⟨i, hi.trans hle, rfl⟩

theorem Writes.bind {o : Out} {cs ds : List Byte} {x : Logged Access Out}
    {f : Out → Logged Access Out} (hx : Writes o cs x) (hf : Writes x.val ds (f x.val)) :
    Writes o (cs ++ ds) (x >>= f) := by
  refine ⟨?_, ?_⟩
  · rw [Logged.val_bind]
    exact hx.ext.trans hf.ext
  · rw [Logged.val_bind, Logged.all_bind]
    have hle : x.val.str ≤ (f x.val).val.str := by
      rw [hf.ext.str]
      omega
    exact ⟨fun a ha => (hx.upTo a ha).mono hle, hf.upTo⟩

theorem Writes.emit (o : Out) (cs : List Byte) : Writes o cs (Printk.emit o cs) := by
  induction cs generalizing o with
  | nil => exact Writes.pure o
  | cons c cs ih => exact (Writes.put o c).bind (ih _)

theorem Writes.emitIf (cond : Bool) (o : Out) (cs : List Byte) :
    Writes o (if cond then cs else []) (Printk.emitIf cond o cs) := by
  cases cond with
  | true => exact Writes.emit o cs
  | false => exact Writes.pure o

/-! ## Numbers -/

/-- The digits that are written. -/
def shown (zeroPadding keepZeros : Bool) (ds : List Nat) : List Nat :=
  if zeroPadding then ds else suppress keepZeros ds

theorem shown_cons (zeroPadding keepZeros : Bool) (d : Nat) (ds : List Nat) :
    shown zeroPadding keepZeros (d :: ds) =
      (if (keepZeros || (d != 0 || ds.isEmpty)) || zeroPadding then [d] else []) ++
        shown zeroPadding (keepZeros || (d != 0 || ds.isEmpty)) ds := by
  cases zeroPadding with
  | true => simp [shown]
  | false =>
    cases ds with
    | nil => simp [shown, suppress]
    | cons d' ds =>
      by_cases hkeep : (keepZeros || d != 0) = true
      · simp [shown, suppress, hkeep]
      · simp [shown, suppress, hkeep]

def hexChar (d : Nat) : Byte := BitVec.ofNat 8 (if d ≤ 9 then d + 0x30 else d + (0x61 - 0xa))

def decChar (d : Nat) : Byte := BitVec.ofNat 8 (d + 0x30)

theorem Writes.emitIf_map (cond : Bool) (o : Out) (f : Nat → Byte) (d : Nat) :
    Writes o ((if cond then [d] else []).map f) (Printk.emitIf cond o [f d]) := by
  have h := Writes.emitIf cond o [f d]
  cases cond <;> exact h

theorem writes_hexLoop (number : Nat) (zeroPadding : Bool) (left i : Nat) (keepZeros : Bool)
    (o : Out) :
    Writes o ((shown zeroPadding keepZeros (places 16 number left)).map hexChar)
      (hexLoop number (i + left) (4 * (i + left)) zeroPadding left i keepZeros o) := by
  induction left generalizing i keepZeros o with
  | zero => simpa [places, shown, suppress, hexLoop] using Writes.pure o
  | succ left ih =>
    have hdigit : number >>> (4 * (i + (left + 1)) - (i + 1) * 4) &&& 0xF =
        number / 16 ^ left % 16 := by
      rw [show 4 * (i + (left + 1)) - (i + 1) * 4 = 4 * left by omega, Nat.shiftRight_eq_div_pow,
        Nat.pow_mul, show (0xF : Nat) = 2 ^ 4 - 1 from rfl, Nat.and_two_pow_sub_one_eq_mod]
    have hlast : (i == i + (left + 1) - 1) = (places 16 number left).isEmpty := by
      cases left <;> simp [places]
    simp only [hexLoop, hdigit, hlast]
    rw [places, shown_cons, List.map_append]
    refine (Writes.emitIf_map ..).bind ?_
    rw [show i + (left + 1) = i + 1 + left by omega]
    exact ih (i + 1) _ _

theorem writes_printHex (zeroPadding isLong : Bool) (w : BitVec 64) (o : Out) :
    Writes o
      ((shown zeroPadding false (places 16 (if isLong then w.toNat else (w.setWidth 32).toNat)
        (if isLong then 16 else 8))).map hexChar)
      (printHex zeroPadding isLong w o) := by
  cases isLong with
  | true => exact writes_hexLoop _ zeroPadding 16 0 false o
  | false => exact writes_hexLoop _ zeroPadding 8 0 false o

theorem quotientLoop_eq {divisor : Nat} (hpos : 0 < divisor) {fuel number : Nat}
    (h : number ≤ fuel) (quotient : Nat) : quotientLoop divisor fuel number quotient =
      (number % divisor, quotient + number / divisor) := by
  induction fuel generalizing number quotient with
  | zero =>
    obtain rfl : number = 0 := by omega
    simp [quotientLoop]
  | succ fuel ih =>
    rw [quotientLoop]
    split
    · rename_i hle
      rw [ih (by omega), Nat.mod_eq_sub_mod hle, Nat.div_eq_sub_div hpos hle]
      congr 1
      omega
    · rename_i hlt
      rw [Nat.mod_eq_of_lt (by omega), Nat.div_eq_of_lt (by omega), Nat.add_zero]

theorem iterate_mul_ten (k : Nat) : (· * 10)^[k] 1 = 10 ^ k := by
  induction k with
  | zero => rfl
  | succ k ih => rw [Function.iterate_succ_apply', ih, Nat.pow_succ]

/-- The loop writes the quotient by its first divisor whole, and then one place after the other. -/
theorem writes_decimalLoop (zeroPadding : Bool) {left i : Nat} (hi : i + left = maxNumZeros)
    (number : Nat) (keepZeros : Bool) (o : Out) :
    Writes o
      ((shown zeroPadding keepZeros (number / 10 ^ left :: places 10 number left)).map decChar)
      (decimalLoop zeroPadding left i number (10 ^ left) keepZeros o >>= fun r =>
        Printk.put r.2 (BitVec.ofNat 8 (r.1 + 0x30))) := by
  induction left generalizing i number keepZeros o with
  | zero =>
    have hshown : shown zeroPadding keepZeros [number] = [number] := by
      cases zeroPadding <;> rfl
    simp only [decimalLoop, pure_bind, places, Nat.pow_zero, Nat.div_one, hshown, List.map_cons,
      List.map_nil]
    exact Writes.put o _
  | succ left ih =>
    have hdiv := quotientLoop_eq (Nat.pow_pos (n := left + 1) (show 0 < 10 by decide))
      (le_refl number) 0
    have hnext : (· * 10)^[maxNumZeros - 1 - i] 1 = 10 ^ left := by
      rw [iterate_mul_ten, show maxNumZeros - 1 - i = left by omega]
    have hempty : (places 10 number (left + 1)).isEmpty = false := rfl
    rw [shown_cons, List.map_append, hempty, Bool.or_false]
    simp only [decimalLoop, hdiv, hnext, bind_assoc, Nat.zero_add]
    refine (Writes.emitIf_map ..).bind ?_
    rw [places_succ_eq_cons (by decide)]
    exact ih (by omega) _ _ _

/-- The ten characters of a number, without the zeros in front. -/
def decDigits (number : Nat) : List Nat := number / 10 ^ 9 :: places 10 number 9

theorem writes_printDigits (zeroPadding : Bool) (number : Nat) (o : Out) :
    Writes o ((shown zeroPadding false (decDigits number)).map decChar)
      (printDigits zeroPadding number o) :=
  writes_decimalLoop zeroPadding (i := 0) rfl number false o

/-- The number that a decimal directive gets. -/
def decValue (isUnsigned isLong : Bool) (w : BitVec 64) : Int :=
  if isUnsigned then (if isLong then w.toNat else (w.setWidth 32).toNat : Nat)
  else if isLong then w.toInt else (w.setWidth 32).toInt

def signChars (z : Int) : List Byte := if z < 0 then [ch '-'] else []

/-- The characters of a decimal directive. -/
def decChars (zeroPadding : Bool) (z : Int) : List Byte :=
  signChars z ++ (shown zeroPadding false (decDigits z.natAbs)).map decChar

/-- The magnitude of a negative number; for the least one the negation wraps to the same bits. -/
theorem toNat_neg_eq_natAbs {x : BitVec 64} (h : x.toInt < 0) : (-x).toNat = x.toInt.natAbs := by
  rw [BitVec.toInt_eq_toNat_cond] at h ⊢
  rw [BitVec.toNat_neg]
  split at h
  · omega
  · rename_i hneg
    rw [if_neg hneg]
    omega

theorem toNat_eq_natAbs {x : BitVec 64} (h : ¬x.toInt < 0) : x.toNat = x.toInt.natAbs := by
  rw [BitVec.toInt_eq_toNat_cond] at h ⊢
  split at h
  · rename_i hpos
    rw [if_pos hpos]
    omega
  · omega

theorem decValue_signed (isLong : Bool) (w : BitVec 64) : decValue false isLong w =
    (if isLong then w else (w.setWidth 32).signExtend 64).toInt := by
  cases isLong with
  | true => rfl
  | false => exact (BitVec.toInt_signExtend_of_le (by decide)).symm

theorem signChars_unsigned (isLong : Bool) (w : BitVec 64) :
    signChars (decValue true isLong w) = [] := by
  rw [signChars, decValue, if_pos rfl]
  exact if_neg (not_lt.mpr (Int.natCast_nonneg _))

theorem writes_printDecimal (isUnsigned zeroPadding isLong : Bool) (w : BitVec 64) (o : Out) :
    Writes o (decChars zeroPadding (decValue isUnsigned isLong w))
      (printDecimal isUnsigned zeroPadding isLong w o) := by
  cases isUnsigned with
  | true =>
    rw [decChars, signChars_unsigned, List.nil_append, decValue, if_pos rfl, Int.natAbs_natCast]
    exact writes_printDigits zeroPadding _ o
  | false =>
    rw [decValue_signed]
    simp only [printDecimal, Bool.false_eq_true, if_false]
    generalize (if isLong then w else (w.setWidth 32).signExtend 64) = x
    have hslt : x.slt 0 = decide (x.toInt < 0) := by
      rw [BitVec.slt]
      simp
    by_cases hneg : x.toInt < 0
    · rw [hslt, decide_eq_true hneg, if_pos rfl, decChars, signChars, if_pos hneg]
      refine (Writes.put o _).bind ?_
      rw [toNat_neg_eq_natAbs hneg]
      exact writes_printDigits zeroPadding _ _
    · rw [hslt, decide_eq_false hneg, if_neg (by decide), decChars, signChars, if_neg hneg,
        List.nil_append, ← toNat_eq_natAbs hneg]
      exact writes_printDigits zeroPadding _ o

/-! ## Decimal representation -/

/-- The decimal representation of a number, with a sign when it is negative. -/
def decimal (z : Int) : List Byte := signChars z ++ (Nat.toDigits 10 z.natAbs).map ch

theorem decChar_eq {d : Nat} (h : d < 10) : decChar d = ch (Nat.digitChar d) := by
  revert h d
  decide

theorem decChars_eq_decimal_iff (z : Int) : decChars false z = decimal z ↔ z.natAbs < 10 ^ 10 := by
  rw [decChars, decimal, List.append_cancel_left_eq]
  generalize z.natAbs = n
  constructor
  · intro h
    by_contra hn
    have hfirst : n / 10 ^ 9 ≠ 0 := (Nat.div_pos (by omega) (by decide)).ne'
    have hlong := (Nat.length_toDigits_le_iff (b := 10) (n := n) (k := 10) (by decide)
      (by decide)).not.2 hn
    have hlen := congrArg List.length h
    rw [shown, if_neg (by decide), decDigits, suppress_of_ne_zero hfirst, List.length_map,
      List.length_map, List.length_cons, length_places] at hlen
    omega
  · intro hn
    have hdigits : decDigits n = places 10 n 10 := by
      have hlt : n / 10 ^ 9 < 10 := Nat.div_lt_of_lt_mul (by omega)
      rw [places, Nat.mod_eq_of_lt hlt, decDigits]
    rw [shown, if_neg (by decide), hdigits, ← suppress_places_eq_toDigits (by decide) hn,
      List.map_map]
    exact List.map_congr_left fun d hd =>
      decChar_eq (places_lt (by decide) d (mem_of_mem_suppress hd))

end Bao.Printk
