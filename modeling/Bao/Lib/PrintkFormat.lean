import Bao.Lib.Printk

/-!
# Formats

A format is a sequence of items: characters, and directives with their flags. `scan` splits it with
an automaton, and `render` gives the text of the items for a list of arguments. A round of the loop
of `vsprintk` is one item, so the loop writes the text of the format, but for what it does at the
end: when the format stops inside a directive, the round takes the terminating `'\0'` for the
directive's character and the next round starts behind it.
-/

namespace Bao.Printk

open Foundation

/-! ## The text of a directive -/

/-- The characters of a string that are copied when `len` is what it is. -/
def textChars (s : List Byte) (len : Nat) : List Byte :=
  (s.takeWhile (· ≠ 0)).take (printTextLen - len)

theorem textChars_cons {c : Byte} {len : Nat} (hc : c ≠ 0) (hlen : len < printTextLen)
    (s : List Byte) : textChars (c :: s) len = c :: textChars s (len + 1) := by
  rw [textChars, textChars, List.takeWhile_cons_of_pos (by simpa using hc),
    show printTextLen - len = printTextLen - (len + 1) + 1 by omega, List.take_succ_cons]

theorem textChars_eq_nil {c : Byte} {len : Nat} (h : ¬(c ≠ 0 ∧ len < printTextLen))
    (s : List Byte) : textChars (c :: s) len = [] := by
  by_cases hc : c = 0
  · rw [textChars, List.takeWhile_cons_of_neg (by simpa using hc), List.take_nil]
  · have hlen : ¬len < printTextLen := fun hlt => h ⟨hc, hlt⟩
    rw [textChars, show printTextLen - len = 0 by omega, List.take_zero]

theorem printString_spec (s : List Byte) (len : Nat) (o : Out) :
    (printString s len o).val.1 = len + (textChars s len).length ∧
      Extends o (textChars s len) (printString s len o).val.2 ∧
      (printString s len o).All (Access.UpTo (printString s len o).val.2.str) := by
  induction s generalizing len o with
  | nil =>
    have h := Writes.poke o 0
    refine ⟨by simp [printString, textChars], ?_, ?_⟩
    · simpa [printString, textChars] using h.ext
    · simpa [printString] using h.upTo
  | cons c s ih =>
    have h := Writes.poke o c
    by_cases hnext : c ≠ 0 ∧ len < printTextLen
    · have hput := Writes.put o c
      have hval : (put o c).val = { (poke o c).val with str := (poke o c).val.str + 1 } := by
        simp [put]
      have hstr : (put o c).val.str = (poke o c).val.str + 1 := congrArg Out.str hval
      obtain ⟨hlen, hext, hupTo⟩ := ih (len + 1) (put o c).val
      rw [textChars_cons hnext.1 hnext.2]
      simp only [printString, Logged.val_bind, Logged.all_bind, if_pos hnext, ← hval]
      refine ⟨?_, hput.ext.trans hext, fun a ha => (h.upTo a ha).mono ?_, hupTo⟩
      · rw [hlen, List.length_cons]
        omega
      · rw [hext.str, hstr]
        omega
    · rw [textChars_eq_nil hnext]
      simp only [printString, Logged.val_bind, Logged.all_bind, if_neg hnext, Logged.val_pure,
        Logged.all_pure, and_true]
      exact ⟨rfl, h.ext, h.upTo⟩

/-- The characters of a directive, with `len` and the arguments behind it. -/
def dirText (c : Byte) (zeroPadding isLong : Bool) (len : Nat) (args : List Arg) :
    Option (List Byte × Nat × List Arg) :=
  if c = ch 'x' then
    (vaArgWord args).map fun r =>
      ((shown zeroPadding false (places 16 (if isLong then r.1.toNat else (r.1.setWidth 32).toNat)
        (if isLong then 16 else 8))).map hexChar, len, r.2)
  else if c = ch 'u' ∨ c = ch 'i' ∨ c = ch 'd' then
    (vaArgWord args).map fun r =>
      (decChars zeroPadding (decValue (c = ch 'u') isLong r.1), len, r.2)
  else if c = ch 's' then
    (vaArgText args).map fun r =>
      (textChars r.1 len, len + (textChars r.1 len).length, r.2)
  else if c = ch 'c' then (vaArgWord args).map fun r => ([r.1.setWidth 8], len, r.2)
  else if c = ch '%' then some ([c], len, args)
  else if c = ch '\t' then some ([ch '%', c], len, args)
  else if c = ch '\n' then some ([ch '%', ch '\r', ch '\n'], len, args)
  else some ([], len, args)

variable {s : State} {cs : List Byte} {len : Nat} {args : List Arg}

/-- `x` goes on from `s` with the characters, `len` and arguments of `r`, if there are any. -/
def Prints (s : State) (r : Option (List Byte × Nat × List Arg))
    (x : Logged Access (Option State)) : Prop :=
  ∀ cs len args, r = some (cs, len, args) → ∃ out, x.val = some { s with out, len, args } ∧
    Extends s.out cs out ∧ x.All (Access.UpTo out.str)

theorem Prints.none (x : Logged Access (Option State)) : Prints s none x := by
  rintro _ _ _ ⟨⟩

theorem Prints.of_writes {x : Logged Access Out} (h : Writes s.out cs x) (args : List Arg) :
    Prints s (some (cs, s.len, args)) (do
      let out ← x
      pure (some { s with out, args })) := by
  rintro _ _ _ ⟨⟩
  refine ⟨x.val, by simp, h.ext, ?_⟩
  simpa using h.upTo

theorem Prints.ite {p : Prop} [Decidable p] {r r' : Option (List Byte × Nat × List Arg)}
    {x x' : Logged Access (Option State)} (ht : p → Prints s r x) (hf : ¬p → Prints s r' x') :
    Prints s (if p then r else r') (if p then x else x') := by
  by_cases hp : p
  · rw [if_pos hp, if_pos hp]
    exact ht hp
  · rw [if_neg hp, if_neg hp]
    exact hf hp

theorem prints_vsprintkSwitch (c : Byte) (zeroPadding isLong : Bool) (s : State) :
    Prints s (dirText c zeroPadding isLong s.len s.args)
      (vsprintkSwitch c zeroPadding isLong s) := by
  refine .ite (fun _ => ?hex) fun _ => .ite (fun _ => ?decimal) fun _ => .ite (fun _ => ?text)
    fun _ => .ite (fun _ => ?char) fun _ => .ite (fun _ => ?percent) fun _ =>
    .ite (fun _ => ?tab) fun _ => .ite (fun _ => ?newline) fun _ => ?other
  case hex =>
    cases vaArgWord s.args with
    | none => exact .none _
    | some r => exact .of_writes (writes_printHex zeroPadding isLong r.1 s.out) r.2
  case decimal =>
    cases vaArgWord s.args with
    | none => exact .none _
    | some r => exact .of_writes (writes_printDecimal _ zeroPadding isLong r.1 s.out) r.2
  case text =>
    cases vaArgText s.args with
    | none => exact .none _
    | some r =>
      obtain ⟨hlen, hext, hupTo⟩ := printString_spec r.1 s.len s.out
      rintro _ _ _ ⟨⟩
      exact ⟨_, by simp [hlen], hext, by simpa using hupTo⟩
  case char =>
    cases vaArgWord s.args with
    | none => exact .none _
    | some r => exact .of_writes (Writes.put s.out _) r.2
  case percent => exact .of_writes (Writes.put s.out c) s.args
  case tab => exact .of_writes (Writes.emit s.out _) s.args
  case newline => exact .of_writes (Writes.emit s.out _) s.args
  case other =>
    rintro _ _ _ ⟨⟩
    exact ⟨s.out, rfl, .refl _, Logged.all_pure _⟩

/-! ## A round of the loop -/

/-- At index `i` of the format there is a directive with the given flags and character. -/
structure DirectiveAt (fmt : Nat → Byte) (i : Nat) (zeroPadding isLong : Bool) (c : Byte) :
    Prop where
  percent : fmt i = ch '%'
  zero : decide (fmt (i + 1) = ch '0') = zeroPadding
  long : decide (fmt (i + 1 + zeroPadding.toNat) = ch 'l') = isLong
  char : fmt (i + 1 + zeroPadding.toNat + isLong.toNat) = c

variable {fmt : Nat → Byte} {c : Byte} {zeroPadding isLong : Bool}

@[simp] theorem val_readFmt (fmt : Nat → Byte) (i : Nat) : (readFmt fmt i).val = fmt i :=
  Logged.val_touch ..

@[simp] theorem all_readFmt {P : Access → Prop} (fmt : Nat → Byte) (i : Nat) :
    (readFmt fmt i).All P ↔ P (.fmt i) :=
  Logged.all_touch ..

/-- The access is to the format up to `last`, or to the buffer up to `top`. -/
def Access.Within (last top : Nat) : Access → Prop
  | .fmt i => i ≤ last
  | .buf i => i ≤ top

theorem Access.UpTo.within {top : Nat} {a : Access} (h : a.UpTo top) (last : Nat) :
    a.Within last top := by
  obtain ⟨i, hi, rfl⟩ := h
  exact hi

theorem vsprintkPercent_eq (h : DirectiveAt fmt s.fmt zeroPadding isLong c) :
    (vsprintkPercent fmt { s with fmt := s.fmt + 1 }).val =
      (vsprintkSwitch c zeroPadding isLong
        { s with fmt := s.fmt + 1 + zeroPadding.toNat + isLong.toNat }).val := by
  simp only [vsprintkPercent, Logged.val_bind, val_readFmt, h.zero, h.long, h.char]

theorem all_vsprintkPercent (h : DirectiveAt fmt s.fmt zeroPadding isLong c) {P : Access → Prop} :
    (vsprintkPercent fmt { s with fmt := s.fmt + 1 }).All P ↔
      P (.fmt (s.fmt + 1)) ∧ P (.fmt (s.fmt + 1 + zeroPadding.toNat)) ∧
      P (.fmt (s.fmt + 1 + zeroPadding.toNat + isLong.toNat)) ∧
      (vsprintkSwitch c zeroPadding isLong
        { s with fmt := s.fmt + 1 + zeroPadding.toNat + isLong.toNat }).All P := by
  simp only [vsprintkPercent, Logged.all_bind, all_readFmt, val_readFmt, h.zero, h.long,
    h.char]

theorem Access.Within.mono {last last' top top' : Nat} {a : Access} (h : a.Within last top)
    (hlast : last ≤ last') (htop : top ≤ top') : a.Within last' top' := by
  cases a with
  | fmt i => exact le_trans h hlast
  | buf i => exact le_trans h htop

/-- The characters that the end of the body writes for the byte it looks at. -/
def tailChars (c : Byte) : List Byte :=
  (if decide (c = ch '\n') then [ch '\r', ch '\n'] else []) ++
    if decide (c = ch '\t') then [c] else []

theorem vsprintkTail_spec (fmt : Nat → Byte) (s : State) :
    ∃ out, (vsprintkTail fmt s).val = .again { s with fmt := s.fmt + 1, out } ∧
      Extends s.out (tailChars (fmt s.fmt)) out ∧
      (vsprintkTail fmt s).All (Access.Within s.fmt out.str) := by
  have hnl := Writes.emitIf (fmt s.fmt = ch '\n') s.out [ch '\r', ch '\n']
  have htab := Writes.emitIf (fmt s.fmt = ch '\t')
    (emitIf (fmt s.fmt = ch '\n') s.out [ch '\r', ch '\n']).val [fmt s.fmt]
  refine ⟨_, ?_, hnl.ext.trans htab.ext, ?_⟩
  · simp only [vsprintkTail, Logged.val_bind, val_readFmt, Logged.val_pure]
  · simp only [vsprintkTail, Logged.all_bind, all_readFmt, val_readFmt, Logged.all_pure, and_true]
    have hle := htab.ext.str
    exact ⟨le_rfl, fun a ha => ((hnl.upTo a ha).mono (by omega)).within _,
      fun a ha => (htab.upTo a ha).within _⟩

theorem vsprintkRound_lit (h0 : fmt s.fmt ≠ 0) (hp : fmt s.fmt ≠ ch '%') :
    ∃ out, (vsprintkRound fmt s).val = .again { s with fmt := s.fmt + 1, out } ∧
      Extends s.out (if fmt s.fmt = ch '\n' then [ch '\r', ch '\n'] else [fmt s.fmt]) out ∧
      (vsprintkRound fmt s).All (Access.Within s.fmt out.str) := by
  by_cases hplain : fmt s.fmt ≠ ch '%' ∧ fmt s.fmt ≠ ch '\n' ∧ fmt s.fmt ≠ ch '\t'
  · have hput := Writes.put s.out (fmt s.fmt)
    refine ⟨(put s.out (fmt s.fmt)).val, ?_, ?_, ?_⟩
    · simp only [vsprintkRound, Logged.val_bind, val_readFmt, if_neg h0, if_pos hplain,
        Logged.val_pure]
    · rw [if_neg hplain.2.1]
      exact hput.ext
    · simp only [vsprintkRound, Logged.all_bind, all_readFmt, val_readFmt, if_neg h0,
        if_pos hplain, Logged.all_pure, and_true]
      exact ⟨le_rfl, fun a ha => (hput.upTo a ha).within _⟩
  · have htail : tailChars (fmt s.fmt) =
        if fmt s.fmt = ch '\n' then [ch '\r', ch '\n'] else [fmt s.fmt] := by
      by_cases hnl : fmt s.fmt = ch '\n'
      · rw [hnl]
        decide
      · have htab : fmt s.fmt = ch '\t' := by tauto
        rw [htab]
        decide
    obtain ⟨out, hval, hext, hall⟩ := vsprintkTail_spec fmt s
    refine ⟨out, ?_, htail ▸ hext, ?_⟩
    · simpa only [vsprintkRound, Logged.val_bind, val_readFmt, if_neg h0, if_neg hplain,
        if_neg hp] using hval
    · simp only [vsprintkRound, Logged.all_bind, all_readFmt, val_readFmt, if_neg h0,
        if_neg hplain, if_neg hp]
      exact ⟨le_rfl, hall⟩

theorem vsprintkRound_directive (h : DirectiveAt fmt s.fmt zeroPadding isLong c)
    (hargs : dirText c zeroPadding isLong s.len s.args = some (cs, len, args)) :
    ∃ out, (vsprintkRound fmt s).val =
        .again { fmt := s.fmt + 1 + zeroPadding.toNat + isLong.toNat + 1, out, len, args } ∧
      Extends s.out (cs ++ tailChars c) out ∧
      (vsprintkRound fmt s).All
        (Access.Within (s.fmt + 1 + zeroPadding.toNat + isLong.toNat) out.str) := by
  have h0 : fmt s.fmt ≠ 0 := by
    rw [h.percent]
    decide
  have hplain : ¬(fmt s.fmt ≠ ch '%' ∧ fmt s.fmt ≠ ch '\n' ∧ fmt s.fmt ≠ ch '\t') :=
    fun hne => hne.1 h.percent
  obtain ⟨mid, hswitch, hmid, hmidAll⟩ := prints_vsprintkSwitch c zeroPadding isLong
    { s with fmt := s.fmt + 1 + zeroPadding.toNat + isLong.toNat } cs len args hargs
  obtain ⟨out, htail, hext, hall⟩ := vsprintkTail_spec fmt
    { fmt := s.fmt + 1 + zeroPadding.toNat + isLong.toNat, out := mid, len, args }
  have hpercent := (vsprintkPercent_eq h).trans hswitch
  refine ⟨out, ?_, hmid.trans (h.char ▸ hext), ?_⟩
  · simp only [vsprintkRound, Logged.val_bind, val_readFmt, if_neg h0, if_neg hplain,
      if_pos h.percent, hpercent]
    exact htail
  · simp only [vsprintkRound, Logged.all_bind, all_readFmt, val_readFmt, if_neg h0,
      if_neg hplain, if_pos h.percent, hpercent, all_vsprintkPercent h]
    have hle : mid.str ≤ out.str := hext.str ▸ Nat.le_add_right ..
    simp only [Access.Within]
    exact ⟨by omega, ⟨by omega, by omega, le_rfl,
      fun a ha => ((hmidAll a ha).mono hle).within _⟩, hall⟩

/-! ## Decimal directives -/

/-- The decimal directives `%d`, `%i` and `%u`. -/
def IsDecimal (c : Byte) : Prop := c = ch 'd' ∨ c = ch 'i' ∨ c = ch 'u'

theorem IsDecimal.dirText_eq (hc : IsDecimal c) (zeroPadding isLong : Bool) (len : Nat)
    (w : BitVec 64) (args : List Arg) :
    dirText c zeroPadding isLong len (.word w :: args) =
      some (decChars zeroPadding (decValue (c = ch 'u') isLong w), len, args) := by
  have hx : c ≠ ch 'x' := by
    rcases hc with rfl | rfl | rfl <;> decide
  rw [dirText, if_neg hx, if_pos (by unfold IsDecimal at hc; tauto)]
  rfl

theorem IsDecimal.tailChars_eq (hc : IsDecimal c) : tailChars c = [] := by
  rcases hc with rfl | rfl | rfl <;> decide

theorem vsprintkRound_decimal (hc : IsDecimal c)
    (h : DirectiveAt fmt s.fmt zeroPadding isLong c) {w : BitVec 64}
    (hargs : s.args = .word w :: args) :
    ∃ s', (vsprintkRound fmt s).val = .again s' ∧
      written s.out s'.out = decChars zeroPadding (decValue (c = ch 'u') isLong w) := by
  obtain ⟨out, hval, hext, -⟩ := vsprintkRound_directive h
    (hargs ▸ hc.dirText_eq zeroPadding isLong s.len w args)
  rw [hc.tailChars_eq, List.append_nil] at hext
  exact ⟨_, hval, hext.written_eq⟩

/-- For a decimal directive without the `0` flag the characters are the representation of the number
exactly when it has at most ten digits. -/
theorem vsprintkRound_decimal_iff (hc : IsDecimal c) (h : DirectiveAt fmt s.fmt false isLong c)
    {w : BitVec 64} (hargs : s.args = .word w :: args) :
    (∃ s', (vsprintkRound fmt s).val = .again s' ∧
      written s.out s'.out = decimal (decValue (c = ch 'u') isLong w)) ↔
      (decValue (c = ch 'u') isLong w).natAbs < 10 ^ 10 := by
  obtain ⟨s', hval, hwritten⟩ := vsprintkRound_decimal hc h hargs
  rw [← decChars_eq_decimal_iff, ← hwritten]
  constructor
  · rintro ⟨t, ht, hdec⟩
    cases hval.symm.trans ht
    exact hdec
  · intro hdec
    exact ⟨s', hval, hdec⟩

/-- A format as a function, with zeros behind it. -/
def ofList (f : List Byte) (i : Nat) : Byte := f.getD i 0

/-- The state before a format with one argument. -/
def oneArg (w : BitVec 64) : State :=
  { out := { buf := fun _ => 0, str := 0 }, len := 0, args := [.word w] }

/-- `%d` of -42. -/
theorem vsprintkRound_decimal_minus :
    DirectiveAt (ofList [ch '%', ch 'd']) 0 false false (ch 'd') ∧
    ∃ s', (vsprintkRound (ofList [ch '%', ch 'd']) (oneArg (-42))).val = .again s' ∧
      written (oneArg (-42)).out s'.out = [ch '-', ch '4', ch '2'] := by
  have hdir : DirectiveAt (ofList [ch '%', ch 'd']) (oneArg (-42)).fmt false false (ch 'd') :=
    ⟨rfl, rfl, rfl, rfl⟩
  exact ⟨hdir, (vsprintkRound_decimal_iff (.inl rfl) hdir rfl).2 (by decide)⟩

/-- `%lu` of ten to the tenth gives `:000000000`. -/
theorem vsprintkRound_decimal_eleven_digits :
    ∃ s', (vsprintkRound (ofList [ch '%', ch 'l', ch 'u']) (oneArg 10000000000)).val = .again s' ∧
      written (oneArg 10000000000).out s'.out = ch ':' :: List.replicate 9 (ch '0') ∧
      written (oneArg 10000000000).out s'.out ≠ decimal 10000000000 := by
  have hdir : DirectiveAt (ofList [ch '%', ch 'l', ch 'u']) (oneArg 10000000000).fmt false true
    (ch 'u') := ⟨rfl, rfl, rfl, rfl⟩
  obtain ⟨s', hval, hwritten⟩ := vsprintkRound_decimal (.inr (.inr rfl)) hdir rfl
  have hvalue : decValue (ch 'u' = ch 'u') true 10000000000 = 10000000000 := by decide
  rw [hvalue] at hwritten
  refine ⟨s', hval, hwritten.trans (by decide), fun hdec => ?_⟩
  exact absurd ((decChars_eq_decimal_iff _).1 (hwritten.symm.trans hdec)) (by decide)

end Bao.Printk
