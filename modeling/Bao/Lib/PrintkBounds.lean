import Bao.Lib.PrintkFormat

/-!
# The buffers of `printk`

A format is split into items by an automaton that sees one byte at a time. `vsprintk` writes the
text of the items to the buffer of `printk` and a `'\0'` behind it. Nothing but the copy of a string
looks at the size of the buffer, and that copy goes by the length of the format, not by the
characters written so far. So `printk` stays inside its buffers exactly when the format does not
stop inside a directive and its text leaves room for the `'\0'`.
-/

namespace Bao.Printk

open Foundation

/-! ## Items -/

inductive Item where
  | char (c : Byte)
  | directive (zeroPadding isLong : Bool) (c : Byte)

/-- Where in the format a byte is: in the text, or behind `%`, `%0`, or `%l` with or without a `0`
before it. -/
inductive Mode where
  | text
  | percent
  | zero
  | long (zeroPadding : Bool)
  deriving DecidableEq

/-- The next byte of the format: the mode behind it, and the item that it ends. -/
def Mode.step : Mode → Byte → Mode × Option Item
  | .text, c => if c = ch '%' then (.percent, none) else (.text, some (.char c))
  | .percent, c =>
    if c = ch '0' then (.zero, none)
    else if c = ch 'l' then (.long false, none)
    else (.text, some (.directive false false c))
  | .zero, c =>
    if c = ch 'l' then (.long true, none) else (.text, some (.directive true false c))
  | .long zeroPadding, c => (.text, some (.directive zeroPadding true c))

/-- The items of a format. -/
def scan : Mode → List Byte → List Item
  | _, [] => []
  | m, c :: f => (m.step c).2.toList ++ scan (m.step c).1 f

/-- The mode at the end of a format. -/
def ending : Mode → List Byte → Mode
  | m, [] => m
  | m, c :: f => ending (m.step c).1 f

/-- No directive of the format is cut off by its end. -/
def Complete (f : List Byte) : Prop := ending .text f = .text

instance (f : List Byte) : Decidable (Complete f) := inferInstanceAs (Decidable (_ = _))

/-- The text of an item, with `len` and the arguments behind it. -/
def itemText (len : Nat) (args : List Arg) : Item → Option (List Byte × Nat × List Arg)
  | .char c => some (if c = ch '\n' then [ch '\r', ch '\n'] else [c], len, args)
  | .directive zeroPadding isLong c =>
    (dirText c zeroPadding isLong len args).map fun r => (r.1 ++ tailChars c, r.2)

/-- The text of a list of items, or `none` when the arguments do not match. -/
def render : (len : Nat) → (args : List Arg) → List Item → Option (List Byte)
  | _, _, [] => some []
  | len, args, item :: items =>
    (itemText len args item).bind fun r => (render r.2.1 r.2.2 items).map (r.1 ++ ·)

/-- The bytes at index `i` are the format `f` and its terminating `'\0'`. -/
structure IsFormat (fmt : Nat → Byte) (i : Nat) (f : List Byte) : Prop where
  byte : ∀ k (h : k < f.length), fmt (i + k) = f[k]
  ne_zero : ∀ c ∈ f, c ≠ 0
  nul : fmt (i + f.length) = 0

variable {fmt : Nat → Byte} {i : Nat} {c : Byte} {f : List Byte} {s : State}
variable {zeroPadding isLong : Bool}

theorem IsFormat.drop {u : List Byte} (h : IsFormat fmt i (u ++ f)) :
    IsFormat fmt (i + u.length) f := by
  refine ⟨fun k hk => ?_, fun c hc => h.ne_zero c (List.mem_append_right _ hc), ?_⟩
  · have hbyte := h.byte (u.length + k) (by rw [List.length_append]; omega)
    rw [List.getElem_append_right (by omega)] at hbyte
    simpa [Nat.add_assoc] using hbyte
  · have hnul := h.nul
    rwa [List.length_append, ← Nat.add_assoc] at hnul

/-- The flags of a directive. -/
def flags (zeroPadding isLong : Bool) : List Byte :=
  (if zeroPadding then [ch '0'] else []) ++ if isLong then [ch 'l'] else []

/-- The byte `d` behind the flags is not one more flag. -/
def EndsFlags (zeroPadding isLong : Bool) (d : Byte) : Prop :=
  (isLong = false → d ≠ ch 'l') ∧ (zeroPadding = false → isLong = false → d ≠ ch '0')

/-- What is behind `%` or `%0`: an `l` and the character of the directive, or one of them, or
nothing. -/
theorem long_cases (z : Bool) (g : List Byte) (hg : z = false → g.head? ≠ some (ch '0')) :
    (∃ l, g = flags false l) ∨ ∃ l d g', g = flags false l ++ d :: g' ∧ EndsFlags z l d := by
  cases g with
  | nil => exact .inl ⟨false, rfl⟩
  | cons d g =>
    by_cases hd : d = ch 'l'
    · subst hd
      cases g with
      | nil => exact .inl ⟨true, rfl⟩
      | cons e g => exact .inr ⟨true, e, g, rfl, by simp [EndsFlags]⟩
    · exact .inr ⟨false, d, g, rfl, fun _ => hd, fun hz _ hzero => hg hz (by simp [hzero])⟩

/-- What is behind a `'%'`: flags and the character of the directive, or only flags. -/
theorem directive_cases (f : List Byte) :
    (∃ z l, f = flags z l) ∨ ∃ z l d f', f = flags z l ++ d :: f' ∧ EndsFlags z l d := by
  by_cases hzero : f.head? = some (ch '0')
  · obtain ⟨g, rfl⟩ : ∃ g, f = ch '0' :: g := by
      cases f with
      | nil => cases hzero
      | cons d g => exact ⟨g, by rw [Option.some.inj hzero]⟩
    rcases long_cases true g (by simp) with ⟨l, rfl⟩ | ⟨l, d, g', rfl, hd⟩
    · exact .inl ⟨true, l, by simp [flags]⟩
    · exact .inr ⟨true, l, d, g', by simp [flags], hd⟩
  · rcases long_cases false f (fun _ => hzero) with ⟨l, rfl⟩ | ⟨l, d, g', rfl, hd⟩
    · exact .inl ⟨false, l, rfl⟩
    · exact .inr ⟨false, l, d, g', rfl, hd⟩

theorem scan_directive (h : EndsFlags zeroPadding isLong c) (f : List Byte) :
    scan .text (ch '%' :: (flags zeroPadding isLong ++ c :: f)) =
        .directive zeroPadding isLong c :: scan .text f ∧
      ending .text (ch '%' :: (flags zeroPadding isLong ++ c :: f)) = ending .text f := by
  obtain ⟨hl, hz⟩ := h
  have hl0 : ch 'l' ≠ ch '0' := by decide
  cases zeroPadding <;> cases isLong <;> simp [scan, ending, Mode.step, flags, hl0, hl, hz]

theorem scan_unfinished (zeroPadding isLong : Bool) :
    scan .text (ch '%' :: flags zeroPadding isLong) = [] ∧
      ending .text (ch '%' :: flags zeroPadding isLong) ≠ .text := by
  have hl0 : ch 'l' ≠ ch '0' := by decide
  cases zeroPadding <;> cases isLong <;> simp [scan, ending, Mode.step, flags, hl0]

theorem length_flags (zeroPadding isLong : Bool) :
    (flags zeroPadding isLong).length = zeroPadding.toNat + isLong.toNat := by
  cases zeroPadding <;> cases isLong <;> rfl

/-- The flags in the format are those that `vsprintk` finds. -/
theorem IsFormat.directiveAt {g : List Byte}
    (h : IsFormat fmt i (ch '%' :: (flags zeroPadding isLong ++ g)))
    (hc : fmt (i + 1 + zeroPadding.toNat + isLong.toNat) = c)
    (hends : EndsFlags zeroPadding isLong c) : DirectiveAt fmt i zeroPadding isLong c := by
  obtain ⟨hl, hz⟩ := hends
  refine ⟨h.byte 0 (by simp), ?_, ?_, hc⟩
  · cases zeroPadding with
    | true =>
      have hbyte : fmt (i + 1) = ch '0' := h.byte 1 (by simp [flags])
      simp [hbyte]
    | false =>
      cases isLong with
      | true =>
        have hbyte : fmt (i + 1) = ch 'l' := h.byte 1 (by simp [flags])
        rw [hbyte]
        decide
      | false =>
        have hbyte : fmt (i + 1) = c := hc
        rw [hbyte]
        simpa using hz rfl rfl
  · cases isLong with
    | true =>
      have hbyte : fmt (i + 1 + zeroPadding.toNat) = ch 'l' := by
        cases zeroPadding with
        | true => exact h.byte 2 (by simp [flags])
        | false => exact h.byte 1 (by simp [flags])
      simp [hbyte]
    | false =>
      have hbyte : fmt (i + 1 + zeroPadding.toNat) = c := hc
      rw [hbyte]
      simpa using hl rfl

theorem endsFlags_zero (zeroPadding isLong : Bool) : EndsFlags zeroPadding isLong 0 := by
  refine ⟨fun _ => ?_, fun _ _ => ?_⟩ <;> decide

/-! ## The loop over the items -/

/-- The round at an item: it writes the text of the item and goes on `n` bytes further. -/
def RoundAt (fmt : Nat → Byte) (s : State) (item : Item) (n : Nat) : Prop :=
  ∀ cs len args, itemText s.len s.args item = some (cs, len, args) →
    ∃ out, (vsprintkRound fmt s).val = .again { fmt := s.fmt + n, out, len, args } ∧
      Extends s.out cs out ∧ (vsprintkRound fmt s).All (Access.Within (s.fmt + n - 1) out.str)

theorem IsFormat.roundAt_directive
    (h : IsFormat fmt s.fmt (ch '%' :: (flags zeroPadding isLong ++ c :: f)))
    (hends : EndsFlags zeroPadding isLong c) :
    RoundAt fmt s (.directive zeroPadding isLong c)
      (ch '%' :: (flags zeroPadding isLong ++ [c])).length := by
  have hchar : fmt (s.fmt + 1 + zeroPadding.toNat + isLong.toNat) = c := by
    have hbyte := h.byte (1 + (flags zeroPadding isLong).length)
      (by simp only [List.length_cons, List.length_append]; omega)
    rw [Nat.add_assoc s.fmt, Nat.add_assoc s.fmt, Nat.add_assoc 1, ← length_flags, hbyte]
    simp [Nat.add_comm 1]
  have hlen : (ch '%' :: (flags zeroPadding isLong ++ [c])).length =
      1 + zeroPadding.toNat + isLong.toNat + 1 := by
    rw [List.length_cons, List.length_append, length_flags, List.length_singleton]
    omega
  intro cs len args hitem
  obtain ⟨⟨ds, r⟩, hdir, hr⟩ := Option.map_eq_some_iff.mp hitem
  cases hr
  obtain ⟨out, hval, hext, hall⟩ := vsprintkRound_directive (h.directiveAt hchar hends) hdir
  have hlast : s.fmt + (1 + zeroPadding.toNat + isLong.toNat + 1) - 1 =
      s.fmt + 1 + zeroPadding.toNat + isLong.toNat := by omega
  rw [hlen, hlast]
  exact ⟨out, by simpa [Nat.add_assoc] using hval, hext, hall⟩

theorem IsFormat.cases (h : IsFormat fmt s.fmt f) (hne : f ≠ []) :
    (∃ z l, f = ch '%' :: flags z l ∧ DirectiveAt fmt s.fmt z l 0) ∨
      ∃ u f' item, f = u ++ f' ∧ u ≠ [] ∧ scan .text f = item :: scan .text f' ∧
        ending .text f = ending .text f' ∧ RoundAt fmt s item u.length := by
  obtain ⟨c, f, rfl⟩ := List.exists_cons_of_ne_nil hne
  have hbyte : fmt s.fmt = c := h.byte 0 (by simp)
  by_cases hp : c = ch '%'
  · subst hp
    rcases directive_cases f with ⟨z, l, rfl⟩ | ⟨z, l, d, f', rfl, hends⟩
    · left
      refine ⟨z, l, rfl, IsFormat.directiveAt (g := []) (by simpa using h) ?_ (endsFlags_zero z l)⟩
      have hnul := h.nul
      rw [List.length_cons, length_flags] at hnul
      rw [← hnul]
      congr 1
      omega
    · right
      obtain ⟨hscan, hending⟩ := scan_directive hends f'
      refine ⟨ch '%' :: (flags z l ++ [d]), f', .directive z l d, by simp, by simp, hscan, hending,
        h.roundAt_directive hends⟩
  · right
    have h0 : c ≠ 0 := h.ne_zero c (by simp)
    refine ⟨[c], f, .char c, rfl, by simp, by simp [scan, Mode.step, hp],
      by simp [ending, Mode.step, hp], ?_⟩
    rintro _ _ _ ⟨⟩
    obtain ⟨out, hval, hext, hall⟩ := vsprintkRound_lit (hbyte ▸ h0) (hbyte ▸ hp)
    exact ⟨out, hval, hbyte ▸ hext, hall⟩

theorem render_cons {len : Nat} {args : List Arg} {item : Item} {items : List Item}
    {text : List Byte} (h : render len args (item :: items) = some text) :
    ∃ cs len' args' text', itemText len args item = some (cs, len', args') ∧
      render len' args' items = some text' ∧ text = cs ++ text' := by
  obtain ⟨⟨cs, len', args'⟩, hitem, hrest⟩ := Option.bind_eq_some_iff.mp h
  obtain ⟨text', hrender, htext⟩ := Option.map_eq_some_iff.mp hrest
  exact ⟨cs, len', args', text', hitem, hrender, htext.symm⟩

theorem vsprintkRound_nul (h : fmt s.fmt = 0) :
    (vsprintkRound fmt s).val = .exit (some s) ∧
      ∀ top, (vsprintkRound fmt s).All (Access.Within s.fmt top) := by
  constructor
  · simp only [vsprintkRound, Logged.val_bind, val_readFmt, if_pos h, Logged.val_pure]
  · intro top
    simp only [vsprintkRound, Logged.all_bind, all_readFmt, val_readFmt, if_pos h, Logged.all_pure,
      and_true]
    exact le_rfl

/-- A complete format is gone through to its end, its text is written, and no access on the way is
behind the end of the format or above the end of the text. -/
theorem IsFormat.ends {text : List Byte} (h : IsFormat fmt s.fmt f)
    (hcomplete : ending .text f = .text)
    (hrender : render s.len s.args (scan .text f) = some text) :
    ∃ s', Ends (fun s => (vsprintkRound fmt s).val) s (some s') ∧ s'.fmt = s.fmt + f.length ∧
      Extends s.out text s'.out ∧
      ∀ t, Visits (fun s => (vsprintkRound fmt s).val) s t →
        (vsprintkRound fmt t).All (Access.Within (s.fmt + f.length) s'.out.str) := by
  induction hn : f.length using Nat.strongRecOn generalizing f s text with
  | ind n ih =>
    by_cases hne : f = []
    · subst hne
      cases hrender
      obtain ⟨hval, hall⟩ := vsprintkRound_nul h.nul
      refine ⟨s, ends_of_exit hval, by simp [← hn], .refl _, fun t ht => ?_⟩
      rcases ht.cases with rfl | ⟨u, hu, -⟩
      · simpa [← hn] using hall t.out.str
      · cases hval.symm.trans hu
    · rcases h.cases hne with ⟨z, l, rfl, -⟩ | ⟨u, f', item, rfl, hu, hscan, hending, hround⟩
      · exact absurd hcomplete (scan_unfinished z l).2
      · rw [hscan] at hrender
        obtain ⟨cs, len, args, text', hitem, hrest, rfl⟩ := render_cons hrender
        obtain ⟨out, hval, hext, hall⟩ := hround cs len args hitem
        have hpos := List.length_pos_iff.mpr hu
        rw [List.length_append] at hn
        obtain ⟨s', hends, hfmt, hext', hvisits⟩ := ih f'.length (by omega)
          (s := { fmt := s.fmt + u.length, out, len, args }) h.drop (hending ▸ hcomplete) hrest rfl
        have hle : out.str ≤ s'.out.str := hext'.str ▸ Nat.le_add_right ..
        have hfmt' : s'.fmt = s.fmt + n := hfmt.trans (by simp only; omega)
        refine ⟨s', ends_of_again hval hends, hfmt', hext.trans hext', fun t ht => ?_⟩
        rcases ht.cases with rfl | ⟨v, hv, ht⟩
        · exact fun a ha => (hall a ha).mono (by omega) hle
        · cases hval.symm.trans hv
          exact fun a ha => (hvisits t ht a ha).mono (by simp only; omega) le_rfl

theorem dirText_zero (zeroPadding isLong : Bool) (len : Nat) (args : List Arg) :
    dirText 0 zeroPadding isLong len args = some ([], len, args) := by
  rw [dirText, if_neg (by decide), if_neg (by decide), if_neg (by decide), if_neg (by decide),
    if_neg (by decide), if_neg (by decide), if_neg (by decide)]

theorem IsFormat.visits_behind {text : List Byte} (h : IsFormat fmt s.fmt f)
    (hcut : ending .text f ≠ .text)
    (hrender : render s.len s.args (scan .text f) = some text) :
    ∃ t, Visits (fun s => (vsprintkRound fmt s).val) s t ∧ t.fmt = s.fmt + f.length + 1 := by
  induction hn : f.length using Nat.strongRecOn generalizing f s text with
  | ind n ih =>
    by_cases hne : f = []
    · subst hne
      exact absurd rfl hcut
    · rcases h.cases hne with ⟨z, l, rfl, hdir⟩ | ⟨u, f', item, rfl, hu, hscan, hending, hround⟩
      · obtain ⟨out, hval, -⟩ := vsprintkRound_directive hdir (dirText_zero z l s.len s.args)
        refine ⟨_, .single hval, ?_⟩
        rw [List.length_cons, length_flags] at hn
        simp only
        omega
      · rw [hscan] at hrender
        obtain ⟨cs, len, args, text', hitem, hrest, rfl⟩ := render_cons hrender
        obtain ⟨out, hval, -⟩ := hround cs len args hitem
        have hpos := List.length_pos_iff.mpr hu
        rw [List.length_append] at hn
        obtain ⟨t, ht, hfmt⟩ := ih f'.length (by omega)
          (s := { fmt := s.fmt + u.length, out, len, args }) h.drop (hending ▸ hcut) hrest rfl
        exact ⟨t, ht.head hval, hfmt.trans (by simp only; omega)⟩

/-! ## The whole function -/

theorem IsFormat.strnlenLoop {left : Nat} (h : IsFormat fmt i f) (hle : f.length ≤ left) :
    (strnlenLoop fmt left i).val = i + f.length ∧
      (Printk.strnlenLoop fmt left i).All (Access.Within (i + f.length) 0) := by
  induction f generalizing i left with
  | nil =>
    have hnul : fmt i = 0 := h.nul
    have hread : (Access.fmt i).Within i 0 := le_rfl
    cases left <;> simp [Printk.strnlenLoop, hnul, hread]
  | cons c f ih =>
    obtain ⟨left, rfl⟩ : ∃ l, left = l + 1 := ⟨left - 1, by simp at hle; omega⟩
    have hbyte : fmt i ≠ 0 := (h.byte 0 (by simp)).symm ▸ h.ne_zero c (by simp)
    have hread : (Access.fmt i).Within (i + (c :: f).length) 0 := Nat.le_add_right ..
    obtain ⟨hval, hall⟩ := ih (IsFormat.drop (u := [c]) h) (by simpa using hle)
    have hend : i + (c :: f).length = i + [c].length + f.length := by
      simp only [List.length_cons, List.length_nil]
      omega
    simp only [Printk.strnlenLoop, Logged.val_bind, Logged.all_bind, val_readFmt, all_readFmt,
      if_pos hbyte]
    exact ⟨hval.trans hend.symm, hread, hend ▸ hall⟩

theorem IsFormat.strnlen {n : Nat} (h : IsFormat fmt i f) (hle : f.length ≤ n) :
    (strnlen fmt i n).val = f.length ∧
      (Printk.strnlen fmt i n).All (Access.Within (i + f.length) 0) := by
  obtain ⟨hval, hall⟩ := h.strnlenLoop hle
  simp only [Printk.strnlen, Logged.val_bind, Logged.all_bind, Logged.val_pure, Logged.all_pure,
    hval, and_true]
  exact ⟨by omega, hall⟩

/-- The access is inside the format with its `'\0'` at index `n`, or inside the buffer. -/
def Access.InBounds (n : Nat) : Access → Prop
  | .fmt i => i ≤ n
  | .buf i => i < printTextLen

theorem Access.Within.inBounds {n top : Nat} {a : Access} (h : a.Within n top)
    (htop : top < printTextLen) : a.InBounds n := by
  cases a with
  | fmt i => exact h
  | buf i => exact lt_of_le_of_lt h htop

section Call

variable {args : List Arg} {buf : Nat → Byte} {text : List Byte}

theorem IsFormat.ends_init (buf : Nat → Byte) (h : IsFormat fmt 0 f)
    (hlen : f.length < printTextLen) (hcomplete : Complete f)
    (hargs : render f.length args (scan .text f) = some text) :
    ∃ s, Ends (fun s => (vsprintkRound fmt s).val) (vsprintkInit fmt args buf) (some s) ∧
      IsFormat fmt s.fmt [] ∧ s.fmt = f.length ∧ Extends { buf, str := 0 } text s.out ∧
      ∀ t, Visits (fun s => (vsprintkRound fmt s).val) (vsprintkInit fmt args buf) t →
        (vsprintkRound fmt t).All (Access.Within f.length text.length) := by
  have hinit : (vsprintkInit fmt args buf).len = f.length := (h.strnlen hlen.le).1
  have hzero : 0 + f.length = f.length := Nat.zero_add _
  obtain ⟨s, hends, hfmt, hext, hvisits⟩ := IsFormat.ends (s := vsprintkInit fmt args buf) h
    hcomplete (hinit.symm ▸ hargs)
  have hstr : s.out.str = text.length := hext.str.trans (Nat.zero_add _)
  have hend : IsFormat fmt (0 + f.length) [] := IsFormat.drop (by simpa using h)
  refine ⟨s, hends, hfmt.symm ▸ hend, hfmt.trans hzero, hext, fun t ht => ?_⟩
  have hall := hvisits t ht
  rw [hstr, show (vsprintkInit fmt args buf).fmt + f.length = f.length from hzero] at hall
  exact hall

theorem fmt_mem_log_vsprintkRound (fmt : Nat → Byte) (s : State) :
    .fmt s.fmt ∈ (vsprintkRound fmt s).log := by
  rw [vsprintkRound]
  exact List.mem_append_left _ (by simp [readFmt, Logged.touch])

/-- The byte behind the `'\0'` of a format that stops inside a directive is read. -/
theorem IsFormat.accesses_behind (h : IsFormat fmt 0 f) (hlen : f.length < printTextLen)
    (hcut : ¬Complete f) (hargs : render f.length args (scan .text f) = some text) :
    Accesses fmt args buf (.fmt (f.length + 1)) := by
  have hinit : (vsprintkInit fmt args buf).len = f.length := (h.strnlen hlen.le).1
  obtain ⟨t, hvisit, hfmt⟩ := IsFormat.visits_behind (s := vsprintkInit fmt args buf) h hcut
    (hinit.symm ▸ hargs)
  have hat : t.fmt = f.length + 1 := hfmt.trans (congrArg (· + 1) (Nat.zero_add _))
  exact .inr (.inl ⟨t, hvisit, hat ▸ fmt_mem_log_vsprintkRound fmt t⟩)

theorem IsFormat.accesses_nul (h : IsFormat fmt 0 f) (hlen : f.length < printTextLen)
    (hcomplete : Complete f) (hargs : render f.length args (scan .text f) = some text) :
    Accesses fmt args buf (.buf text.length) := by
  obtain ⟨s, hends, -, -, hext, -⟩ := h.ends_init buf hlen hcomplete hargs
  have hstr : s.out.str = text.length := hext.str.trans (Nat.zero_add _)
  exact .inr (.inr ⟨s, hends, .inl (by simp [poke, Logged.touch, hstr])⟩)

/-- `printk` reads its format to the terminating `'\0'` at most and writes its buffer inside, just
when no directive is cut off by the end of the format and the text leaves room for the `'\0'`. -/
theorem printk_inBounds_iff (h : IsFormat fmt 0 f) (hlen : f.length < printTextLen)
    (hargs : render f.length args (scan .text f) = some text) :
    (∀ a, Accesses fmt args buf a → a.InBounds f.length) ↔
      Complete f ∧ text.length < printTextLen := by
  constructor
  · intro hbounds
    have hcomplete : Complete f := by
      by_contra hcut
      have hread : f.length + 1 ≤ f.length := hbounds _ (h.accesses_behind hlen hcut hargs)
      omega
    exact ⟨hcomplete, hbounds _ (h.accesses_nul hlen hcomplete hargs)⟩
  · rintro ⟨hcomplete, htext⟩ a ha
    obtain ⟨s, hends, hend, hfmt, hext, hvisits⟩ := h.ends_init buf hlen hcomplete hargs
    have hzero : 0 + f.length = f.length := Nat.zero_add _
    rcases ha with ha | ⟨t, hvisit, ha⟩ | ⟨s', hends', ha⟩
    · exact (hzero ▸ (h.strnlen hlen.le).2 a ha).inBounds (by decide)
    · exact (hvisits t hvisit a ha).inBounds htext
    · cases hends.unique hends'
      have hstr : s.out.str = text.length := hext.str.trans (Nat.zero_add _)
      rcases ha with ha | ha
      · obtain rfl : a = .buf s.out.str := by simpa [poke, Logged.touch] using ha
        exact hstr ▸ htext
      · have hwithin := (hend.strnlen (Nat.zero_le _)).2 a ha
        rw [hfmt] at hwithin
        exact hwithin.inBounds (by decide)

end Call

theorem isFormat_ofList (h : ∀ c ∈ f, c ≠ 0) : IsFormat (ofList f) 0 f := by
  refine ⟨fun k hk => ?_, h, ?_⟩
  · simp [ofList, List.getD, hk]
  · simp [ofList, List.getD]

/-- The format `up %d` with a newline. -/
theorem printk_inBounds_up :
    render 6 [.word 7] (scan .text [ch 'u', ch 'p', ch ' ', ch '%', ch 'd', ch '\n']) =
        some [ch 'u', ch 'p', ch ' ', ch '7', ch '\r', ch '\n'] ∧
      ∀ a, Accesses (ofList [ch 'u', ch 'p', ch ' ', ch '%', ch 'd', ch '\n']) [.word 7]
        (fun _ => 0) a → a.InBounds 6 := by
  have hfmt : IsFormat (ofList _) 0 [ch 'u', ch 'p', ch ' ', ch '%', ch 'd', ch '\n'] :=
    isFormat_ofList (by decide)
  refine ⟨?hargs, (printk_inBounds_iff hfmt (by decide) ?hargs).2 ⟨by decide, by decide⟩⟩
  decide

/-- Seventeen times `%lx`. -/
def seventeenHex : List Byte := (List.replicate 17 [ch '%', ch 'l', ch 'x']).flatten

/-- The format `%` is read behind its end, and seventeen numbers of 16 digits are written behind the
end of the buffer. -/
theorem printk_out_of_bounds :
    (∃ a, Accesses (ofList [ch '%']) [] (fun _ => 0) a ∧ ¬a.InBounds 1) ∧
    ∃ a, Accesses (ofList seventeenHex) (List.replicate 17 (.word (-1))) (fun _ => 0) a ∧
      ¬a.InBounds seventeenHex.length := by
  constructor
  · have hfmt : IsFormat (ofList [ch '%']) 0 [ch '%'] := isFormat_ofList (by decide)
    have hargs : render 1 [] (scan .text [ch '%']) = some [] := by decide
    exact ⟨_, hfmt.accesses_behind (by decide) (by decide) hargs, by simp [Access.InBounds]⟩
  · have hfmt : IsFormat (ofList seventeenHex) 0 seventeenHex := isFormat_ofList (by decide)
    have hlength : (render seventeenHex.length (List.replicate 17 (.word (-1)))
        (scan .text seventeenHex)).map List.length = some 272 := by decide +kernel
    obtain ⟨text, hargs, htext⟩ := Option.map_eq_some_iff.mp hlength
    refine ⟨_, hfmt.accesses_nul (by decide) (by decide) hargs, ?_⟩
    simp [Access.InBounds, htext, printTextLen]

end Bao.Printk
