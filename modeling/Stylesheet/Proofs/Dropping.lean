import Stylesheet.Proofs.Recovery

namespace Stylesheet

/-- Text in place of a declaration, in which no declaration can be found: it has no colon, and nothing in it stops the
search for the semicolon behind it. -/
structure Junk (junk : String) : Prop where
  plain : ∀ c ∈ ['\\', ':', ';', '\x7d', '\n'], c ∉ junk.toList
  uncommented : ¬ ['/', '*'] <:+: junk.toList
  solid : ∃ c ∈ junk.toList, Text.isBlank c = false

/-- Something else was found than expected. -/
def Fault.isToken : Fault → Bool
  | unexpectedToken .. => true
  | _ => false

namespace Read

variable {α β : Type} {lenient : Bool} {l m : List Char} {x : Read α} {f : α → Read β} {P : α → Prop}
  {Q : List Char → Prop}

/-- Where reading has `l` left in a mode, the step finds something else than it expects and leaves what `Q` holds
of. -/
def Balks (lenient : Bool) (l : List Char) (x : Read α) (Q : List Char → Prop) : Prop :=
  ∀ r, r.settings.lenient = lenient → r.place.rest = l →
    ∃ e s, x.outcome r = (.error e, s) ∧ e.isToken = true ∧ s.settings.lenient = lenient ∧ Q s.place.rest

namespace Balks

theorem first (hx : Balks lenient l x Q) : Balks lenient l (x >>= f) Q := by
  intro r hl hr
  obtain ⟨e, s, hs, fault⟩ := hx r hl hr
  exact ⟨e, s, by rw [outcome_bind, hs, following_error], fault⟩

/-- A step that takes its text, and one behind it. -/
theorem behind (hx : Takes l m x P) (hs : ∀ text, SteadyWhole text x) (hf : ∀ a, P a → Balks lenient m (f a) Q) :
    Balks lenient l (x >>= f) Q := by
  intro r hl hr
  obtain ⟨a, s, ho, hm, ha⟩ := hx r hr
  have mode : s.settings.lenient = lenient := ((hs _).settings ho) ▸ hl
  obtain ⟨e, t, ht, fault⟩ := hf a ha s mode hm
  exact ⟨e, t, by rw [outcome_bind, ho, following_ok, ht], fault⟩

theorem discard (hx : Balks lenient l x Q) : Balks lenient l (discard x) Q := by
  intro r hl hr
  obtain ⟨e, s, hs, fault⟩ := hx r hl hr
  exact ⟨e, s, by rw [outcome_discard, hs, following_error], fault⟩

theorem here {f : Place → Read β} (hf : ∀ p, p.rest = l → Balks lenient l (f p) Q) :
    Balks lenient l (place >>= f) Q :=
  fun r hl hr => hf r.place hr r hl hr

theorem literal {t : String} (ht : ¬ t.toList <+: l) (hq : Q l) : Balks lenient l (Read.literal t) Q := by
  intro r hl hr
  have missing : ¬ r.place.comes t = true := fun comes => ht (hr ▸ (Place.comes_iff.mp comes).2)
  exact ⟨_, r, by rw [outcome_literal, if_neg missing], rfl, hl, hr ▸ hq⟩

theorem identifier {ignoreCase : Bool} (ends : EndsName l) (nonempty : l ≠ []) (hq : Q l) :
    Balks lenient l (Read.identifier ignoreCase) Q := by
  intro r hl hr
  exact ⟨_, r, by rw [outcome_identifier, Place.identifier_of_endsName ends nonempty hr]; rfl, rfl, hl, hr ▸ hq⟩

/-- Strict reading hands on the fault. -/
theorem strict {h : Fault → Read α} (hx : Balks false l x Q)
    (hands : ∀ e s, s.settings.lenient = false → (h e).outcome s = (.error e, s)) :
    Balks false l (tryCatch x h) Q := by
  intro r hl hr
  obtain ⟨e, s, hs, token, mode, left⟩ := hx r hl hr
  exact ⟨e, s, by rw [outcome_tryCatch, hs, rescued_error, hands e s mode], token, mode, left⟩

/-- Lenient reading handles the fault where the step left the text. -/
theorem handled {h : Fault → Read α} (hx : Balks true l x Q) (hh : ∀ e k, Q k → Passes k m (h e) P) :
    Passes l m (tryCatch x h) P := by
  intro r hl hr
  obtain ⟨e, s, hs, -, mode, left⟩ := hx r hl hr
  obtain ⟨a, t, ht, passed⟩ := hh e s.place.rest left s mode rfl
  exact ⟨a, t, by rw [outcome_tryCatch, hs, rescued_error, ht], passed⟩

end Balks

end Read

open Read (Balks Passes Takes Steady)

variable {lenient : Bool} {l m k t : List Char}

section Text

theorem pastBlank_append_solid {c : Char} (hc : Text.isBlank c = false) (t l : List Char) :
    pastBlank (t ++ c :: l) = pastBlank t ++ c :: l := by
  have stays : (c :: l).dropWhile Text.isBlank = c :: l := pastBlank_cons hc
  rw [pastBlank, List.dropWhile_append, stays]
  split
  · next empty => rw [pastBlank, List.isEmpty_iff.mp empty, List.nil_append]
  · rfl

/-- Behind the blanks in front of text without comments neither a blank nor a comment stands. -/
theorem stops_pastBlank (uncommented : ¬ ['/', '*'] <:+: t) (l : List Char) :
    Stops (pastBlank (t ++ ';' :: l)) where
  solid := List.dropWhile_idempotent _ _
  uncommented := by
    rw [pastBlank_append_solid rfl]
    exact Text.not_opens_append (fun h => uncommented (h.trans (List.dropWhile_suffix _).isInfix)) (by decide)

/-- No name goes on behind the characters of names that text without escapes begins with. -/
theorem endsName_dropWhile (plain : '\\' ∉ t) (l : List Char) :
    EndsName (t.dropWhile isIdentifierChar ++ ';' :: l) := by
  cases hd : t.dropWhile isIdentifierChar with
  | nil => exact .cons rfl (by decide)
  | cons c rest =>
    have first := List.head?_dropWhile_not isIdentifierChar t
    rw [hd] at first
    refine .cons (by simpa using first) ?_
    rintro rfl
    exact plain ((List.dropWhile_suffix isIdentifierChar).mem (hd ▸ List.mem_cons_self))

end Text

namespace Junk

variable {junk : String} (h : Junk junk)

include h

theorem start : ∃ c t, pastBlank junk.toList = c :: t ∧ c ≠ '\x7d' := by
  cases ht : pastBlank junk.toList with
  | nil =>
    obtain ⟨c, mem, solid⟩ := h.solid
    exact absurd (List.dropWhile_eq_nil_iff.mp ht c mem) (by rw [solid]; exact Bool.false_ne_true)
  | cons c t =>
    refine ⟨c, t, rfl, ?_⟩
    rintro rfl
    exact h.plain '\x7d' (by decide) ((List.dropWhile_suffix _).mem (ht ▸ List.mem_cons_self))

theorem head_ne (l : List Char) : (junk.toList ++ l).head? ≠ some ';' := by
  obtain ⟨c, mem, -⟩ := h.solid
  cases ht : junk.toList with
  | nil => rw [ht] at mem; cases mem
  | cons d t =>
    rintro heq
    cases heq
    exact h.plain ';' (by decide) (ht ▸ List.mem_cons_self)

variable (ht : t <:+ junk.toList)

include ht

theorem lacks {c : Char} (hc : c ∈ ['\\', ':', ';', '\x7d', '\n']) : c ∉ t := fun mem => h.plain c hc (ht.mem mem)

theorem uncommented_suffix : ¬ ['/', '*'] <:+: t := fun hi => h.uncommented (hi.trans ht.isInfix)

theorem not_colon (l : List Char) : ¬ ":".toList <+: t ++ ';' :: l := by
  rintro ⟨rest, begins⟩
  change ':' :: rest = _ at begins
  cases t with
  | nil => exact absurd (List.cons.inj begins).1 (by decide)
  | cons d t => exact h.lacks ht (c := ':') (by decide) ((List.cons.inj begins).1 ▸ List.mem_cons_self)

/-- No declaration is found, and the semicolon is still left. -/
theorem balks_declaration (before : List Comment) (l : List Char) :
    Balks lenient (t ++ ';' :: l) (Declaration.read before) fun k => ∃ u, u <:+ junk.toList ∧ k = u ++ ';' :: l := by
  have ends := endsName_dropWhile (h.lacks ht (by decide)) l
  have parts : t.takeWhile isIdentifierChar ++ t.dropWhile isIdentifierChar = t := List.takeWhile_append_dropWhile
  rw [Declaration.read_eq]
  refine .here fun p _ => ?_
  -- Some of the junk may be taken for a name, and blanks behind it, before the colon is missed.
  cases name : t.takeWhile isIdentifierChar with
  | nil =>
    rw [name, List.nil_append] at parts
    rw [parts] at ends
    exact .first (.identifier ends (by simp) ⟨t, ht, rfl⟩)
  | cons c w =>
    have chars : (c :: w).all isIdentifierChar = true := name ▸ List.all_takeWhile
    have inner : t.dropWhile isIdentifierChar <:+ junk.toList := (List.dropWhile_suffix _).trans ht
    have behind : pastBlank (t.dropWhile isIdentifierChar) <:+ junk.toList := (List.dropWhile_suffix _).trans inner
    rw [name] at parts
    rw [← parts, List.append_assoc]
    refine .behind (Takes.word _ chars (List.cons_ne_nil c w) ends) (fun _ => .identifier _) fun _ _ => ?_
    refine .behind (Takes.blanks (stops_pastBlank (h.uncommented_suffix inner) l)) (fun _ => gap_steadyWhole) fun _ _ => ?_
    rw [pastBlank_append_solid rfl]
    exact .first (.discard (.literal (h.not_colon behind l) ⟨_, behind, rfl⟩))

theorem takes_recover (hl : l.head? ≠ some ';') : Takes (t ++ ';' :: l) l RuleSet.recover (· = true) := by
  have excluded : ['\n', ';', '\x7d'] ⊆ ['\\', ':', ';', '\x7d', '\n'] := by decide
  have stops : t.all (· ∉ ['\n', ';', '\x7d']) = true :=
    List.all_eq_true.mpr fun c mem => decide_eq_true fun stop => h.lacks ht (excluded stop) mem
  have taken : Takes (t ++ ';' :: l) l RuleSet.passFaulty (· = true) := by
    refine (Takes.upToBefore stops (by decide) (by decide) (h.uncommented_suffix ht) false).discard.bind fun _ _ => ?_
    refine .here fun p hp => ?_
    rw [Place.comes_of_head hp (t := "\x7d") rfl (by decide), if_pos (by decide)]
    exact (Takes.skip 1).bind fun _ _ => (Declaration.takes_noSemicolons hl).bind fun _ _ => .pure rfl
  intro s hs
  obtain ⟨found, s', ho, left⟩ := taken s hs
  exact ⟨found, s', by rw [RuleSet.outcome_recover, ho, Read.rescued_ok], left⟩

/-- Lenient reading leaves out what it could not read, with the semicolon. -/
theorem passes_skipEntry (hl : l.head? ≠ some ';') (r : RuleSet) (e : Fault) :
    Passes (t ++ ';' :: l) l (RuleSet.skipEntry r e) (· = some r) := by
  have recovered := Passes.of_takes (h.takes_recover ht hl) fun _ => RuleSet.recover_steady
  refine .asking ((Passes.note _ _).bind fun _ _ => recovered.bind fun found hfound => ?_)
  rw [hfound]
  exact .pure rfl

theorem passes_readNext (hl : l.head? ≠ some ';') (r : RuleSet) (comments : List Comment) :
    Passes (t ++ ';' :: l) l (RuleSet.readNext r comments) (· = some r) := by
  -- What the failed declaration leaves of the junk depends on the junk, and recovery must end behind it all the same.
  refine (Balks.first (h.balks_declaration ht comments l)).handled fun e k left => ?_
  obtain ⟨u, hu, rfl⟩ := left
  exact h.passes_skipEntry hu hl r e

theorem balks_readNext (l : List Char) (r : RuleSet) (comments : List Comment) :
    Balks false (t ++ ';' :: l) (RuleSet.readNext r comments) fun k => ∃ u, u <:+ junk.toList ∧ k = u ++ ';' :: l :=
  (Balks.first (h.balks_declaration ht comments l)).strict fun e _ => RuleSet.skipEntry_strict r e

end Junk

namespace RuleSet

/-- In a mode, reading of declarations where `l` is left comes to reading of them where `m` is left, and adds `ds` on
the way, seen without places. -/
def LeadsTo (lenient : Bool) (l : List Char) (ds : List Declaration) (m : List Char) : Prop :=
  ∀ (r : RuleSet) (n : Nat) (s : Reader), s.settings.lenient = lenient → s.place.rest = l → l.length ≤ n → r.Passed s →
    ∃ r' n' s', (readInto r n).outcome s = (readInto r' n').outcome s' ∧ s'.settings.lenient = lenient ∧
      s'.place.rest = m ∧ m.length ≤ n' ∧ r'.Passed s' ∧ r'.comments = r.comments ∧
        r'.declarations.map (Declaration.bare true) = r.declarations.map (Declaration.bare true) ++ ds

namespace LeadsTo

variable {ds es : List Declaration}

theorem refl (lenient : Bool) (l : List Char) : LeadsTo lenient l [] l :=
  fun r n s hl hs hn hr => ⟨r, n, s, rfl, hl, hs, hn, hr, rfl, (List.append_nil _).symm⟩

theorem trans (h : LeadsTo lenient l ds m) (h' : LeadsTo lenient m es k) : LeadsTo lenient l (ds ++ es) k := by
  intro r n s hl hs hn hr
  obtain ⟨r₁, n₁, s₁, ho₁, hl₁, hs₁, hn₁, hr₁, comments₁, added₁⟩ := h r n s hl hs hn hr
  obtain ⟨r₂, n₂, s₂, ho₂, hl₂, hs₂, hn₂, hr₂, comments₂, added₂⟩ := h' r₁ n₁ s₁ hl₁ hs₁ hn₁ hr₁
  refine ⟨r₂, n₂, s₂, ho₁.trans ho₂, hl₂, hs₂, hn₂, hr₂, comments₂.trans comments₁, ?_⟩
  rw [added₂, added₁, List.append_assoc]

end LeadsTo

theorem textOf_append (f : Layout) (c e b l : List Char) (ds : List Declaration) :
    textOf f c e b ds ++ l = textOf f c (e ++ l) b ds := by
  induction ds generalizing b with
  | nil => rfl
  | cons d ds ih => rw [textOf, textOf, ← ih c, List.append_assoc, List.append_assoc, List.append_assoc, List.cons_append]

section Declared

variable {f : Layout} (hf : f.IsBlank)

include hf

/-- A written declaration is added. -/
theorem leadsTo_core {d : Declaration} (hd : d.isPlain = true) {g : List Char} (hg : IsGap (f.kept d.comments) g)
    (hl : l.head? ≠ some ';') : LeadsTo lenient (g ++ (d.core f ++ ';' :: l)) [d.bare f.comments] l := by
  intro r n s mode hs hn hr
  obtain ⟨d', s', ho, settings, rest, same, passed⟩ :=
    readInto_core (k := .plain) hf hd hg (.semicolon hl) hn hs hr (by simp)
  refine ⟨_, l.length, s', ho, settings ▸ mode, rest, Nat.le_refl _, passed, rfl, ?_⟩
  simp only [Rereading.plain, Declaration.viewed_same] at same
  rw [withDeclarations, List.map_append, List.map_singleton, same]

variable {b c e : List Char} {ds : List Declaration}

theorem head_textOf (hb : b.all Text.isSpacing = true) (hd : ∀ d ∈ ds, d.isPlain = true) (he : e.head? ≠ some ';') :
    (textOf f c e b ds).head? ≠ some ';' := by
  cases ds with
  | nil => exact he
  | cons d ds =>
    have plain := hd d List.mem_cons_self
    rw [textOf, ← List.append_assoc]
    exact (isGap_before hf plain hb).head_ne (by decide) (core_head_ne plain _)

/-- Written declarations are added in their order, whatever stands behind them. -/
theorem leadsTo_textOf (hc : c.all Text.isSpacing = true) (hb : b.all Text.isSpacing = true)
    (hd : ∀ d ∈ ds, d.isPlain = true) (he : e.head? ≠ some ';') :
    LeadsTo lenient (textOf f c e b ds) (ds.map (Declaration.bare f.comments)) e := by
  -- No semicolon may begin the text of the others: the reader of a declaration would skip it with its own.
  induction ds generalizing b with
  | nil => exact .refl lenient e
  | cons d ds ih =>
    obtain ⟨plain, others⟩ := List.forall_mem_cons.mp hd
    rw [textOf, ← List.append_assoc]
    exact (leadsTo_core hf plain (isGap_before hf plain hb) (head_textOf hf hc others he)).trans (ih hc others)

/-- What is written of a plain rule set is read up to the spacing behind its last declaration. -/
theorem leadsTo_toCss (keeps : f.lastSemicolon = true) {r : RuleSet} (hr : r.isPlain = true)
    (hl : l.head? ≠ some ';') : ((r.toCss f).toList ++ l).head? ≠ some ';' ∧
      ∃ a, a.all Text.isSpacing = true ∧ LeadsTo lenient ((r.toCss f).toList ++ l)
        (r.declarations.map (Declaration.bare f.comments)) (a ++ l) := by
  obtain ⟨before, between, behind⟩ := spacing_declarations hf
  have plain := isPlainWith_declarations hr
  have next : (f.afterDeclarations.toList ++ l).head? ≠ some ';' :=
    IsGap.head_ne (.ofBlanks (all_isBlank behind)) (by decide) hl
  unfold toCss
  by_cases empty : r.declarations = []
  · rw [empty]
    exact ⟨hl, [], rfl, .refl lenient l⟩
  · rw [List.isEmpty_eq_false_iff.mpr empty, if_neg Bool.false_ne_true, Layout.dropSemicolon, keeps, if_pos rfl,
      texts_textOf hr empty, textOf_append]
    exact ⟨head_textOf hf.deeper before plain next, _, behind, leadsTo_textOf hf.deeper between before plain next⟩

end Declared

section Faulty

variable {a : List Char} {junk : String} (h : Junk junk) (ha : a.all Text.isBlank = true)

include h ha

/-- Behind the blanks in front of junk the next declaration is looked for. -/
theorem outcome_junk (r : RuleSet) (n : Nat) {s : Reader} (hs : s.place.rest = a ++ (junk.toList ++ ';' :: l)) :
    ∃ comments s', (readInto r n).outcome s = (readNext r comments >>= goOn r n).outcome s' ∧
      s'.settings = s.settings ∧ s'.place.rest = pastBlank junk.toList ++ ';' :: l ∧ (r.Passed s → r.Passed s') := by
  have gap := Takes.blanks (l := a ++ (junk.toList ++ ';' :: l))
  rw [pastBlank_append ha] at gap
  obtain ⟨comments, s', ho, rest, -⟩ := gap (stops_pastBlank h.uncommented l) s hs
  rw [pastBlank_append_solid rfl] at rest
  obtain ⟨c, u, start, brace⟩ := h.start
  have begins : s'.place.rest = c :: (u ++ ';' :: l) := rest.trans (congrArg (· ++ ';' :: l) start)
  refine ⟨comments, s', ?_, (gap_steadyWhole.kept ho).settings, rest, fun passed => passed.of_steady gap_steadyWhole ho⟩
  rw [readInto_eq, Read.outcome_bind, ho, Read.following_ok, readFrom, Read.outcome_bind, Read.outcome_place,
    Read.following_ok, Place.comes_of_head begins (t := "\x7d") rfl (Ne.symm brace), if_neg Bool.false_ne_true]

/-- Lenient reading leaves junk out and keeps all that was read before. -/
theorem leadsTo_junk (hl : l.head? ≠ some ';') : LeadsTo true (a ++ (junk.toList ++ ';' :: l)) [] l := by
  intro r n s mode hs hn hr
  obtain ⟨comments, s₁, ho, settings, rest, passed⟩ := outcome_junk h ha r n hs
  obtain ⟨next, s₂, hnext, mode₂, rest₂, rfl⟩ :=
    h.passes_readNext (List.dropWhile_suffix _) hl r comments s₁ (settings ▸ mode) rest
  have fewer : s₂.place.rest.length < n := by
    simp only [List.length_append, List.length_cons] at hn
    rw [rest₂]
    omega
  refine ⟨r, s₂.place.rest.length, s₂, ?_, mode₂, rest₂, by rw [rest₂], (passed hr).next hnext, rfl,
    (List.append_nil _).symm⟩
  rw [ho, Read.outcome_bind, hnext, Read.following_ok, goOn, Read.outcome_shorter, dif_pos fewer]

/-- Strict reading does not go on behind junk. -/
theorem balks_junk (r : RuleSet) (n : Nat) :
    Balks false (a ++ (junk.toList ++ ';' :: l)) (readInto r n) fun k => ∃ u, u <:+ junk.toList ∧ k = u ++ ';' :: l := by
  intro s mode hs
  obtain ⟨comments, s₁, ho, settings, rest, -⟩ := outcome_junk h ha r n hs
  rw [ho]
  exact (Balks.first (h.balks_readNext (List.dropWhile_suffix _) l r comments)) s₁ (settings ▸ mode) rest

end Faulty

section Whole

variable {ds : List Declaration} (hl : l.head? ≠ some ';') (position : Position)

include hl

/-- Behind the opening brace the declarations are read that are reached up to the closing one. -/
theorem passes_read {b : List Char} (hb : b.all Text.isSpacing = true) (h : LeadsTo true l ds (b ++ '\x7d' :: m)) :
    Passes l m (read position []) fun r => r.comments = [] ∧ r.declarations.map (Declaration.bare true) = ds := by
  have semicolons := Declaration.takes_noSemicolons hl
  refine (Passes.of_takes semicolons fun _ => Declaration.skipSemicolons_steady).bind fun _ _ => ?_
  intro s mode hs
  obtain ⟨r, n, s₁, ho, mode₁, rest, -, -, comments, added⟩ :=
    h { position := some position, comments := [] } s.place.rest.length s mode hs (by rw [hs]) nofun
  obtain ⟨s₂, ho₂, rest₂⟩ := readInto_closing hb r n rest
  have settings : s₂.settings = s₁.settings := ((readInto_steady r n).kept ho₂).settings
  refine ⟨r, s₂, ?_, settings ▸ mode₁, rest₂, comments, added⟩
  rw [Read.outcome_bind, Read.outcome_left, Read.following_ok, ho, ho₂]

theorem balks_read {Q : List Char → Prop} (h : LeadsTo false l ds m) (fails : ∀ r n, Balks false m (readInto r n) Q)
    (comments : List Comment) : Balks false l (read position comments) Q := by
  have semicolons := Declaration.takes_noSemicolons hl
  refine .behind semicolons (fun _ => Declaration.skipSemicolons_steady) fun _ _ => ?_
  intro s mode hs
  obtain ⟨r, n, s₁, ho, mode₁, rest, -⟩ :=
    h { position := some position, comments := comments } s.place.rest.length s mode hs (by rw [hs]) nofun
  rw [Read.outcome_bind, Read.outcome_left, Read.following_ok, ho]
  exact fails r n s₁ mode₁ rest

end Whole

section Between

variable {f : Layout} {r : RuleSet} {junk : String} (hf : f.IsBlank) (keeps : f.lastSemicolon = true)
  (hr : r.isPlain = true) (h : Junk junk) (position : Position)

include hf keeps hr h

/-- Lenient reading keeps the declarations before and behind junk. -/
theorem passes_between {r' : RuleSet} (hr' : r'.isPlain = true) :
    Passes ((r.toCss f).toList ++ (junk.toList ++ ';' :: ((r'.toCss f).toList ++ '\x7d' :: l))) l (read position [])
      fun read => read.comments = [] ∧ read.declarations.map (Declaration.bare true) =
        (r.declarations ++ r'.declarations).map (Declaration.bare f.comments) := by
  obtain ⟨next, b, behind, added'⟩ := leadsTo_toCss hf keeps hr' (l := '\x7d' :: l) (by simp)
  obtain ⟨start, a, before, added⟩ := leadsTo_toCss hf keeps hr (h.head_ne _)
  have whole := (added.trans (leadsTo_junk h (all_isBlank before) next)).trans added'
  rw [List.append_nil, ← List.map_append] at whole
  exact passes_read start position behind whole

/-- Strict reading ends at junk behind declarations. -/
theorem balks_between (l : List Char) :
    Balks false ((r.toCss f).toList ++ (junk.toList ++ ';' :: l)) (read position [])
      fun k => ∃ u, u <:+ junk.toList ∧ k = u ++ ';' :: l := by
  obtain ⟨start, a, before, added⟩ := leadsTo_toCss hf keeps hr (h.head_ne _)
  exact balks_read start position added (balks_junk h (all_isBlank before)) []

end Between

end RuleSet

namespace StyleRule

variable {ss : List Selector} (nonempty : ss ≠ []) (plain : ∀ s ∈ ss, s.isPlain false = true)

include nonempty plain

/-- A rule of plain selectors is read as its rule set is. -/
theorem passes_read {P : RuleSet → Prop} (h : ∀ p, Passes l m (RuleSet.read p []) P) :
    Passes (Selector.textOf [] [] [] ss ++ '\x7b' :: l) m (read false) fun o => ∃ r, o = some ⟨ss, r⟩ ∧ P r := by
  rw [read_eq]
  refine .here fun p _ => ?_
  refine (Passes.of_takes (takes_head nonempty plain rfl rfl rfl p) fun _ => readHeadOrSkip_steady false p).bind fun head hh => ?_
  rw [hh]
  refine (Passes.of_takes (Takes.char rfl).discard fun _ => (Steady.literal _).discard).bind fun _ _ => ?_
  exact (h p.position).bind fun r hr => .pure ⟨r, rfl, hr⟩

theorem balks_read {Q : List Char → Prop} (h : ∀ p, Balks false l (RuleSet.read p []) Q) :
    Balks false (Selector.textOf [] [] [] ss ++ '\x7b' :: l) (read false) Q := by
  rw [read_eq]
  refine .here fun p _ => ?_
  refine .behind (takes_head nonempty plain rfl rfl rfl p) (fun _ => readHeadOrSkip_steady false p) fun head hh => ?_
  rw [hh]
  refine .behind (Takes.char rfl).discard (fun _ => (Steady.literal _).discard) fun _ _ => ?_
  exact .first (h p.position)

end StyleRule

namespace Statement

variable {n : Nat} {r s : Reader} {c : Char} {t : List Char} (hr : r.place.rest = c :: t)
  (head : Text.isBlank c = false ∧ c ∉ ['/', '@', '\x7d'])

include hr head

/-- Where no at-sign and no closing brace stands, a style rule is read. -/
theorem outcome_readItem_style (readBody : Owner → Read Sheet) :
    (readItem readBody .sheet true).outcome r = (StyleRule.read false >>= ofRule).outcome r := by
  have other (d : Char) (hd : d ∈ ['/', '@', '\x7d']) : d ≠ c := fun h => head.2 (h ▸ hd)
  rw [readItem_eq, Read.outcome_bind, Read.outcome_place, Read.following_ok,
    Place.comes_of_head hr (t := "@") rfl (other _ (by decide)), if_neg Bool.false_ne_true, readUnnamed,
    Place.comes_of_head hr (t := "\x7d") rfl (other _ (by decide)), if_neg Bool.false_ne_true]
  rfl

/-- A text that is one style rule is read as a sheet of this rule. -/
theorem readAllIn_style {rule : StyleRule} (hn : 0 < n)
    (ho : (StyleRule.read false).outcome r = (.ok (some rule), s)) (hs : s.place.rest = []) :
    (readAllIn n .sheet true []).outcome r = (.ok ([.style rule], []), s) := by
  have item : (readItemOrSkip (readInside n) .sheet true).outcome r = (.ok (some (.statement (.style rule))), s) := by
    rw [outcome_readItemOrSkip, Read.outcome_map, outcome_readItem_style hr head, Read.outcome_bind, ho]
    rfl
  have done : s.place.atEnd = true := by
    rw [Place.atEnd, hs]
    rfl
  have nothing : (readBehind n .sheet false).outcome s = (.ok ([], []), s) := by
    rw [readBehind, Read.outcome_shorter, dif_pos (by rw [hs]; exact hn), readAllIn_eq, Read.outcome_bind,
      Read.outcome_place, Read.following_ok, if_pos done]
    rfl
  rw [outcome_readAllIn_solid hr head.1 (fun h => head.2 (h ▸ List.mem_cons_self)), Read.outcome_bind, item,
    Read.following_ok, goOn, Read.outcome_bind, nothing]
  rfl

/-- Strict reading ends with the fault of a style rule. -/
theorem readAllIn_fault {e : Fault} (mode : s.settings.lenient = false)
    (ho : (StyleRule.read false).outcome r = (.error e, s)) :
    (readAllIn n .sheet true []).outcome r = (.error e, s) := by
  rw [outcome_readAllIn_solid hr head.1 (fun h => head.2 (h ▸ List.mem_cons_self)), Read.outcome_bind,
    outcome_readItemOrSkip, Read.outcome_map, outcome_readItem_style hr head, Read.outcome_bind, ho,
    Read.following_error, Read.following_error, Read.rescued_error, skipItem_strict r.place e mode, Read.following_error]

end Statement

namespace Sheet

section Style

variable {settings : Settings} {text : String} {s : Reader} {c : Char} {t : List Char} (ht : text.toList = c :: t)
  (head : Text.isBlank c = false ∧ c ∉ ['/', '@', '\x7d'] ∧ c ≠ '\uFEFF')

include ht head

theorem withoutMark_of_cons : withoutMark text = text := by
  refine withoutMark_of_head ?_
  rw [ht]
  exact fun h => head.2.2 (Option.some.inj h)

theorem parse_style {rule : StyleRule}
    (ho : (StyleRule.read false).outcome (Reader.start text settings 1) = (.ok (some rule), s))
    (hs : s.place.rest = []) : (parse settings text).1 = .ok ⟨[.style rule], some ⟨1, 0⟩, [], []⟩ := by
  have nonempty : 0 < text.toList.length := by rw [ht]; exact Nat.zero_lt_succ _
  have all := Statement.readAllIn_style ht ⟨head.1, head.2.1⟩ nonempty ho hs
  rw [← withoutMark_of_cons ht head] at all
  exact parse_of_readAllIn all

theorem parse_fault {e : Fault} (strict : settings.lenient = false)
    (ho : (StyleRule.read false).outcome (Reader.start text settings 1) = (.error e, s)) :
    (parse settings text).1 = .error e := by
  have mode : s.settings.lenient = false := by
    rw [← strict]
    exact congrArg Settings.lenient ((StyleRule.read_steady false).settings ho)
  have all := Statement.readAllIn_fault (n := text.toList.length) ht ⟨head.1, head.2.1⟩ mode ho
  have length : (Reader.start text settings 1).place.rest.length = text.toList.length := rfl
  rw [parse_eq, withoutMark_of_cons ht head, read, Read.outcome_bind, Read.outcome_left, Read.following_ok, length,
    Read.outcome_bind, all]
  rfl

end Style

variable {as bs : List Declaration} {junk : String}

/-- A rule for `p` with junk between its declarations. -/
def withJunk (as : List Declaration) (junk : String) (bs : List Declaration) : String :=
  "p\x7b" ++ RuleSet.toCss .plain { declarations := as } ++ junk ++ ";" ++
    RuleSet.toCss .plain { declarations := bs } ++ "\x7d"

theorem toList_withJunk (as : List Declaration) (junk : String) (bs : List Declaration) :
    (withJunk as junk bs).toList = 'p' :: '\x7b' :: ((RuleSet.toCss .plain { declarations := as }).toList ++
      (junk.toList ++ ';' :: ((RuleSet.toCss .plain { declarations := bs }).toList ++ ['\x7d']))) := by
  simp [withJunk]

/-- A junk declaration is dropped alone. Whatever the junk holds, lenient reading of a rule yields the declarations
before and behind it, and strict reading finds something else than it expects. -/
theorem parse_withJunk (ha : ∀ d ∈ as, d.isPlain = true) (hb : ∀ d ∈ bs, d.isPlain = true) (h : Junk junk)
    (settings : Settings) :
    (∃ sheet, (parse { settings with lenient := true } (withJunk as junk bs)).1 = .ok sheet ∧
      sheet.bare true = Sheet.bare false { contents := [.style ⟨[⟨"p"⟩], { declarations := as ++ bs }⟩] }) ∧
    ∃ expected found location, (parse { settings with lenient := false } (withJunk as junk bs)).1 =
      .error (.unexpectedToken expected found location) := by
  have plain {ds : List Declaration} (hd : ∀ d ∈ ds, d.isPlain = true) :
      RuleSet.isPlain { declarations := ds } = true := by
    rw [RuleSet.isPlain, RuleSet.isPlainWith, Bool.and_eq_true, List.all_eq_true]
    exact ⟨hd, rfl⟩
  have text := toList_withJunk as junk bs
  have selectors : ∀ s ∈ [(⟨"p"⟩ : Selector)], s.isPlain false = true := by decide
  constructor
  · have passes := StyleRule.passes_read (List.cons_ne_nil _ _) selectors fun p =>
      RuleSet.passes_between (l := []) Layout.isBlank_plain rfl (plain ha) h p (plain hb)
    obtain ⟨rule, s, ho, -, hs, rules, rfl, comments, added⟩ :=
      passes (Reader.start (withJunk as junk bs) { settings with lenient := true } 1) rfl text
    refine ⟨_, parse_style text (by decide) ho hs, ?_⟩
    have same : rules.bare true = RuleSet.bare false { declarations := as ++ bs } := by
      rw [RuleSet.bare, RuleSet.bare, added, comments]
      rfl
    exact congrArg (fun r => (⟨[.style ⟨[⟨"p"⟩], r⟩], none, [], []⟩ : Sheet)) same
  · have balks := StyleRule.balks_read (List.cons_ne_nil _ _) selectors fun p =>
      RuleSet.balks_between Layout.isBlank_plain rfl (plain ha) h p
        ((RuleSet.toCss .plain { declarations := bs }).toList ++ ['\x7d'])
    obtain ⟨e, s, ho, token, -⟩ :=
      balks (Reader.start (withJunk as junk bs) { settings with lenient := false } 1) rfl text
    have fault := parse_fault text (by decide) rfl ho
    cases e with
    | unexpectedToken expected found location => exact ⟨expected, found, location, fault⟩
    | unexpectedEnd | misplaced | unwritable => cases token

/-- A word of the language, an opening brace and a string that is left open are dropped alike. -/
theorem parse_withJunk_quoted :
    let value : Value := .list [.keyword "auto", .keyword "inherit"] .space none
    let as : List Declaration := [{ name := "margin", value := some value, important := true }]
    let bs : List Declaration := [{ name := "color", value := some (.keyword "red") }]
    let junk := " important \x7b \"a ( @b"
    (∀ d ∈ as, d.isPlain = true) ∧ (∀ d ∈ bs, d.isPlain = true) ∧ Junk junk ∧
      (∃ sheet, (parse { lenient := true } (withJunk as junk bs)).1 = .ok sheet ∧
        sheet.bare true = Sheet.bare false { contents := [.style ⟨[⟨"p"⟩], { declarations := as ++ bs }⟩] }) ∧
      ∃ expected found location, (parse { lenient := false } (withJunk as junk bs)).1 =
        .error (.unexpectedToken expected found location) := by
  intro value as bs junk
  have before : ∀ d ∈ as, d.isPlain = true := by decide
  have behind : ∀ d ∈ bs, d.isPlain = true := by decide
  have dropped : Junk junk := ⟨by simp [junk], Text.not_infix_of_hasPair (by decide), 'i', by decide, by decide⟩
  exact ⟨before, behind, dropped, parse_withJunk before behind dropped {}⟩

end Sheet

end Stylesheet
