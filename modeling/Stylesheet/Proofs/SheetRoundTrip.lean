import Stylesheet.Proofs.Laying

namespace Stylesheet

open Read (Takes)

/-- A plain selector begins with a character that begins nothing else. -/
theorem Selector.head_of_isPlain {s : Selector} {keyframe : Bool} (hs : s.isPlain keyframe = true) :
    ∃ c rest, s.text.toList = c :: rest ∧ Text.isBlank c = false ∧ c ∉ ['/', '\x7d', '@', '\uFEFF'] := by
  have runs := runs_of_isPlain hs
  simp only [isPlain, isValid, Bool.and_eq_true, bne_iff_ne] at hs
  obtain ⟨⟨⟨⟨⟨trimmed, nonempty, -⟩, mark⟩, -⟩, -⟩, -⟩ := hs
  have whole := Text.isTrimmed_iff.mp trimmed
  cases ht : s.text.toList with
  | nil =>
    have empty : Text.trim s.text = "" := by rw [Text.trim, ht]; rfl
    rw [empty] at nonempty
    cases nonempty
  | cons c rest =>
    rw [ht] at whole runs mark
    have other : c ∉ ['/', '\x7d', '@'] := by
      cases runs with
      | opening => decide
      | bracket => decide
      | ordinary hc =>
        have known := ordinary_of hc
        simp [known.other.2.1, known.other.2.2.2, known.unruled]
    refine ⟨c, rest, rfl, Text.solid_of_trimmed whole, fun h => ?_⟩
    simp only [List.mem_cons, List.not_mem_nil, or_false, not_or] at other h
    rcases h with h | h | h | h
    · exact other.1 h
    · exact other.2.1 h
    · exact other.2.2 h
    · exact mark (congrArg some h)

/-- What a written statement begins with: an at-sign, or a character that begins nothing else. -/
theorem Writes.head {holds : String → Value → Bool} {f : Layout} {keyframe : Bool} {s : Statement} {t : List Char}
    (h : Writes holds f keyframe s t) :
    ∃ c rest, t = c :: rest ∧ Text.isBlank c = false ∧ c ∉ ['/', '\x7d', '\uFEFF'] ∧
      (c = '@' ↔ s.style? = none) := by
  cases h with
  | @style _ _ r hr =>
    simp only [StyleRule.isPlainWith, Bool.and_eq_true, Bool.not_eq_true', List.isEmpty_eq_false_iff] at hr
    cases hs : r.selectors with
    | nil => exact absurd hs hr.1.1
    | cons s ss =>
      rw [hs, List.all_cons, Bool.and_eq_true] at hr
      obtain ⟨c, rest, hc, solid, other⟩ := Selector.head_of_isPlain hr.1.2.1
      simp only [List.mem_cons, List.not_mem_nil, or_false, not_or] at other
      have text : ∃ more, Selector.textOf (f.fit f.spacing.beforeSelectorComma).toList
          (f.fit f.spacing.afterSelectorComma).toList (f.inserts.afterSelectors.toList ++ f.beforeBrace.toList)
            (s :: ss) = c :: more := by
        cases ss with
        | nil => exact ⟨_, by rw [Selector.textOf, hc]; rfl⟩
        | cons second ss => exact ⟨_, by rw [Selector.textOf, hc]; rfl; exact List.cons_ne_nil _ _⟩
      obtain ⟨more, hmore⟩ := text
      refine ⟨c, _, by rw [hmore]; rfl, solid, ?_, ?_⟩
      · simp [other.1, other.2.1, other.2.2.2]
      · exact ⟨fun h => absurd h other.2.2.1, fun h => by cases h⟩
  | descriptors | grouping | keyframes | imports | charset | naming =>
    exact ⟨'@', _, rfl, rfl, by decide, fun _ => rfl, fun _ => rfl⟩

theorem EndsName.append_spacing {b l : List Char} (hb : b.all Text.isSpacing = true) (hl : EndsName l) :
    EndsName (b ++ l) := by
  cases b with
  | nil => exact hl
  | cons c b =>
    rw [List.all_cons, Bool.and_eq_true] at hb
    exact endsName_of_isSpacing hb.1

namespace Statement

variable {f : Layout} {k : Rereading} {holds : String → Value → Bool} {l m : List Char}

/-- The statement `s'` is `s` once it has its comments. -/
def Reread (view : Layout → Value → Value) (f : Layout) (s s' : Statement) : Prop :=
  ∀ cs : List Comment, cs.map Comment.text = f.kept s.comments →
    ((s'.addComments cs).viewed view f).bare true = (s.viewed view f).bare f.comments

/-- The body `b` holds what a written one held. -/
structure RereadBody (view : Layout → Value → Value) (f : Layout) (ss : List Statement) (ts : List Comment) (b : Sheet) :
    Prop where
  contents : bareAll true (viewedAll view f b.contents) = bareAll f.comments (viewedAll view f ss)
  trailing : Comment.bareAll true b.trailing = Comment.bareAll f.comments ts
  comments : b.comments = []

/-- Under the comments of the written body, which stand above its rule, the body read back is the written one. -/
theorem RereadBody.bare {ss : List Statement} {cs ts ds : List Comment} {b : Sheet}
    {view : Layout → Value → Value}
    (hb : RereadBody view f.deeper ss ts b) (hd : ds.map Comment.text = f.kept cs) (q : Option Position) :
    Sheet.bare true ⟨viewedAll view f.deeper b.contents, b.position, ds ++ b.comments, b.trailing⟩ =
      Sheet.bare f.comments ⟨viewedAll view f.deeper ss, q, cs, ts⟩ := by
  have comments : Comment.bareAll true (ds ++ b.comments) = Comment.bareAll f.comments cs := by
    rw [hb.comments, List.append_nil]
    exact Comment.bareAll_of_texts hd
  rw [Sheet.bare, Sheet.bare, hb.contents, hb.trailing, comments]
  rfl

/-- The reader of bodies reads back what is laid out in fewer than `n` characters. -/
def ReadsBodies (k : Rereading) (n : Nat) (readBody : Owner → Read Sheet) : Prop :=
  ∀ (f : Layout) (owner : Owner) (ss : List Statement) (ts : List Comment) (t l : List Char), k.fits f →
    owner ≠ .sheet → Lays k.holds f (owner = .keyframes) false ss ts t → (t ++ '\x7d' :: l).length < n →
      Takes (t ++ '\x7d' :: l) ('\x7d' :: l) (readBody owner) (RereadBody k.view f ss ts)

/-- The statement that is read of `s`, which names a charset only if `s` does. -/
def RereadAs (view : Layout → Value → Value) (f : Layout) (s : Statement) (o : Option Statement) : Prop :=
  ∃ s', o = some s' ∧ Reread view f s s' ∧ s'.name? = s.name?

variable {readBody : Owner → Read Sheet}

/-- The name of an at-rule reads back, with the blanks behind it. -/
theorem takes_atName {name : String} {g : List Char} (hn : isLowerName name = true) (he : EndsName (g ++ l))
    (hg : g.all Text.isBlank = true) (hl : Stops l) :
    Takes ('@' :: (name.toList ++ (g ++ l))) l readAtName (·.1 = name) := by
  rw [isLowerName, Bool.and_eq_true, Bool.and_eq_true, Bool.not_eq_true', List.isEmpty_eq_false_iff, beq_iff_eq] at hn
  have lower : String.ofList (if true = true then name.toList.map Char.toLower else name.toList) = name := by
    rw [if_pos rfl, hn.2, String.ofList_toList]
  refine Takes.here fun p _ => (Takes.char rfl).discard.bind fun _ _ => ?_
  refine (Takes.identifier true hn.1.2 hn.1.1 he).bind fun t ht => ?_
  rw [lower] at ht
  refine (Takes.gap (.ofBlanks hg) hl).discard.bind fun _ _ => Takes.here fun q _ => ?_
  exact (Takes.note _ _).bind fun _ _ => .pure ht

theorem takes_atRule {name : String} {g : List Char} {good : Option Statement → Prop}
    (hn : isLowerName name = true) (he : EndsName (g ++ l)) (hg : g.all Text.isBlank = true) (hl : Stops l)
    (hk : ∀ p, Takes l m (readNamed readBody name p) good) :
    Takes ('@' :: (name.toList ++ (g ++ l))) m (readAtRule readBody) good := by
  rw [readAtRule_eq]
  refine (takes_atName hn he hg hl).bind fun n h => ?_
  rw [h]
  exact hk n.2

theorem takes_readRest {t : List Char} (ht : t.all (· ∉ [';']) = true) (hn : ¬ ['/', '*'] <:+: t) :
    Takes (t ++ ';' :: l) l readRest (· = String.ofList t) :=
  Takes.upToBehind ht (by simp) (by decide) hn true

theorem stops_of_url (u : Url) : Stops ((u.toCss f).toList ++ l) := by
  have start : (u.toCss f).toList ++ l = 'u' :: ("rl(".toList ++ ((u.address.toCss f).toList ++ ')' :: l)) := by
    simp [Url.toCss]
  rw [start]
  exact .cons rfl (by decide)

theorem takes_import (hf : f.IsBlank) {url : Url} {media : Option String} {q : Option Position} {cs : List Comment}
    {keyframe : Bool} (hs : (Statement.imports url media q cs).isPlainWith k.holds keyframe = true) :
    Takes ("@import ".toList ++ ((url.toCss f).toList ++ (((media.map (" " ++ ·)).getD "").toList ++ [';'])) ++ l) l
      (readAtRule readBody) (RereadAs k.view f (.imports url media q cs)) := by
  simp only [isPlainWith, Bool.and_eq_true] at hs
  have nul : '\x00' ∉ url.address.text.toList := by simpa [Quoted.isPlain] using hs.1.1
  have start : "@import ".toList ++ ((url.toCss f).toList ++ (((media.map (" " ++ ·)).getD "").toList ++ [';'])) ++ l =
      '@' :: ("import".toList ++ ([' '] ++ ((url.toCss f).toList ++
        (((media.map (" " ++ ·)).getD "").toList ++ ';' :: l)))) := by simp
  rw [start]
  refine takes_atRule (by decide) (.cons rfl (by decide)) rfl (stops_of_url url) fun p => ?_
  obtain ⟨g, t, text, met⟩ : ∃ g t, ((media.map (" " ++ ·)).getD "").toList = g ++ t ∧ Met [';'] (media.getD "") g t := by
    cases media with
    | none => exact ⟨[], [], rfl, rfl, rfl, by simp, rfl, fun c rest h => by cases h⟩
    | some m =>
      simp only [Option.all_some, Bool.and_eq_true] at hs
      have parts := isVerbatim_met hs.1.2.2 rfl (a := [' ']) rfl (b := []) rfl
      rw [List.append_nil] at parts
      simpa using parts
  have known : (if (media.getD "").isEmpty then none else some (media.getD "")) = media := by
    cases media with
    | none => rfl
    | some m =>
      simp only [Option.all_some, Bool.and_eq_true, Bool.not_eq_true'] at hs
      rw [Option.getD_some, hs.1.2.1, if_neg Bool.false_ne_true]
  have reading : Takes ((url.toCss f).toList ++ (((media.map (" " ++ ·)).getD "").toList ++ ';' :: l)) l (readImport p)
      fun s' => ∃ url', url'.address.text = url.address.text ∧ s' = .imports url' media (some p) [] := by
    refine (Takes.url hf.quote nul).bind fun url' hu => ?_
    rw [text, List.append_assoc]
    refine (Takes.gap (.ofBlanks met.skipped) (met.stops rfl (by decide))).discard.bind fun _ _ => ?_
    refine (takes_readRest met.unstopped met.uncommented).bind fun rest hr => .pure ⟨url', hu, ?_⟩
    rw [hr, met.trimmed, known]
  refine reading.map fun s' h => ?_
  obtain ⟨url', hu, rfl⟩ := h
  refine ⟨_, rfl, fun ds hd => ?_, rfl⟩
  rw [addComments, List.append_nil, viewed, viewed, bare, bare, hu, Comment.bareAll_of_texts hd]
  rfl

theorem takes_charset (hf : f.IsBlank) {encoding : Quoted} (hs : encoding.isPlain = true) :
    Takes ("@charset ".toList ++ ((encoding.toCss f).toList ++ [';']) ++ l) l
      (readAtRule readBody) fun o => ∃ encoding' p, encoding'.text = encoding.text ∧
        o = some (.charset encoding' (some p) []) := by
  have nul : '\x00' ∉ encoding.text.toList := by simpa [Quoted.isPlain] using hs
  have start : "@charset ".toList ++ ((encoding.toCss f).toList ++ [';']) ++ l =
      '@' :: ("charset".toList ++ ([' '] ++ ((encoding.toCss f).toList ++ ';' :: l))) := by simp
  have stops : Stops ((encoding.toCss f).toList ++ ';' :: l) := by
    have head : (encoding.toCss f).toList ++ ';' :: l =
        f.quote :: (encoding.text.toList.flatMap Quoted.escape ++ f.quote :: ';' :: l) := by
      simp [Quoted.toCss]
    rw [head]
    rcases hf.quote with h | h <;> rw [h] <;> exact .cons rfl (by decide)
  rw [start]
  refine takes_atRule (by decide) (.cons rfl (by decide)) rfl stops fun p => ?_
  refine Takes.map (P := fun s' => ∃ encoding', encoding'.text = encoding.text ∧
    s' = .charset encoding' (some p) []) ?_ fun s' h => ?_
  · refine (Takes.quoted hf.quote nul).bind fun encoding' he => ?_
    refine (Takes.noGap (.cons rfl (by decide))).discard.bind fun _ _ => ?_
    exact (takes_readRest (t := []) rfl (by simp)).discard.bind fun _ _ => .pure ⟨encoding', he, rfl⟩
  · obtain ⟨encoding', he, rfl⟩ := h
    exact ⟨encoding', p, he, rfl⟩

section Naming

variable {abbreviation : Option String} {url : Value}

theorem stops_of_plain (hf : f.IsBlank) {v : Value} (hv : v.isPlain [] = true) (k : List Char) :
    Stops ((v.toCss f).toList ++ k) := by
  obtain ⟨c, rest, hc, begins⟩ := Value.head_of_plain hf.inValues hv
  rw [hc]
  exact Value.stops_of_start (isValueStart_of_isPlainStart begins)

/-- What stands behind `@namespace` begins with a name or an address. -/
theorem stops_of_naming (hf : f.IsBlank) (word : abbreviation.all isPlainWord = true) (plain : url.isPlain [] = true) :
    Stops (((abbreviation.map (· ++ " ")).getD "").toList ++ ((url.toCss f).toList ++ l)) := by
  cases abbreviation with
  | none => exact stops_of_plain hf plain _
  | some a =>
    rw [Option.map_some, Option.getD_some, String.toList_append, List.append_assoc]
    exact stops_of_plain hf (v := .keyword a) word _

/-- Behind its address the naming ends. -/
theorem takes_namingEnd {v : Value} (isText : url.isText = true) (hv : v.bare = url.bare) (p : Position)
    (location : Location) :
    Takes (';' :: l) l (if !v.isText then do
        throw (.unexpectedToken "a namespace url or string" (v.toCss .compact) location)
        discard Read.gap
        discard readRest
        return Statement.naming abbreviation v (some p) []
      else do
        discard Read.gap
        discard readRest
        return Statement.naming abbreviation v (some p) [])
      (fun s' => ∃ v p, v.bare = url.bare ∧ s' = Statement.naming abbreviation v (some p) []) := by
  have isText' : v.isText = true := by rw [← Value.isText_bare, hv, Value.isText_bare, isText]
  rw [isText', Bool.not_true, if_neg Bool.false_ne_true]
  apply (Takes.noGap (.cons rfl (by decide))).discard.bind
  intro _ _
  apply (takes_readRest (t := []) rfl (by simp)).discard.bind
  intro _ _
  exact .pure ⟨v, p, hv, rfl⟩

theorem takes_readNaming (hf : f.IsBlank) (word : abbreviation.all isPlainWord = true) (isText : url.isText = true)
    (plain : url.isPlain [] = true) (p : Position) :
    Takes (((abbreviation.map (· ++ " ")).getD "").toList ++ ((url.toCss f).toList ++ ';' :: l)) l (readNaming p)
      (fun s' => ∃ v p, v.bare = url.bare ∧ s' = Statement.naming abbreviation v (some p) []) := by
  have semicolon : Closed (';' :: l) := (ends_of_spacing (b := []) rfl (by decide)).toClosed
  have urlStops : Stops ((url.toCss f).toList ++ ';' :: l) := stops_of_plain hf plain _
  have address : Takes ((url.toCss f).toList ++ ';' :: l) (';' :: l) Value.readPrimitive (·.bare = url.bare) := by
    have taken := Value.takes_readPrimitive hf.inValues plain semicolon
    rwa [pastBlank_cons rfl] at taken
  apply Takes.here
  intro here _
  cases abbreviation with
  | none =>
    apply Takes.bind address
    intro first hfirst
    have isText' : first.isText = true := by rw [← Value.isText_bare, hfirst, Value.isText_bare, isText]
    dsimp only
    rw [if_pos isText', if_pos isText']
    apply (Takes.pure (P := (·.bare = url.bare)) hfirst).bind
    intro v hv
    exact takes_namingEnd isText hv p _
  | some a =>
    have text : ((some a).map (· ++ " ")).getD "" = a ++ " " := rfl
    have behind : pastBlank (' ' :: ((url.toCss f).toList ++ ';' :: l)) = (url.toCss f).toList ++ ';' :: l :=
      (pastBlank_append (b := [' ']) rfl).trans urlStops.solid
    have closed : Closed (' ' :: ((url.toCss f).toList ++ ';' :: l)) :=
      ⟨.cons rfl (by decide), fun c rest h => by cases h; decide, behind.symm ▸ urlStops⟩
    have first := Value.takes_readPrimitive hf.inValues (v := .keyword a) word closed
    rw [behind] at first
    rw [text, String.toList_append, List.append_assoc]
    apply Takes.bind first
    intro first hfirst
    have other : first.isText = false := by rw [← Value.isText_bare, hfirst]; rfl
    have name : first.keyword? = some a := by rw [← Value.keyword?_bare, hfirst]; rfl
    dsimp only
    rw [other, if_neg Bool.false_ne_true, if_neg Bool.false_ne_true, name]
    apply (Takes.noGap urlStops).discard.bind
    intro _ _
    apply address.bind
    intro v hv
    exact takes_namingEnd isText hv p _

theorem takes_naming (hf : f.IsBlank) {q : Option Position} {cs : List Comment} {keyframe : Bool}
    (hs : (Statement.naming abbreviation url q cs).isPlainWith k.holds keyframe = true) :
    Takes ("@namespace ".toList ++
        (((abbreviation.map (· ++ " ")).getD "").toList ++ ((url.toCss f).toList ++ [';'])) ++ l) l
      (readAtRule readBody) (RereadAs k.view f (.naming abbreviation url q cs)) := by
  simp only [isPlainWith, Bool.and_eq_true] at hs
  obtain ⟨⟨⟨word, isText⟩, plain⟩, -⟩ := hs
  have start : "@namespace ".toList ++ (((abbreviation.map (· ++ " ")).getD "").toList ++
      ((url.toCss f).toList ++ [';'])) ++ l = '@' :: ("namespace".toList ++ ([' '] ++
        (((abbreviation.map (· ++ " ")).getD "").toList ++ ((url.toCss f).toList ++ ';' :: l)))) := by simp
  rw [start]
  apply takes_atRule (by decide) (.cons rfl (by decide)) rfl (stops_of_naming hf word plain)
  intro p
  apply (takes_readNaming hf word isText plain p).map
  rintro s' ⟨v, p, hv, rfl⟩
  refine ⟨_, rfl, fun ds hd => ?_, rfl⟩
  rw [addComments, List.append_nil, viewed, viewed, bare, bare, hv, Comment.bareAll_of_texts hd]
  rfl

end Naming

theorem takes_closing : Takes ('\x7d' :: l) l readClosing fun _ => True := by
  refine Takes.here fun p hp => ?_
  rw [if_pos (Place.comes_char (t := "\x7d") hp rfl)]
  exact Takes.skip 1

theorem names_of_keyframes {name : String} (h : AtName.isKeyframes name = true) :
    name ≠ "import" ∧ name ≠ "charset" ∧ name ≠ "namespace" := by
  refine ⟨?_, ?_, ?_⟩ <;> rintro rfl <;> exact absurd h (by decide)

theorem names_of_grouping {name : String} (h : AtName.isGrouping name = true) :
    name ≠ "import" ∧ name ≠ "charset" ∧ name ≠ "namespace" ∧ AtName.isKeyframes name = false := by
  refine ⟨?_, ?_, ?_, ?_⟩
  · rintro rfl
    exact absurd h (by decide)
  · rintro rfl
    exact absurd h (by decide)
  · rintro rfl
    exact absurd h (by decide)
  · rw [Bool.eq_false_iff]
    intro hk
    rw [AtName.isKeyframes, beq_iff_eq] at hk
    rw [AtName.isGrouping, hk] at h
    exact absurd h (by decide)

theorem takes_keyframes (hf : k.fits f) {n : Nat} (hb : ReadsBodies k n readBody) {name animation : String}
    {ss : List Statement} {q : Option Position} {cs ts : List Comment} {keyframe : Bool} {t : List Char}
    (hs : (Statement.keyframes name animation ⟨ss, q, cs, ts⟩).isPlainWith k.holds keyframe = true)
    (ht : Lays k.holds f.deeper true false ss ts t) (hn : (t ++ '\x7d' :: l).length < n) :
    Takes ('@' :: (name.toList ++ ' ' :: (animation.toList ++ (f.beforeBrace.toList ++ '\x7b' :: (t ++ ['\x7d'])))) ++ l) l
      (readAtRule readBody) (RereadAs k.view f (.keyframes name animation ⟨ss, q, cs, ts⟩)) := by
  simp only [isPlainWith, Bool.and_eq_true] at hs
  obtain ⟨⟨⟨⟨⟨lower, named⟩, verbatim⟩, -⟩, -⟩, -⟩ := hs
  have space : f.beforeBrace.toList.all Text.isBlank = true := Layout.blank_fit (k.blank hf) (k.blank hf).beforeBrace
  obtain ⟨g, u, text, met⟩ := isVerbatim_met verbatim rfl (a := [' ']) rfl space
  have behind : ' ' :: (animation.toList ++ (f.beforeBrace.toList ++ '\x7b' :: (t ++ '\x7d' :: l))) =
      g ++ (u ++ '\x7b' :: (t ++ '\x7d' :: l)) := by
    have whole := congrArg (· ++ '\x7b' :: (t ++ '\x7d' :: l)) text
    simpa only [List.append_assoc, List.cons_append, List.nil_append] using whole
  have start : '@' :: (name.toList ++ ' ' :: (animation.toList ++ (f.beforeBrace.toList ++ '\x7b' ::
      (t ++ ['\x7d'])))) ++ l = '@' :: (name.toList ++ (g ++ (u ++ '\x7b' :: (t ++ '\x7d' :: l)))) := by
    rw [← behind]
    simp
  rw [start]
  refine takes_atRule lower (behind ▸ .cons rfl (by decide)) met.skipped (met.stops rfl (by decide)) fun p => ?_
  obtain ⟨noImport, noCharset, noNaming⟩ := names_of_keyframes named
  rw [readNamed, if_neg noImport, if_neg noCharset, if_neg noNaming, if_pos named]
  refine Takes.map (P := fun s' => ∃ b, RereadBody k.view f.deeper ss ts b ∧
    s' = .keyframes name animation { b with position := some p }) ?_ fun s' h => ?_
  · refine (Takes.upToBehind met.unstopped (by simp) (by decide) met.uncommented false).bind fun read hr => ?_
    refine (hb f.deeper .keyframes ss ts t l (k.deeper hf) (by decide) ht hn).bind fun b hbody => ?_
    refine takes_closing.bind fun _ _ => .pure ⟨b, hbody, ?_⟩
    rw [hr, met.trimmed]
  · obtain ⟨b, hbody, rfl⟩ := h
    refine ⟨_, rfl, fun ds hd => ?_, rfl⟩
    rw [addComments, viewed, viewed, bare, bare]
    exact congrArg (keyframes name animation) (hbody.bare hd q)

theorem endsName_of_brace {b : List Char} (hb : b.all Text.isSpacing = true) : EndsName (b ++ '\x7b' :: l) :=
  .append_spacing hb (.cons rfl (by decide))

/-- What stands between the name of a rule and its brace. -/
theorem spaced_met (hf : f.IsBlank) {args : String} (hv : isVerbatim ['\x7b', ';'] args = true) :
    ∃ g t, (spaced args).toList ++ f.beforeBrace.toList = g ++ t ∧ Met ['\x7b', ';'] args g t ∧
      EndsName ((spaced args).toList ++ (f.beforeBrace.toList ++ '\x7b' :: l)) := by
  have spacing : f.beforeBrace.toList.all Text.isSpacing = true := Layout.spacing_fit hf hf.beforeBrace
  cases he : args.isEmpty with
  | true =>
    have unspaced : (spaced args).toList = [] := by rw [spaced, he, if_pos rfl]; rfl
    have empty : args.toList = [] := by rw [String.isEmpty_iff.mp he]; rfl
    obtain ⟨g, t, text, met⟩ := isVerbatim_met hv rfl (a := []) rfl (all_isBlank spacing)
    rw [empty, List.nil_append, List.nil_append] at text
    rw [unspaced, List.nil_append, List.nil_append]
    exact ⟨g, t, text, met, endsName_of_brace spacing⟩
  | false =>
    have behindBlank : (spaced args).toList = ' ' :: args.toList := by
      rw [spaced, he, if_neg Bool.false_ne_true, String.toList_append]
      rfl
    obtain ⟨g, t, text, met⟩ := isVerbatim_met hv rfl (a := [' ']) rfl (all_isBlank spacing)
    rw [behindBlank]
    exact ⟨g, t, text, met, .cons rfl (by decide)⟩

/-- A rule with a block is read up to the brace that opens it. -/
theorem takes_blockRule (hf : f.IsBlank) {name args : String} {good : Option Statement → Prop}
    (lower : isLowerName name = true) (hn : name ≠ "import" ∧ name ≠ "charset" ∧ name ≠ "namespace")
    (hk : AtName.isKeyframes name = false) (hv : isVerbatim ['\x7b', ';'] args = true) (hb : balanced args = true)
    (block : ∀ p, Takes l m (if AtName.isGrouping name then do
        let body ← readBody .grouping
        readClosing
        return some (Statement.grouping name args { body with position := some p })
      else return some (Statement.descriptors name args (← RuleSet.read p []))) good) :
    Takes ('@' :: (name.toList ++ ((spaced args).toList ++ (f.beforeBrace.toList ++ '\x7b' :: l)))) m
      (readAtRule readBody) good := by
  obtain ⟨g, t, text, met, ends⟩ := spaced_met (l := l) hf hv
  have behind : (spaced args).toList ++ (f.beforeBrace.toList ++ '\x7b' :: l) = g ++ (t ++ '\x7b' :: l) := by
    rw [← List.append_assoc, text, List.append_assoc]
  rw [behind] at ends ⊢
  refine takes_atRule lower ends met.skipped (met.stops rfl (by decide)) fun p => ?_
  rw [readNamed, if_neg hn.1, if_neg hn.2.1, if_neg hn.2.2, hk, if_neg Bool.false_ne_true]
  refine Takes.here fun _ _ => (Takes.upToBefore met.unstopped (by simp) (by decide) met.uncommented false).bind
    fun read hr => Takes.here fun q hq => ?_
  rw [hr, met.trimmed, Place.comes_of_head hq (t := ";") rfl (by decide)]
  dsimp only
  rw [if_neg Bool.false_ne_true, hb, Bool.not_true, if_neg Bool.false_ne_true]
  exact (Takes.char rfl).discard.bind fun _ _ => block p

theorem takes_grouping (hf : k.fits f) {n : Nat} (hb : ReadsBodies k n readBody) {name args : String}
    {ss : List Statement} {q : Option Position} {cs ts : List Comment} {keyframe : Bool} {t : List Char}
    (hs : (Statement.grouping name args ⟨ss, q, cs, ts⟩).isPlainWith k.holds keyframe = true)
    (ht : Lays k.holds f.deeper false false ss ts t) (hn : (t ++ '\x7d' :: l).length < n) :
    Takes ('@' :: (name.toList ++ ((spaced args).toList ++ (f.beforeBrace.toList ++ '\x7b' :: (t ++ ['\x7d'])))) ++ l) l
      (readAtRule readBody) (RereadAs k.view f (.grouping name args ⟨ss, q, cs, ts⟩)) := by
  simp only [isPlainWith, Bool.and_eq_true] at hs
  obtain ⟨⟨⟨⟨⟨⟨lower, named⟩, verbatim⟩, matched⟩, -⟩, -⟩, -⟩ := hs
  obtain ⟨noImport, noCharset, noNaming, noKeyframes⟩ := names_of_grouping named
  have start : '@' :: (name.toList ++ ((spaced args).toList ++ (f.beforeBrace.toList ++ '\x7b' :: (t ++ ['\x7d'])))) ++ l =
      '@' :: (name.toList ++ ((spaced args).toList ++ (f.beforeBrace.toList ++ '\x7b' :: (t ++ '\x7d' :: l)))) := by
    simp
  rw [start]
  refine takes_blockRule (k.blank hf) lower ⟨noImport, noCharset, noNaming⟩ noKeyframes verbatim matched fun p => ?_
  rw [if_pos named]
  refine (hb f.deeper .grouping ss ts t l (k.deeper hf) (by decide) ht hn).bind fun b hbody => ?_
  refine takes_closing.bind fun _ _ => .pure ⟨_, rfl, fun ds hd => ?_, rfl⟩
  rw [addComments, viewed, viewed, bare, bare]
  exact congrArg (grouping name args) (hbody.bare hd q)

theorem takes_descriptors (hf : k.fits f) {name args : String} {rules : RuleSet} {keyframe : Bool}
    (hs : (Statement.descriptors name args rules).isPlainWith k.holds keyframe = true) :
    Takes ('@' :: (name.toList ++ ((spaced args).toList ++
      (f.beforeBrace.toList ++ '\x7b' :: ((rules.toCss f).toList ++ ['\x7d'])))) ++ l) l
      (readAtRule readBody) (RereadAs k.view f (.descriptors name args rules)) := by
  simp only [isPlainWith, Bool.and_eq_true, Bool.not_eq_true'] at hs
  obtain ⟨⟨⟨⟨⟨⟨lower, other⟩, noKeyframes⟩, noGrouping⟩, verbatim⟩, matched⟩, plain⟩ := hs
  simp only [List.contains_cons, List.contains_nil, Bool.or_false, Bool.or_eq_false_iff, beq_eq_false_iff_ne] at other
  have start : '@' :: (name.toList ++ ((spaced args).toList ++
      (f.beforeBrace.toList ++ '\x7b' :: ((rules.toCss f).toList ++ ['\x7d'])))) ++ l =
      '@' :: (name.toList ++ ((spaced args).toList ++
        (f.beforeBrace.toList ++ '\x7b' :: ((rules.toCss f).toList ++ '\x7d' :: l)))) := by
    simp
  rw [start]
  refine takes_blockRule (k.blank hf) lower other noKeyframes verbatim matched fun p => ?_
  rw [noGrouping, if_neg Bool.false_ne_true]
  refine (RuleSet.takes_read hf plain p).bind fun rules' hr => .pure ⟨_, rfl, fun ds hd => ?_, rfl⟩
  rw [addComments, viewed, viewed, bare, bare, hr ds hd]

end Statement

namespace StyleRule

variable {f : Layout} {k : Rereading} {l x y e : List Char} {keyframe : Bool}

/-- The selectors of a rule read back. -/
theorem takes_head {ss : List Selector} (nonempty : ss ≠ []) (hs : ∀ s ∈ ss, s.isPlain keyframe = true)
    (hx : x.all Text.isBlank = true) (hy : y.all Text.isBlank = true) (he : e.all Text.isBlank = true) (p : Place) :
    Takes (Selector.textOf x y e ss ++ '\x7b' :: l) ('\x7b' :: l) (tryCatch (readHead keyframe p) skipRule)
      (· = some (ss, [])) := by
  refine Takes.caught (Takes.bind (m := '\x7b' :: l) (P := (· = (Selector.textOf x y e ss, [])))
    (Takes.move fun s q hq => ?_) fun taken ht => ?_)
  · obtain ⟨ho, hrest⟩ := Selector.yields_textOf hx hy he hs s q hq
    exact ⟨_, ho, hrest, rfl⟩
  · have parsed := Selector.parseList_textOf (b := []) hx hy he nonempty hs rfl p.location
    rw [List.nil_append] at parsed
    subst ht
    dsimp only
    rw [parsed]
    exact .pure rfl

/-- A style rule reads back. -/
theorem takes_read (hf : k.fits f) {r : StyleRule} (hr : r.isPlainWith k.holds keyframe = true)
    (hx : x.all Text.isBlank = true) (hy : y.all Text.isBlank = true) (he : e.all Text.isBlank = true) :
    Takes (Selector.textOf x y e r.selectors ++ '\x7b' :: ((r.rules.toCss f).toList ++ '\x7d' :: l)) l
      (read keyframe) fun o => ∃ r', o = some r' ∧ Statement.Reread k.view f (.style r) (.style r') := by
  simp only [isPlainWith, Bool.and_eq_true, Bool.not_eq_true', List.isEmpty_eq_false_iff, List.all_eq_true] at hr
  obtain ⟨⟨nonempty, selectors⟩, rules⟩ := hr
  rw [read_eq]
  refine Takes.here fun p _ => (takes_head nonempty selectors hx hy he p).bind fun head hh => ?_
  subst hh
  refine (Takes.char rfl).discard.bind fun _ _ => ?_
  refine (RuleSet.takes_read hf rules p.position).bind fun rules' hr => .pure ⟨_, rfl, fun cs hcs => ?_⟩
  rw [Statement.addComments, Statement.viewed, Statement.viewed, Statement.bare, Statement.bare, hr cs hcs]

end StyleRule

namespace Statement

variable {f : Layout} {k : Rereading} {l : List Char} {readBody : Owner → Read Sheet}

/-- The first statement of a sheet may name a charset. -/
theorem takes_admission (location : Location) (charset : String) :
    Takes l l (admitCharset .sheet true location charset) fun _ => True :=
  fun r hr => ⟨(), { r with charset := charset }.note .debug ("Parser charset set to " ++ charset), rfl, hr, trivial⟩

/-- A written statement is read as what it was, where a charset may be named. -/
theorem takes_item (hf : k.fits f) {n : Nat} (hb : ReadsBodies k n readBody) {owner : Owner} {s : Statement}
    {c : List Char} (hw : Writes k.holds f (owner = .keyframes) s c) {first : Bool}
    (hc : s.name? = some "charset" → owner = .sheet ∧ first = true) (hn : (c ++ l).length ≤ n) :
    Takes (c ++ l) l (readItem readBody owner first) fun item => ∃ s', item = .statement s' ∧ Reread k.view f s s' := by
  have ruled {t : List Char} (ht : Takes ('@' :: t ++ l) l (readAtRule readBody) (RereadAs k.view f s))
      (hs : s.name? ≠ some "charset") : Takes ('@' :: t ++ l) l (readItem readBody owner first)
        fun item => ∃ s', item = .statement s' ∧ Reread k.view f s s' := by
    refine Takes.here fun p hp => ?_
    rw [if_pos (Place.comes_char (t := "@") hp rfl)]
    refine ht.bind fun o ho => ?_
    obtain ⟨s', rfl, same, name⟩ := ho
    cases s' with
    | charset => exact absurd name.symm hs
    | style | descriptors | grouping | keyframes | imports | naming => exact .pure ⟨_, rfl, same⟩
  obtain ⟨d, rest, hd, -, other, ruleless⟩ := hw.head
  cases hw with
  | @style _ _ r hr =>
    have rule : d ≠ '@' := fun h => by cases ruleless.mp h
    simp only [List.mem_cons, List.not_mem_nil, or_false, not_or] at other
    refine Takes.here fun p hp => ?_
    have start : p.rest = d :: (rest ++ l) := hp.trans (congrArg (· ++ l) hd)
    rw [Place.comes_of_head (t := "@") start rfl (Ne.symm rule), Place.comes_of_head (t := "\x7d") start rfl (Ne.symm other.2.1),
      if_neg Bool.false_ne_true, if_neg Bool.false_ne_true]
    have behind : (f.inserts.afterSelectors.toList ++ f.beforeBrace.toList).all Text.isBlank = true := by
      rw [List.all_append, all_isBlank (k.blank hf).afterSelectors, Bool.true_and]
      exact Layout.blank_fit (k.blank hf) (k.blank hf).beforeBrace
    have taken := StyleRule.takes_read (l := l) hf hr (Layout.blank_fit (k.blank hf) (k.blank hf).beforeSelectorComma)
      (Layout.blank_fit (k.blank hf) (k.blank hf).afterSelectorComma) behind
    rw [List.append_assoc, List.cons_append, List.append_assoc]
    refine Takes.bind taken fun o ho => ?_
    obtain ⟨r', rfl, same⟩ := ho
    exact .pure ⟨_, rfl, same⟩
  | descriptors hs => exact ruled (takes_descriptors hf hs) (name_of_isPlainWith hs)
  | grouping hs ht =>
    refine ruled (takes_grouping hf hb hs ht ?_) (name_of_isPlainWith hs)
    simp only [List.length_append, List.length_cons, List.length_nil] at hn ⊢
    omega
  | keyframes hs ht =>
    refine ruled (takes_keyframes hf hb hs ht ?_) (name_of_isPlainWith hs)
    simp only [List.length_append, List.length_cons, List.length_nil] at hn ⊢
    omega
  | imports hs => exact ruled (takes_import (k.blank hf) hs) (name_of_isPlainWith hs)
  | naming hs => exact ruled (takes_naming (k.blank hf) hs) (name_of_isPlainWith hs)
  | charset hs =>
    obtain ⟨sheet, one⟩ := hc rfl
    subst sheet one
    refine Takes.here fun p hp => ?_
    rw [if_pos (Place.comes_char (t := "@") hp rfl)]
    refine (takes_charset (k.blank hf) hs).bind fun o ho => ?_
    obtain ⟨encoding', q, he, rfl⟩ := ho
    refine (takes_admission p.location encoding'.text).bind fun _ _ => .pure ⟨_, rfl, fun ds hds => ?_⟩
    rw [addComments, List.append_nil, viewed, viewed, bare, bare, he, Comment.bareAll_of_texts hds]
    rfl

/-- What is left behind a body: nothing behind a sheet, a brace behind any other. -/
inductive EndsBody : Owner → List Char → Prop
  | sheet : EndsBody .sheet []
  | brace {owner : Owner} {l : List Char} : owner ≠ .sheet → EndsBody owner ('\x7d' :: l)

/-- What is read of a body with the comments behind its last statement. -/
def RereadAll (view : Layout → Value → Value) (f : Layout) (ss : List Statement) (ts : List Comment)
    (read : List Statement × List Comment) : Prop :=
  bareAll true (viewedAll view f read.1) = bareAll f.comments (viewedAll view f ss) ∧
    Comment.bareAll true read.2 = Comment.bareAll f.comments ts

theorem takes_itemOrSkip {owner : Owner} {first : Bool} {m : List Char} {good : Item → Prop}
    (h : Takes l m (readItem readBody owner first) good) :
    Takes l m (readItemOrSkip readBody owner first) fun o => ∃ item, o = some item ∧ good item := by
  intro r hr
  obtain ⟨item, s, ho, hm, hi⟩ := h r hr
  refine ⟨some item, s, ?_, hm, item, rfl, hi⟩
  rw [outcome_readItemOrSkip, Read.outcome_map, ho]
  rfl

theorem takes_closingItem {owner : Owner} (ho : owner ≠ .sheet) (first : Bool) :
    Takes ('\x7d' :: l) ('\x7d' :: l) (readItem readBody owner first) fun item => item = .closing := by
  refine Takes.here fun p hp => ?_
  rw [Place.comes_of_head (t := "@") hp rfl (by decide), Place.comes_char (t := "\x7d") hp rfl,
    if_neg Bool.false_ne_true, if_pos rfl, if_pos ho]
  exact .pure rfl

theorem takes_sheetEnd (pending : List Comment) : Takes [] [] (readEnd .sheet pending) (· = ([], pending)) :=
  Takes.asking fun _ => .pure rfl

/-- Behind the last statement the comments are read that belong to the body. -/
theorem takes_end {owner : Owner} {ts : List Comment} {g : List Char} (he : EndsBody owner l)
    (hg : IsGap (f.kept ts) g) (n : Nat) (first : Bool) :
    Takes (g ++ l) l (readAllIn n owner first []) (RereadAll k.view f [] ts) := by
  have comments {cs : List Comment} (h : cs.map Comment.text = f.kept ts) : RereadAll k.view f [] ts ([], cs) :=
    ⟨rfl, Comment.bareAll_of_texts h⟩
  rw [readAllIn_eq]
  refine Takes.here fun p hp => ?_
  cases he with
  | sheet =>
    split
    · next atEnd =>
      have empty : g = [] := by
        rw [Place.atEnd, hp, List.append_nil, List.isEmpty_iff] at atEnd
        exact atEnd
      subst empty
      refine (takes_sheetEnd []).mono fun read hr => ?_
      cases hg' : f.kept ts with
      | nil =>
        rw [hr]
        exact comments hg'.symm
      | cons => rw [hg'] at hg; cases hg
    · refine (Takes.gap hg .nil).bind fun cs hcs => Takes.here fun q hq => ?_
      have atEnd : q.atEnd = true := by rw [Place.atEnd, hq]; rfl
      dsimp only
      rw [if_pos atEnd]
      refine (takes_sheetEnd _).mono fun read hr => ?_
      rw [hr]
      exact comments hcs
  | brace ho =>
    have more : p.atEnd = false := by
      rw [Place.atEnd, hp]
      simp
    rw [more, if_neg Bool.false_ne_true]
    refine (Takes.gap hg (.cons rfl (by decide))).bind fun cs hcs => Takes.here fun q hq => ?_
    have more : q.atEnd = false := by rw [Place.atEnd, hq]; rfl
    dsimp only
    rw [more, if_neg Bool.false_ne_true]
    refine (takes_itemOrSkip (takes_closingItem ho first)).bind fun o ho' => ?_
    obtain ⟨item, rfl, rfl⟩ := ho'
    exact .pure (comments hcs)

/-- What is laid out is read back. The induction is on the characters left, which bounds the bodies inside as well
as the statements behind. -/
theorem takes_all (n : Nat) {f : Layout} (hf : k.fits f) {owner : Owner} {head first : Bool} {ss : List Statement}
    {ts : List Comment} {t l : List Char} (hl : Lays k.holds f (owner = .keyframes) head ss ts t) (he : EndsBody owner l)
    (hh : head = true → owner = .sheet ∧ first = true) (hn : (t ++ l).length ≤ n) :
    Takes (t ++ l) l (readAllIn n owner first []) (RereadAll k.view f ss ts) := by
  induction n using Nat.strongRecOn generalizing f owner head first ss ts t l with
  | ind n ih =>
    cases hl with
    | done hg => exact takes_end he hg n first
    | @more _ _ _ s ss ts g c t hg hw charset hl =>
      have bodies : ReadsBodies k n (readInside n) := by
        intro f inner ss ts t l hf hi hl hn
        refine (Takes.shorter hn fun h => ih _ h hf hl (.brace hi) (fun h => by cases h) (Nat.le_refl _)).bind ?_
        intro read hr
        exact .pure ⟨hr.1, hr.2, rfl⟩
      obtain ⟨d, rest, hd, solid, other, -⟩ := hw.head
      simp only [List.mem_cons, List.not_mem_nil, or_false, not_or] at other
      have text : g ++ (c ++ t) ++ l = g ++ (c ++ (t ++ l)) := by simp only [List.append_assoc]
      have start : c ++ (t ++ l) = d :: (rest ++ (t ++ l)) := by rw [hd, List.cons_append]
      have fewer : (c ++ (t ++ l)).length ≤ n := by
        rw [text, List.length_append] at hn
        omega
      have behind : (t ++ l).length < n := by
        rw [start, List.length_cons, List.length_append] at fewer
        omega
      rw [text, readAllIn_eq]
      refine Takes.here fun p hp => ?_
      have more : p.atEnd = false := by
        rw [Place.atEnd, hp, start]
        simp
      rw [more, if_neg Bool.false_ne_true]
      refine (Takes.gap hg (by rw [start]; exact .cons solid other.1)).bind fun cs hcs => Takes.here fun q hq => ?_
      have more : q.atEnd = false := by rw [Place.atEnd, hq, start]; rfl
      dsimp only
      rw [more, if_neg Bool.false_ne_true]
      refine (takes_itemOrSkip (takes_item hf bodies hw (fun h => hh (charset h)) fewer)).bind fun o ho => ?_
      obtain ⟨item, rfl, s', rfl, same⟩ := ho
      refine (Takes.shorter behind fun h => ih _ h hf hl he (fun h => by cases h) (Nat.le_refl _)).bind fun read hr => ?_
      refine .pure ⟨?_, hr.2⟩
      dsimp only
      rw [viewedAll, viewedAll, bareAll, bareAll, hr.1, List.nil_append, same cs hcs]

end Statement

namespace Sheet

variable {k : Rereading}

theorem takes_read {f : Layout} (hf : k.fits f) {d : Sheet} {t : List Char}
    (hl : Lays k.holds f false true d.contents d.trailing t) :
    Takes t [] read fun d' =>
      d'.comments = [] ∧ Statement.RereadAll k.view f d.contents d.trailing (d'.contents, d'.trailing) := by
  refine Takes.left.bind fun n hn => ?_
  have all : Takes (t ++ []) [] (Statement.readAllIn n .sheet true [])
      (Statement.RereadAll k.view f d.contents d.trailing) :=
    Statement.takes_all n hf hl .sheet (fun _ => ⟨rfl, rfl⟩) (Nat.le_of_eq (by rw [List.append_nil, hn]))
  rw [List.append_nil] at all
  exact all.bind fun read hr => (Takes.note _ _).bind fun _ _ => .pure ⟨rfl, hr⟩

/-- No text of a sheet begins with the mark of a byte order. -/
theorem withoutMark_of_lays {f : Layout} {keyframe head : Bool} {ss : List Statement} {ts : List Comment}
    {text : String} (hl : Lays k.holds f keyframe head ss ts text.toList) : withoutMark text = text := by
  have head : text.toList.head? ≠ some '\uFEFF' := by
    generalize text.toList = t at hl
    cases hl with
    | done hg =>
      have marked := hg.head_ne (c := '\uFEFF') (t := []) (by decide) (by simp)
      rwa [List.append_nil] at marked
    | more hg hw _ _ =>
      obtain ⟨c, rest, rfl, -, other, -⟩ := hw.head
      refine hg.head_ne (by decide) ?_
      rintro heq
      cases heq
      simp at other
  exact withoutMark_of_head head

/-- Reading undoes writing on sheets of values that are read back, but for what `view` does not show of them. -/
theorem parse_toCss_viewed {f : Layout} (hf : k.fits f) {d : Sheet} (hd : d.isPlainWith k.holds = true)
    (settings : Settings) : ∃ text, Sheet.toCss f d = .ok text ∧ ∃ d', (parse settings text).1 = .ok d' ∧
      (d'.viewed k.view f).bare true = (d.viewed k.view f).bare f.comments := by
  obtain ⟨text, written, laid⟩ := lays_toCss (k.blank hf) hd
  refine ⟨text, written, ?_⟩
  obtain ⟨d', s, ho, -, comments, contents, trailing⟩ :=
    takes_read hf laid (Reader.start text settings 1) rfl
  refine ⟨d', ?_, ?_⟩
  · rw [parse_eq, withoutMark_of_lays laid, ho]
  · rw [isPlainWith, Bool.and_eq_true, Bool.and_eq_true, List.isEmpty_iff] at hd
    rw [viewed, viewed, bare, bare, contents, trailing, comments, hd.1.1]
    unfold Comment.bareAll
    simp

/-- Reading undoes writing on plain sheets: whatever the spacing of a blank layout is, and in both modes, the text of
a plain sheet is read as that sheet, without its comments if the layout has none. -/
theorem parse_toCss {f : Layout} (hf : f.IsBlank) {d : Sheet} (hd : d.isPlain = true) (settings : Settings) :
    ∃ text, Sheet.toCss f d = .ok text ∧ ∃ d', (parse settings text).1 = .ok d' ∧ d'.bare true = d.bare f.comments := by
  have read := parse_toCss_viewed (k := .plain) hf hd settings
  simpa only [Rereading.plain, viewed_same] using read

/-- A sheet with a charset, a list inside a list, and a rule inside another one reads back. -/
theorem parse_toCss_pretty :
    let rules : RuleSet := { declarations := [⟨"src", some (.list [.list [.keyword "b", .string ⟨"c", none⟩] .space none,
      .function "d" [.keyword "e"] .comma none] .comma none), true, [], none, [⟨" f ", none⟩]⟩] }
    let sheet : Sheet := { contents := [.charset ⟨"utf-8", none⟩ none [],
      .grouping "media" "print" { contents := [.style ⟨[⟨"a"⟩, ⟨"g > h"⟩], rules⟩], trailing := [⟨"i", none⟩] }] }
    sheet.isPlain = true ∧ ∃ text, Sheet.toCss .pretty sheet = .ok text ∧
      ∃ sheet', (parse {} text).1 = .ok sheet' ∧ sheet'.bare true = sheet.bare true := by
  intro rules sheet
  have plain : sheet.isPlain = true := by decide +kernel
  exact ⟨plain, parse_toCss Layout.isBlank_pretty plain {}⟩

end Sheet

end Stylesheet
