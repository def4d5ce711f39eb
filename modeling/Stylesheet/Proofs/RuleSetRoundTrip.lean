import Stylesheet.Proofs.SteadySheet
import Stylesheet.Proofs.ValueRoundTrip
import Stylesheet.Proofs.Viewing

namespace Stylesheet

open Read (Takes)

namespace Place

variable {width : Char → Nat} {p q : Place}

theorem not_before_next (p : Place) : (p.next width).position.before p.position = false := by
  unfold next Position.before position
  split
  · simp
  · split
    · simp
    · simp

theorem Ahead.not_before (h : Ahead width p q) : q.position.before p.position = false := by
  obtain ⟨n, rfl⟩ := h
  induction n generalizing p with
  | zero => exact Position.before_irrefl _
  | succ n ih =>
    have one : (p.next width).position.before p.position = false := not_before_next p
    have more := ih (p := p.next width)
    rw [forward]
    simp only [Position.before, Bool.or_eq_false_iff, Bool.and_eq_false_iff, decide_eq_false_iff_not,
      beq_eq_false_iff_ne] at one more ⊢
    omega

end Place

theorem Text.not_infix_of_hasPair {a b : Char} {l : List Char} (h : hasPair a b l = false) : ¬ [a, b] <:+: l := by
  fun_induction hasPair a b l with
  | case1 c d rest ih =>
    rw [Bool.or_eq_false_iff, Bool.and_eq_false_iff, beq_eq_false_iff_ne, beq_eq_false_iff_ne] at h
    intro hin
    rcases List.infix_cons_iff.mp hin with hp | hi
    · obtain ⟨tail, ht⟩ := hp
      rw [List.cons_append, List.cons_append, List.cons.injEq, List.cons.injEq] at ht
      rcases h.1 with hc | hd
      · exact hc ht.1.symm
      · exact hd ht.2.1.symm
    · exact ih h.2 hi
  | case2 l short =>
    rintro ⟨s, t, rfl⟩
    cases s with
    | nil => exact short a b t rfl
    | cons c s =>
      cases s with
      | nil => exact short c a (b :: t) rfl
      | cons d s => exact short c d (s ++ [a, b] ++ t) rfl

/-- A character that begins no gap does not come first in front of it either. -/
theorem IsGap.head_ne {texts : List String} {g t : List Char} {c : Char} (hg : IsGap texts g)
    (hc : Text.isBlank c = false ∧ c ≠ '/') (h : t.head? ≠ some c) : (g ++ t).head? ≠ some c := by
  cases hg with
  | nil => exact h
  | blank hb _ =>
    rintro heq
    cases heq
    rw [hb] at hc
    cases hc.1
  | comment =>
    rintro heq
    cases heq
    exact hc.2 rfl

section Comments

variable {f : Layout}

/-- The texts of the comments that a layout writes. -/
def Layout.kept (f : Layout) (cs : List Comment) : List String := if f.comments then cs.map Comment.text else []

theorem Comment.isGap {c : Comment} (hc : c.isPlain = true) : IsGap [c.text] c.toCss.toList := by
  rw [isPlain, Bool.not_eq_true'] at hc
  have whole := IsGap.comment (Text.not_infix_of_hasPair hc) .nil
  rw [String.ofList_toList] at whole
  simpa [toCss] using whole

theorem isGap_comments {b : String} (hb : b.toList.all Text.isBlank = true) {cs : List Comment}
    (hc : ∀ c ∈ cs, c.isPlain = true) :
    IsGap (cs.map Comment.text) (String.intercalate b (cs.map Comment.toCss)).toList := by
  cases cs with
  | nil => exact .nil
  | cons c cs =>
    have more {ds : List Comment} (hd : ∀ d ∈ ds, d.isPlain = true) :
        IsGap (ds.map Comment.text) ((ds.map Comment.toCss).flatMap fun t => b.toList ++ t.toList) := by
      induction ds with
      | nil => exact .nil
      | cons d ds ih =>
        have first := (IsGap.ofBlanks hb).append (Comment.isGap (hd d List.mem_cons_self))
        rw [List.map_cons, List.map_cons, List.flatMap_cons]
        exact first.append (ih fun e he => hd e (List.mem_cons_of_mem d he))
    rw [List.map_cons, List.map_cons, toList_intercalate_cons]
    exact (Comment.isGap (hc c List.mem_cons_self)).append (more fun d hd => hc d (List.mem_cons_of_mem c hd))

/-- What is written before a node is a gap that holds its comments. -/
theorem Layout.isGap_leading (hf : f.IsBlank) {cs : List Comment} (hc : cs.all Comment.isPlain = true) :
    IsGap (f.kept cs) (f.leading cs).toList := by
  have between : f.betweenBlocks.toList.all Text.isBlank = true :=
    Layout.blank_fit hf hf.betweenBlocks
  have behind : f.afterBlocks.toList.all Text.isBlank = true := Layout.blank_fit hf hf.afterBlocks
  unfold kept leading
  cases hk : f.comments with
  | false => exact .nil
  | true =>
    cases cs with
    | nil => exact .nil
    | cons c cs =>
      have whole := (isGap_comments between (List.all_eq_true.mp hc)).append (.ofBlanks behind)
      rw [List.append_nil, ← String.toList_append] at whole
      exact whole

theorem Comment.bareAll_of_texts {cs ds : List Comment} (h : cs.map Comment.text = f.kept ds) :
    bareAll true cs = bareAll f.comments ds := by
  have texts (es : List Comment) : (es.map fun c => (⟨c.text, none⟩ : Comment)) =
      (es.map Comment.text).map fun t => ⟨t, none⟩ := by rw [List.map_map]; rfl
  unfold bareAll
  rw [if_pos rfl, texts, h, Layout.kept]
  split
  · exact (texts ds).symm
  · rfl

end Comments

/-- Where no semicolon comes first, none is skipped. -/
theorem dropWhile_semicolons {l : List Char} (h : l.head? ≠ some ';') : l.dropWhile (· = ';') = l := by
  cases l with
  | nil => rfl
  | cons c l =>
    rw [List.dropWhile_cons_of_neg]
    simpa using h

/-- What stands behind a declaration, and what its reader leaves of that. -/
inductive Follows : List Char → List Char → Prop
  | semicolon {m : List Char} : m.head? ≠ some ';' → Follows (';' :: m) m
  | brace {b l : List Char} : b.all Text.isSpacing = true → Follows (b ++ '\x7d' :: l) ('\x7d' :: l)

namespace Follows

variable {l m : List Char}

theorem ends (h : Follows l m) : Ends l := by
  cases h with
  | semicolon => exact ends_of_spacing (b := []) rfl (by decide)
  | brace hb => exact ends_of_spacing hb (by decide)

/-- Behind the blanks a semicolon or the brace comes next, and no semicolon behind that. -/
theorem next (h : Follows l m) : ∃ c rest, pastBlank l = c :: rest ∧ c ∈ [';', '\x7d'] ∧
    (pastBlank l).dropWhile (· = ';') = m := by
  cases h with
  | @semicolon m hm =>
    refine ⟨';', m, pastBlank_cons rfl, by decide, ?_⟩
    rw [pastBlank_cons rfl, List.dropWhile_cons_of_pos (by decide), dropWhile_semicolons hm]
  | @brace b l hb =>
    have behind : pastBlank (b ++ '\x7d' :: l) = '\x7d' :: l :=
      (pastBlank_append (all_isBlank hb)).trans (pastBlank_cons rfl)
    refine ⟨'\x7d', l, behind, by decide, ?_⟩
    rw [behind, List.dropWhile_cons_of_neg (by decide)]

end Follows

/-- Values that are read back: in the layouts that fit, those that `holds` admits under the names of their properties
are read as what `view` shows of them. -/
structure Rereading where
  fits : Layout → Prop
  blank : ∀ {f}, fits f → f.IsBlank
  deeper : ∀ {f}, fits f → fits f.deeper
  holds : String → Value → Bool
  view : Layout → Value → Value
  reads : ∀ {f}, fits f → ∀ {property v}, holds property v = true → ∀ {l}, Ends l → ∀ {b}, b.all Text.isBlank = true →
    Takes (b ++ ((v.toCss f).toList ++ l)) (pastBlank l) (Value.read (Separator.ofProperty property))
      fun w => (view f w).bare = (view f v).bare

/-- Plain values are read back in blank layouts. -/
def Rereading.plain : Rereading where
  fits := Layout.IsBlank
  blank hf := hf
  deeper hf := hf.deeper
  holds := Value.isPlainUnder
  view _ v := v
  reads hf _ _ hv _ hl _ hb := Value.takes_read hf.inValues (Value.space_mem_ofProperty _) hv hl hb

namespace Declaration

variable {f : Layout} {k : Rereading} {holds : String → Value → Bool} {l m : List Char}

/-- What is written of a declaration between its comments and its semicolon. -/
def core (f : Layout) (d : Declaration) : List Char :=
  d.name.toList ++ ':' :: (f.afterName.toList ++ (((d.value.map (Value.toCss f)).getD "").toList ++
    (if d.important then " !important" else "").toList))

theorem toCss_core {d : Declaration} (hd : d.isPlainWith holds = true) :
    (d.toCss f).toList = (f.leading d.comments).toList ++ (d.core f ++ [';']) := by
  simp only [isPlainWith, Bool.and_eq_true] at hd
  have plain : d.hackText = "" := by rw [hackText, if_pos hd.1.2]
  rw [toCss, core, plain]
  simp

theorem chars_of_propertyName {name : String} (hn : isPropertyName name = true) :
    name.toList.all isNameChar = true ∧ name.toList ≠ [] := by
  rw [isPropertyName, Bool.or_eq_true, Bool.and_eq_true] at hn
  refine ⟨?_, fun h => ?_⟩
  · rcases hn with h | h
    · rw [isLowerName, Bool.and_eq_true, Bool.and_eq_true] at h
      exact h.1.2
    · exact h.2
  · rw [isLowerName, h] at hn
    exact absurd hn (by decide)

/-- The name of a property reads back. -/
theorem takes_propertyName {name : String} (hn : isPropertyName name = true) {p : Place}
    (hp : p.rest = name.toList ++ ':' :: l) :
    Takes (name.toList ++ ':' :: l) (':' :: l) (Read.identifier (!p.comes "--")) (· = name) := by
  have ends : EndsName (':' :: l) := .cons rfl (by decide)
  obtain ⟨chars, nonempty⟩ := chars_of_propertyName hn
  rw [isPropertyName, Bool.or_eq_true, Bool.and_eq_true] at hn
  refine (Takes.identifier (!p.comes "--") chars nonempty ends).mono fun t ht => ?_
  rw [ht]
  cases dashes : p.comes "--" with
  | true => rw [Bool.not_true, if_neg Bool.false_ne_true, String.ofList_toList]
  | false =>
    have lower : isLowerName name = true := by
      refine hn.resolve_right fun h => ?_
      have comes : p.comes "--" = true := by
        refine Place.comes_iff.mpr ⟨by decide, ?_⟩
        rw [hp]
        exact (List.isPrefixOf_iff_prefix.mp h.1).trans (List.prefix_append _ _)
      rw [dashes] at comes
      cases comes
    rw [isLowerName, Bool.and_eq_true, beq_iff_eq] at lower
    rw [Bool.not_false, if_pos rfl, lower.2, String.ofList_toList]

theorem takes_semicolons : Takes l (l.dropWhile (· = ';')) skipSemicolons fun _ => True := by
  refine Takes.here fun p hp => ?_
  have skipped := Takes.skip (l := l) (p.rest.takeWhile (· = ';')).length
  rw [hp] at skipped ⊢
  rwa [Place.drop_takeWhile] at skipped

theorem takes_noSemicolons (h : l.head? ≠ some ';') : Takes l l skipSemicolons fun _ => True := by
  have skipped := takes_semicolons (l := l)
  rwa [dropWhile_semicolons h] at skipped

theorem takes_hacks {c : Char} {rest : List Char} (hc : c ≠ '\\') (n : Nat) :
    Takes (c :: rest) (c :: rest) (readHacks n) (· = []) := by
  rw [readHacks]
  refine Takes.here fun p hp => ?_
  rw [Place.comes_of_head hp (t := "\\") rfl (Ne.symm hc), if_neg Bool.false_ne_true]
  exact .pure rfl

/-- Whether a declaration is important reads back, up to what follows. -/
theorem takes_important (i : Bool) (h : Follows l m) :
    ∃ c rest, pastBlank ((if i then " !important" else "").toList ++ l) = c :: rest ∧ Stops (c :: rest) ∧ c ≠ '\\' ∧
      Takes (c :: rest) m (do
        let important ← readImportant
        discard Read.gap
        skipSemicolons
        return important) (· = i) := by
  obtain ⟨c, rest, next, hc, hm⟩ := h.next
  have behind : Stops (pastBlank l) := h.ends.stops
  cases i with
  | false =>
    refine ⟨c, rest, next, next ▸ behind, fun h => by rw [h] at hc; exact absurd hc (by decide), ?_⟩
    refine Takes.bind (m := c :: rest) (P := (· = false)) (Takes.here fun p hp => ?_) fun i hi => ?_
    · have unmarked : p.comes "!" = false :=
        Place.comes_of_head hp rfl fun h => by rw [← h] at hc; exact absurd hc (by decide)
      rw [unmarked, if_neg Bool.false_ne_true]
      exact .pure rfl
    · refine (Takes.noGap (next ▸ behind)).discard.bind fun _ _ => ?_
      rw [← hm, next]
      exact takes_semicolons.bind fun _ _ => .pure hi
  | true =>
    refine ⟨'!', "important".toList ++ l, rfl, .cons rfl (by decide), by decide, ?_⟩
    refine Takes.bind (m := l) (P := (· = true)) (Takes.here fun p hp => ?_) fun i hi => ?_
    · rw [if_pos (Place.comes_char (t := "!") hp rfl)]
      refine (Takes.skip 1).bind fun _ _ => (Takes.noGap (.cons rfl (by decide))).discard.bind fun _ _ => ?_
      refine Takes.here fun q hq => Takes.passing ?_ ?_
      · have word : q.comesAnyCase "important" = true := by
          unfold Place.comesAnyCase
          rw [hq]
          exact Place.startsWith_append "important".toList l
        rw [word]
        exact Bool.false_ne_true
      · exact (Takes.skip 9).bind fun _ _ => .pure rfl
    · refine (Takes.blanks behind).discard.bind fun _ _ => ?_
      rw [← hm]
      exact takes_semicolons.bind fun _ _ => .pure hi

/-- What a reader at `p` makes of a plain declaration. The gaps inside it hold no comments. -/
def RereadAt (view : Value → Value) (p : Place) (before : List Comment) (d d' : Declaration) : Prop :=
  ∃ v afterName afterValue, some (view v).bare = (d.value.map view).map Value.bare ∧ afterName.map Comment.text = [] ∧
    afterValue.map Comment.text = [] ∧
      d' = ⟨d.name, some v, d.important, [], some p.position, before ++ afterName ++ afterValue⟩

theorem RereadAt.bare {view : Value → Value} {p : Place} {before : List Comment} {d d' : Declaration}
    (hd : d.isPlainWith holds = true) (hb : before.map Comment.text = f.kept d.comments)
    (h : RereadAt view p before d d') : (d'.viewed view).bare true = (d.viewed view).bare f.comments := by
  obtain ⟨v, afterName, afterValue, hv, hn, ha, rfl⟩ := h
  simp only [isPlainWith, Bool.and_eq_true, List.isEmpty_iff] at hd
  rw [List.map_eq_nil_iff] at hn ha
  simp only [hn, ha, List.append_nil, viewed, Declaration.bare, Comment.bareAll_of_texts hb, ← hv, hd.1.2]
  rfl

/-- A plain declaration reads back. -/
theorem read_core (hf : k.fits f) {d : Declaration} (hd : d.isPlainWith k.holds = true) (h : Follows l m)
    (before : List Comment) {s : Reader} (hs : s.place.rest = d.core f ++ l) :
    ∃ d' s', (read before).outcome s = (.ok d', s') ∧ s'.place.rest = m ∧ RereadAt (k.view f) s.place before d d' := by
  simp only [isPlainWith, Bool.and_eq_true] at hd
  obtain ⟨⟨⟨name, value⟩, -⟩, -⟩ := hd
  rw [Option.any_eq_true] at value
  obtain ⟨v, hv, value⟩ := value
  obtain ⟨c, rest, next, stops, escape, important⟩ := takes_important d.important h
  have ends : Ends ((if d.important then " !important" else "").toList ++ l) := by
    cases d.important with
    | false => exact h.ends
    | true => exact ends_of_spacing (b := [' ']) (l := "important".toList ++ l) rfl (by decide)
  have space : f.afterName.toList.all Text.isBlank = true := Layout.blank_fit (k.blank hf) (k.blank hf).afterName
  have text : d.core f ++ l = d.name.toList ++ ':' :: (f.afterName.toList ++ ((v.toCss f).toList ++
      ((if d.important then " !important" else "").toList ++ l))) := by
    simp [core, hv]
  rw [text] at hs
  rw [read, Read.outcome_bind, Read.outcome_place, Read.following_ok]
  refine Takes.bind (takes_propertyName name hs) (fun t ht => ?_) s hs
  subst ht
  refine (Takes.noGap (.cons rfl (by decide))).bind fun afterName hn => (Takes.char rfl).discard.bind fun _ _ => ?_
  refine (k.reads hf value ends space).bind fun v' hv' => ?_
  rw [next]
  refine (Takes.noGap stops).bind fun afterValue ha => ?_
  have ending (hacks : List String) (hh : hacks = []) : Takes (c :: rest) m (do
      let important ← readImportant
      discard Read.gap
      skipSemicolons
      Read.note .trace ("Parsed declaration " ++ d.name ++ " at " ++ s.place.position.text)
      return Declaration.mk d.name (some v') important hacks (some s.place.position)
        (before ++ afterName ++ afterValue)) (RereadAt (k.view f) s.place before d) := by
    have whole := important.bind fun i hi => (Takes.note (l := m) .trace
      ("Parsed declaration " ++ d.name ++ " at " ++ s.place.position.text)).bind fun _ _ =>
        Takes.pure (P := RereadAt (k.view f) s.place before d) (a := Declaration.mk d.name (some v') i hacks
          (some s.place.position) (before ++ afterName ++ afterValue))
          ⟨v', afterName, afterValue, by rw [hv, Option.map_some, Option.map_some, hv'], hn, ha, by rw [hi, hh]⟩
    simpa only [bind_assoc, pure_bind] using whole
  refine Takes.asking fun lenient => ?_
  dsimp only
  split
  · exact Takes.left.bind fun n _ => (takes_hacks escape n).bind ending
  · exact (Takes.pure (P := (· = [])) rfl).bind ending

end Declaration

namespace RuleSet

variable {f : Layout} {k : Rereading} {holds : String → Value → Bool} {ds : List Declaration} {t l : List Char}

/-- Written declarations as a reader meets them: `t` holds the declarations and the brace behind them, and `l` is
left. Only the last one may have no semicolon. -/
inductive Declares (holds : String → Value → Bool) (f : Layout) : List Declaration → List Char → List Char → Prop
  | closing {b l : List Char} : b.all Text.isSpacing = true → Declares holds f [] (b ++ '\x7d' :: l) l
  | last {d : Declaration} {g b l : List Char} : d.isPlainWith holds = true → IsGap (f.kept d.comments) g →
    b.all Text.isSpacing = true → Declares holds f [d] (g ++ (d.core f ++ (b ++ '\x7d' :: l))) l
  | more {d : Declaration} {ds : List Declaration} {g t l : List Char} : d.isPlainWith holds = true →
    IsGap (f.kept d.comments) g → Declares holds f ds t l → Declares holds f (d :: ds) (g ++ (d.core f ++ ';' :: t)) l

theorem head_of_core {d : Declaration} (hd : d.isPlainWith holds = true) :
    ∃ c rest, d.core f = c :: rest ∧ isNameChar c = true := by
  simp only [Declaration.isPlainWith, Bool.and_eq_true] at hd
  obtain ⟨chars, nonempty⟩ := Declaration.chars_of_propertyName hd.1.1.1
  cases hn : d.name.toList with
  | nil => exact absurd hn nonempty
  | cons c rest =>
    rw [hn, List.all_cons, Bool.and_eq_true] at chars
    exact ⟨c, _, by rw [Declaration.core, hn]; rfl, chars.1⟩

theorem stops_of_nameChar {c : Char} {rest : List Char} (hc : isNameChar c = true) : Stops (c :: rest) :=
  .cons (isBlank_of_isNameChar hc) fun h => by rw [h] at hc; exact absurd hc (by decide)

theorem core_head_ne {d : Declaration} (hd : d.isPlainWith holds = true) (u : List Char) :
    (d.core f ++ u).head? ≠ some ';' := by
  obtain ⟨c, rest, hc, name⟩ := head_of_core (f := f) hd
  rw [hc]
  rintro heq
  cases heq
  exact absurd name (by decide)

theorem Declares.head_ne (h : Declares holds f ds t l) : t.head? ≠ some ';' := by
  cases h with
  | closing hb => exact IsGap.head_ne (.ofBlanks (all_isBlank hb)) (by decide) (by simp)
  | last hd hg _ => exact hg.head_ne (by decide) (core_head_ne hd _)
  | more hd hg _ => exact hg.head_ne (by decide) (core_head_ne hd _)

/-- No declaration stands behind a place that the reader is at or will be at. -/
def Passed (r : RuleSet) (s : Reader) : Prop :=
  ∀ d ∈ r.declarations, ∀ q, Place.Ahead s.settings.width s.place q → d.position.any q.position.before = false

theorem Passed.mono {r : RuleSet} {s s' : Reader} (h : r.Passed s) (hs : s'.settings = s.settings)
    (hp : Place.Ahead s.settings.width s.place s'.place) : r.Passed s' := by
  intro d hd q hq
  rw [hs] at hq
  exact h d hd q (hp.trans hq)

/-- A declaration read behind all others becomes the last one. -/
theorem Passed.add {r : RuleSet} {s : Reader} (h : r.Passed s) {d : Declaration}
    (hd : d.position = some s.place.position) :
    (r.add d none).2 = r.withDeclarations (r.declarations ++ [d]) ∧ (r.add d none).2.Passed s := by
  have last : placeOf s.place.position r.declarations = r.declarations.length := by
    have noneBehind : r.declarations.findIdx? (fun d => d.position.any s.place.position.before) = none := by
      rw [List.findIdx?_eq_none_iff]
      exact fun d hd => h d hd s.place (.refl _ _)
    rw [placeOf, noneBehind]
    rfl
  have added : (r.add d none).2 = r.withDeclarations (r.declarations ++ [d]) := by
    unfold RuleSet.add
    simp only [Option.bind_none, hd, last, List.insertIdx_length_self]
  refine ⟨added, ?_⟩
  rw [added]
  intro e he q hq
  rcases List.mem_append.mp he with he | he
  · exact h e he q hq
  · rw [List.mem_singleton.mp he, hd]
    exact hq.not_before

theorem Passed.of_steady {α : Type} {r : RuleSet} {s s' : Reader} (h : r.Passed s) {x : Read α} {a : α}
    (hx : SteadyWhole s.place.text x) (ho : x.outcome s = (.ok a, s')) : r.Passed s' :=
  h.mono (hx.kept ho).settings (hx.kept ho).ahead

/-- Reading goes on behind a declaration. -/
theorem readInto_core (hf : k.fits f) {d : Declaration} (hd : d.isPlainWith k.holds = true) {g m : List Char}
    (hg : IsGap (f.kept d.comments) g) (hl : Follows l m) {n : Nat}
    (hn : (g ++ (d.core f ++ l)).length ≤ n) {r : RuleSet} {s : Reader} (hs : s.place.rest = g ++ (d.core f ++ l))
    (hr : r.Passed s) (hm : m.length ≤ l.length) :
    ∃ d' s', (readInto r n).outcome s = (readInto (r.withDeclarations (r.declarations ++ [d'])) m.length).outcome s' ∧
      s'.settings = s.settings ∧ s'.place.rest = m ∧
        (d'.viewed (k.view f)).bare true = (d.viewed (k.view f)).bare f.comments ∧
        (r.withDeclarations (r.declarations ++ [d'])).Passed s' := by
  obtain ⟨c, rest, hc, name⟩ := head_of_core (f := f) hd
  have stops : Stops (d.core f ++ l) := by rw [hc]; exact stops_of_nameChar name
  obtain ⟨comments, s₁, h₁, rest₁, texts⟩ := Takes.gap hg stops s hs
  have passed₁ := hr.of_steady gap_steadyWhole h₁
  obtain ⟨d', s₂, h₂, rest₂, reread⟩ := Declaration.read_core hf hd hl comments rest₁
  have settings : s₂.settings = s.settings :=
    ((Declaration.read_steady comments).kept h₂).settings.trans (gap_steadyWhole.kept h₁).settings
  have place : d'.position = some s₁.place.position := by
    obtain ⟨v, afterName, afterValue, -, -, -, rfl⟩ := reread
    rfl
  obtain ⟨added, passed₂⟩ := passed₁.add place
  have passed₃ := passed₂.of_steady (Declaration.read_steady comments) h₂
  rw [added] at passed₃
  have open_ : s₁.place.comes "\x7d" = false := by
    refine Place.comes_of_head (rest₁.trans (congrArg (· ++ l) hc)) rfl fun h => ?_
    rw [← h] at name
    exact absurd name (by decide)
  refine ⟨d', { s₂ with journal := additionNote d' (r.add d' none).1 :: s₂.journal }, ?_, settings, rest₂,
    reread.bare hd texts, passed₃⟩
  have fewer : m.length < n := by
    rw [hc] at hn
    simp only [List.length_append, List.length_cons] at hn
    omega
  have added' : (r.add d' none).2 = r.withDeclarations (r.declarations ++ [d']) := added
  rw [readInto]
  simp only [Read.outcome_bind, h₁, Read.following_ok, Read.outcome_place, open_, Bool.false_eq_true, if_false,
    Read.outcome_tryCatch, h₂, Read.outcome_modify, Read.outcome_pure, Read.rescued_ok, Read.outcome_shorter, added']
  rw [dif_pos (by rw [rest₂]; exact fewer), rest₂]

/-- Reading ends behind the closing brace. -/
theorem readInto_closing {b : List Char} (hb : b.all Text.isSpacing = true) (r : RuleSet) (n : Nat) {s : Reader}
    (hs : s.place.rest = b ++ '\x7d' :: l) :
    ∃ s', (readInto r n).outcome s = (.ok r, s') ∧ s'.place.rest = l := by
  have reading : Takes (b ++ '\x7d' :: l) l (readInto r n) (· = r) := by
    rw [readInto]
    refine (Takes.gap (.ofBlanks (all_isBlank hb)) (.cons rfl (by decide))).bind fun comments _ => ?_
    refine Takes.here fun p hp => ?_
    rw [if_pos (Place.comes_char (t := "\x7d") hp rfl)]
    exact (Takes.char rfl).discard.bind fun _ _ => .pure rfl
  obtain ⟨r', s', ho, hl, rfl⟩ := reading s hs
  exact ⟨s', ho, hl⟩

/-- Written declarations are added in their order. The induction is on the declarations; that none is sorted in
before an earlier one is the invariant `Passed`. -/
theorem readInto_declares (hf : k.fits f) (h : Declares k.holds f ds t l) {n : Nat} (hn : t.length ≤ n) {r : RuleSet}
    {s : Reader} (hs : s.place.rest = t) (hr : r.Passed s) :
    ∃ r' s', (readInto r n).outcome s = (.ok r', s') ∧ s'.place.rest = l ∧ r'.comments = r.comments ∧
      r'.declarations.map (fun d => (d.viewed (k.view f)).bare true) =
        r.declarations.map (fun d => (d.viewed (k.view f)).bare true) ++
          ds.map fun d => (d.viewed (k.view f)).bare f.comments := by
  induction h generalizing n r s with
  | closing hb =>
    obtain ⟨s', ho, hl⟩ := readInto_closing hb r n hs
    exact ⟨r, s', ho, hl, rfl, (List.append_nil _).symm⟩
  | @last d g b l hd hg hb =>
    obtain ⟨d', s', ho, -, rest, same, passed⟩ := readInto_core hf hd hg (.brace hb) hn hs hr (by simp)
    obtain ⟨s'', ho', hl⟩ := readInto_closing (b := []) rfl (r.withDeclarations (r.declarations ++ [d']))
      ('\x7d' :: l).length rest
    refine ⟨_, s'', ho.trans ho', hl, rfl, ?_⟩
    simp only [withDeclarations, List.map_append, List.map_cons, List.map_nil, same]
  | @more d ds g t l hd hg ht ih =>
    obtain ⟨d', s', ho, -, rest, same, passed⟩ := readInto_core hf hd hg (.semicolon ht.head_ne) hn hs hr (by simp)
    obtain ⟨r', s'', ho', hl, comments, all⟩ := ih (Nat.le_refl _) rest passed
    refine ⟨r', s'', ho.trans ho', hl, comments, ?_⟩
    rw [all]
    simp only [withDeclarations, List.map_append, List.map_cons, List.map_nil, same, List.append_assoc,
      List.cons_append, List.nil_append]

/-- The text of declarations with `b` before the first one, `c` between any two and `e` behind the last one. -/
def textOf (f : Layout) (c e : List Char) : List Char → List Declaration → List Char
  | _, [] => e
  | b, d :: ds => b ++ ((f.leading d.comments).toList ++ (d.core f ++ ';' :: textOf f c e c ds))

variable {b c e : List Char}

/-- What stands in front of a declaration is a gap that holds its comments. -/
theorem isGap_before (hf : f.IsBlank) {d : Declaration} (hd : d.isPlainWith holds = true)
    (hb : b.all Text.isSpacing = true) : IsGap (f.kept d.comments) (b ++ (f.leading d.comments).toList) := by
  rw [Declaration.isPlainWith, Bool.and_eq_true] at hd
  exact (IsGap.ofBlanks (all_isBlank hb)).append (Layout.isGap_leading hf hd.2)

theorem declares_textOf (hf : f.IsBlank) (hc : c.all Text.isSpacing = true) (he : e.all Text.isSpacing = true)
    (hd : ∀ d ∈ ds, d.isPlainWith holds = true) (hb : b.all Text.isSpacing = true) :
    Declares holds f ds (textOf f c e b ds ++ '\x7d' :: l) l := by
  induction ds generalizing b with
  | nil => exact .closing he
  | cons d ds ih =>
    have plain := hd d List.mem_cons_self
    have whole := Declares.more plain (isGap_before hf plain hb) (ih (fun d hm => hd d (List.mem_cons_of_mem _ hm)) hc)
    simpa only [textOf, List.append_assoc, List.cons_append, List.nil_append] using whole

/-- Without the last semicolon the text still holds the declarations. -/
theorem declares_dropped (hf : f.IsBlank) (hc : c.all Text.isSpacing = true) (he : e.all Text.isSpacing = true)
    (hd : ∀ d ∈ ds, d.isPlainWith holds = true) (hb : b.all Text.isSpacing = true) (h0 : ds ≠ []) :
    ∃ x, textOf f c e b ds = x ++ ';' :: e ∧ Declares holds f ds (x ++ e ++ '\x7d' :: l) l := by
  induction ds generalizing b with
  | nil => exact absurd rfl h0
  | cons d ds ih =>
    have plain := hd d List.mem_cons_self
    have gap := isGap_before hf plain hb
    cases ds with
    | nil =>
      refine ⟨b ++ ((f.leading d.comments).toList ++ d.core f), ?_, ?_⟩
      · simp only [textOf, List.append_assoc]
      · have whole := Declares.last (l := l) plain gap he
        simpa only [List.append_assoc] using whole
    | cons second ds =>
      obtain ⟨x, hx, more⟩ := ih (fun d hm => hd d (List.mem_cons_of_mem _ hm)) hc (List.cons_ne_nil _ _)
      refine ⟨b ++ ((f.leading d.comments).toList ++ (d.core f ++ ';' :: x)), ?_, ?_⟩
      · rw [textOf, hx]
        simp only [List.append_assoc, List.cons_append]
      · have whole := Declares.more plain gap more
        simpa only [List.append_assoc, List.cons_append, List.nil_append] using whole

theorem textOf_eq (f : Layout) (between behind : String) {first : Declaration} (h1 : first.isPlainWith holds = true)
    (hd : ∀ d ∈ ds, d.isPlainWith holds = true) (before : List Char) :
    before ++ ((String.intercalate between ((first :: ds).map (Declaration.toCss f))).toList ++ behind.toList) =
      textOf f between.toList behind.toList before (first :: ds) := by
  induction ds generalizing first before with
  | nil =>
    rw [List.map_singleton, String.intercalate_singleton, Declaration.toCss_core h1, textOf, textOf]
    simp only [List.append_assoc, List.cons_append, List.nil_append]
  | cons second ds ih =>
    have others := ih (hd second List.mem_cons_self) (fun d hm => hd d (List.mem_cons_of_mem _ hm)) between.toList
    rw [textOf, ← others, List.map_cons, List.map_cons, String.intercalate_cons_cons, ← List.map_cons,
      String.toList_append, String.toList_append, Declaration.toCss_core h1]
    simp only [List.append_assoc, List.cons_append, List.nil_append]

theorem isPlainWith_declarations {r : RuleSet} (hr : r.isPlainWith holds = true) :
    ∀ d ∈ r.declarations, d.isPlainWith holds = true := by
  rw [isPlainWith, Bool.and_eq_true, List.all_eq_true] at hr
  exact hr.1

/-- What is written of declarations, before a semicolon is left out. -/
theorem texts_textOf {r : RuleSet} (hr : r.isPlainWith holds = true) (nonempty : r.declarations ≠ []) :
    (f.deeper.beforeDeclarations ++ String.intercalate f.deeper.betweenDeclarations (r.texts f) ++
      f.afterDeclarations).toList = textOf f.deeper f.deeper.betweenDeclarations.toList f.afterDeclarations.toList
        f.deeper.beforeDeclarations.toList r.declarations := by
  have all := isPlainWith_declarations hr
  unfold texts
  cases hd : r.declarations with
  | nil => exact absurd hd nonempty
  | cons first ds =>
    obtain ⟨plain, others⟩ := List.forall_mem_cons.mp (hd ▸ all)
    rw [String.toList_append, String.toList_append, List.append_assoc]
    exact textOf_eq f.deeper f.deeper.betweenDeclarations f.afterDeclarations plain others
      f.deeper.beforeDeclarations.toList

/-- Nothing but blanks stands around declarations. -/
theorem spacing_declarations (hf : f.IsBlank) : f.deeper.beforeDeclarations.toList.all Text.isSpacing = true ∧
    f.deeper.betweenDeclarations.toList.all Text.isSpacing = true ∧
      f.afterDeclarations.toList.all Text.isSpacing = true :=
  ⟨Layout.spacing_fit hf.deeper hf.beforeDeclarations, Layout.spacing_fit hf.deeper hf.betweenDeclarations,
    Layout.spacing_fit hf hf.afterDeclarations⟩

/-- What is written of a plain rule set declares it. -/
theorem declares_toCss (hf : f.IsBlank) {r : RuleSet} (hr : r.isPlainWith holds = true) :
    Declares holds f.deeper r.declarations ((r.toCss f).toList ++ '\x7d' :: l) l := by
  obtain ⟨before, between, behind⟩ := spacing_declarations hf
  have plain := isPlainWith_declarations hr
  unfold toCss
  by_cases empty : r.declarations = []
  · rw [empty]
    exact .closing (b := []) rfl
  · have text := texts_textOf (f := f) hr empty
    rw [List.isEmpty_eq_false_iff.mpr empty, if_neg Bool.false_ne_true]
    cases hl : f.lastSemicolon with
    | true =>
      rw [Layout.dropSemicolon, hl, if_pos rfl, text]
      exact declares_textOf hf.deeper between behind plain before
    | false =>
      obtain ⟨x, hx, whole⟩ := declares_dropped (l := l) hf.deeper between behind plain before empty
      have free : ';' ∉ f.afterDeclarations.toList := fun h =>
        absurd (List.all_eq_true.mp behind _ h) (by decide)
      have dropped := Layout.dropSemicolon_last hl (x := x) free
      rw [← hx, ← text, String.ofList_toList] at dropped
      rw [dropped]
      exact whole

/-- A plain rule set reads back from what stands in its braces, once it has its comments. -/
theorem takes_read (hf : k.fits f) {r : RuleSet} (hr : r.isPlainWith k.holds = true) (position : Position) :
    Takes ((r.toCss f).toList ++ '\x7d' :: l) l (read position []) fun r' =>
      ∀ cs : List Comment, cs.map Comment.text = f.kept r.comments →
        (RuleSet.viewed k.view f { r' with comments := cs ++ r'.comments }).bare true =
          (r.viewed k.view f).bare f.comments := by
  have declares := declares_toCss (l := l) (k.blank hf) hr
  have stay := declares.head_ne
  generalize (r.toCss f).toList ++ '\x7d' :: l = t at declares stay
  refine (Declaration.takes_noSemicolons stay).bind fun _ _ => Takes.left.bind fun n hn => ?_
  intro s hs
  have empty : Passed { position := some position, comments := [] } s := by
    intro d hd
    cases hd
  obtain ⟨r', s', ho, rest, same, all⟩ := readInto_declares (k.deeper hf) declares (Nat.le_of_eq hn.symm) hs empty
  refine ⟨r', s', ho, rest, fun cs hcs => ?_⟩
  simp only [bare, viewed, List.map_map, same, List.append_nil, Comment.bareAll_of_texts hcs]
  exact congrArg (RuleSet.mk · _ _ _) all

end RuleSet

end Stylesheet
