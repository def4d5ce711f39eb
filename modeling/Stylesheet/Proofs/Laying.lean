import Stylesheet.Proofs.RuleSetRoundTrip
import Stylesheet.Proofs.SelectorRoundTrip

namespace Stylesheet

open Read (Takes)

section Verbatim

variable {b t l : List Char} {c : Char}

theorem not_infix_append (ht : ¬ ['/', '*'] <:+: t) (hb : '*' ∉ b) : ¬ ['/', '*'] <:+: t ++ b := by
  induction t with
  | nil => exact fun h => hb (h.subset (by simp))
  | cons d t ih =>
    intro h
    rcases List.infix_cons_iff.mp h with hp | hi
    · obtain ⟨tail, htail⟩ := hp
      obtain ⟨first, second⟩ := List.cons.inj htail
      cases t with
      | nil =>
        have head : '*' :: tail = b := second
        exact hb (head ▸ List.mem_cons_self)
      | cons e t =>
        have head : '*' = e := (List.cons.inj second).1
        exact ht ⟨[], t, by rw [← first, ← head]; rfl⟩
    · exact ih (fun hi => ht (List.infix_cons_iff.mpr (.inr hi))) hi

/-- Text kept as it stands, as a reader meets it: `g` is skipped before it, and `t` is the text with the blanks behind
it. -/
structure Met (stops : List Char) (text : String) (g t : List Char) : Prop where
  skipped : g.all Text.isBlank = true
  unstopped : t.all (· ∉ stops) = true
  uncommented : ¬ ['/', '*'] <:+: t
  trimmed : Text.trim (String.ofList t) = text
  solid : ∀ c rest, t = c :: rest → Text.isBlank c = false

theorem Met.stops {stops : List Char} {text : String} {g : List Char} (h : Met stops text g t)
    (hc : Text.isBlank c = false) (hs : c ≠ '/' ∧ c ≠ '*') : Stops (t ++ c :: l) := by
  have free := not_infix_append h.uncommented (b := [c]) (by simpa using Ne.symm hs.2)
  cases t with
  | nil => exact .cons hc hs.1
  | cons d t =>
    refine ⟨pastBlank_cons (h.solid d t rfl), fun hp => free ?_⟩
    obtain ⟨tail, htail⟩ := hp
    cases t with
    | nil =>
      rw [List.cons_append, List.cons_append, List.cons_append, List.nil_append, List.nil_append, List.cons.injEq,
        List.cons.injEq] at htail
      exact ⟨[], [], by rw [← htail.1, ← htail.2.1]; rfl⟩
    | cons e t =>
      rw [List.cons_append, List.cons_append, List.cons_append, List.nil_append, List.cons_append, List.cons.injEq,
        List.cons.injEq] at htail
      exact ⟨[], t ++ [c], by rw [← htail.1, ← htail.2.1]; rfl⟩

theorem isVerbatim_met {stops : List Char} {text : String} (hv : isVerbatim stops text = true)
    (hs : stops.all (fun c => !Text.isBlank c) = true) {a : List Char} (ha : a.all Text.isBlank = true)
    (hb : b.all Text.isBlank = true) : ∃ g t, a ++ (text.toList ++ b) = g ++ t ∧ Met stops text g t := by
  rw [isVerbatim, Bool.and_eq_true, Bool.and_eq_true, Bool.not_eq_true'] at hv
  obtain ⟨⟨trimmed, unstopped⟩, uncommented⟩ := hv
  cases ht : text.toList with
  | nil =>
    have empty : Text.trim (String.ofList []) = text := by
      rw [← String.ofList_toList (s := text), ht]
      rfl
    exact ⟨a ++ b, [], (List.append_nil _).symm, by rw [List.all_append, ha, hb]; rfl, rfl, by simp, empty,
      fun c rest h => by cases h⟩
  | cons c t =>
    have blank {d : Char} (hd : d ∈ b) : Text.isBlank d = true := List.all_eq_true.mp hb d hd
    rw [← ht]
    refine ⟨a, text.toList ++ b, rfl, ha, ?_, ?_, Text.trim_around trimmed (b := []) rfl hb, fun d rest h => ?_⟩
    · rw [List.all_append, unstopped, Bool.true_and, List.all_eq_true]
      intro d hd
      refine decide_eq_true fun hm => ?_
      have solid := List.all_eq_true.mp hs d hm
      rw [blank hd] at solid
      cases solid
    · exact not_infix_append (Text.not_infix_of_hasPair uncommented) fun h => absurd (blank h) (by decide)
    · have whole := Text.isTrimmed_iff.mp trimmed
      rw [ht] at h whole
      cases h
      exact Text.solid_of_trimmed whole

end Verbatim

mutual

/-- What is written of a statement between the blanks around it: `Writes holds f keyframe s t`, where `keyframe` tells
that the statement stands in the body of keyframes. -/
inductive Writes (holds : String → Value → Bool) : Layout → Bool → Statement → List Char → Prop
  | style {f : Layout} {keyframe : Bool} {r : StyleRule} : r.isPlainWith holds keyframe = true →
    Writes holds f keyframe (.style r) (Selector.textOf (f.fit f.spacing.beforeSelectorComma).toList
      (f.fit f.spacing.afterSelectorComma).toList (f.inserts.afterSelectors.toList ++ f.beforeBrace.toList) r.selectors ++
        '\x7b' :: ((r.rules.toCss f).toList ++ ['\x7d']))
  | descriptors {f : Layout} {keyframe : Bool} {name args : String} {rules : RuleSet} :
    (Statement.descriptors name args rules).isPlainWith holds keyframe = true →
      Writes holds f keyframe (.descriptors name args rules) ('@' :: (name.toList ++ ((spaced args).toList ++
        (f.beforeBrace.toList ++ '\x7b' :: ((rules.toCss f).toList ++ ['\x7d'])))))
  | grouping {f : Layout} {keyframe : Bool} {name args : String} {ss : List Statement} {p : Option Position}
      {cs ts : List Comment} {t : List Char} :
    (Statement.grouping name args ⟨ss, p, cs, ts⟩).isPlainWith holds keyframe = true →
    Lays holds f.deeper false false ss ts t →
      Writes holds f keyframe (.grouping name args ⟨ss, p, cs, ts⟩) ('@' :: (name.toList ++ ((spaced args).toList ++
        (f.beforeBrace.toList ++ '\x7b' :: (t ++ ['\x7d'])))))
  | keyframes {f : Layout} {keyframe : Bool} {name animation : String} {ss : List Statement} {p : Option Position}
      {cs ts : List Comment} {t : List Char} :
    (Statement.keyframes name animation ⟨ss, p, cs, ts⟩).isPlainWith holds keyframe = true →
    Lays holds f.deeper true false ss ts t →
      Writes holds f keyframe (.keyframes name animation ⟨ss, p, cs, ts⟩) ('@' :: (name.toList ++ ' ' ::
        (animation.toList ++ (f.beforeBrace.toList ++ '\x7b' :: (t ++ ['\x7d'])))))
  | imports {f : Layout} {keyframe : Bool} {url : Url} {media : Option String} {p : Option Position}
      {cs : List Comment} : (Statement.imports url media p cs).isPlainWith holds keyframe = true →
      Writes holds f keyframe (.imports url media p cs) ("@import ".toList ++ ((url.toCss f).toList ++
        (((media.map (" " ++ ·)).getD "").toList ++ [';'])))
  | charset {f : Layout} {keyframe : Bool} {encoding : Quoted} {p : Option Position} {cs : List Comment} :
    encoding.isPlain = true →
      Writes holds f keyframe (.charset encoding p cs) ("@charset ".toList ++ ((encoding.toCss f).toList ++ [';']))
  | naming {f : Layout} {keyframe : Bool} {abbreviation : Option String} {url : Value} {p : Option Position}
      {cs : List Comment} : (Statement.naming abbreviation url p cs).isPlainWith holds keyframe = true →
      Writes holds f keyframe (.naming abbreviation url p cs) ("@namespace ".toList ++
        (((abbreviation.map (· ++ " ")).getD "").toList ++ ((url.toCss f).toList ++ [';'])))

/-- Statements and the comments behind the last one. `head` tells that the naming of a charset may come first. -/
inductive Lays (holds : String → Value → Bool) : Layout → Bool → Bool → List Statement → List Comment → List Char → Prop
  | done {f : Layout} {keyframe head : Bool} {ts : List Comment} {g : List Char} : IsGap (f.kept ts) g →
    Lays holds f keyframe head [] ts g
  | more {f : Layout} {keyframe head : Bool} {s : Statement} {ss : List Statement} {ts : List Comment}
      {g c t : List Char} : IsGap (f.kept s.comments) g → Writes holds f keyframe s c →
      (s.name? = some "charset" → head = true) → Lays holds f keyframe false ss ts t →
        Lays holds f keyframe head (s :: ss) ts (g ++ (c ++ t))

end

namespace Lays

variable {holds : String → Value → Bool} {f : Layout} {keyframe head : Bool} {ss : List Statement}
  {ts : List Comment} {b t : List Char}

theorem behind_blanks (hb : b.all Text.isBlank = true) (h : Lays holds f keyframe head ss ts t) :
    Lays holds f keyframe head ss ts (b ++ t) := by
  cases h with
  | done hg => exact .done ((IsGap.ofBlanks hb).append hg)
  | more hg hw first hl =>
    rw [← List.append_assoc]
    exact .more ((IsGap.ofBlanks hb).append hg) hw first hl

end Lays

/-- A written statement, with its comments before it and blanks around it. -/
def WritesText (holds : String → Value → Bool) (f : Layout) (keyframe : Bool) (s : Statement) (text : String) : Prop :=
  ∃ g c b, text.toList = g ++ (c ++ b) ∧ IsGap (f.kept s.comments) g ∧ Writes holds f keyframe s c ∧
    b.all Text.isBlank = true

/-- Written statements, each with its own text. -/
inductive WritesTexts (holds : String → Value → Bool) (f : Layout) (keyframe : Bool) :
    List Statement → List String → Prop
  | nil : WritesTexts holds f keyframe [] []
  | cons {s : Statement} {ss : List Statement} {text : String} {texts : List String} :
    WritesText holds f keyframe s text → WritesTexts holds f keyframe ss texts →
      WritesTexts holds f keyframe (s :: ss) (text :: texts)

/-- Texts with `b` before the first one, `between` any two and `e` behind the last one. -/
def textOfBlocks (between e : List Char) : List Char → List String → List Char
  | _, [] => e
  | b, t :: ts => b ++ (t.toList ++ textOfBlocks between e between ts)

theorem textOfBlocks_eq (between : String) (e b : List Char) (first : String) (texts : List String) :
    b ++ ((String.intercalate between (first :: texts)).toList ++ e) =
      textOfBlocks between.toList e b (first :: texts) := by
  induction texts generalizing b first with
  | nil => rw [String.intercalate_singleton, textOfBlocks, textOfBlocks]
  | cons second texts ih =>
    have others := ih between.toList second
    rw [textOfBlocks, ← others, String.intercalate_cons_cons, String.toList_append, String.toList_append]
    simp only [List.append_assoc]

section Arranging

variable {holds : String → Value → Bool} {f : Layout} {keyframe head : Bool} {ss : List Statement}
  {ts : List Comment} {b e between : List Char} {texts : List String}

/-- Written statements with blanks between them. What `extra` says of the comments behind the last one is a gap. -/
theorem lays_textOfBlocks (hm : between.all Text.isBlank = true) (extra : List String)
    (hx : ∀ b : List Char, b.all Text.isBlank = true → IsGap (f.kept ts) (textOfBlocks between e b extra))
    (h : WritesTexts holds f keyframe ss texts) (hb : b.all Text.isBlank = true)
    (hc : ∀ s ∈ ss.tail, s.name? ≠ some "charset") (hh : ∀ s ∈ ss.head?, s.name? = some "charset" → head = true) :
    Lays holds f keyframe head ss ts (textOfBlocks between e b (texts ++ extra)) := by
  induction h generalizing b head with
  | nil => exact .done (hx b hb)
  | @cons s ss text texts hs _ ih =>
    obtain ⟨g, c, a, ht, hg, hw, ha⟩ := hs
    have others : Lays holds f keyframe false ss ts (textOfBlocks between e between (texts ++ extra)) := by
      refine ih hm (fun s h => hc s (List.mem_of_mem_tail h)) fun s h charset => ?_
      exact absurd charset (hc s (List.mem_of_mem_head? h))
    have gap := (IsGap.ofBlanks hb).append hg
    have whole : Lays holds f keyframe head (s :: ss) ts _ := .more gap hw (hh s rfl) (others.behind_blanks ha)
    rw [List.cons_append, textOfBlocks, ht]
    simpa only [List.append_assoc, List.nil_append] using whole

/-- The texts of a body, arranged, lay out its statements. -/
theorem lays_arrange (hf : f.IsBlank) {closing : String} (hcl : closing.toList.all Text.isBlank = true)
    (ht : ts.all Comment.isPlain = true) (h : WritesTexts holds f keyframe ss texts)
    (hc : ∀ s ∈ ss.tail, s.name? ≠ some "charset") (hh : ∀ s ∈ ss.head?, s.name? = some "charset" → head = true) :
    Lays holds f keyframe head ss ts (Body.arrange f closing ts texts).toList := by
  have before : f.beforeBlocks.toList.all Text.isBlank = true := Layout.blank_fit hf hf.beforeBlocks
  have between : f.betweenBlocks.toList.all Text.isBlank = true := Layout.blank_fit hf hf.betweenBlocks
  have blocks (all : List String) (nonempty : all ≠ []) :
      (f.beforeBlocks ++ String.intercalate f.betweenBlocks all ++ closing).toList =
        textOfBlocks f.betweenBlocks.toList closing.toList f.beforeBlocks.toList all := by
    cases all with
    | nil => exact absurd rfl nonempty
    | cons first all =>
      rw [← textOfBlocks_eq, String.toList_append, String.toList_append, List.append_assoc]
  unfold Body.arrange
  cases trail : f.comments && !ts.isEmpty with
  | false =>
    have noneKept : f.kept ts = [] := by
      rw [Layout.kept]
      cases hk : f.comments with
      | false => rfl
      | true =>
        rw [hk, Bool.true_and, Bool.not_eq_false', List.isEmpty_iff] at trail
        rw [trail]
        rfl
    have laid := lays_textOfBlocks (e := closing.toList) between []
      (fun b _ => by rw [noneKept]; exact .ofBlanks hcl) h before hc hh
    rw [List.append_nil] at laid
    cases h with
    | nil =>
      refine .done ?_
      rw [noneKept]
      exact .nil
    | cons _ _ =>
      simp only [Bool.false_eq_true, if_false, List.isEmpty_cons]
      rw [blocks _ (List.cons_ne_nil _ _)]
      exact laid
  | true =>
    rw [Bool.and_eq_true] at trail
    have kept : f.kept ts = ts.map Comment.text := if_pos trail.1
    have comments := isGap_comments between (List.all_eq_true.mp ht)
    have gap (b : List Char) (hb : b.all Text.isBlank = true) : IsGap (f.kept ts) (textOfBlocks f.betweenBlocks.toList
        closing.toList b [String.intercalate f.betweenBlocks (ts.map Comment.toCss)]) := by
      have whole := ((IsGap.ofBlanks hb).append comments).append (.ofBlanks hcl)
      rw [kept]
      simpa only [textOfBlocks, List.append_assoc, List.nil_append, List.append_nil] using whole
    have nonempty : texts ++ [String.intercalate f.betweenBlocks (ts.map Comment.toCss)] ≠ [] := by simp
    simp only [if_true, List.isEmpty_eq_false_iff.mpr nonempty, Bool.false_eq_true, if_false]
    rw [blocks _ nonempty]
    exact lays_textOfBlocks between _ gap h before hc hh

end Arranging

namespace Statement

/-- A plain statement names no charset. -/
theorem name_of_isPlainWith {s : Statement} {keyframe : Bool} (hs : s.isPlainWith holds keyframe = true) :
    s.name? ≠ some "charset" := by
  intro hn
  cases s with
  | style => cases hn
  | imports => exact absurd (Option.some.inj hn) (by decide)
  | naming => exact absurd (Option.some.inj hn) (by decide)
  | charset => cases hs
  | descriptors name args rules =>
    cases hn
    simp [isPlainWith] at hs
  | grouping name args body =>
    cases hn
    simp only [isPlainWith, Bool.and_eq_true] at hs
    exact absurd hs.1.1.1.1.1.2 (by decide)
  | keyframes name animation body =>
    cases hn
    simp only [isPlainWith, Bool.and_eq_true] at hs
    exact absurd hs.1.1.1.1.2 (by decide)

theorem names_of_arePlainWith {ss : List Statement} {keyframe : Bool} (hs : arePlainWith holds ss keyframe = true) :
    ∀ s ∈ ss, s.name? ≠ some "charset" := by
  induction ss with
  | nil => exact fun s h => by cases h
  | cons s ss ih =>
    rw [arePlainWith, Bool.and_eq_true] at hs
    intro t ht
    rcases List.mem_cons.mp ht with rfl | ht
    · exact name_of_isPlainWith hs.1
    · exact ih hs.2 t ht

end Statement

theorem Selector.textOf_eq (x y : String) (e : List Char) {ss : List Selector} (h0 : ss ≠ []) :
    (String.intercalate (x ++ "," ++ y) (ss.map text)).toList ++ e = textOf x.toList y.toList e ss := by
  induction ss with
  | nil => exact absurd rfl h0
  | cons s ss ih =>
    cases ss with
    | nil => rw [List.map_singleton, String.intercalate_singleton, textOf]
    | cons second ss =>
      rw [textOf, ← ih (List.cons_ne_nil _ _), List.map_cons, List.map_cons, String.intercalate_cons_cons,
        ← List.map_cons, String.toList_append, String.toList_append, String.toList_append, String.toList_append]
      · simp only [List.append_assoc]
        rfl
      · exact List.cons_ne_nil _ _

theorem StyleRule.writesText {f : Layout} (hf : f.IsBlank) {r : StyleRule} {keyframe : Bool}
    (hr : r.isPlainWith holds keyframe = true) :
    ∃ text, r.toCss f = .ok text ∧ WritesText holds f keyframe (.style r) text := by
  have plain := hr
  simp only [isPlainWith, RuleSet.isPlainWith, Bool.and_eq_true, Bool.not_eq_true', List.isEmpty_eq_false_iff] at plain
  have gap := (Layout.isGap_leading hf plain.2.2).append (.ofBlanks (all_isBlank hf.beforeStyleRule))
  rw [List.append_nil] at gap
  refine ⟨_, if_neg (by simpa using plain.1.1), _, _, f.inserts.afterStyleRule.toList, ?_, gap, .style hr,
    all_isBlank hf.afterStyleRule⟩
  rw [← Selector.textOf_eq _ _ _ plain.1.1]
  simp [Layout.selectorComma]

namespace Statement

mutual

/-- A plain statement can be written. -/
theorem writesText {f : Layout} (hf : f.IsBlank) :
    (s : Statement) → (keyframe : Bool) → s.isPlainWith holds keyframe = true →
    ∃ text, s.toCss f = .ok text ∧ WritesText holds f keyframe s text
  | .style r, keyframe, hs => by
    rw [isPlainWith] at hs
    exact StyleRule.writesText hf hs
  | .descriptors name args rules, keyframe, hs => by
    have plain := hs
    simp only [isPlainWith, RuleSet.isPlainWith, Bool.and_eq_true] at plain
    refine ⟨_, by rw [toCss], _, _, [], ?_, Layout.isGap_leading hf plain.2.2, .descriptors hs, rfl⟩
    simp [comments]
  | .grouping name args ⟨ss, p, cs, ts⟩, keyframe, hs => by
    have plain := hs
    simp only [isPlainWith, Bool.and_eq_true] at plain
    obtain ⟨all, written, laid⟩ := writesTexts hf.deeper ss false plain.2
    have names := names_of_arePlainWith plain.2
    have behind := Layout.blank_fit hf hf.afterBlocks
    have body : Lays holds f.deeper false false ss ts _ := lays_arrange hf.deeper behind plain.1.2
      laid (fun s h => names s (List.mem_of_mem_tail h)) fun s h hn => absurd hn (names s (List.mem_of_mem_head? h))
    have gap := (Layout.isGap_leading hf plain.1.1.2).append (.ofBlanks (all_isBlank hf.beforeGroupingRule))
    rw [List.append_nil] at gap
    refine ⟨_, by rw [toCss, written, Except.map], _, _, f.inserts.afterGroupingRule.toList, ?_, gap,
      .grouping hs body, all_isBlank hf.afterGroupingRule⟩
    simp [Layout.afterBlocks]
  | .keyframes name animation ⟨ss, p, cs, ts⟩, keyframe, hs => by
    have plain := hs
    simp only [isPlainWith, Bool.and_eq_true] at plain
    obtain ⟨all, written, laid⟩ := writesTexts hf.deeper ss true plain.2
    have names := names_of_arePlainWith plain.2
    have behind := Layout.blank_fit hf hf.afterBlocks
    have body : Lays holds f.deeper true false ss ts _ := lays_arrange hf.deeper behind plain.1.2
      laid (fun s h => names s (List.mem_of_mem_tail h)) fun s h hn => absurd hn (names s (List.mem_of_mem_head? h))
    refine ⟨_, by rw [toCss, written, Except.map], _, _, [], ?_, Layout.isGap_leading hf plain.1.1.2,
      .keyframes hs body, rfl⟩
    simp [Layout.afterBlocks, comments]
  | .imports url media p cs, keyframe, hs => by
    have plain := hs
    simp only [isPlainWith, Bool.and_eq_true] at plain
    refine ⟨_, by rw [toCss], _, _, [], ?_, Layout.isGap_leading hf plain.2, .imports hs, rfl⟩
    simp [comments]
  | .charset encoding p cs, keyframe, hs => by cases hs
  | .naming abbreviation url p cs, keyframe, hs => by
    have plain := hs
    simp only [isPlainWith, Bool.and_eq_true] at plain
    refine ⟨_, by rw [toCss], _, _, [], ?_, Layout.isGap_leading hf plain.2, .naming hs, rfl⟩
    simp [comments]

theorem writesTexts {f : Layout} (hf : f.IsBlank) : (ss : List Statement) → (keyframe : Bool) →
    arePlainWith holds ss keyframe = true → ∃ all, texts f ss = .ok all ∧ WritesTexts holds f keyframe ss all
  | [], _, _ => ⟨[], rfl, .nil⟩
  | s :: ss, keyframe, hs => by
    rw [arePlainWith, Bool.and_eq_true] at hs
    obtain ⟨text, one, first⟩ := writesText hf s keyframe hs.1
    obtain ⟨all, others, laid⟩ := writesTexts hf ss keyframe hs.2
    refine ⟨text :: all, ?_, .cons first laid⟩
    rw [texts, one]
    dsimp only
    rw [others]
    rfl

end

end Statement

namespace Sheet

/-- The statements of a plain sheet can be written. Only the first one may name a charset. -/
theorem writesTexts {f : Layout} (hf : f.IsBlank) {d : Sheet} (hd : d.isPlainWith holds = true) :
    ∃ all, Statement.texts f d.contents = .ok all ∧ WritesTexts holds f false d.contents all ∧
      ∀ s ∈ d.contents.tail, s.name? ≠ some "charset" := by
  rw [isPlainWith, Bool.and_eq_true] at hd
  have statements := hd.2
  split at statements
  · next encoding p cs ss hc =>
    simp only [Bool.and_eq_true] at statements
    obtain ⟨all, written, laid⟩ := Statement.writesTexts hf ss false statements.2
    have gap := Layout.isGap_leading hf statements.1.2
    have first : WritesText holds f false (.charset encoding p cs)
        (f.leading cs ++ "@charset " ++ encoding.toCss f ++ ";") := by
      refine ⟨_, _, [], ?_, gap, .charset statements.1.1, rfl⟩
      simp
    rw [hc]
    refine ⟨_ :: all, ?_, .cons first laid, Statement.names_of_arePlainWith statements.2⟩
    rw [Statement.texts, Statement.toCss]
    dsimp only
    rw [written]
    rfl
  · obtain ⟨all, written, laid⟩ := Statement.writesTexts hf d.contents false statements
    exact ⟨all, written, laid, fun s h => Statement.names_of_arePlainWith statements s (List.mem_of_mem_tail h)⟩

/-- A plain sheet can be written, and its text lays out what is in it. -/
theorem lays_toCss {f : Layout} (hf : f.IsBlank) {d : Sheet} (hd : d.isPlainWith holds = true) :
    ∃ text, Sheet.toCss f d = .ok text ∧ Lays holds f false true d.contents d.trailing text.toList := by
  obtain ⟨all, written, laid, names⟩ := writesTexts hf hd
  rw [isPlainWith, Bool.and_eq_true, Bool.and_eq_true, List.isEmpty_iff] at hd
  refine ⟨Body.arrange f "" d.trailing all, ?_, lays_arrange hf rfl hd.1.2 laid names fun _ _ _ => rfl⟩
  have leadless : f.leading [] = "" := by simp [Layout.leading]
  rw [toCss, written, hd.1.1, leadless, Except.map, String.empty_append]

end Sheet

end Stylesheet
