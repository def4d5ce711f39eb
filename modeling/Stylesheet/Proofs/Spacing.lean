import Stylesheet.Proofs.LastSemicolon
import Stylesheet.Sheet.Writing

namespace Stylesheet

namespace Text

def allBlank (text : String) : Bool := text.toList.all isBlank

/-- The characters of a text that are not blank. -/
def solid (text : String) : List Char := text.toList.filter fun c => !isBlank c

theorem solid_append (s t : String) : solid (s ++ t) = solid s ++ solid t := by
  rw [solid, String.toList_append, List.filter_append, solid, solid]

theorem filter_blank {cs : List Char} (h : cs.all isBlank = true) : cs.filter (fun c => !isBlank c) = [] := by
  apply List.filter_eq_nil_iff.mpr
  intro c hc
  simp [List.all_eq_true.mp h c hc]

theorem solid_of_allBlank {text : String} (h : allBlank text = true) : solid text = [] := filter_blank h

theorem solid_intercalate (between : String) (texts : List String) :
    solid (String.intercalate between texts) = (solid between).intercalate (texts.map solid) := by
  induction texts with
  | nil => simp [solid]
  | cons first texts ih =>
    cases texts with
    | nil => simp
    | cons second texts =>
      rw [String.intercalate_cons_cons, solid_append, solid_append, ih]
      simp

end Text

namespace Layout

/-- What the layout puts between tokens is blank. -/
def IsSpaced (f : Layout) : Prop := f.IsSpacedBy Text.allBlank

/-- Two layouts that differ in their blanks only. Their levels may differ too. -/
structure Alike (f g : Layout) : Prop where
  first : f.IsSpaced
  second : g.IsSpaced
  inserts : f.inserts = g.inserts
  quote : f.quote = g.quote
  hashColors : f.hashColors = g.hashColors
  lastSemicolon : f.lastSemicolon = g.lastSemicolon
  comments : f.comments = g.comments
  ignoreFaults : f.ignoreFaults = g.ignoreFaults

namespace IsSpaced

variable {f : Layout} {space : String}

theorem deeper (hf : f.IsSpaced) : f.deeper.IsSpaced := IsSpacedBy.deeper hf

theorem allBlank_fit (hf : f.IsSpaced) (h : Text.allBlank space = true) : Text.allBlank (f.fit space) = true :=
  all_fit rfl hf.indentation h

theorem solid_fit (hf : f.IsSpaced) (h : Text.allBlank space = true) : Text.solid (f.fit space) = [] :=
  Text.solid_of_allBlank (hf.allBlank_fit h)

theorem solid_afterName (hf : f.IsSpaced) : Text.solid f.afterName = [] := hf.solid_fit hf.afterName

theorem solid_beforeBrace (hf : f.IsSpaced) : Text.solid f.beforeBrace = [] := hf.solid_fit hf.beforeBrace

theorem solid_beforeBlocks (hf : f.IsSpaced) : Text.solid f.beforeBlocks = [] := hf.solid_fit hf.beforeBlocks

theorem solid_betweenBlocks (hf : f.IsSpaced) : Text.solid f.betweenBlocks = [] := hf.solid_fit hf.betweenBlocks

theorem solid_afterBlocks (hf : f.IsSpaced) : Text.solid f.afterBlocks = [] := hf.solid_fit hf.afterBlocks

theorem solid_selectorComma (hf : f.IsSpaced) : Text.solid f.selectorComma = Text.solid "," := by
  have before := hf.solid_fit hf.beforeSelectorComma
  have behind := hf.solid_fit hf.afterSelectorComma
  rw [selectorComma, Text.solid_append, Text.solid_append, before, behind, List.nil_append, List.append_nil]

/-- Of what stands between two components only the separator is solid. -/
theorem solid_around (hf : f.IsSpaced) (s : Separator) : Text.solid (f.around s) = Text.solid s.symbol := by
  have side {own : Option String} {common : String} (ho : own.all Text.allBlank = true)
      (hc : Text.allBlank common = true) : Text.solid (own.getD (f.fit common)) = [] := by
    cases own with
    | none => exact hf.solid_fit hc
    | some text => exact Text.solid_of_allBlank ho
  have before := side (hf.beforeSeparatorOf s) hf.beforeSeparator
  have behind := side (hf.afterSeparatorOf s) hf.afterSeparator
  rw [around, Text.solid_append, Text.solid_append, before, behind, List.nil_append, List.append_nil]

end IsSpaced

namespace Alike

variable {f g : Layout}

theorem deeper (h : f.Alike g) : f.deeper.Alike g.deeper :=
  { h with first := h.first.deeper, second := h.second.deeper }

theorem around (h : f.Alike g) (s : Separator) : Text.solid (f.around s) = Text.solid (g.around s) := by
  rw [h.first.solid_around, h.second.solid_around]

theorem betweenBlocks (h : f.Alike g) : Text.solid f.betweenBlocks = Text.solid g.betweenBlocks := by
  rw [h.first.solid_betweenBlocks, h.second.solid_betweenBlocks]

theorem afterBlocks (h : f.Alike g) : Text.solid f.afterBlocks = Text.solid g.afterBlocks := by
  rw [h.first.solid_afterBlocks, h.second.solid_afterBlocks]

theorem leading (h : f.Alike g) (cs : List Comment) : Text.solid (f.leading cs) = Text.solid (g.leading cs) := by
  unfold Layout.leading
  rw [h.comments]
  split
  · rfl
  · rw [Text.solid_append, Text.solid_append, Text.solid_intercalate, Text.solid_intercalate, h.betweenBlocks,
      h.afterBlocks]

end Alike

end Layout

/-- Texts between which equal solid characters stand are joined to texts with equal solid characters. -/
theorem Text.solid_join {between between' : String} (hb : solid between = solid between') {texts texts' : List String}
    (ht : texts.map solid = texts'.map solid) :
    solid (String.intercalate between texts) = solid (String.intercalate between' texts') := by
  rw [solid_intercalate, solid_intercalate, hb, ht]

namespace Notation

variable {f g : Layout} {texts texts' : List String}

theorem ofChannels_alike (h : f.Alike g) (cs : List (Channel Value)) : ofChannels f cs = ofChannels g cs := by
  rw [ofChannels, h.hashColors, ofChannels]

theorem modernText_of_opacity {cs : List (Channel Value)} {v : Value} (hc : cs.getLast? = some ⟨'a', v⟩)
    {opacity : String} (ht : texts.getLast? = some opacity) :
    modernText cs texts = String.intercalate " " texts.dropLast ++ " / " ++ opacity := by
  rw [modernText, hc, ht]
  rfl

theorem modernText_of_not_opacity {cs : List (Channel Value)} (hc : ¬ ∃ v, cs.getLast? = some ⟨'a', v⟩)
    (texts : List String) : modernText cs texts = String.intercalate " " texts := by
  unfold modernText
  split
  · next v opacity last _ => exact absurd ⟨v, last⟩ hc
  · rfl

theorem solid_modernText (cs : List (Channel Value)) (same : texts.map Text.solid = texts'.map Text.solid) :
    Text.solid (modernText cs texts) = Text.solid (modernText cs texts') := by
  by_cases opacity : ∃ v, cs.getLast? = some ⟨'a', v⟩
  · obtain ⟨v, hc⟩ := opacity
    have channels : texts.dropLast.map Text.solid = texts'.dropLast.map Text.solid := by
      rw [List.map_dropLast, same, ← List.map_dropLast]
    have last : texts.getLast?.map Text.solid = texts'.getLast?.map Text.solid := by
      rw [← List.getLast?_map, same, List.getLast?_map]
    cases ht : texts.getLast? with
    | none =>
      have empty : texts = [] := List.getLast?_eq_none_iff.mp ht
      have empty' : texts' = [] := by simpa [empty] using same.symm
      rw [empty, empty']
    | some text =>
      rw [ht, Option.map_some] at last
      obtain ⟨text', ht', solid⟩ := Option.map_eq_some_iff.mp last.symm
      rw [modernText_of_opacity hc ht, modernText_of_opacity hc ht', Text.solid_append, Text.solid_append,
        Text.solid_append, Text.solid_append, solid, Text.solid_join rfl channels]
  · rw [modernText_of_not_opacity opacity, modernText_of_not_opacity opacity]
    exact Text.solid_join rfl same

/-- A color is written in the same notation by both layouts, and with the same solid characters. -/
theorem solid_colorText (h : f.Alike g) (cs : List (Channel Value))
    (same : texts.map Text.solid = texts'.map Text.solid) :
    Text.solid (colorText f cs texts) = Text.solid (colorText g cs texts') := by
  have modern := solid_modernText cs same
  have classic := Text.solid_join (h.around .comma) same
  unfold colorText
  rw [ofChannels_alike h]
  dsimp only
  cases ofChannels g cs with
  | hash => rfl
  | modern => simp only [Text.solid_append, modern]
  | classic => simp only [Text.solid_append, classic]

end Notation

theorem Quoted.toCss_alike {f g : Layout} (h : f.Alike g) (s : Quoted) : s.toCss f = s.toCss g := by
  rw [toCss, h.quote, toCss]

theorem Url.toCss_alike {f g : Layout} (h : f.Alike g) (u : Url) : u.toCss f = u.toCss g := by
  rw [toCss, Quoted.toCss_alike h, toCss]

namespace Value

variable {f g : Layout}

mutual

/-- Alike layouts write a value with the same solid characters. -/
theorem solid_toCss (h : f.Alike g) : (v : Value) → Text.solid (v.toCss f) = Text.solid (v.toCss g)
  | .keyword _ => rfl
  | .size _ => rfl
  | .color cs _ _ => by
    have channels := solid_textsOfChannels h cs
    rw [toCss, toCss]
    exact Notation.solid_colorText h cs channels
  | .string s => by rw [toCss, toCss, Quoted.toCss_alike h]
  | .url u => by rw [toCss, toCss, Url.toCss_alike h]
  | .function name args s _ => by
    have arguments := Text.solid_join (h.around s) (solid_texts h args)
    simp only [toCss, Text.solid_append, arguments]
  | .calculation name ts _ => by
    have tokens := Text.solid_join (Eq.refl (Text.solid " ")) (solid_textsOfTokens h ts)
    simp only [toCss, Text.solid_append, tokens]
  | .list vs s _ => by
    rw [toCss, toCss]
    exact Text.solid_join (h.around s) (solid_texts h vs)
  | .lineNames _ _ => rfl

theorem solid_texts (h : f.Alike g) : (vs : List Value) → (texts f vs).map Text.solid = (texts g vs).map Text.solid
  | [] => rfl
  | v :: vs => by rw [texts, texts, List.map_cons, List.map_cons, solid_toCss h v, solid_texts h vs]

theorem solid_textsOfChannels (h : f.Alike g) : (cs : List (Channel Value)) →
    (textsOfChannels f cs).map Text.solid = (textsOfChannels g cs).map Text.solid
  | [] => rfl
  | ⟨_, v⟩ :: cs => by
    rw [textsOfChannels, textsOfChannels, List.map_cons, List.map_cons, solid_toCss h v, solid_textsOfChannels h cs]

theorem solid_textsOfTokens (h : f.Alike g) : (ts : List (CalcToken Value)) →
    (textsOfTokens f ts).map Text.solid = (textsOfTokens g ts).map Text.solid
  | [] => rfl
  | .operand v :: ts => by
    rw [textsOfTokens, textsOfTokens, List.map_cons, List.map_cons, solid_toCss h v, solid_textsOfTokens h ts]
  | .operator _ :: ts => by
    rw [textsOfTokens, textsOfTokens, List.map_cons, List.map_cons, solid_textsOfTokens h ts]
  | .opening :: ts => by rw [textsOfTokens, textsOfTokens, List.map_cons, List.map_cons, solid_textsOfTokens h ts]
  | .closing :: ts => by rw [textsOfTokens, textsOfTokens, List.map_cons, List.map_cons, solid_textsOfTokens h ts]

end

end Value

theorem Declaration.solid_toCss {f g : Layout} (h : f.Alike g) (d : Declaration) :
    Text.solid (d.toCss f) = Text.solid (d.toCss g) := by
  have value : Text.solid ((d.value.map (Value.toCss f)).getD "") =
      Text.solid ((d.value.map (Value.toCss g)).getD "") := by
    cases d.value with
    | none => rw [Option.map_none, Option.map_none]
    | some v => rw [Option.map_some, Option.map_some, Option.getD_some, Option.getD_some, Value.solid_toCss h v]
  unfold toCss
  simp only [Text.solid_append, value, h.leading]
  rw [h.first.solid_afterName, h.second.solid_afterName]

namespace RuleSet

variable {f g : Layout}

theorem solid_texts (h : f.Alike g) (r : RuleSet) : (r.texts f).map Text.solid = (r.texts g).map Text.solid := by
  rw [texts, texts, List.map_map, List.map_map]
  exact List.map_congr_left fun d _ => Declaration.solid_toCss h.deeper d

/-- The declarations with their spacing and with all semicolons. -/
def fullText (f : Layout) (r : RuleSet) : String :=
  f.deeper.beforeDeclarations ++ String.intercalate f.deeper.betweenDeclarations (r.texts f) ++ f.afterDeclarations

theorem solid_fullText (h : f.Alike g) (r : RuleSet) : Text.solid (r.fullText f) = Text.solid (r.fullText g) := by
  have spaces {k : Layout} (hk : k.IsSpaced) : Text.solid k.beforeDeclarations = [] ∧
      Text.solid k.betweenDeclarations = [] ∧ Text.solid k.afterDeclarations = [] :=
    ⟨hk.solid_fit hk.beforeDeclarations, hk.solid_fit hk.betweenDeclarations, hk.solid_fit hk.afterDeclarations⟩
  obtain ⟨before, between, -⟩ := spaces h.first.deeper
  obtain ⟨before', between', -⟩ := spaces h.second.deeper
  obtain ⟨-, -, behind⟩ := spaces h.first
  obtain ⟨-, -, behind'⟩ := spaces h.second
  have joined := Text.solid_join (between.trans between'.symm) (solid_texts h r)
  simp only [fullText, Text.solid_append, before, before', joined, behind, behind']

/-- Only blanks stand behind the semicolon of the last declaration. -/
theorem fullText_ends (hf : f.IsSpaced) {r : RuleSet} (hr : r.declarations ≠ []) :
    ∃ x e, (r.fullText f).toList = x ++ ';' :: e ∧ e.all Text.isBlank = true := by
  obtain ⟨ds, d, declared⟩ := List.eq_nil_or_concat r.declarations |>.resolve_left hr
  refine ⟨(joined f (ds.map (Declaration.toCss f.deeper) ++ [d.unended f.deeper])).toList, f.afterDeclarations.toList, ?_,
    hf.allBlank_fit hf.afterDeclarations⟩
  rw [fullText, texts, declared, List.concat_eq_append, ← joined, joined_concat, String.toList_append,
    String.toList_append, List.append_assoc]
  rfl

theorem solid_dropSemicolon (hf : f.lastSemicolon = false) {text : String} {x e : List Char}
    (ht : text.toList = x ++ ';' :: e) (he : e.all Text.isBlank = true) :
    Text.solid (f.dropSemicolon text) = (Text.solid text).dropLast := by
  have free : ';' ∉ e := fun h => absurd (List.all_eq_true.mp he _ h) (by decide)
  have dropped := Layout.dropSemicolon_last hf (x := x) free
  rw [← ht, String.ofList_toList] at dropped
  rw [Text.solid, dropped, Text.solid, ht, List.filter_append, List.filter_append, List.filter_cons_of_pos (by decide),
    Text.filter_blank he, List.append_nil, List.dropLast_concat]

/-- Where the last semicolon is left out, it is the last solid character that is, whatever the blanks are. -/
theorem solid_toCss (h : f.Alike g) (r : RuleSet) : Text.solid (r.toCss f) = Text.solid (r.toCss g) := by
  have full := solid_fullText h r
  unfold toCss
  split
  · rfl
  · next filled =>
    have declared : r.declarations ≠ [] := fun empty => filled (by rw [empty]; rfl)
    cases kept : g.lastSemicolon with
    | true =>
      rw [Layout.dropSemicolon, if_pos (h.lastSemicolon.trans kept), Layout.dropSemicolon, if_pos kept]
      exact full
    | false =>
      obtain ⟨x, e, ends, blank⟩ := fullText_ends h.first declared
      obtain ⟨x', e', ends', blank'⟩ := fullText_ends h.second declared
      have dropped := solid_dropSemicolon (h.lastSemicolon.trans kept) ends blank
      have dropped' := solid_dropSemicolon kept ends' blank'
      rw [← full] at dropped'
      exact dropped.trans dropped'.symm

end RuleSet

theorem StyleRule.solid_toCss {f g : Layout} (h : f.Alike g) (r : StyleRule) :
    (r.toCss f).map Text.solid = (r.toCss g).map Text.solid := by
  have selectors : Text.solid (String.intercalate f.selectorComma (r.selectors.map Selector.text)) =
      Text.solid (String.intercalate g.selectorComma (r.selectors.map Selector.text)) := by
    refine Text.solid_join ?_ rfl
    rw [h.first.solid_selectorComma, h.second.solid_selectorComma]
  unfold toCss
  split
  · rfl
  · simp only [Except.map, Text.solid_append, selectors, h.leading, h.inserts, RuleSet.solid_toCss h,
      h.first.solid_beforeBrace, h.second.solid_beforeBrace]

namespace Body

variable {f g : Layout}

theorem solid_arrange (h : f.Alike g) {closing closing' : String} (hc : Text.solid closing = Text.solid closing')
    (trailing : List Comment) {texts texts' : List String} (same : texts.map Text.solid = texts'.map Text.solid) :
    Text.solid (arrange f closing trailing texts) = Text.solid (arrange g closing' trailing texts') := by
  have blocks {all all' : List String} (same : all.map Text.solid = all'.map Text.solid) :
      Text.solid (if all.isEmpty then "" else f.beforeBlocks ++ String.intercalate f.betweenBlocks all ++ closing) =
        Text.solid (if all'.isEmpty then "" else
          g.beforeBlocks ++ String.intercalate g.betweenBlocks all' ++ closing') := by
    have empty : all.isEmpty = all'.isEmpty := by
      rw [← List.isEmpty_map, same, List.isEmpty_map]
    have joined := Text.solid_join h.betweenBlocks same
    rw [empty]
    split
    · rfl
    · simp only [Text.solid_append, joined, hc, h.first.solid_beforeBlocks, h.second.solid_beforeBlocks]
  have comments := Text.solid_join h.betweenBlocks (Eq.refl ((trailing.map Comment.toCss).map Text.solid))
  unfold arrange
  rw [h.comments]
  cases g.comments && !trailing.isEmpty with
  | false => exact blocks same
  | true =>
    apply blocks
    simp only [if_true, List.map_append, List.map_singleton, same, comments]

end Body

/-- What is made of outcomes that look alike looks alike. -/
theorem Except.look_map {ε α β γ δ : Type} {look : α → γ} {look' : β → δ} {x y : Except ε α}
    {make make' : α → β}
    (same : x.map look = y.map look) (alike : ∀ a b, look a = look b → look' (make a) = look' (make' b)) :
    (x.map make).map look' = (y.map make').map look' := by
  cases x with
  | error e =>
    cases y with
    | error e' =>
      injection same with fault
      rw [fault]
      rfl
    | ok b => cases same
  | ok a =>
    cases y with
    | error e' => cases same
    | ok b =>
      injection same with seen
      exact congrArg Except.ok (alike a b seen)

namespace Statement

mutual

/-- Alike layouts refuse the same statements, with the same fault, and write others with the same solid characters. -/
theorem solid_toCss {f g : Layout} (h : f.Alike g) :
    (s : Statement) → (s.toCss f).map Text.solid = (s.toCss g).map Text.solid
  | .style r => StyleRule.solid_toCss h r
  | .descriptors _ _ rules => by
    simp only [toCss, Except.map, Text.solid_append, h.leading, RuleSet.solid_toCss h, h.first.solid_beforeBrace,
      h.second.solid_beforeBrace]
  | .grouping _ _ ⟨ss, _, _, ts⟩ => by
    rw [toCss, toCss]
    refine Except.look_map (solid_texts h.deeper ss) fun texts texts' same => ?_
    have body := Body.solid_arrange h.deeper h.afterBlocks ts same
    simp only [Text.solid_append, h.leading, h.inserts, h.first.solid_beforeBrace, h.second.solid_beforeBrace, body]
  | .keyframes _ _ ⟨ss, _, _, ts⟩ => by
    rw [toCss, toCss]
    refine Except.look_map (solid_texts h.deeper ss) fun texts texts' same => ?_
    have body := Body.solid_arrange h.deeper h.afterBlocks ts same
    simp only [Text.solid_append, h.leading, h.first.solid_beforeBrace, h.second.solid_beforeBrace, body]
  | .imports _ _ _ _ => by simp only [toCss, Except.map, Text.solid_append, h.leading, Url.toCss_alike h]
  | .charset _ _ _ => by simp only [toCss, Except.map, Text.solid_append, h.leading, Quoted.toCss_alike h]
  | .naming _ _ _ _ => by simp only [toCss, Except.map, Text.solid_append, h.leading, Value.solid_toCss h]

theorem solid_texts {f g : Layout} (h : f.Alike g) :
    (ss : List Statement) → (texts f ss).map (List.map Text.solid) = (texts g ss).map (List.map Text.solid)
  | [] => rfl
  | s :: ss => by
    have first := solid_toCss h s
    have others := solid_texts h ss
    rw [texts, texts]
    cases hf : s.toCss f with
    | ok text =>
      cases hg : s.toCss g with
      | ok text' =>
        rw [hf, hg] at first
        injection first with seen
        refine Except.look_map others fun texts texts' same => ?_
        rw [List.map_cons, List.map_cons, seen, same]
      | error e' =>
        rw [hf, hg] at first
        cases first
    | error e =>
      cases hg : s.toCss g with
      | ok text' =>
        rw [hf, hg] at first
        cases first
      | error e' =>
        rw [hf, hg] at first
        injection first with fault
        rw [fault, h.ignoreFaults]
        dsimp only
        split
        · exact others
        · rfl

end

end Statement

namespace Sheet

/-- Layouts that differ in blanks only refuse the same sheets, with the same fault, and write all others with the same
solid characters in the same order. -/
theorem toCss_but_for_blanks {f g : Layout} (h : f.Alike g) (b : Sheet) :
    (b.toCss f).map Text.solid = (b.toCss g).map Text.solid := by
  rw [toCss, toCss]
  refine Except.look_map (Statement.solid_texts h b.contents) fun texts texts' same => ?_
  have body := Body.solid_arrange h (Eq.refl (Text.solid "")) b.trailing same
  rw [Text.solid_append, Text.solid_append, h.leading, body]

/-- The semicolon that is left out is not the one in the string. -/
theorem toCss_but_for_blanks_nested :
    ∃ (f g : Layout) (b : Sheet), f.Alike g ∧
      (b.toCss f).toOption = some "\n/*k*/\n@media x \x7b\n\tp, q \x7b\n\t\tc: d, e;\n\t\tf: \"; g\"\n\t\x7d\n\x7d" ∧
      (b.toCss g).toOption = some "/*k*/@media x\x7bp,q\x7bc:d,e;f:\"; g\"\x7d\x7d" ∧
      (b.toCss f).map Text.solid = (b.toCss g).map Text.solid := by
  have pretty : Layout.IsSpaced { Layout.pretty with lastSemicolon := false } := by
    constructor
    case beforeSeparatorOf | afterSeparatorOf => intro s; cases s <;> rfl
    all_goals decide
  have compact : Layout.IsSpaced { Layout.compact with comments := true, level := 2 } := by
    constructor
    case beforeSeparatorOf | afterSeparatorOf => intro s; cases s <;> rfl
    all_goals decide
  have alike : Layout.Alike { Layout.pretty with lastSemicolon := false }
      { Layout.compact with comments := true, level := 2 } :=
    { first := pretty, second := compact, inserts := rfl, quote := rfl, hashColors := rfl, lastSemicolon := rfl,
      comments := rfl, ignoreFaults := rfl }
  let rules : RuleSet := { declarations := [
    { name := "c", value := some (.list [.keyword "d", .keyword "e"] .comma none) },
    { name := "f", value := some (.string ⟨"; g", none⟩) }] }
  let b : Sheet := { contents := [.grouping "media" "x"
    { contents := [.style ⟨[⟨"p"⟩, ⟨"q"⟩], rules⟩], comments := [⟨"k", none⟩] }] }
  refine ⟨_, _, b, alike, ?_, ?_, toCss_but_for_blanks alike b⟩
  · decide +kernel
  · decide +kernel

end Sheet

end Stylesheet
