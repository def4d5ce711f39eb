import Stylesheet.Sheet.Writing
import Stylesheet.Value.Grouping

namespace Stylesheet

namespace Value

mutual

/-- The value without places. -/
def bare : Value → Value
  | .keyword t => .keyword t
  | .size s => .size { s with position := none }
  | .color cs legacy _ => .color (bareChannels cs) legacy none
  | .string s => .string ⟨s.text, none⟩
  | .url u => .url ⟨⟨u.address.text, none⟩, none⟩
  | .function name args s _ => .function name (bareAll args) s none
  | .calculation name ts _ => .calculation name (bareTokens ts) none
  | .list vs s _ => .list (bareAll vs) s none
  | .lineNames names _ => .lineNames names none
termination_by structural v => v

def bareAll : List Value → List Value
  | [] => []
  | v :: vs => v.bare :: bareAll vs
termination_by structural vs => vs

def bareChannels : List (Channel Value) → List (Channel Value)
  | [] => []
  | ⟨key, v⟩ :: cs => ⟨key, v.bare⟩ :: bareChannels cs
termination_by structural cs => cs

def bareTokens : List (CalcToken Value) → List (CalcToken Value)
  | [] => []
  | .operand v :: ts => .operand v.bare :: bareTokens ts
  | .operator c :: ts => .operator c :: bareTokens ts
  | .opening :: ts => .opening :: bareTokens ts
  | .closing :: ts => .closing :: bareTokens ts
termination_by structural ts => ts

end

theorem bareAll_eq_map (vs : List Value) : bareAll vs = vs.map bare := by
  induction vs with
  | nil => rfl
  | cons v vs ih => rw [bareAll, ih, List.map_cons]

theorem isNoneWord_bare (v : Value) : v.bare.isNoneWord = v.isNoneWord := by
  cases v <;> rfl

theorem isPercentage_bare (v : Value) : v.bare.isPercentage = v.isPercentage := by
  cases v <;> rfl

theorem isPlainNumber_bare (v : Value) : v.bare.isPlainNumber = v.isPlainNumber := by
  cases v <;> rfl

theorem isSize_bare (v : Value) : v.bare.size?.isSome = v.size?.isSome := by
  cases v <;> rfl

theorem isText_bare (v : Value) : v.bare.isText = v.isText := by
  cases v <;> rfl

theorem keyword?_bare (v : Value) : v.bare.keyword? = v.keyword? := by
  cases v <;> rfl

theorem channelOf_bare (v : Value) :
    (v.bare.size?.map fun s => s.magnitude.toChannel) = v.size?.map fun s => s.magnitude.toChannel := by
  cases v <;> rfl

theorem bareChannels_eq_map (cs : List (Channel Value)) :
    bareChannels cs = cs.map fun c => ⟨c.key, c.value.bare⟩ := by
  induction cs with
  | nil => rfl
  | cons c cs ih => rw [bareChannels, ih, List.map_cons]

end Value

namespace Notation

theorem name_bareChannels (cs : List (Channel Value)) : Channel.name (Value.bareChannels cs) = Channel.name cs := by
  rw [Value.bareChannels_eq_map, Channel.name, Channel.name, List.map_map]
  rfl

theorem ofChannels_bare (f : Layout) (cs : List (Channel Value)) :
    ofChannels f (Value.bareChannels cs) = ofChannels f cs := by
  unfold ofChannels needsModern
  simp only [name_bareChannels]
  simp only [Value.bareChannels_eq_map, List.all_map, List.any_map, List.filter_map,
    Function.comp_def, Value.isNoneWord_bare, Value.isPercentage_bare, Value.isPlainNumber_bare, Value.isSize_bare]

theorem modernText_bare (cs : List (Channel Value)) (texts : List String) :
    modernText (Value.bareChannels cs) texts = modernText cs texts := by
  rw [Value.bareChannels_eq_map]
  unfold modernText
  rw [List.getLast?_map]
  cases cs.getLast? with
  | none => rfl
  | some c =>
    obtain ⟨key, v⟩ := c
    by_cases h : key = 'a'
    · subst h
      cases texts.getLast? with
      | none => rfl
      | some opacity => rfl
    · simp [h]

theorem colorText_bare (f : Layout) (cs : List (Channel Value)) (texts : List String) :
    colorText f (Value.bareChannels cs) texts = colorText f cs texts := by
  unfold colorText
  rw [ofChannels_bare, name_bareChannels, modernText_bare]
  simp only [Value.bareChannels_eq_map, List.filterMap_map, Function.comp_def, Value.channelOf_bare]

end Notation

namespace Value

mutual

/-- Writing a value does not look at places. -/
theorem toCss_bare (f : Layout) : (v : Value) → v.bare.toCss f = v.toCss f
  | .keyword _ => rfl
  | .size _ => rfl
  | .color cs _ _ => by rw [bare, toCss, toCss, textsOfChannels_bare f cs, Notation.colorText_bare]
  | .string _ => rfl
  | .url _ => rfl
  | .function name args s _ => by rw [bare, toCss, toCss, texts_bare f args]
  | .calculation name ts _ => by rw [bare, toCss, toCss, textsOfTokens_bare f ts]
  | .list vs s _ => by rw [bare, toCss, toCss, texts_bare f vs]
  | .lineNames _ _ => rfl

theorem texts_bare (f : Layout) : (vs : List Value) → texts f (bareAll vs) = texts f vs
  | [] => rfl
  | v :: vs => by rw [bareAll, texts, texts, toCss_bare f v, texts_bare f vs]

theorem textsOfChannels_bare (f : Layout) :
    (cs : List (Channel Value)) → textsOfChannels f (bareChannels cs) = textsOfChannels f cs
  | [] => rfl
  | ⟨_, v⟩ :: cs => by rw [bareChannels, textsOfChannels, textsOfChannels, toCss_bare f v, textsOfChannels_bare f cs]

theorem textsOfTokens_bare (f : Layout) :
    (ts : List (CalcToken Value)) → textsOfTokens f (bareTokens ts) = textsOfTokens f ts
  | [] => rfl
  | .operand v :: ts => by rw [bareTokens, textsOfTokens, textsOfTokens, toCss_bare f v, textsOfTokens_bare f ts]
  | .operator _ :: ts => by rw [bareTokens, textsOfTokens, textsOfTokens, textsOfTokens_bare f ts]
  | .opening :: ts => by rw [bareTokens, textsOfTokens, textsOfTokens, textsOfTokens_bare f ts]
  | .closing :: ts => by rw [bareTokens, textsOfTokens, textsOfTokens, textsOfTokens_bare f ts]

end

end Value

/-- Comments without places, or none if they are not kept. -/
def Comment.bareAll (keep : Bool) (cs : List Comment) : List Comment :=
  if keep then cs.map fun c => ⟨c.text, none⟩ else []

theorem Comment.bareAll_append (keep : Bool) (as bs : List Comment) :
    bareAll keep (as ++ bs) = bareAll keep as ++ bareAll keep bs := by
  cases keep with
  | true => simp [bareAll]
  | false => rfl

/-- The declaration without places, and without comments unless they are kept. -/
def Declaration.bare (keep : Bool) (d : Declaration) : Declaration :=
  { d with value := d.value.map Value.bare, position := none, comments := Comment.bareAll keep d.comments }

/-- The rule set without places. The index follows from the declarations and is left out. -/
def RuleSet.bare (keep : Bool) (r : RuleSet) : RuleSet where
  declarations := r.declarations.map (Declaration.bare keep)
  comments := Comment.bareAll keep r.comments

namespace Statement

mutual

/-- The statement without places, and without comments unless they are kept. -/
def bare (keep : Bool) : Statement → Statement
  | .style r => .style { r with rules := r.rules.bare keep }
  | .descriptors name args rules => .descriptors name args (rules.bare keep)
  | .grouping name args ⟨ss, _, cs, ts⟩ =>
    .grouping name args ⟨bareAll keep ss, none, Comment.bareAll keep cs, Comment.bareAll keep ts⟩
  | .keyframes name animation ⟨ss, _, cs, ts⟩ =>
    .keyframes name animation ⟨bareAll keep ss, none, Comment.bareAll keep cs, Comment.bareAll keep ts⟩
  | .imports url media _ cs => .imports ⟨⟨url.address.text, none⟩, none⟩ media none (Comment.bareAll keep cs)
  | .charset encoding _ cs => .charset ⟨encoding.text, none⟩ none (Comment.bareAll keep cs)
  | .naming abbreviation url _ cs => .naming abbreviation url.bare none (Comment.bareAll keep cs)
termination_by structural s => s

def bareAll (keep : Bool) : List Statement → List Statement
  | [] => []
  | s :: ss => s.bare keep :: bareAll keep ss
termination_by structural ss => ss

end

end Statement

/-- The sheet without places, and without comments unless they are kept. -/
def Sheet.bare (keep : Bool) (b : Sheet) : Sheet :=
  ⟨Statement.bareAll keep b.contents, none, Comment.bareAll keep b.comments, Comment.bareAll keep b.trailing⟩

section Writing

variable {f : Layout} {keep : Bool}

theorem Layout.leading_bare (hk : f.comments = true → keep = true) (cs : List Comment) :
    f.leading (Comment.bareAll keep cs) = f.leading cs := by
  unfold leading Comment.bareAll
  cases hc : f.comments with
  | false => rfl
  | true =>
    simp only [hk hc, if_true, List.map_map, Bool.not_true, Bool.false_or, List.isEmpty_map]
    rfl

theorem Body.arrange_bare (hk : f.comments = true → keep = true) (closing : String) (ts : List Comment)
    (texts : List String) : arrange f closing (Comment.bareAll keep ts) texts = arrange f closing ts texts := by
  unfold arrange Comment.bareAll
  cases hc : f.comments with
  | false => rfl
  | true =>
    simp only [hk hc, if_true, Bool.true_and, List.isEmpty_map, List.map_map]
    rfl

theorem Declaration.toCss_bare (hk : f.comments = true → keep = true) (d : Declaration) :
    (d.bare keep).toCss f = d.toCss f := by
  have value : (d.value.map Value.bare).map (Value.toCss f) = d.value.map (Value.toCss f) := by
    rw [Option.map_map]
    exact congrArg (d.value.map ·) (funext (Value.toCss_bare f))
  unfold toCss
  simp only [bare, Layout.leading_bare hk, value]
  rfl

theorem RuleSet.toCss_bare (hk : f.comments = true → keep = true) (r : RuleSet) :
    (r.bare keep).toCss f = r.toCss f := by
  have texts : (r.bare keep).texts f = r.texts f := by
    unfold RuleSet.texts bare
    rw [List.map_map]
    exact List.map_congr_left fun d _ => Declaration.toCss_bare (f := f.deeper) hk d
  unfold toCss
  rw [texts, bare]
  simp only [List.isEmpty_map]

theorem RuleSet.leading_bare (hk : f.comments = true → keep = true) (r : RuleSet) :
    f.leading (r.bare keep).comments = f.leading r.comments :=
  Layout.leading_bare hk r.comments

theorem toOption_map {ε α β : Type} (g : α → β) (x : Except ε α) : (x.map g).toOption = x.toOption.map g := by
  cases x with
  | ok a => rfl
  | error e => rfl

theorem StyleRule.toCss_bare (hk : f.comments = true → keep = true) (r : StyleRule) :
    (StyleRule.toCss f { r with rules := r.rules.bare keep }).toOption = (r.toCss f).toOption := by
  unfold toCss
  rw [RuleSet.toCss_bare hk, RuleSet.leading_bare hk]
  dsimp only
  split
  · rfl
  · rfl

namespace Statement

mutual

/-- Writing a statement looks at places for its faults only. -/
theorem toCss_bare {f : Layout} (hk : f.comments = true → keep = true) :
    (s : Statement) → ((s.bare keep).toCss f).toOption = (s.toCss f).toOption
  | .style r => StyleRule.toCss_bare hk r
  | .descriptors name args rules => by
    rw [bare, toCss, toCss, RuleSet.toCss_bare hk, RuleSet.leading_bare hk]
  | .grouping name args ⟨ss, _, cs, ts⟩ => by
    have deeper : f.deeper.comments = true → keep = true := hk
    rw [bare, toCss, toCss, Layout.leading_bare hk, toOption_map, toOption_map, ← texts_bare deeper ss]
    simp only [Body.arrange_bare deeper]
  | .keyframes name animation ⟨ss, _, cs, ts⟩ => by
    have deeper : f.deeper.comments = true → keep = true := hk
    rw [bare, toCss, toCss, Layout.leading_bare hk, toOption_map, toOption_map, ← texts_bare deeper ss]
    simp only [Body.arrange_bare deeper]
  | .imports url media _ cs => by
    rw [bare, toCss, toCss, Layout.leading_bare hk]
    rfl
  | .charset encoding _ cs => by
    rw [bare, toCss, toCss, Layout.leading_bare hk]
    rfl
  | .naming abbreviation url _ cs => by rw [bare, toCss, toCss, Layout.leading_bare hk, Value.toCss_bare]

theorem texts_bare {f : Layout} (hk : f.comments = true → keep = true) :
    (ss : List Statement) → (texts f (bareAll keep ss)).toOption = (texts f ss).toOption
  | [] => rfl
  | s :: ss => by
    have first := toCss_bare hk s
    have others := texts_bare hk ss
    rw [bareAll, texts, texts]
    cases hs : s.toCss f with
    | ok text =>
      rw [hs] at first
      cases hb : (s.bare keep).toCss f with
      | ok text' =>
        rw [hb] at first
        cases first
        dsimp only
        rw [toOption_map, toOption_map, others]
      | error e =>
        rw [hb] at first
        cases first
    | error e =>
      rw [hs] at first
      cases hb : (s.bare keep).toCss f with
      | ok text' =>
        rw [hb] at first
        cases first
      | error e' =>
        dsimp only
        split
        · exact others
        · rfl

end

end Statement

/-- Writing a sheet looks at places for its faults only, and at comments only if the layout has them. -/
theorem Sheet.toCss_bare (hk : f.comments = true → keep = true) (b : Sheet) :
    (Sheet.toCss f (b.bare keep)).toOption = (Sheet.toCss f b).toOption := by
  unfold toCss bare
  rw [toOption_map, toOption_map, Statement.texts_bare hk, Layout.leading_bare hk]
  simp only [Body.arrange_bare hk]

end Writing

end Stylesheet
