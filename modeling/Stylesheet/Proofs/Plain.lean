import Stylesheet.Sheet.Reading
import Stylesheet.Sheet.Writing

namespace Stylesheet

namespace Text

/-- Whether `a` and `b` stand next to each other. -/
def hasPair (a b : Char) : List Char → Bool
  | c :: d :: rest => (c == a && d == b) || hasPair a b (d :: rest)
  | _ => false

/-- Whether every `closing` closes an `opening`, and every `opening` is closed, where `depth` are open. -/
def isNested (opening closing : Char) : Nat → List Char → Bool
  | depth, [] => depth == 0
  | depth, c :: rest =>
    if c = opening then isNested opening closing (depth + 1) rest
    else if c = closing then 0 < depth && isNested opening closing (depth - 1) rest
    else isNested opening closing depth rest

/-- A blank that ends a name. -/
def isSpacing (c : Char) : Bool := isBlank c && !isIdentifierChar c

def isTrimmed (text : String) : Bool := trim text == text

end Text

/-- Letters and digits below U+0080, `-` and `_`, which stand in a name without an escape. -/
def isNameChar (c : Char) : Bool := c.isAlphanum || c == '-' || c == '_'

/-- A letter below U+0080 and further characters of names. -/
def isPlainName (name : String) : Bool :=
  match name.toList with
  | [] => false
  | c :: rest => c.isAlpha && rest.all isNameChar

/-- A name in lower case. -/
def isLowerName (name : String) : Bool :=
  !name.toList.isEmpty && name.toList.all isNameChar && name.toList.map Char.toLower == name.toList

/-- Whether a name begins with a word in any case. -/
def beginsAnyCase (name word : String) : Bool := (name.toList.take word.toList.length).map Char.toLower == word.toList

/-- A plain name that is not taken for a color. -/
def isPlainWord (name : String) : Bool :=
  isPlainName name && !beginsAnyCase name "rgb" && !beginsAnyCase name "hsl"

/-- A plain name that is not taken for an address or a calculation before a parenthesis. -/
def isPlainCall (name : String) : Bool :=
  isPlainWord name && name.toList.map Char.toLower != "url".toList && name.toList.map Char.toLower != "calc".toList

/-- A text that a quoted one can say. -/
def Quoted.isPlain (q : Quoted) : Bool := !q.text.toList.contains '\x00'

namespace Value

mutual

/-- Plain for an order of separators: the components of a list are no lists, or lists of a separator that comes
earlier in the order. The arguments of a function are none, one, or the components of a list. -/
def isPlain : Value → List Separator → Bool
  | .keyword t, _ => isPlainWord t
  | .string q, _ => q.isPlain
  | .url u, _ => u.address.isPlain
  | .lineNames names _, _ => !names.isEmpty && names.all isPlainName
  | .function name args s _, _ =>
    isPlainCall name &&
      if args.length < 2 then s == .comma && arePlain args []
      else Separator.ofArguments.contains s && arePlain args (Separator.ofArguments.takeWhile (· ≠ s))
  | .list vs s _, order => 2 ≤ vs.length && order.contains s && arePlain vs (order.takeWhile (· ≠ s))
  | .size _, _ => false
  | .color _ _ _, _ => false
  | .calculation _ _ _, _ => false
termination_by structural v => v

def arePlain : List Value → List Separator → Bool
  | [], _ => true
  | v :: vs, order => v.isPlain order && arePlain vs order
termination_by structural vs => vs

end

end Value

/-- A comment that does not end before its end. -/
def Comment.isPlain (c : Comment) : Bool := !Text.hasPair '*' '/' c.text.toList

/-- A property's name: in lower case, or with two dashes in front. -/
def isPropertyName (name : String) : Bool :=
  isLowerName name || ("--".toList.isPrefixOf name.toList && name.toList.all isNameChar)

/-- A declaration without hacks, of a value that `holds` admits under the name of its property. -/
def Declaration.isPlainWith (holds : String → Value → Bool) (d : Declaration) : Bool :=
  isPropertyName d.name && d.value.any (holds d.name) && d.hacks.isEmpty && d.comments.all Comment.isPlain

def RuleSet.isPlainWith (holds : String → Value → Bool) (r : RuleSet) : Bool :=
  r.declarations.all (Declaration.isPlainWith holds) && r.comments.all Comment.isPlain

/-- A selector without quotes and escapes, whose parentheses and brackets match. A sheet must not begin with the
mark of a byte order, so no selector does. -/
def Selector.isPlain (s : Selector) (keyframe : Bool) : Bool :=
  Text.isTrimmed s.text && Selector.isValid s.text keyframe && s.text.toList.head? != some '\uFEFF' &&
    s.text.toList.all (fun c => c ≠ '"' && c ≠ '\'' && c ≠ '\\') && Text.isNested '(' ')' 0 s.text.toList &&
    Text.isNested '[' ']' 0 s.text.toList

def StyleRule.isPlainWith (holds : String → Value → Bool) (r : StyleRule) (keyframe : Bool) : Bool :=
  !r.selectors.isEmpty && r.selectors.all (·.isPlain keyframe) && r.rules.isPlainWith holds

/-- Text between tokens that is kept as it stands: without a stop, without comments, and without blanks at its
ends. -/
def isVerbatim (stops : List Char) (text : String) : Bool :=
  Text.isTrimmed text && text.toList.all (· ∉ stops) && !Text.hasPair '/' '*' text.toList

namespace Statement

mutual

/-- A statement that is plain but for the values of its declarations, which may be one of a keyframe's body. The naming
of a charset is plain at the start of a sheet only. -/
def isPlainWith (holds : String → Value → Bool) : Statement → Bool → Bool
  | .style r, keyframe => r.isPlainWith holds keyframe
  | .descriptors name args rules, _ =>
    isLowerName name && !(["import", "charset", "namespace"].contains name) && !AtName.isKeyframes name &&
      !AtName.isGrouping name && isVerbatim ['\x7b', ';'] args && balanced args && rules.isPlainWith holds
  | .grouping name args ⟨ss, _, cs, ts⟩, _ =>
    isLowerName name && AtName.isGrouping name && isVerbatim ['\x7b', ';'] args && balanced args &&
      cs.all Comment.isPlain && ts.all Comment.isPlain && arePlainWith holds ss false
  | .keyframes name animation ⟨ss, _, cs, ts⟩, _ =>
    isLowerName name && AtName.isKeyframes name && isVerbatim ['\x7b'] animation && cs.all Comment.isPlain &&
      ts.all Comment.isPlain && arePlainWith holds ss true
  | .imports url media _ cs, _ =>
    url.address.isPlain && media.all (fun m => !m.isEmpty && isVerbatim [';'] m) && cs.all Comment.isPlain
  | .charset _ _ _, _ => false
  | .naming abbreviation url _ cs, _ =>
    abbreviation.all isPlainWord && url.isText && url.isPlain [] && cs.all Comment.isPlain
termination_by structural s => s

def arePlainWith (holds : String → Value → Bool) : List Statement → Bool → Bool
  | [], _ => true
  | s :: ss, keyframe => s.isPlainWith holds keyframe && arePlainWith holds ss keyframe
termination_by structural ss => ss

end

end Statement

/-- A sheet that is plain but for the values of its declarations. What stands in front of its first statement are the
comments of that one. -/
def Sheet.isPlainWith (holds : String → Value → Bool) (b : Sheet) : Bool :=
  b.comments.isEmpty && b.trailing.all Comment.isPlain &&
    match b.contents with
    | .charset encoding _ cs :: ss =>
      encoding.isPlain && cs.all Comment.isPlain && Statement.arePlainWith holds ss false
    | ss => Statement.arePlainWith holds ss false

/-- A value that is plain for the order that the lists of its property are grouped in. -/
def Value.isPlainUnder (property : String) (v : Value) : Bool := v.isPlain (Separator.ofProperty property)

/-- A declaration of a plain value, without hacks. -/
def Declaration.isPlain (d : Declaration) : Bool := d.isPlainWith Value.isPlainUnder

def RuleSet.isPlain (r : RuleSet) : Bool := r.isPlainWith Value.isPlainUnder

/-- A plain sheet. -/
def Sheet.isPlain (b : Sheet) : Bool := b.isPlainWith Value.isPlainUnder

namespace Layout

def isSpace (text : String) : Bool := text.toList.all Text.isSpacing

/-- A layout that adds nothing but blanks. -/
structure IsBlank (f : Layout) : Prop extends f.IsSpacedBy isSpace where
  quote : f.quote = '"' ∨ f.quote = '\''
  beforeGroupingRule : isSpace f.inserts.beforeGroupingRule = true
  afterGroupingRule : isSpace f.inserts.afterGroupingRule = true
  beforeStyleRule : isSpace f.inserts.beforeStyleRule = true
  afterSelectors : isSpace f.inserts.afterSelectors = true
  afterStyleRule : isSpace f.inserts.afterStyleRule = true

/-- The spacing before a separator, at the level of the layout. -/
def beforeSeparator (f : Layout) (s : Separator) : String :=
  (f.spacing.beforeSeparatorOf.get s).getD (f.fit f.spacing.beforeSeparator)

/-- The spacing behind a separator, at the level of the layout. -/
def afterSeparator (f : Layout) (s : Separator) : String :=
  (f.spacing.afterSeparatorOf.get s).getD (f.fit f.spacing.afterSeparator)

/-- A layout that adds nothing but blanks to values: whatever it does elsewhere, blanks stand around separators. What
counts is the spacing as it is written, with the indentation in it. -/
structure IsBlankInValues (f : Layout) : Prop where
  quote : f.quote = '"' ∨ f.quote = '\''
  before : ∀ s, isSpace (f.beforeSeparator s) = true
  after : ∀ s, isSpace (f.afterSeparator s) = true

theorem isSpace_fit {f : Layout} {space : String} (indentation : isSpace f.indentation = true)
    (h : isSpace space = true) : isSpace (f.fit space) = true :=
  all_fit rfl indentation h

theorem IsBlank.inValues {f : Layout} (hf : f.IsBlank) : f.IsBlankInValues := by
  have side {m : PerSeparator} {common : String} (s : Separator) (hm : (m.get s).all isSpace = true)
      (hc : isSpace common = true) : isSpace ((m.get s).getD (f.fit common)) = true := by
    cases h : m.get s with
    | none => exact isSpace_fit hf.indentation hc
    | some text =>
      rw [h] at hm
      exact hm
  exact ⟨hf.quote, fun s => side s (hf.beforeSeparatorOf s) hf.beforeSeparator,
    fun s => side s (hf.afterSeparatorOf s) hf.afterSeparator⟩

theorem isBlank_plain : plain.IsBlank := by
  constructor
  · constructor
    case beforeSeparatorOf | afterSeparatorOf => intro s; cases s <;> decide
    all_goals decide
  all_goals decide

theorem isBlank_compact : compact.IsBlank := by
  constructor
  · constructor
    case beforeSeparatorOf | afterSeparatorOf => intro s; cases s <;> decide
    all_goals decide
  all_goals decide

theorem isBlank_pretty : pretty.IsBlank := by
  constructor
  · constructor
    case beforeSeparatorOf | afterSeparatorOf => intro s; cases s <;> decide
    all_goals decide
  all_goals decide

end Layout

end Stylesheet
