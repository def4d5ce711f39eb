import Stylesheet.Source.Comment
import Stylesheet.Value.Separator

namespace Stylesheet

/-- A setting for each separator, where it differs from the common one. -/
structure PerSeparator where
  space : Option String := none
  comma : Option String := none
  slash : Option String := none
  equals : Option String := none
  deriving DecidableEq

namespace PerSeparator

def get (m : PerSeparator) : Separator → Option String
  | .space => m.space
  | .comma => m.comma
  | .slash => m.slash
  | .equals => m.equals

def set (m : PerSeparator) (s : Separator) (text : String) : PerSeparator :=
  match s with
  | .space => { m with space := some text }
  | .comma => { m with comma := some text }
  | .slash => { m with slash := some text }
  | .equals => { m with equals := some text }

end PerSeparator

/-- The text between tokens. A line feed in it is followed by the indentation of its level, except in the
settings for single separators. -/
structure Spacing where
  afterName : String := " "
  beforeDeclarations : String := ""
  afterDeclarations : String := ""
  betweenDeclarations : String := ""
  beforeBlocks : String := ""
  afterBlocks : String := ""
  betweenBlocks : String := "\n"
  beforeSelectorComma : String := ""
  afterSelectorComma : String := " "
  beforeSeparator : String := ""
  afterSeparator : String := ""
  beforeSeparatorOf : PerSeparator := {}
  afterSeparatorOf : PerSeparator := {}
  beforeBrace : String := " "
  deriving DecidableEq

/-- Text that is written verbatim around rules. -/
structure Inserts where
  beforeGroupingRule : String := ""
  afterGroupingRule : String := ""
  beforeStyleRule : String := ""
  afterSelectors : String := ""
  afterStyleRule : String := ""
  deriving DecidableEq

/-- How a sheet is written: spacing, inserted text, indentation, and which of several spellings is chosen. -/
structure Layout where
  spacing : Spacing := {}
  inserts : Inserts := {}
  quote : Char := '"'
  hashColors : Bool := true
  lastSemicolon : Bool := true
  comments : Bool := false
  ignoreFaults : Bool := false
  indentation : String := "\t"
  level : Nat := 0
  deriving DecidableEq

namespace Layout

/-- All that a layout writes between tokens passes a test, and so does its indentation. -/
structure IsSpacedBy (f : Layout) (passes : String → Bool) : Prop where
  indentation : passes f.indentation = true
  afterName : passes f.spacing.afterName = true
  beforeDeclarations : passes f.spacing.beforeDeclarations = true
  afterDeclarations : passes f.spacing.afterDeclarations = true
  betweenDeclarations : passes f.spacing.betweenDeclarations = true
  beforeBlocks : passes f.spacing.beforeBlocks = true
  afterBlocks : passes f.spacing.afterBlocks = true
  betweenBlocks : passes f.spacing.betweenBlocks = true
  beforeSelectorComma : passes f.spacing.beforeSelectorComma = true
  afterSelectorComma : passes f.spacing.afterSelectorComma = true
  beforeSeparator : passes f.spacing.beforeSeparator = true
  afterSeparator : passes f.spacing.afterSeparator = true
  beforeSeparatorOf : ∀ s, (f.spacing.beforeSeparatorOf.get s).all passes = true
  afterSeparatorOf : ∀ s, (f.spacing.afterSeparatorOf.get s).all passes = true
  beforeBrace : passes f.spacing.beforeBrace = true

/-- The layout one level deeper. -/
def deeper (f : Layout) : Layout := { f with level := f.level + 1 }

theorem IsSpacedBy.deeper {f : Layout} {passes : String → Bool} (hf : f.IsSpacedBy passes) :
    f.deeper.IsSpacedBy passes := { hf with }

/-- What a line begins with. -/
def indent (f : Layout) : List Char := (List.replicate f.level f.indentation.toList).flatten

/-- Spacing at the level of the layout: every line feed continues with the indentation. -/
def fit (f : Layout) (space : String) : String :=
  String.ofList (space.toList.flatMap fun c => if c = '\n' then '\n' :: f.indent else [c])

/-- Spacing is made of the characters of its text, of line feeds and of the indentation. -/
theorem all_fit {p : Char → Bool} {f : Layout} {space : String} (lineFeed : p '\n' = true)
    (indentation : f.indentation.toList.all p = true) (h : space.toList.all p = true) :
    (f.fit space).toList.all p = true := by
  have indent : f.indent.all p = true := by
    rw [Layout.indent, List.all_flatten, List.all_replicate]
    split
    · rfl
    · exact indentation
  rw [fit, String.toList_ofList, List.all_flatMap, List.all_eq_true]
  intro c hc
  split
  · rw [List.all_cons, lineFeed, indent]
    rfl
  · rw [List.all_cons, List.all_nil, Bool.and_true]
    exact List.all_eq_true.mp h c hc

def afterName (f : Layout) : String := f.fit f.spacing.afterName
def beforeDeclarations (f : Layout) : String := f.fit f.spacing.beforeDeclarations
def afterDeclarations (f : Layout) : String := f.fit f.spacing.afterDeclarations
def betweenDeclarations (f : Layout) : String := f.fit f.spacing.betweenDeclarations
def beforeBlocks (f : Layout) : String := f.fit f.spacing.beforeBlocks
def afterBlocks (f : Layout) : String := f.fit f.spacing.afterBlocks
def betweenBlocks (f : Layout) : String := f.fit f.spacing.betweenBlocks
def beforeBrace (f : Layout) : String := f.fit f.spacing.beforeBrace

/-- The comma between selectors. -/
def selectorComma (f : Layout) : String :=
  f.fit f.spacing.beforeSelectorComma ++ "," ++ f.fit f.spacing.afterSelectorComma

/-- A separator between components with the spacing around it. -/
def around (f : Layout) (s : Separator) : String :=
  (f.spacing.beforeSeparatorOf.get s).getD (f.fit f.spacing.beforeSeparator) ++ s.symbol ++
    (f.spacing.afterSeparatorOf.get s).getD (f.fit f.spacing.afterSeparator)

/-- The comments before a node, each followed by the spacing of blocks; nothing if the layout has no comments. -/
def leading (f : Layout) (comments : List Comment) : String :=
  if !f.comments || comments.isEmpty then ""
  else String.intercalate f.betweenBlocks (comments.map Comment.toCss) ++ f.afterBlocks

/-- The text without its last semicolon, if the layout leaves that out. -/
def dropSemicolon (f : Layout) (text : String) : String :=
  if f.lastSemicolon then text
  else
    let behind := text.toList.reverse.takeWhile (· ≠ ';')
    let upTo := text.toList.reverse.dropWhile (· ≠ ';')
    String.ofList (upTo.tail.reverse ++ behind.reverse)

theorem dropSemicolon_last {f : Layout} (hf : f.lastSemicolon = false) {x e : List Char} (he : ';' ∉ e) :
    (f.dropSemicolon (String.ofList (x ++ ';' :: e))).toList = x ++ e := by
  have free : ∀ c ∈ e.reverse, decide (c ≠ ';') = true := fun c hc =>
    decide_eq_true fun h => he (h ▸ List.mem_reverse.mp hc)
  unfold Layout.dropSemicolon
  rw [hf, if_neg Bool.false_ne_true]
  simp only [String.toList_ofList, List.reverse_append, List.reverse_cons, List.append_assoc, List.cons_append,
    List.nil_append]
  rw [List.takeWhile_append_of_pos free, List.dropWhile_append_of_pos free, List.takeWhile_cons_of_neg (by simp),
    List.dropWhile_cons_of_neg (by simp), List.tail_cons, List.append_nil, List.reverse_reverse, List.reverse_reverse]

end Layout

end Stylesheet
