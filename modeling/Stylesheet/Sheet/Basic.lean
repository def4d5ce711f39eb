import Stylesheet.RuleSet.Basic
import Stylesheet.Selector.Basic

namespace Stylesheet

/-- Things in order, with the comments before them and behind the last one. -/
structure Body (α : Type) where
  contents : List α := []
  position : Option Position := none
  comments : List Comment := []
  trailing : List Comment := []

/-- Selectors with their declarations. -/
structure StyleRule where
  selectors : List Selector := []
  rules : RuleSet := {}

/-- A statement of a sheet. Some hold further statements in a body of their own. -/
inductive Statement
  | style (rule : StyleRule)
  | descriptors (name arguments : String) (rules : RuleSet)
  | grouping (name arguments : String) (body : Body Statement)
  | keyframes (name animation : String) (body : Body Statement)
  | imports (url : Url) (media : Option String) (position : Option Position) (comments : List Comment)
  | charset (encoding : Quoted) (position : Option Position) (comments : List Comment)
  | naming (abbreviation : Option String) (url : Value) (position : Option Position) (comments : List Comment)

/-- A whole style sheet. -/
abbrev Sheet := Body Statement

namespace Statement

/-- The name behind the at-sign; a style rule has none. -/
def name? : Statement → Option String
  | style _ => none
  | descriptors name _ _ => some name
  | grouping name _ _ => some name
  | keyframes name _ _ => some name
  | imports .. => some "import"
  | charset .. => some "charset"
  | naming .. => some "namespace"

def position? : Statement → Option Position
  | style r => r.rules.position
  | descriptors _ _ rules => rules.position
  | grouping _ _ body => body.position
  | keyframes _ _ body => body.position
  | imports _ _ p _ => p
  | charset _ p _ => p
  | naming _ _ p _ => p

def withPosition (p : Option Position) : Statement → Statement
  | style r => style { r with rules := { r.rules with position := p } }
  | descriptors name args rules => descriptors name args { rules with position := p }
  | grouping name args body => grouping name args { body with position := p }
  | keyframes name animation body => keyframes name animation { body with position := p }
  | imports url media _ cs => imports url media p cs
  | charset encoding _ cs => charset encoding p cs
  | naming abbreviation url _ cs => naming abbreviation url p cs

def comments : Statement → List Comment
  | style r => r.rules.comments
  | descriptors _ _ rules => rules.comments
  | grouping _ _ body => body.comments
  | keyframes _ _ body => body.comments
  | imports _ _ _ cs => cs
  | charset _ _ cs => cs
  | naming _ _ _ cs => cs

/-- Puts comments before those that the statement has. -/
def addComments (cs : List Comment) : Statement → Statement
  | style r => style { r with rules := { r.rules with comments := cs ++ r.rules.comments } }
  | descriptors name args rules => descriptors name args { rules with comments := cs ++ rules.comments }
  | grouping name args body => grouping name args { body with comments := cs ++ body.comments }
  | keyframes name animation body => keyframes name animation { body with comments := cs ++ body.comments }
  | imports url media p ds => imports url media p (cs ++ ds)
  | charset encoding p ds => charset encoding p (cs ++ ds)
  | naming abbreviation url p ds => naming abbreviation url p (cs ++ ds)

/-- The body of a statement that holds statements. -/
def body? : Statement → Option (Body Statement)
  | grouping _ _ body => some body
  | keyframes _ _ body => some body
  | _ => none

/-- The statement with another body, if it holds one. -/
def withBody (body : Body Statement) : Statement → Statement
  | grouping name args _ => grouping name args body
  | keyframes name animation _ => keyframes name animation body
  | s => s

def style? : Statement → Option StyleRule
  | style r => some r
  | _ => none

end Statement

end Stylesheet
