namespace Stylesheet

/-- How much a line of the journal matters: what was skipped, and on finer levels what was found. -/
inductive Level
  | warn
  | debug
  | trace
  deriving DecidableEq

namespace Level

def name : Level → String
  | warn => "WARN"
  | debug => "DEBUG"
  | trace => "TRACE"

/-- Finer levels come later. -/
def rank : Level → Nat
  | warn => 0
  | debug => 1
  | trace => 2

end Level

/-- One line of the journal. -/
structure Note where
  level : Level
  text : String
  deriving DecidableEq

/-- The line as it is written. -/
def Note.line (n : Note) : String := n.level.name ++ " " ++ n.text

/-- The lines of a journal up to a level. -/
def Note.upTo (level : Level) (notes : List Note) : List Note :=
  notes.filter fun n => n.level.rank ≤ level.rank

end Stylesheet
