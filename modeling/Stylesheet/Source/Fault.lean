import Stylesheet.Source.Position

namespace Stylesheet

/-- The input holds something else than expected, it ends too early, it is built wrongly, or a tree cannot be written. -/
inductive Fault
  | unexpectedToken (expected found : String) (location : Location)
  | unexpectedEnd (expected : String) (location : Location)
  | misplaced (reason : String) (location : Location)
  | unwritable (reason : String) (line : Option Nat)
  deriving DecidableEq

namespace Fault

def message : Fault → String
  | unexpectedToken expected found location =>
    "Unexpected token at " ++ location.text ++ ": expected " ++ expected ++ ", found `" ++ found ++ "`"
  | unexpectedEnd expected location =>
    "Unexpected end of input at " ++ location.text ++ ": expected " ++ expected
  | misplaced reason location => reason ++ " at " ++ location.text
  | unwritable reason _ => "Cannot render: " ++ reason

/-- Where the fault is; a tree that cannot be written has no location. -/
def location? : Fault → Option Location
  | unexpectedToken _ _ location => some location
  | unexpectedEnd _ location => some location
  | misplaced _ location => some location
  | unwritable _ _ => none

/-- Reading can go on behind the fault. -/
def recoverable : Fault → Bool
  | unexpectedToken .. | misplaced .. => true
  | unexpectedEnd .. | unwritable .. => false

/-- The input ended too early, so nothing is left to go on with. -/
def isEnd : Fault → Bool
  | unexpectedEnd .. => true
  | _ => false

end Fault

end Stylesheet
