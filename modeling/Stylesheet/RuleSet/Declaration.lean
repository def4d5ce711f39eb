import Stylesheet.Value.Equality
import Stylesheet.Value.Writing

namespace Stylesheet

/-- `hacks` are the characters behind backslashes that old browsers need after the value, as in `red\9`. -/
structure Declaration where
  name : String
  value : Option Value := none
  important : Bool := false
  hacks : List String := []
  position : Option Position := none
  comments : List Comment := []

namespace Declaration

def same (d e : Declaration) : Bool :=
  d.name == e.name && d.value == e.value && d.important == e.important && d.hacks == e.hacks &&
    d.position == e.position && d.comments == e.comments

instance : BEq Declaration := ⟨same⟩

/-- The hacks as they are written behind the value. -/
def hackText (d : Declaration) : String :=
  if d.hacks.isEmpty then "" else " \\" ++ String.intercalate "\\" d.hacks

/-- A declaration is written with the semicolon that ends it. -/
def toCss (f : Layout) (d : Declaration) : String :=
  f.leading d.comments ++ d.name ++ ":" ++ f.afterName ++ (d.value.map (Value.toCss f)).getD "" ++ d.hackText ++
    (if d.important then " !important" else "") ++ ";"

/-- Whether a name fits a pattern. A pattern that ends in a dash fits the names that begin with it and the name
without the dash, so `font-` fits `font` and `font-size`. -/
def nameFits (name pattern : String) : Bool :=
  if pattern.toList.getLast? = some '-' then
    name.toList = pattern.toList.dropLast || pattern.toList.isPrefixOf name.toList
  else name = pattern

end Declaration

end Stylesheet
