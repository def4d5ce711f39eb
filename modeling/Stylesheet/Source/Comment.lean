import Stylesheet.Source.Position

namespace Stylesheet

/-- A comment, kept with the node that it precedes. Its text stands between the delimiters. -/
structure Comment where
  text : String
  position : Option Position := none
  deriving DecidableEq

/-- The comment with its delimiters. -/
def Comment.toCss (c : Comment) : String := "/*" ++ c.text ++ "*/"

end Stylesheet
