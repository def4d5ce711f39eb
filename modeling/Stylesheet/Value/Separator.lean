namespace Stylesheet

/-- What may stand between the components of a value. -/
inductive Separator
  | space
  | comma
  | slash
  | equals
  deriving DecidableEq

namespace Separator

def symbol : Separator → String
  | space => " "
  | comma => ","
  | slash => "/"
  | equals => "="

/-- The separators of a property's value, the tightest first: `bold 12px/1.5 a, b` groups as
`bold (12px/1.5) (a, b)` in a font. -/
def ofProperty (property : String) : List Separator :=
  if property = "font" || "font-".toList.isPrefixOf property.toList then [comma, slash, space]
  else if property = "src" then [space, comma]
  else [comma, space, slash]

/-- The separators between the arguments of a function. -/
def ofArguments : List Separator := [equals, space, comma]

end Separator

end Stylesheet
