import Stylesheet.RuleSet.Basic

namespace Stylesheet.RuleSet

/-- Declarations are written one level deeper than the rule. -/
def texts (f : Layout) (r : RuleSet) : List String := r.declarations.map (Declaration.toCss f.deeper)

/-- The declarations with their spacing. Where the layout leaves out the last semicolon, it is the last one in
the whole text. -/
def toCss (f : Layout) (r : RuleSet) : String :=
  if r.declarations.isEmpty then ""
  else
    f.dropSemicolon
      (f.deeper.beforeDeclarations ++ String.intercalate f.deeper.betweenDeclarations (r.texts f) ++
        f.afterDeclarations)

end Stylesheet.RuleSet
