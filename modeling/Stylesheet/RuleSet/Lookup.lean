import Stylesheet.RuleSet.Basic

namespace Stylesheet.RuleSet

/-- The declarations at indices. -/
def atIndices (r : RuleSet) (is : List Nat) : List Declaration := is.filterMap fun i => r.declarations[i]?

/-- The declarations whose names fit, or all. Only a pattern with a dash at its end needs a search; any other is
a name, and the index tells its declarations. -/
def fitting (r : RuleSet) : Option String → List Declaration
  | none => r.declarations
  | some pattern =>
    if pattern.toList.getLast? = some '-' then
      r.declarations.filter fun d => Declaration.nameFits d.name pattern
    else r.atIndices (r.index.find pattern)

/-- The declaration in effect when `d` comes behind `winner`: `d`, unless only `winner` is important. -/
def prevail (winner : Option Declaration) (d : Declaration) : Option Declaration :=
  match winner with
  | none => some d
  | some w => if !w.important || d.important then some d else some w

/-- The declaration in effect for a name. -/
def applied (r : RuleSet) (name : String) : Option Declaration :=
  (r.atIndices (r.index.find name)).foldl prevail none

/-- Lets a declaration compete with the one held under its name. -/
def compete (d : Declaration) : List (String × Declaration) → List (String × Declaration)
  | [] => [(d.name, d)]
  | (n, w) :: entries =>
    if n = d.name then (n, (prevail (some w) d).getD w) :: entries else (n, w) :: compete d entries

/-- The declarations in effect under their names, of those that fit. -/
def appliedByName (r : RuleSet) (pattern : Option String) : List (String × Declaration) :=
  (r.fitting pattern).foldl (fun entries d => compete d entries) []

end Stylesheet.RuleSet
