import Stylesheet.RuleSet.Lookup
import Stylesheet.Selector.Filter
import Stylesheet.Sheet.Basic
import Stylesheet.Value.Leaves

namespace Stylesheet

mutual

/-- The style rules of a statement. -/
def Statement.styleRules : Statement → List StyleRule
  | .style r => [r]
  | .grouping _ _ ⟨ss, _, _, _⟩ => Statement.styleRulesOf ss
  | .descriptors .. => []
  | .keyframes .. => []
  | .imports .. => []
  | .charset .. => []
  | .naming .. => []
termination_by structural s => s

def Statement.styleRulesOf : List Statement → List StyleRule
  | [] => []
  | s :: ss => s.styleRules ++ Statement.styleRulesOf ss
termination_by structural ss => ss

end

mutual

/-- The rule sets of a statement: those of style rules and of rules with descriptors. -/
def Statement.ruleSets : Statement → List RuleSet
  | .style r => [r.rules]
  | .descriptors _ _ rules => [rules]
  | .grouping _ _ ⟨ss, _, _, _⟩ => Statement.ruleSetsOf ss
  | .keyframes .. => []
  | .imports .. => []
  | .charset .. => []
  | .naming .. => []
termination_by structural s => s

def Statement.ruleSetsOf : List Statement → List RuleSet
  | [] => []
  | s :: ss => s.ruleSets ++ Statement.ruleSetsOf ss
termination_by structural ss => ss

end

mutual

/-- Changes the style rules of a statement, whose first one has the number `i`. With the statement comes the number
of the next style rule. -/
def Statement.editStyleRules (edit : Nat → StyleRule → StyleRule) (i : Nat) : Statement → Statement × Nat
  | .style r => (.style (edit i r), i + 1)
  | .grouping name args ⟨ss, p, cs, ts⟩ =>
    let inside := Statement.editStyleRulesOf edit i ss
    (.grouping name args ⟨inside.1, p, cs, ts⟩, inside.2)
  | .descriptors name args rules => (.descriptors name args rules, i)
  | .keyframes name animation body => (.keyframes name animation body, i)
  | .imports url media p cs => (.imports url media p cs, i)
  | .charset encoding p cs => (.charset encoding p cs, i)
  | .naming abbreviation url p cs => (.naming abbreviation url p cs, i)
termination_by structural s => s

def Statement.editStyleRulesOf (edit : Nat → StyleRule → StyleRule) (i : Nat) :
    List Statement → List Statement × Nat
  | [] => ([], i)
  | s :: ss =>
    let first := s.editStyleRules edit i
    let others := Statement.editStyleRulesOf edit first.2 ss
    (first.1 :: others.1, others.2)
termination_by structural ss => ss

end

mutual

/-- Changes the rule sets of a statement, whose first one has the number `i`. With the statement comes the number of
the next rule set. -/
def Statement.editRuleSets (edit : Nat → RuleSet → RuleSet) (i : Nat) : Statement → Statement × Nat
  | .style r => (.style { r with rules := edit i r.rules }, i + 1)
  | .descriptors name args rules => (.descriptors name args (edit i rules), i + 1)
  | .grouping name args ⟨ss, p, cs, ts⟩ =>
    let inside := Statement.editRuleSetsOf edit i ss
    (.grouping name args ⟨inside.1, p, cs, ts⟩, inside.2)
  | .keyframes name animation body => (.keyframes name animation body, i)
  | .imports url media p cs => (.imports url media p cs, i)
  | .charset encoding p cs => (.charset encoding p cs, i)
  | .naming abbreviation url p cs => (.naming abbreviation url p cs, i)
termination_by structural s => s

def Statement.editRuleSetsOf (edit : Nat → RuleSet → RuleSet) (i : Nat) : List Statement → List Statement × Nat
  | [] => ([], i)
  | s :: ss =>
    let first := s.editRuleSets edit i
    let others := Statement.editRuleSetsOf edit first.2 ss
    (first.1 :: others.1, others.2)
termination_by structural ss => ss

end

namespace Sheet

def styleRules (b : Sheet) : List StyleRule := Statement.styleRulesOf b.contents

def ruleSets (b : Sheet) : List RuleSet := Statement.ruleSetsOf b.contents

/-- Changes every style rule by its number. -/
def editStyleRules (edit : Nat → StyleRule → StyleRule) (b : Sheet) : Sheet :=
  { b with contents := (Statement.editStyleRulesOf edit 0 b.contents).1 }

/-- Changes every rule set by its number. -/
def editRuleSets (edit : Nat → RuleSet → RuleSet) (b : Sheet) : Sheet :=
  { b with contents := (Statement.editRuleSetsOf edit 0 b.contents).1 }

/-- The leaves of the values of all declarations whose names fit. -/
def leaves (pattern : Option String) (deep : Bool) (b : Sheet) : List Value :=
  b.ruleSets.flatMap fun r => r.declarations.flatMap fun d =>
    if pattern.all (Declaration.nameFits d.name) then (d.value.map (Value.leaves deep)).getD [] else []

/-- The selectors of all style rules that a condition on specificity accepts. -/
def selectors (filter : Option SpecificityFilter) (b : Sheet) : List Selector :=
  (b.styleRules.flatMap StyleRule.selectors).filter fun s => filter.all (·.accepts s.specificity)

/-- The body at the end of a path of indices. -/
def bodyAt? : List Nat → Sheet → Option Sheet
  | [], b => some b
  | i :: path, b => (b.contents[i]?.bind Statement.body?).bind (bodyAt? path)

/-- Changes the body at the end of a path of indices. -/
def changeAt (change : Sheet → Sheet) : List Nat → Sheet → Sheet
  | [], b => change b
  | i :: path, b =>
    { b with contents := b.contents.modify i fun s => match s.body? with
      | some body => s.withBody (changeAt change path body)
      | none => s }

end Sheet

end Stylesheet
