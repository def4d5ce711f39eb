import Stylesheet.RuleSet.Basic

namespace Stylesheet.RuleSet

/-- One way to change a rule set. -/
inductive Change : Type 1
  | add (d : Declaration) (sibling : Option Nat)
  | addAll (ds : List Declaration)
  | edit {σ : Type} (change : σ → Declaration → Declaration × σ) (start : σ)
  | remove (d : Declaration)
  | removeAt (i : Nat)
  | removeFitting (pattern : String)
  | clear

/-- The rule set behind a change; what was taken out or where it was put in is left aside. -/
def Change.apply (r : RuleSet) : Change → RuleSet
  | add d sibling => (r.add d sibling).2
  | addAll ds => r.addAll ds
  | edit change start => r.editInTurn change start
  | remove d => (r.remove d).2
  | removeAt i => (r.removeAt i).2
  | removeFitting pattern => (r.removeFitting pattern).2
  | clear => r.clear

/-- What changes make of an empty rule set. -/
def ofChanges (cs : List Change) : RuleSet := cs.foldl Change.apply {}

end Stylesheet.RuleSet
