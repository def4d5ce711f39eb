import Stylesheet.Sheet.Basic

namespace Stylesheet

instance : BEq StyleRule := ⟨fun r s => r.selectors == s.selectors && r.rules == s.rules⟩

mutual

/-- Equality of statements, positions and comments included. -/
def Statement.same : Statement → Statement → Bool
  | .style r, .style s => r == s
  | .descriptors n a r, .descriptors m b s => n == m && a == b && r == s
  | .grouping n a b, .grouping m a' b' => n == m && a == a' && Statement.sameBody b b'
  | .keyframes n a b, .keyframes m a' b' => n == m && a == a' && Statement.sameBody b b'
  | .imports u m p cs, .imports u' m' p' cs' => u == u' && m == m' && p == p' && cs == cs'
  | .charset e p cs, .charset e' p' cs' => e == e' && p == p' && cs == cs'
  | .naming a u p cs, .naming a' u' p' cs' => a == a' && u == u' && p == p' && cs == cs'
  | _, _ => false
termination_by structural s => s

def Statement.sameBody : Body Statement → Body Statement → Bool
  | ⟨ss, p, cs, ts⟩, ⟨ss', p', cs', ts'⟩ => Statement.sameAll ss ss' && p == p' && cs == cs' && ts == ts'
termination_by structural b => b

def Statement.sameAll : List Statement → List Statement → Bool
  | [], [] => true
  | s :: ss, t :: ts => s.same t && Statement.sameAll ss ts
  | _, _ => false
termination_by structural ss => ss

end

instance : BEq Statement := ⟨Statement.same⟩

end Stylesheet
