import Stylesheet.Value.Basic

namespace Stylesheet

/-- Values with the separators between them. -/
structure Chain where
  first : Value
  more : List (Separator × Value)

namespace Chain

/-- The group that begins with `v`, joined by `d`, and the groups behind it with the separators before them. -/
def groups (d : Separator) : Value → List (Separator × Value) → List Value × List (Separator × List Value)
  | v, [] => ([v], [])
  | v, (s, w) :: more =>
    let (group, others) := groups d w more
    if s = d then (v :: group, others) else ([v], (s, group) :: others)

/-- A group as one value: a list, unless it has one member only. -/
def close (d : Separator) (p : Option Position) : List Value → Value
  | [v] => v
  | vs => .list vs d p

/-- Joins every run of values separated by `d` into one list at `p`. -/
def fold (d : Separator) (p : Option Position) (c : Chain) : Chain :=
  let (group, others) := groups d c.first c.more
  ⟨close d p group, others.map fun (s, vs) => (s, close d p vs)⟩

/-- The order to group in: spaces group last where the order does not name them. -/
def fullOrder (order : List Separator) : List Separator :=
  if order.contains .space then order else order ++ [.space]

/-- Groups by all separators in turn. -/
def foldAll (order : List Separator) (p : Option Position) (c : Chain) : Chain :=
  (fullOrder order).foldl (fun c d => c.fold d p) c

end Chain

end Stylesheet
