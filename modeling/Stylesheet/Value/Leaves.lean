import Stylesheet.Value.Basic

namespace Stylesheet

mutual

/-- The leaves in order. Calls are opened only if `deep`, and then everything in them is searched. -/
def Value.leaves (deep : Bool) : Value → List Value
  | .list vs _ _ => Value.leavesOf deep vs
  | .function name args sep p => if deep then Value.leavesOf deep args else [.function name args sep p]
  | .color cs legacy p => if deep then Value.leavesOfChannels deep cs else [.color cs legacy p]
  | .calculation name ts p => if deep then Value.leavesOfTokens deep ts else [.calculation name ts p]
  | .keyword t => [.keyword t]
  | .size s => [.size s]
  | .string s => [.string s]
  | .url u => [.url u]
  | .lineNames names p => [.lineNames names p]
termination_by structural v => v

def Value.leavesOf (deep : Bool) : List Value → List Value
  | [] => []
  | v :: vs => v.leaves deep ++ Value.leavesOf deep vs
termination_by structural vs => vs

def Value.leavesOfChannels (deep : Bool) : List (Channel Value) → List Value
  | [] => []
  | ⟨_, v⟩ :: cs => v.leaves deep ++ Value.leavesOfChannels deep cs
termination_by structural cs => cs

def Value.leavesOfTokens (deep : Bool) : List (CalcToken Value) → List Value
  | [] => []
  | .operand v :: ts => v.leaves deep ++ Value.leavesOfTokens deep ts
  | .operator _ :: ts => Value.leavesOfTokens deep ts
  | .opening :: ts => Value.leavesOfTokens deep ts
  | .closing :: ts => Value.leavesOfTokens deep ts
termination_by structural ts => ts

end

end Stylesheet
