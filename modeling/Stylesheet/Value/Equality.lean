import Stylesheet.Value.Basic

namespace Stylesheet

def Size.same (s t : Size) : Bool :=
  s.magnitude.same t.magnitude && s.unit == t.unit && s.channel == t.channel && s.position == t.position

instance : BEq Size := ⟨Size.same⟩

mutual

/-- Equality of values, positions included. Numbers are compared as numbers, so that a value that holds `nan` is not equal
to itself. -/
def Value.same : Value → Value → Bool
  | .keyword s, .keyword t => s == t
  | .size s, .size t => s == t
  | .color cs l p, .color ds m q => Value.sameChannels cs ds && l == m && p == q
  | .string s, .string t => s == t
  | .url u, .url v => u == v
  | .function n as s p, .function m bs t q => n == m && Value.sameAll as bs && s == t && p == q
  | .calculation n ts p, .calculation m us q => n == m && Value.sameTokens ts us && p == q
  | .list as s p, .list bs t q => Value.sameAll as bs && s == t && p == q
  | .lineNames ns p, .lineNames ms q => ns == ms && p == q
  | _, _ => false
termination_by structural v => v

def Value.sameAll : List Value → List Value → Bool
  | [], [] => true
  | v :: vs, w :: ws => v.same w && Value.sameAll vs ws
  | _, _ => false
termination_by structural vs => vs

def Value.sameChannels : List (Channel Value) → List (Channel Value) → Bool
  | [], [] => true
  | ⟨k, v⟩ :: cs, ⟨l, w⟩ :: ds => k == l && v.same w && Value.sameChannels cs ds
  | _, _ => false
termination_by structural cs => cs

def Value.sameTokens : List (CalcToken Value) → List (CalcToken Value) → Bool
  | [], [] => true
  | .operand v :: ts, .operand w :: us => v.same w && Value.sameTokens ts us
  | .operator c :: ts, .operator d :: us => c == d && Value.sameTokens ts us
  | .opening :: ts, .opening :: us => Value.sameTokens ts us
  | .closing :: ts, .closing :: us => Value.sameTokens ts us
  | _, _ => false
termination_by structural ts => ts

end

instance : BEq Value := ⟨Value.same⟩

end Stylesheet
