import Stylesheet.Selector.Specificity
import Stylesheet.Number.Numeral

namespace Stylesheet

inductive Comparison
  | less
  | lessOrEqual
  | equal
  | greaterOrEqual
  | greater
  deriving DecidableEq

namespace Comparison

def holds : Comparison → Nat → Nat → Bool
  | less, a, b => a < b
  | lessOrEqual, a, b => a ≤ b
  | equal, a, b => a == b
  | greaterOrEqual, a, b => b ≤ a
  | greater, a, b => b < a

/-- The comparison that a text begins with, and the rest. Without a sign, equality is meant. -/
def ofChars : List Char → Comparison × List Char
  | '<' :: '=' :: rest => (lessOrEqual, rest)
  | '>' :: '=' :: rest => (greaterOrEqual, rest)
  | '=' :: '=' :: rest => (equal, rest)
  | '<' :: rest => (less, rest)
  | '>' :: rest => (greater, rest)
  | '=' :: rest => (equal, rest)
  | rest => (equal, rest)

end Comparison

structure SpecificityFilter where
  comparison : Comparison
  specificity : Nat
  deriving DecidableEq

namespace SpecificityFilter

def accepts (f : SpecificityFilter) (specificity : Nat) : Bool := f.comparison.holds specificity f.specificity

/-- A natural number below 2 ^ 32, perhaps with a plus. -/
def readNumber? (cs : List Char) : Option Nat :=
  let digits := match cs with
    | '+' :: rest => rest
    | rest => rest
  let n := Number.Numeral.ofDigits digits
  if digits.isEmpty || !digits.all Char.isDigit || Nat.pow 2 32 ≤ n then none else some n

/-- Reads a comparison and a number. -/
def parse (text : String) : Except Fault SpecificityFilter :=
  let (comparison, rest) := Comparison.ofChars (Text.trimChars text.toList)
  let number := Text.trimChars rest
  match readNumber? number with
  | some n => .ok ⟨comparison, n⟩
  | none => .error (.unexpectedToken "a specificity number" (String.ofList number) .none)

end SpecificityFilter

end Stylesheet
