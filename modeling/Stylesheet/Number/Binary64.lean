namespace Stylesheet.Number

/-- A binary floating point number of 64 bits. A finite one is a sign and a count of the least positive value
`2 ^ (-1074)`, so that sizes are compared and rounded in natural numbers. -/
inductive Binary64
  | finite (negative : Bool) (units : Nat)
  | infinite (negative : Bool)
  | nan
  deriving DecidableEq

namespace Binary64

/-- One is this many units. -/
def one : Nat := Nat.pow 2 1074

/-- From this many units on a value is infinite. -/
def limit : Nat := Nat.pow 2 2098

/-- The distance between neighbours just above a value: 53 binary digits are kept. -/
def spacing (units : Nat) : Nat := Nat.pow 2 (units.log2 + 1 - 53)

/-- The quotient as a natural number, to the nearest, a half to the even side. -/
def roundEven (num den : Nat) : Nat :=
  let q := num / den
  let r := num % den
  if 2 * r < den then q
  else if den < 2 * r then q + 1
  else if q % 2 = 0 then q else q + 1

/-- The value nearest to `num / den`, a half to the even side, and infinite past the largest. -/
def ofRatio (negative : Bool) (num den : Nat) : Binary64 :=
  let step := spacing (num * one / den)
  let units := roundEven (num * one) (den * step) * step
  if units < limit then .finite negative units else .infinite negative

def ofNat (n : Nat) : Binary64 := ofRatio false n 1

/-- Numerical equality: the two zeros are equal, and `nan` is not equal to itself. -/
def same : Binary64 → Binary64 → Bool
  | .finite s m, .finite t n => m == n && (s == t || m == 0)
  | .infinite s, .infinite t => s == t
  | _, _ => false

def isZero : Binary64 → Bool
  | .finite _ units => units == 0
  | _ => false

/-- The nearest channel value from 0 to 255, a half away from zero; `nan` counts as zero. -/
def toChannel : Binary64 → Nat
  | .finite true _ => 0
  | .finite false units => min 255 ((units + one / 2) / one)
  | .infinite negative => if negative then 0 else 255
  | .nan => 0

end Binary64

end Stylesheet.Number
