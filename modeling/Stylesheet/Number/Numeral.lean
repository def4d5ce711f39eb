import Stylesheet.Number.Binary64

namespace Stylesheet.Number

/-- A decimal number as written: `digits · 10 ^ exponent`. -/
structure Numeral where
  digits : Nat
  exponent : Int

namespace Numeral

def digitValue (c : Char) : Nat := c.toNat - '0'.toNat

/-- The number that a run of decimal digits stands for. -/
def ofDigits (ds : List Char) : Nat := ds.foldl (fun n d => 10 * n + digitValue d) 0

/-- The exponent after its letter: an optional sign and at least one digit, up to the end. -/
def readExponent? (cs : List Char) : Option Int :=
  let (negative, ds) := match cs with
    | '-' :: r => (true, r)
    | '+' :: r => (false, r)
    | r => (false, r)
  if ds.isEmpty || !ds.all Char.isDigit then none
  else some (if negative then - (ofDigits ds : Int) else ofDigits ds)

/-- Digits, an optional point and more digits, at least one digit in all, then an optional exponent. -/
def read? (cs : List Char) : Option Numeral :=
  let whole := cs.takeWhile Char.isDigit
  let rest := cs.dropWhile Char.isDigit
  let (fraction, rest) := match rest with
    | '.' :: r => (r.takeWhile Char.isDigit, r.dropWhile Char.isDigit)
    | r => ([], r)
  if whole.isEmpty && fraction.isEmpty then none
  else
    let digits := ofDigits (whole ++ fraction)
    match rest with
    | [] => some ⟨digits, - (fraction.length : Int)⟩
    | e :: r =>
      if e == 'e' || e == 'E' then
        (readExponent? r).map fun x => ⟨digits, x - (fraction.length : Int)⟩
      else none

/-- The nearest binary64. An exponent far outside the range decides at once, so that no huge power is formed. -/
def toBinary64 (negative : Bool) (n : Numeral) : Binary64 :=
  let size : Int := (Nat.toDigits 10 n.digits).length + n.exponent
  if n.digits = 0 || size < -400 then .finite negative 0
  else if 400 < size then .infinite negative
  else if 0 ≤ n.exponent then Binary64.ofRatio negative (n.digits * Nat.pow 10 n.exponent.toNat) 1
  else Binary64.ofRatio negative n.digits (Nat.pow 10 (-n.exponent).toNat)

end Numeral

/-- Reads a whole text as a number. -/
def Binary64.read? (s : String) : Option Binary64 :=
  let (negative, cs) := match s.toList with
    | '-' :: r => (true, r)
    | '+' :: r => (false, r)
    | r => (false, r)
  match Numeral.read? cs with
  | some n => some (n.toBinary64 negative)
  | none =>
    let name := String.ofList (cs.map Char.toLower)
    if name = "inf" || name = "infinity" then some (.infinite negative)
    else if name = "nan" then some .nan
    else none

end Stylesheet.Number
