import Stylesheet.Number.Binary64

namespace Stylesheet.Number

/-- A decimal number `digits · 10 ^ scale` for `scale ≥ 0`, and `digits / 10 ^ (-scale)` below. -/
structure Decimal where
  digits : Nat
  scale : Int
  deriving DecidableEq

namespace Decimal

/-- The digits with leading zeros up to `width`. -/
def padded (width n : Nat) : List Char :=
  let ds := Nat.toDigits 10 n
  List.replicate (width - ds.length) '0' ++ ds

/-- The decimal written out with a point where it has a fraction, whose last digit is not zero. -/
def toChars (d : Decimal) : List Char :=
  if 0 ≤ d.scale then Nat.toDigits 10 (d.digits * Nat.pow 10 d.scale.toNat)
  else
    let places := (-d.scale).toNat
    let whole := Nat.toDigits 10 (d.digits / Nat.pow 10 places)
    let fraction := padded places (d.digits % Nat.pow 10 places)
    match (fraction.reverse.dropWhile (· == '0')).reverse with
    | [] => whole
    | kept => whole ++ '.' :: kept

end Decimal

namespace Binary64

/-- Four times the distance down to where values start to round to the one below. Below a power of two the
neighbours lie twice as close. -/
def gapBelow (units : Nat) : Nat :=
  let step := spacing units
  if 1 < step && units == Nat.pow 2 units.log2 then step else 2 * step

/-- Four times the distance up to where values start to round to the one above. -/
def gapAbove (units : Nat) : Nat := 2 * spacing units

/-- Whether `num / den` units round to `units`; a value halfway belongs to the even neighbour. -/
def roundsTo (units num den : Nat) : Bool :=
  let low := (4 * units - gapBelow units) * den
  let high := (4 * units + gapAbove units) * den
  if units / spacing units % 2 = 0 then low ≤ 4 * num && 4 * num ≤ high
  else low < 4 * num && 4 * num < high

/-- The place of the leading digit: `10 ^ e ≤ units / one < 10 ^ (e + 1)`. -/
def leadingPlace (units : Nat) : Int :=
  if one ≤ units then (Nat.toDigits 10 (units / one)).length - 1
  else
    match (List.range 325).find? (fun j => one ≤ units * Nat.pow 10 j) with
    | some j => - (j : Int)
    | none => -325

/-- The multiple of `10 ^ scale` that reads back as `units`, if one of the two around it does: the nearer one,
the upper one of two equally near. -/
def onGrid? (units : Nat) (scale : Int) : Option Decimal :=
  -- `units / one` counts `num / den` steps of the grid
  let num := units * Nat.pow 10 (-scale).toNat
  let den := one * Nat.pow 10 scale.toNat
  let below := num / den
  let fits (k : Nat) : Bool := roundsTo units (k * den) (Nat.pow 10 (-scale).toNat)
  let upper : Decimal := ⟨below + 1, scale⟩
  match fits below, fits (below + 1) with
  | true, true => some (if 2 * (num % den) < den then ⟨below, scale⟩ else upper)
  | true, false => some ⟨below, scale⟩
  | false, true => some upper
  | false, false => none

/-- The fewest digits that read back as the same value, from one to seventeen. -/
def shortest (units : Nat) : Decimal :=
  let e := leadingPlace units
  ((List.range 17).findSome? fun (k : Nat) => onGrid? units (e - k)).getD ⟨units / one, 0⟩

/-- The digits of a finite value without its sign. -/
def magnitudeChars (units : Nat) : List Char :=
  if units = 0 then ['0'] else (shortest units).toChars

/-- The shortest text of a number. -/
def toText : Binary64 → String
  | .finite negative units => String.ofList ((if negative then ['-'] else []) ++ magnitudeChars units)
  | .infinite negative => if negative then "-inf" else "inf"
  | .nan => "NaN"

/-- The text of a number in a style sheet, where a zero before the point is left out. -/
def toCss (x : Binary64) : String :=
  match x.toText.toList with
  | '0' :: '.' :: r => String.ofList ('.' :: r)
  | '-' :: '0' :: '.' :: r => String.ofList ('-' :: '.' :: r)
  | _ => x.toText

end Binary64

end Stylesheet.Number
