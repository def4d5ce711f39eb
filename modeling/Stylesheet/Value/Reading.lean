import Stylesheet.Value.Call

namespace Stylesheet.Value

/-- What ends a value: the end of the text, a closing bracket, a semicolon, an exclamation mark, and in lenient
reading the hacks `\9` and `\0`. -/
def endsAt (lenient : Bool) (p : Place) : Bool :=
  p.atEnd || p.comes "\x7d" || p.comes ";" || p.comes "!" || p.comes ")" ||
    (lenient && (p.comes "\\9" || p.comes "\\0"))

/-- Takes the separator before the next value. Where none of those looked for stands, it is a blank. -/
def readSeparator (order : List Separator) : Read Separator := do
  let p ← Read.place
  match order.find? fun s => s ≠ .space && p.comes s.symbol with
  | some s =>
    discard (Read.literal s.symbol)
    discard Read.gap
    return s
  | none => return .space

/-- Takes the values behind the first one with their separators. -/
def readMore (primitive : Read Value) (order : List Separator) (n : Nat) : Read (List (Separator × Value)) := do
  if endsAt (← Read.isLenient) (← Read.place) then return []
  else
    let s ← readSeparator order
    let v ← primitive
    discard Read.gap
    return (s, v) :: (← Read.shorter n (fun m _ => readMore primitive order m) (pure []))
termination_by n

/-- Takes a value of the given primitives. -/
def readWith (primitive : Read Value) (order : List Separator) : Read Value := do
  let start ← Read.place
  discard Read.gap
  let p ← Read.place
  if endsAt (← Read.isLenient) p then throw (Read.unexpected "a value" p)
  let first ← primitive
  discard Read.gap
  let more ← readMore primitive order (← Read.left)
  let chain := Chain.foldAll order (some start.position) ⟨first, more⟩
  if chain.more.isEmpty then return chain.first
  else throw (Read.unexpected "a single value" (← Read.place))

/-- Takes a word or a call; where there is none, a sign that stands alone is a bare word. -/
def readWordOrSign (word : Read Value) : Read Value := do
  let next := (← Read.place).rest.head?
  try word
  catch
    | .unexpectedToken e f l =>
      if next ∈ [some '+', some '-', some '*', some '/'] then return .keyword (← Read.take 1)
      else throw (.unexpectedToken e f l)
    | e => throw e

/-- Takes a value that is no list, given the readers for what it may hold. -/
def readPrimitiveWith (nested : List Separator → Read Value) (inner : Read Value) : Read Value := do
  discard Read.gap
  let p ← Read.place
  let v ←
    if Size.begins p then Value.size <$> Size.read false
    else if p.comes "#" || p.comesAnyCase "rgb" || p.comesAnyCase "hsl" then readColor (readWord nested inner true)
    else if p.comes "'" || p.comes "\"" then Value.string <$> Quoted.read
    else if (← Read.isLenient) && p.comesAnyCase "progid:" then readFilter nested
    else if p.comes "[" then readLineNames
    else if p.comes "U+" then readRange
    else if p.comes "(" then readParenthesized nested
    else readWordOrSign (readWord nested inner false)
  discard Read.gap
  return v

/-- The fault of standing still, which no reader does. -/
def stuck : Read Value := do throw (Read.unexpected "a value" (← Read.place))

/-- Takes a value that is no list where at most `n` characters are left. -/
def readPrimitiveIn (n : Nat) : Read Value :=
  readPrimitiveWith
    (fun order => Read.shorter n (fun m _ => readWith (readPrimitiveIn m) order) stuck)
    (Read.shorter n (fun m _ => readPrimitiveIn m) stuck)
termination_by n

/-- The reader of values in parentheses, where at most `n` characters are left before them. -/
def nestedIn (n : Nat) (order : List Separator) : Read Value :=
  Read.shorter n (fun m _ => readWith (readPrimitiveIn m) order) stuck

/-- The reader of operands, where at most `n` characters are left before them. -/
def innerIn (n : Nat) : Read Value := Read.shorter n (fun m _ => readPrimitiveIn m) stuck

/-- Takes a value that is no list. -/
def readPrimitive : Read Value := do readPrimitiveIn (← Read.left)

/-- Takes a value up to a character that ends it, grouped by the separators of `order`. -/
def read (order : List Separator) : Read Value := do readWith (readPrimitiveIn (← Read.left)) order

/-- Takes a bare word or a call. -/
def readWordHere (ignoreCase : Bool) : Read Value := do
  let n ← Read.left
  readWord (nestedIn n) (innerIn n) ignoreCase

/-- Takes a function. -/
def readFunctionHere (ignoreCase : Bool) : Read Value := do
  readFunction (nestedIn (← Read.left)) ignoreCase

/-- Takes a calculation. -/
def readCalculationHere : Read Value := do readCalculation (innerIn (← Read.left))

/-- Takes a color. -/
def readColorHere : Read Value := do
  let n ← Read.left
  readColor (readWord (nestedIn n) (innerIn n) true)

end Stylesheet.Value
