import Stylesheet.Value.Grouping
import Stylesheet.Value.Literal

namespace Stylesheet.Value

/-- The arguments that a value in parentheses stands for, with their separator. -/
def arguments : Value → List Value × Separator
  | list vs s _ => (vs, s)
  | v => ([v], .comma)

/-- Takes arguments up to the closing parenthesis, perhaps none. Here and below `nested` takes a whole value grouped by an
order of separators, and `inner` a single value that is no list. -/
def readArguments (nested : List Separator → Read Value) : Read (List Value × Separator) := do
  discard Read.gap
  if (← Read.place).comes ")" then return ([], .comma)
  else return (← nested Separator.ofArguments).arguments

/-- Takes `name(arguments)`. -/
def readFunction (nested : List Separator → Read Value) (ignoreCase : Bool) : Read Value := do
  let p ← Read.place
  let name ← Read.identifier ignoreCase
  discard (Read.literal "(")
  let (args, s) ← readArguments nested
  discard (Read.literal ")")
  return .function name args s (some p.position)

/-- Takes an expression in parentheses, which is kept as a function without a name. -/
def readParenthesized (nested : List Separator → Read Value) : Read Value := do
  let p ← Read.place
  discard (Read.literal "(")
  let (args, s) ← readArguments nested
  discard (Read.literal ")")
  return .function "" args s (some p.position)

/-- Takes a filter of old browsers, whose name runs up to the parenthesis. -/
def readFilter (nested : List Separator → Read Value) : Read Value := do
  let p ← Read.place
  let name ← Read.upTo ['('] .behind false
  let (args, s) := (← nested [.comma, .equals]).arguments
  discard (Read.literal ")")
  return .function name args s (some p.position)

/-- Takes the operator between two operands. A sign must have blanks on both sides. -/
def readOperator : Read Char := do
  let p ← Read.place
  match p.rest with
  | [] => throw (Read.unexpected "a calc operator" p)
  | c :: rest =>
    if c ∉ ['+', '-', '*', '/'] then throw (Read.unexpected "a calc operator" p)
    else if (c = '+' || c = '-') && !(p.passed.head?.any Text.isBlank && rest.head?.any Text.isBlank) then
      throw (.unexpectedToken ("` " ++ String.singleton c ++ " `") (p.peek 3 (-1)) p.location)
    else
      Read.skip 1
      return c

/-- Takes one token of a calculation, with the parentheses then open and whether an operand came last. -/
def readToken (inner : Read Value) (depth : Nat) (afterOperand : Bool) :
    Read (CalcToken Value × Nat × Bool) := do
  let p ← Read.place
  if p.comes "(" then
    Read.skip 1
    return (.opening, depth + 1, afterOperand)
  else if p.comes ")" then
    Read.skip 1
    return (.closing, depth - 1, afterOperand)
  else if afterOperand then return (.operator (← readOperator), depth, false)
  else return (.operand (← inner), depth, true)

/-- Takes tokens up to the parenthesis that closes the calculation, or up to the end of the text. -/
def readTokens (inner : Read Value) (n depth : Nat) (afterOperand : Bool) :
    Read (List (CalcToken Value)) := do
  let p ← Read.place
  if p.comes ")" && depth = 0 then return []
  else if p.atEnd then
    if depth = 0 then return [] else throw (.unexpectedEnd "`)`" p.location)
  else
    discard Read.gap
    let (token, depth, afterOperand) ← readToken inner depth afterOperand
    discard Read.gap
    return token :: (← Read.shorter n (fun m _ => readTokens inner m depth afterOperand) (pure []))
termination_by n

/-- Takes a calculation. Its parentheses and operators are kept as tokens. -/
def readCalculation (inner : Read Value) : Read Value := do
  let p ← Read.place
  let name ← Read.identifier true
  let q ← Read.place
  if !q.comes "(" then throw (Read.unexpected "`(`" q)
  Read.skip 1
  let tokens ← readTokens inner (← Read.left) 0 false
  if !(← Read.place).atEnd then discard (Read.literal ")")
  return .calculation name tokens (some p.position)

def calculationNames : List String := ["calc", "-webkit-calc", "-moz-calc"]

/-- Takes a bare word, or the call that a word before a parenthesis begins. -/
def readWord (nested : List Separator → Read Value) (inner : Read Value) (ignoreCase : Bool) : Read Value := do
  let p ← Read.place
  let name ← Read.identifier ignoreCase
  if !(← Read.place).comes "(" then return .keyword name
  else
    Read.goto p
    if Text.lower name = "url" then return .url (← Url.read)
    else if Text.lower name ∈ calculationNames then readCalculation inner
    else readFunction nested ignoreCase

/-- What is known of a color function while its arguments are read. -/
structure ColorState where
  hasVariable : Bool := false
  hasNone : Bool := false
  classic : Bool := false

/-- Takes one channel: a variable, the word `none`, or a number. -/
def readChannel (word : Read Value) (s : ColorState) : Read (Value × ColorState) := do
  let p ← Read.place
  if p.comesAnyCase "var" then return (← word, { s with hasVariable := true })
  else if !s.classic && p.comesAnyCase "none" then
    return (.keyword (← Read.identifier true), { s with hasNone := true })
  else return (.size (← Size.read true), s)

/-- Takes what stands between this channel and the keys that follow: a comma in classic notation, a slash before
the opacity otherwise. -/
def readBetween (keys : List Char) (s : ColorState) : Read Unit := do
  if s.classic then
    if !keys.isEmpty then discard (Read.literal ",")
  else if s.hasVariable then
    if (← Read.place).comes "/" then discard (Read.literal "/")
  else if keys.head? = some 'a' then discard (Read.literal "/")

/-- Takes the channels under `keys`. The opacity may be left out if `optional`, and behind a variable everything
may. A comma behind the first channel means that the notation is classic throughout. -/
def readChannels (word : Read Value) (optional first : Bool) (s : ColorState) :
    List Char → Read (List Value × ColorState)
  | [] => return ([], s)
  | _ :: keys => do
    discard Read.gap
    let (v, s) ← readChannel word s
    discard Read.gap
    let p ← Read.place
    if (s.hasVariable || (optional && keys.length ≤ 1)) && p.comes ")" then return ([v], s)
    else
      let s := if first && !s.hasNone then { s with classic := p.comes "," } else s
      readBetween keys s
      let (vs, s) ← readChannels word optional false s keys
      return (v :: vs, s)

/-- Takes a color function. Its channels are the letters of its name, to which opacity can be added. With a
variable among them the color is not known, and it is kept as a function. -/
def readColorFunction (word : Read Value) : Read Value := do
  let p ← Read.place
  let name ← Read.identifier true
  discard Read.gap
  discard (Read.literal "(")
  let optional : Bool := name = "rgb" || name = "hsl"
  let keys := if optional then name.toList ++ ['a'] else name.toList
  let (vs, s) ← readChannels word optional true {} keys
  discard (Read.literal ")")
  if s.hasVariable then return .function name vs .comma (some p.position)
  else return .color (List.zipWith Channel.mk keys vs) s.classic (some p.position)

/-- Takes a color in hexadecimal digits or a color function. -/
def readColor (word : Read Value) : Read Value := do
  if (← Read.place).comes "#" then readHex else readColorFunction word

end Stylesheet.Value
