import Stylesheet.Number.Numeral
import Stylesheet.Source.Identifier
import Stylesheet.Value.Unit

namespace Stylesheet

namespace Size

/-- Whether a number begins: a digit, perhaps behind a minus, a point or both. -/
def begins (p : Place) : Bool :=
  match p.rest with
  | '-' :: '.' :: c :: _ => c.isDigit
  | '-' :: c :: _ => c.isDigit
  | '.' :: c :: _ => c.isDigit
  | c :: _ => c.isDigit
  | [] => false

/-- The digits, points and exponents that a number is made of. An `e` counts only before a digit or a sign, which
it takes along. -/
def numberChars : List Char → List Char
  | [] => []
  | [c] => if c.isDigit || c = '.' then [c] else []
  | c :: d :: rest =>
    if c.isDigit || c = '.' then c :: numberChars (d :: rest)
    else if (c = 'e' || c = 'E') && (d.isDigit || d = '+' || d = '-') then c :: d :: numberChars rest
    else []

/-- The characters of the number at a place with its minus. -/
def numberAt (rest : List Char) : List Char :=
  match rest with
  | '-' :: rest => '-' :: numberChars rest
  | rest => numberChars rest

/-- Takes a number with the longest unit behind it. -/
def read (channel : Bool) : Read Size := do
  let p ← Read.place
  let number := String.ofList (numberAt p.rest)
  Read.skip number.length
  match Number.Binary64.read? number with
  | none => throw (.unexpectedToken "a number" number p.location)
  | some magnitude =>
    let unit := unitAt? (← Read.place).rest
    Read.skip (unit.getD "").length
    return ⟨magnitude, unit, channel, some p.position⟩

end Size

namespace Quoted

/-- Characters that end a text without quotes. -/
def endsBare (c : Char) : Bool := Text.isBlank c || "()<>[]\x7b\x7d".toList.contains c

/-- Takes a text in quotes, or one without that ends at a blank or a bracket. -/
def read : Read Quoted := do
  let p ← Read.place
  match p.rest with
  | c :: _ =>
    if c = '"' || c = '\'' then
      Read.skip 1
      let text ← Read.move fun s q => q.textUpTo s (· = c)
      if (← Read.place).atEnd then
        throw (.unexpectedEnd ("closing `" ++ String.singleton c ++ "`") p.location)
      Read.skip 1
      return ⟨String.ofList text, some p.position⟩
    else
      let text ← Read.move fun s q => q.textUpTo s endsBare
      return ⟨String.ofList text, some p.position⟩
  | [] => return ⟨"", some p.position⟩

end Quoted

namespace Url

/-- Takes `url(` with the blanks it may hold; where there is no such call nothing is taken. -/
def opens : Read Bool := do
  let p ← Read.place
  if p.comesAnyCase "url" then
    Read.skip 3
    discard Read.gap
    if (← Read.place).comes "(" then
      Read.skip 1
      return true
    else
      Read.goto p
      return false
  else return false

/-- Takes `url(…)`, or a bare text where an address is expected. -/
def read : Read Url := do
  let p ← Read.place
  let call ← opens
  discard Read.gap
  let address ← Quoted.read
  if call then
    discard Read.gap
    discard (Read.literal ")")
  return ⟨address, some p.position⟩

end Url

namespace Value

/-- A channel of a color that was written in hexadecimal digits. -/
def hexChannel (p : Position) (key : Char) (magnitude : Number.Binary64) : Channel Value :=
  ⟨key, .size ⟨magnitude, none, true, some p⟩⟩

/-- The opacity that two hexadecimal digits stand for, in hundredths. -/
def hexOpacity (n : Nat) : Number.Binary64 := Number.Binary64.ofRatio false ((200 * n + 255) / 510) 100

/-- The channels that pairs of hexadecimal digits stand for. -/
def hexChannels (p : Position) : List Char → List (Channel Value)
  | [r, r', g, g', b, b'] =>
    let channel (key d d' : Char) := hexChannel p key (.ofNat (ofHexDigits [d, d']))
    [channel 'r' r r', channel 'g' g g', channel 'b' b b']
  | [r, r', g, g', b, b', a, a'] =>
    let channel (key d d' : Char) := hexChannel p key (.ofNat (ofHexDigits [d, d']))
    [channel 'r' r r', channel 'g' g g', channel 'b' b b', hexChannel p 'a' (hexOpacity (ofHexDigits [a, a']))]
  | _ => []

/-- Takes a color written with a hash and 3, 4, 6 or 8 digits. -/
def readHex : Read Value := do
  let p ← Read.place
  discard (Read.literal "#")
  let digits := (← Read.identifier false).toList
  if !digits.all isHexDigit then
    throw (.unexpectedToken "a hex color value" (String.ofList digits) p.location)
  let pairs := if digits.length = 3 || digits.length = 4 then digits.flatMap fun d => [d, d] else digits
  if pairs.length ≠ 6 && pairs.length ≠ 8 then
    throw (.unexpectedToken "a hex color value of 3, 4, 6 or 8 digits" (String.ofList pairs) p.location)
  return .color (hexChannels p.position pairs) true (some p.position)

/-- The characters of a code point range. The first one is taken whatever it is; the range is full at six bytes,
or at thirteen from a dash on. -/
def rangeChars (limit size : Nat) : List Char → List Char
  | [] => []
  | c :: rest =>
    let limit := if c = '-' then 13 else limit
    let size := size + c.utf8Size
    match rest with
    | [] => [c]
    | d :: _ =>
      if size < limit && (isHexDigit d || d = '?' || d = '-') then c :: rangeChars limit size rest else [c]

/-- Takes a range such as `U+0025-00FF` or `U+4??`, which is kept as a bare word. -/
def readRange : Read Value := do
  discard (Read.literal "U+")
  let p ← Read.place
  if p.atEnd then throw (.unexpectedEnd "1 characters" p.location)
  let range := rangeChars 6 0 p.rest
  Read.skip range.length
  return .keyword ("U+" ++ String.ofList range)

/-- Takes names up to a closing bracket. Lenient reading accepts that there are none. -/
def readNames (n : Nat) : Read (List String) := do
  let name ← try
      pure (some (← Read.identifier false))
    catch e =>
      if e.recoverable && (← Read.isLenient) && (← Read.place).comes "]" then pure none
      else throw e
  discard Read.gap
  if (← Read.place).comes "]" then return name.toList
  else return name.toList ++ (← Read.shorter n (fun m _ => readNames m) (pure []))
termination_by n

/-- Takes the names of a grid line in brackets. -/
def readLineNames : Read Value := do
  let p ← Read.place
  discard (Read.literal "[")
  discard Read.gap
  let names ← readNames (← Read.left)
  discard (Read.literal "]")
  return .lineNames names (some p.position)

end Value

end Stylesheet
