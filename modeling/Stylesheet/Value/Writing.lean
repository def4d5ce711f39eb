import Stylesheet.Layout.Basic
import Stylesheet.Value.Unit

namespace Stylesheet

/-- A size is its number, with no zero before the point, and its unit. -/
def Size.toCss (s : Size) : String := s.magnitude.toCss ++ s.unit.getD ""

/-- A character between quotes. Both quotes and the backslash are escaped; a line feed is written as a code
with the blank that ends it. -/
def Quoted.escape (c : Char) : List Char :=
  if c = '\\' || c = '"' || c = '\'' then ['\\', c]
  else if c = '\x00' then ['\\', '0']
  else if c = '\n' then ['\\', 'A', ' ']
  else [c]

def Quoted.toCss (f : Layout) (s : Quoted) : String :=
  String.ofList (f.quote :: (s.text.toList.flatMap Quoted.escape ++ [f.quote]))

def Url.toCss (f : Layout) (u : Url) : String := "url(" ++ u.address.toCss f ++ ")"

namespace Value

def isPlainNumber (v : Value) : Bool := v.size?.any fun s => s.unit.isNone

def isPercentage (v : Value) : Bool := v.size?.any Size.isPercentage

/-- The word `none` in any case, which only the modern notation of colors has. -/
def isNoneWord (v : Value) : Bool := v.keyword?.any fun k => k.toList.map Char.toLower = "none".toList

end Value

/-- The notations of a color. -/
inductive Notation
  | hash
  | modern
  | classic
  deriving DecidableEq

namespace Notation

/-- Modern notation has blanks between its channels, and a slash before the last one if that is the opacity. It is
needed where a channel is `none` or where percentages and numbers mix. -/
def needsModern (channels : List (Channel Value)) : Bool :=
  let name := Channel.name channels
  let solid := channels.filter fun c => c.key ≠ 'a'
  channels.any (fun c => c.value.isNoneWord) ||
    ((name = "rgb" || name = "rgba") && solid.any (fun c => c.value.isPercentage) &&
      solid.any (fun c => c.value.size?.isSome && !c.value.isPercentage))

/-- Three plain numbers are written with a hash if the layout likes that. -/
def ofChannels (f : Layout) (channels : List (Channel Value)) : Notation :=
  if f.hashColors && Channel.name channels = "rgb" && channels.all (fun c => c.value.isPlainNumber) then hash
  else if needsModern channels then modern
  else classic

/-- The hexadecimal digit of a number below 16. -/
def hexDigit (n : Nat) : Char := if n < 10 then Char.ofNat ('0'.toNat + n) else Char.ofNat ('a'.toNat + n - 10)

/-- Channels from 0 to 255 as hexadecimal digits: one each if both digits of every channel are equal. -/
def hashText (channels : List Nat) : String :=
  if channels.all fun n => n / 16 = n % 16 then String.ofList ('#' :: channels.map fun n => hexDigit (n / 16))
  else String.ofList ('#' :: channels.flatMap fun n => [hexDigit (n / 16), hexDigit (n % 16)])

/-- The arguments in modern notation, given the text of each channel. -/
def modernText (channels : List (Channel Value)) (texts : List String) : String :=
  match channels.getLast?, texts.getLast? with
  | some ⟨'a', _⟩, some opacity => String.intercalate " " texts.dropLast ++ " / " ++ opacity
  | _, _ => String.intercalate " " texts

/-- The text of a color, given the text of each channel. -/
def colorText (f : Layout) (channels : List (Channel Value)) (texts : List String) : String :=
  let call (arguments : String) := Channel.name channels ++ "(" ++ arguments ++ ")"
  match ofChannels f channels with
  | hash => hashText (channels.filterMap fun c => c.value.size?.map fun s => s.magnitude.toChannel)
  | modern => call (modernText channels texts)
  | classic => call (String.intercalate (f.around .comma) texts)

end Notation

mutual

/-- The text of a value. -/
def Value.toCss (f : Layout) : Value → String
  | .keyword t => t
  | .size s => s.toCss
  | .color cs _ _ => Notation.colorText f cs (Value.textsOfChannels f cs)
  | .string s => s.toCss f
  | .url u => u.toCss f
  | .function name args s _ => name ++ "(" ++ String.intercalate (f.around s) (Value.texts f args) ++ ")"
  | .calculation name ts _ => name ++ "(" ++ String.intercalate " " (Value.textsOfTokens f ts) ++ ")"
  | .list vs s _ => String.intercalate (f.around s) (Value.texts f vs)
  | .lineNames names _ => "[" ++ String.intercalate " " names ++ "]"
termination_by structural v => v

def Value.texts (f : Layout) : List Value → List String
  | [] => []
  | v :: vs => v.toCss f :: Value.texts f vs
termination_by structural vs => vs

def Value.textsOfChannels (f : Layout) : List (Channel Value) → List String
  | [] => []
  | ⟨_, v⟩ :: cs => v.toCss f :: Value.textsOfChannels f cs
termination_by structural cs => cs

def Value.textsOfTokens (f : Layout) : List (CalcToken Value) → List String
  | [] => []
  | .operand v :: ts => v.toCss f :: Value.textsOfTokens f ts
  | .operator c :: ts => String.singleton c :: Value.textsOfTokens f ts
  | .opening :: ts => "(" :: Value.textsOfTokens f ts
  | .closing :: ts => ")" :: Value.textsOfTokens f ts
termination_by structural ts => ts

end

end Stylesheet
