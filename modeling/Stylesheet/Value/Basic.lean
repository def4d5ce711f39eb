import Stylesheet.Number.Shortest
import Stylesheet.Source.Position
import Stylesheet.Value.Separator

namespace Stylesheet

/-- A number with an optional unit. `channel` marks a component of a color. -/
structure Size where
  magnitude : Number.Binary64
  unit : Option String := none
  channel : Bool := false
  position : Option Position := none

/-- A text that is written in quotes. -/
structure Quoted where
  text : String
  position : Option Position := none
  deriving DecidableEq

/-- The address in `url(…)`. -/
structure Url where
  address : Quoted
  position : Option Position := none
  deriving DecidableEq

/-- A component of a color under its letter. -/
structure Channel (α : Type) where
  key : Char
  value : α

/-- A token of a calculation. -/
inductive CalcToken (α : Type)
  | operand (value : α)
  | operator (symbol : Char)
  | opening
  | closing

/-- A value of a declaration. Every form but the bare word remembers where it stood. -/
inductive Value
  | keyword (text : String)
  | size (size : Size)
  | color (channels : List (Channel Value)) (legacy : Bool) (position : Option Position)
  | string (string : Quoted)
  | url (url : Url)
  | function (name : String) (arguments : List Value) (separator : Separator) (position : Option Position)
  | calculation (name : String) (tokens : List (CalcToken Value)) (position : Option Position)
  | list (components : List Value) (separator : Separator) (position : Option Position)
  | lineNames (names : List String) (position : Option Position)

namespace CalcToken

def operand? : CalcToken α → Option α
  | operand value => some value
  | _ => none

end CalcToken

namespace Value

def position? : Value → Option Position
  | keyword _ => none
  | size s => s.position
  | color _ _ p => p
  | string s => s.position
  | url u => u.position
  | function _ _ _ p => p
  | calculation _ _ p => p
  | list _ _ p => p
  | lineNames _ p => p

/-- The value at another place; a bare word has none. -/
def withPosition (p : Option Position) : Value → Value
  | keyword t => keyword t
  | size s => size { s with position := p }
  | color cs legacy _ => color cs legacy p
  | string s => string { s with position := p }
  | url u => url { u with position := p }
  | function name args sep _ => function name args sep p
  | calculation name tokens _ => calculation name tokens p
  | list vs sep _ => list vs sep p
  | lineNames names _ => lineNames names p

def keyword? : Value → Option String
  | keyword t => some t
  | _ => none

def size? : Value → Option Size
  | size s => some s
  | _ => none

/-- Functions, calculations and colors are written as calls. -/
def isCall : Value → Bool
  | function .. | calculation .. | color .. => true
  | _ => false

/-- Strings and addresses can name a namespace. -/
def isText : Value → Bool
  | string _ | url _ => true
  | _ => false

end Value

/-- The name of a color is made of the letters of its channels. -/
def Channel.name (channels : List (Channel α)) : String := String.ofList (channels.map Channel.key)

/-- Replaces the channel under `key`, or adds one. -/
def Channel.set (key : Char) (value : α) : List (Channel α) → List (Channel α)
  | [] => [⟨key, value⟩]
  | c :: cs => if c.key = key then ⟨key, value⟩ :: cs else c :: Channel.set key value cs

def Channel.find? (key : Char) (channels : List (Channel α)) : Option α :=
  (channels.find? fun c => c.key = key).map Channel.value

end Stylesheet
