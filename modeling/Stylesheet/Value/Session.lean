import Stylesheet.Value.Reading

namespace Stylesheet

/-- One thing to ask of a reader. What it takes is left aside. -/
inductive Operation
  | take (n : Nat)
  | literal (text : String)
  | upTo (stops : List Char) (stopAt : Read.StopAt) (orEnd : Bool)
  | gap
  | comment
  | character (forIdentifier : Bool)
  | identifier (ignoreCase : Bool)
  | value (order : List Separator)
  | primitive
  | word (ignoreCase : Bool)
  | size (channel : Bool)
  | color
  | hexColor
  | colorFunction
  | quoted
  | url
  | function (ignoreCase : Bool)
  | parenthesized
  | arguments
  | calculation
  | lineNames
  | range
  | filter
  | toEnd
  | setCharset (charset : String)

/-- The step of reading that is asked for. A reader that needs readers for what may stand inside gets those for the
characters that are left. -/
def Operation.read : Operation → Read Unit
  | take n => discard (Read.take n)
  | literal text => discard (Read.literal text)
  | upTo stops stopAt orEnd => discard (Read.upTo stops stopAt orEnd)
  | gap => discard Read.gap
  | comment => discard Read.comment?
  | character forIdentifier => discard (Read.character? forIdentifier)
  | identifier ignoreCase => discard (Read.identifier ignoreCase)
  | value order => discard (Value.read order)
  | primitive => discard Value.readPrimitive
  | word ignoreCase => discard (Value.readWordHere ignoreCase)
  | size channel => discard (Size.read channel)
  | color => discard Value.readColorHere
  | hexColor => discard Value.readHex
  | colorFunction => do
    let n ← Read.left
    discard (Value.readColorFunction (Value.readWord (Value.nestedIn n) (Value.innerIn n) true))
  | quoted => discard Quoted.read
  | url => discard Url.read
  | function ignoreCase => discard (Value.readFunctionHere ignoreCase)
  | parenthesized => do discard (Value.readParenthesized (Value.nestedIn (← Read.left)))
  | arguments => discard (Value.readArguments Value.read)
  | calculation => discard Value.readCalculationHere
  | lineNames => discard Value.readLineNames
  | range => discard Value.readRange
  | filter => do discard (Value.readFilter (Value.nestedIn (← Read.left)))
  | toEnd => Read.toEnd
  | setCharset charset => Read.setCharset charset

/-- A reader in use, with the places kept so far and the faults that its operations came to. -/
structure Session where
  reader : Reader
  kept : List Place := []
  faults : List Fault := []

namespace Session

/-- One step of a session: an operation, or keeping the place reached, or going back to the `i`-th place kept. -/
inductive Step
  | operation (o : Operation)
  | keep
  | back (i : Nat)

/-- The session behind a step. An operation that fails leaves the reader where it failed; where no place has been kept
under an index, going back to it does nothing. -/
def step (s : Session) : Step → Session
  | .operation o =>
    match o.read.run.run s.reader with
    | (.ok _, r) => { s with reader := r }
    | (.error e, r) => { s with reader := r, faults := s.faults ++ [e] }
  | .keep => { s with kept := s.kept ++ [s.reader.place] }
  | .back i =>
    match s.kept[i]? with
    | some p => { s with reader := { s.reader with place := p } }
    | none => s

/-- A session on a text whose first line has the number `line`. -/
def start (text : String) (settings : Settings) (line : Nat) : Session := { reader := Reader.start text settings line }

/-- The session behind some steps. -/
def run (s : Session) (steps : List Step) : Session := steps.foldl step s

end Session

end Stylesheet
