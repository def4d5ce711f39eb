import Stylesheet.Source.Fault
import Stylesheet.Source.Journal
import Stylesheet.Source.Place

namespace Stylesheet

/-- How text is read. Lenient reading goes on behind faults; `multibyte` counts columns in characters instead of
bytes of UTF-8. -/
structure Settings where
  lenient : Bool := true
  multibyte : Bool := true
  charset : String := "utf-8"
  deriving DecidableEq

/-- The columns that a character takes. -/
def Settings.width (s : Settings) (c : Char) : Nat := if s.multibyte then 1 else c.utf8Size

/-- The state of a reading; the journal holds the latest note first. -/
structure Reader where
  place : Place
  settings : Settings
  charset : String
  journal : List Note

namespace Reader

/-- A reading of `text` from its start, whose first line has the number `line`. -/
def start (text : String) (settings : Settings) (line : Nat) : Reader :=
  ⟨Place.start text.toList line, settings, settings.charset, []⟩

def note (level : Level) (text : String) (r : Reader) : Reader :=
  { r with journal := ⟨level, text⟩ :: r.journal }

end Reader

/-- A step of reading. -/
abbrev Read := ExceptT Fault (StateM Reader)

namespace Read

def place : Read Place := do return (← get).place

/-- Goes to a place of the same text, also back to one passed before. -/
def goto (p : Place) : Read Unit := modify fun r => { r with place := p }

def isLenient : Read Bool := do return (← get).settings.lenient

def note (level : Level) (text : String) : Read Unit := modify (Reader.note level text)

/-- The characters left to read, which bound every loop. -/
def left : Read Nat := do return (← place).rest.length

/-- Names the charset of the text. -/
def setCharset (charset : String) : Read Unit := do
  modify fun r => { r with charset := charset }
  note .debug ("Parser charset set to " ++ charset)

/-- A step that needs nothing but the settings and the place. -/
def move (f : Settings → Place → Except Fault α × Place) : Read α := do
  let r ← get
  let (result, p) := f r.settings r.place
  goto p
  match result with
  | .ok a => return a
  | .error e => throw e

/-- Goes forward over `n` characters, as far as there are any. -/
def skip (n : Nat) : Read Unit := move fun s p => (.ok (), p.forward s.width n)

def toEnd : Read Unit := move fun s p => (.ok (), p.toEnd s.width)

/-- Takes `n` characters, or fails in place. -/
def take (n : Nat) : Read String := move fun s p =>
  let text := p.rest.take n
  if text.length < n then
    (.error (.unexpectedEnd (toString n ++ " characters") p.location), p)
  else (.ok (String.ofList text), p.forward s.width n)

/-- The fault of finding something else than `expected` here. -/
def unexpected (expected : String) (p : Place) (shown : Nat := 5) : Fault :=
  .unexpectedToken expected (p.peek shown 0) p.location

/-- Takes `literal`, or fails in place. -/
def literal (text : String) : Read String := do
  let p ← place
  if p.comes text then take text.length
  else throw (unexpected ("`" ++ text ++ "`") p (max text.length 5))

/-- Where a search leaves the stop that it found. -/
inductive StopAt
  | before
  | behind
  | including
  deriving DecidableEq

/-- The stops as a fault names them. -/
def stopNames (stops : List Char) : String :=
  "one of " ++ String.intercalate ", " (stops.map fun c => "`" ++ String.singleton c ++ "`")

/-- The place behind a search, and the text it yields. Without a stop the whole rest is taken if `orEnd`;
otherwise the search fails where it began. -/
def upToStop (stops : List Char) (stopAt : StopAt) (orEnd : Bool) (s : Settings) (p : Place) :
    Except Fault String × Place :=
  let run := p.upTo s.width stops
  match run.halt with
  | .found =>
    match stopAt with
    | .before => (.ok (String.ofList run.text), run.place)
    | .behind => (.ok (String.ofList run.text), run.place.next s.width)
    | .including => (.ok (String.ofList (run.text ++ run.place.rest.take 1)), run.place.next s.width)
  | .exhausted =>
    if orEnd then (.ok (String.ofList run.text), run.place)
    else (.error (.unexpectedEnd (stopNames stops) p.location), p)
  | .unclosed => (.error (.unexpectedEnd "1 character" run.place.location), run.place)

/-- Takes the text up to the first of `stops`, without the comments in it. -/
def upTo (stops : List Char) (stopAt : StopAt) (orEnd : Bool) : Read String :=
  move (upToStop stops stopAt orEnd)

/-- The comments that a search passes, also when it fails in the end. -/
def commentsUpTo (stops : List Char) : Read (List Comment) := do
  let r ← get
  return (r.place.upTo r.settings.width stops).comments

/-- Takes the comment that begins here, if one does. -/
def comment? : Read (Option Comment) := move fun s p =>
  match p.opening s.width with
  | .absent => (.ok none, p)
  | .unclosed => (.error (.unexpectedEnd "1 character" (p.toEnd s.width).location), p.toEnd s.width)
  | .whole c q => (.ok (some c), q)

/-- Skips blanks and comments and yields the comments. A comment that never ends takes the rest of the text;
lenient reading leaves it at a note. -/
def gap : Read (List Comment) := do
  let r ← get
  let width := r.settings.width
  let (comments, p, unclosed) := r.place.pastGap width
  if unclosed then
    goto (p.toEnd width)
    if r.settings.lenient then
      note .warn "Unterminated comment running to end of input"
      return comments
    else throw (.unexpectedEnd "1 character" (p.toEnd width).location)
  else
    goto p
    return comments

/-- Recursion behind a step that has taken at least one character: `again` gets the characters left, which are
fewer than `n`. -/
def shorter (n : Nat) (again : (m : Nat) → m < n → Read α) (otherwise : Read α) : Read α := do
  let m ← left
  if h : m < n then again m h else otherwise

end Read

end Stylesheet
