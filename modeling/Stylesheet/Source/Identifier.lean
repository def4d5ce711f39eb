import Stylesheet.Source.Reading

namespace Stylesheet

/-- What one written character stands for: a character, or nothing for an escaped line break. -/
inductive Piece
  | char (c : Char)
  | joint
  deriving DecidableEq

/-- Letters, digits, `-`, `_` and everything above U+00A1. -/
def isIdentifierChar (c : Char) : Bool :=
  c.isAlphanum || c == '-' || c == '_' || 0xA1 < c.toNat

def isHexDigit (c : Char) : Bool := c.isDigit || ('a' ≤ c && c ≤ 'f') || ('A' ≤ c && c ≤ 'F')

def hexDigitValue (c : Char) : Nat :=
  if c.isDigit then c.toNat - '0'.toNat
  else if 'a' ≤ c && c ≤ 'f' then c.toNat - 'a'.toNat + 10
  else c.toNat - 'A'.toNat + 10

/-- The number that a run of hexadecimal digits stands for. -/
def ofHexDigits (ds : List Char) : Nat := ds.foldl (fun n d => 16 * n + hexDigitValue d) 0

/-- The character with a code; a replacement character for zero and for codes that name no character. -/
def ofCode (n : Nat) : Char :=
  if n.isValidChar && n ≠ 0 then Char.ofNat n else '\uFFFD'

namespace Piece

def toChars : Piece → List Char
  | char c => [c]
  | joint => []

/-- The piece inside an identifier. -/
def spell : Piece → List Char
  | char c => if isIdentifierChar c then [c] else ['\\', c]
  | joint => []

end Piece

namespace Place

/-- The length of the one blank that may end a hexadecimal escape; a carriage return takes its line feed along. -/
def escapeBlank : List Char → Nat
  | '\r' :: '\n' :: _ => 2
  | c :: _ => if Text.isBlank c then 1 else 0
  | [] => 0

/-- The escape at a backslash: a line break is skipped over without being taken, up to six hexadecimal digits
give a code, and any other character stands for itself. -/
def escape (width : Char → Nat) (p : Place) : Except Fault Piece × Place :=
  let q := p.next width
  match q.rest with
  | [] => (.error (.unexpectedEnd "1 characters" q.location), q)
  | c :: _ =>
    if c = '\n' || c = '\r' then (.ok .joint, q)
    else if isHexDigit c then
      let digits := (q.rest.take 6).takeWhile isHexDigit
      let r := q.forward width digits.length
      (.ok (.char (ofCode (ofHexDigits digits))),
        if digits.length < 6 then r.forward width (escapeBlank r.rest) else r)
    else (.ok (.char c), q.next width)

/-- The character at a place with its escape resolved. -/
def piece (s : Settings) (p : Place) : Except Fault Piece × Place :=
  match p.rest with
  | [] => (.error (.unexpectedEnd "1 character" p.location), p)
  | c :: _ => if c = '\\' then p.escape s.width else (.ok (.char c), p.next s.width)

/-- Whether the character at a place can go on an identifier. Lenient reading leaves `\0` and `\9` alone, which
stand behind a value as a hack for old browsers. -/
def goesOn (s : Settings) (p : Place) : Bool :=
  match p.rest with
  | [] => false
  | c :: _ =>
    if c = '\\' then !(s.lenient && (p.comes "\\0" || p.comes "\\9")) else isIdentifierChar c

theorem escape_rest (width : Char → Nat) (p : Place) : ∃ n, (p.escape width).2.rest = p.rest.tail.drop n := by
  unfold escape
  simp only
  split
  · exact ⟨0, by simp⟩
  · split
    · exact ⟨0, by simp⟩
    · split
      · split
        · simp only [forward_rest, next_rest, List.drop_drop]
          exact ⟨_, rfl⟩
        · simp only [forward_rest, next_rest]
          exact ⟨_, rfl⟩
      · exact ⟨1, by simp only [next_rest, List.drop_one]⟩

theorem piece_rest {s : Settings} {p : Place} (h : p.rest ≠ []) :
    (p.piece s).2.rest.length < p.rest.length := by
  unfold piece
  split
  · next hr => exact absurd hr h
  · next c rest hr =>
    split
    · obtain ⟨n, hn⟩ := p.escape_rest s.width
      rw [hn, hr]
      simp only [List.tail_cons, List.length_drop, List.length_cons]
      omega
    · simp [hr]

theorem rest_ne_nil_of_goesOn {s : Settings} {p : Place} (h : p.goesOn s = true) : p.rest ≠ [] := by
  intro hr
  simp [goesOn, hr] at h

/-- The characters of an identifier from a place on, each escaped one spelled so that it reads back. -/
def spelling (s : Settings) (p : Place) : Except Fault (List Char) × Place :=
  if _h : p.goesOn s then
    match _hq : p.piece s with
    | (.ok piece, q) =>
      let (more, r) := q.spelling s
      (more.map (piece.spell ++ ·), r)
    | (.error e, q) => (.error e, q)
  else (.ok [], p)
termination_by p.rest.length
decreasing_by
  have := piece_rest (s := s) (rest_ne_nil_of_goesOn _h)
  rwa [_hq] at this

/-- An identifier. It has at least one character, which may turn out to stand for nothing. -/
def identifier (s : Settings) (p : Place) : Except Fault (List Char) × Place :=
  if p.atEnd then (.error (.unexpectedEnd "identifier" p.location), p)
  else if p.goesOn s then p.spelling s
  else (.error (.unexpectedToken "identifier" (p.peek 5 0) p.location), p)

/-- The characters up to one that ends the text, with their escapes resolved. -/
def textUpTo (s : Settings) (ends : Char → Bool) (p : Place) : Except Fault (List Char) × Place :=
  match _hr : p.rest with
  | [] => (.ok [], p)
  | c :: _ =>
    if ends c then (.ok [], p)
    else
      match _hq : p.piece s with
      | (.ok piece, q) =>
        let (more, r) := q.textUpTo s ends
        (more.map (piece.toChars ++ ·), r)
      | (.error e, q) => (.error e, q)
termination_by p.rest.length
decreasing_by
  have := piece_rest (s := s) (p := p) (by simp [_hr])
  rwa [_hq] at this

end Place

namespace Read

/-- Takes one character with its escape resolved, if it can go on an identifier where that is asked for. -/
def character? (forIdentifier : Bool) : Read (Option Piece) := do
  if forIdentifier && !(← place).goesOn (← get).settings then return none
  else return some (← move Place.piece)

/-- Takes an identifier, in lower case if case does not count. -/
def identifier (ignoreCase : Bool) : Read String := do
  let text := String.ofList (← move Place.identifier)
  return if ignoreCase then Text.lower text else text

end Read

end Stylesheet
