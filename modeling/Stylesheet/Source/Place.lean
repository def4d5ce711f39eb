import Stylesheet.Source.Comment
import Stylesheet.Text.Blank
import Stylesheet.Text.LetterCase

namespace Stylesheet

/-- A place in a text that is being read: `passed` holds the characters behind it, the latest first. -/
structure Place where
  passed : List Char
  rest : List Char
  line : Nat
  column : Nat
  deriving DecidableEq

namespace Place

/-- The start of a text whose first line has the number `line`. -/
def start (text : List Char) (line : Nat) : Place := ⟨[], text, line, 0⟩

def offset (p : Place) : Nat := p.passed.length

def position (p : Place) : Position := ⟨p.line, p.column⟩

def location (p : Place) : Location := ⟨p.line, p.column, p.offset⟩

def atEnd (p : Place) : Bool := p.rest.isEmpty

/-- One character on. A line feed starts a line, any other character takes `width` columns. -/
def next (width : Char → Nat) (p : Place) : Place :=
  match p.rest with
  | [] => p
  | c :: rest =>
    if c = '\n' then ⟨c :: p.passed, rest, p.line + 1, 0⟩
    else ⟨c :: p.passed, rest, p.line, p.column + width c⟩

/-- `n` characters on, or fewer where the text ends before. -/
def forward (width : Char → Nat) : Nat → Place → Place
  | 0, p => p
  | n + 1, p => forward width n (p.next width)

/-- The end of the text. -/
def toEnd (width : Char → Nat) (p : Place) : Place := p.forward width p.rest.length

@[simp] theorem next_rest (width : Char → Nat) (p : Place) : (p.next width).rest = p.rest.tail := by
  unfold next
  split
  · next h => simp [h]
  · next h => split <;> simp [h]

@[simp] theorem forward_rest (width : Char → Nat) (n : Nat) (p : Place) :
    (p.forward width n).rest = p.rest.drop n := by
  induction n generalizing p with
  | zero => rfl
  | succ n ih => simp [forward, ih]

/-- The whole text, of which a place is a point. -/
def text (p : Place) : List Char := p.passed.reverse ++ p.rest

@[simp] theorem next_text (width : Char → Nat) (p : Place) : (p.next width).text = p.text := by
  unfold next
  split
  · rfl
  · next c rest h => split <;> simp [text, h]

@[simp] theorem forward_text (width : Char → Nat) (n : Nat) (p : Place) :
    (p.forward width n).text = p.text := by
  induction n generalizing p with
  | zero => rfl
  | succ n ih => simp [forward, ih]

theorem forward_add (width : Char → Nat) (m n : Nat) (p : Place) :
    p.forward width (m + n) = (p.forward width m).forward width n := by
  induction m generalizing p with
  | zero => simp [forward]
  | succ m ih => rw [Nat.succ_add]; exact ih (p.next width)

/-- The character `i` places from here, also backwards. -/
def charAt (p : Place) : Int → Option Char
  | .ofNat i => p.rest[i]?
  | .negSucc i => p.passed[i]?

/-- Up to `n` characters from `i` places away; nothing if that lies before the text. -/
def peek (p : Place) (n : Nat) : Int → String
  | .ofNat i => String.ofList ((p.rest.drop i).take n)
  | .negSucc i =>
    if i < p.passed.length then String.ofList (((p.passed.take (i + 1)).reverse ++ p.rest).take n)
    else ""

/-- Whether the text goes on with `literal`, which is not empty. -/
def comes (p : Place) (literal : String) : Bool :=
  !literal.toList.isEmpty && literal.toList.isPrefixOf p.rest

/-- Whether `word` stands at the start of `rest` but for case. -/
def startsWith : (word rest : List Char) → Bool
  | [], _ => true
  | _ :: _, [] => false
  | a :: word, c :: rest => Text.sameLetter c a && startsWith word rest

/-- Whether the text goes on with `literal`, which is not empty, in any case. -/
def comesAnyCase (p : Place) (literal : String) : Bool :=
  !literal.toList.isEmpty && startsWith literal.toList p.rest

/-- What stands before the first `*/`, if there is one. -/
def commentBody? : List Char → Option (List Char)
  | [] => none
  | '*' :: '/' :: _ => some []
  | c :: rest => (commentBody? rest).map (c :: ·)

/-- What a place says about comments: none begins here, one begins that never ends, or a whole one stands here. -/
inductive Opening
  | absent
  | unclosed
  | whole (comment : Comment) (behind : Place)

/-- The comment that begins at a place. -/
def opening (width : Char → Nat) (p : Place) : Opening :=
  match p.rest with
  | '/' :: '*' :: rest =>
    match commentBody? rest with
    | none => .unclosed
    | some body => .whole ⟨String.ofList body, some p.position⟩ (p.forward width (body.length + 4))
  | _ => .absent

theorem opening_rest {width : Char → Nat} {p q : Place} {c : Comment}
    (h : p.opening width = .whole c q) : q.rest.length < p.rest.length := by
  unfold opening at h
  split at h
  · next rest hr =>
    split at h
    · exact nomatch h
    · cases h
      simp only [forward_rest, List.length_drop, hr, List.length_cons]
      omega
  · exact nomatch h

/-- Past blanks: the place of the first character that is not blank. -/
def pastBlanks (width : Char → Nat) (p : Place) : Place :=
  p.forward width (p.rest.takeWhile Text.isBlank).length

theorem pastBlanks_rest_length (width : Char → Nat) (p : Place) :
    (p.pastBlanks width).rest.length ≤ p.rest.length := by
  simp [pastBlanks]

/-- Past blanks and comments: the comments, the place behind them, and whether the comment there is unclosed. -/
def pastGap (width : Char → Nat) (p : Place) : List Comment × Place × Bool :=
  match _h : (p.pastBlanks width).opening width with
  | .absent => ([], p.pastBlanks width, false)
  | .unclosed => ([], p.pastBlanks width, true)
  | .whole c q =>
    let (cs, r, unclosed) := q.pastGap width
    (c :: cs, r, unclosed)
termination_by p.rest.length
decreasing_by exact Nat.lt_of_lt_of_le (opening_rest _h) (pastBlanks_rest_length width p)

/-- How a search for a stop ends: at one, at the end of the text, or in a comment that never ends. -/
inductive Halt
  | found
  | exhausted
  | unclosed
  deriving DecidableEq

/-- What a search passed over: plain text and comments, the place reached and why it is there. -/
structure Run where
  text : List Char
  comments : List Comment
  place : Place
  halt : Halt

/-- Everything up to the first of `stops`. A comment is looked for behind every character taken, so one right at
the start counts as text. -/
def upTo (width : Char → Nat) (stops : List Char) (p : Place) : Run :=
  match _hr : p.rest with
  | [] => ⟨[], [], p, .exhausted⟩
  | c :: _ =>
    if c ∈ stops then ⟨[], [], p, .found⟩
    else
      match _h : (p.next width).opening width with
      | .absent =>
        let run := (p.next width).upTo width stops
        { run with text := c :: run.text }
      | .unclosed => ⟨[c], [], (p.next width).toEnd width, .unclosed⟩
      | .whole k q =>
        let run := q.upTo width stops
        { run with text := c :: run.text, comments := k :: run.comments }
termination_by p.rest.length
decreasing_by
  · simp [_hr]
  · have := opening_rest _h
    simp only [next_rest, _hr, List.tail_cons] at this
    simp only [_hr, List.length_cons]
    omega

end Place

end Stylesheet
