import Stylesheet.Selector.Basic
import Stylesheet.Text.Word

namespace Stylesheet.Selector

/-- Whether `c` is the small letter `a` but for case, the signs for Kelvin and the long s included. -/
def foldsTo (a c : Char) : Bool :=
  c.toLower == a || (a == 'k' && c == '\u212A') || (a == 's' && c == '\u017F')

/-- Whether `rest` starts with a word of small letters and dashes but for case. -/
def startsWord : (word rest : List Char) → Bool
  | [], _ => true
  | _ :: _, [] => false
  | a :: word, c :: rest => foldsTo a c && startsWord word rest

def pseudoClasses : List String :=
  ["link", "visited", "active", "hover", "focus", "lang", "target", "enabled", "disabled", "checked",
    "indeterminate", "root", "nth-child", "nth-last-child", "nth-of-type", "nth-last-of-type", "first-child",
    "last-child", "first-of-type", "last-of-type", "only-child", "only-of-type", "empty", "contains"]

def pseudoElements : List String := ["after", "before", "first-letter", "first-line", "selection"]

/-- The length of the first of `words` that `rest` starts with, or zero. -/
def wordLength (words : List String) (rest : List Char) : Nat :=
  match words.find? fun w => startsWord w.toList rest with
  | some w => w.length
  | none => 0

/-- The length of a sign with what must follow it, or zero if nothing does. -/
def behind (sign length : Nat) : Nat := if length = 0 then 0 else sign + length

/-- The length of the run of word characters that `rest` starts with. -/
def runLength (rest : List Char) : Nat := (rest.takeWhile Text.isWord).length

/-- The length of the class, attribute or pseudo-class at the start of a text, or zero. -/
def classLength : List Char → Nat
  | '.' :: rest => behind 1 (runLength rest)
  | '[' :: rest => behind 1 (runLength rest)
  | ':' :: rest => behind 1 (wordLength pseudoClasses rest)
  | _ => 0

/-- A character that combines simple selectors. -/
def isCombinator (c : Char) : Bool := Text.isBlank c || c == '+' || c == '>' || c == '~'

/-- The length of the element at the start of a text with the combinators before it, or of the pseudo-element
there, or zero. An element without combinators can only stand first of all. -/
def elementLength (first : Bool) (rest : List Char) : Nat :=
  let combinators := (rest.takeWhile isCombinator).length
  let name := runLength (rest.drop combinators)
  if name ≠ 0 && (first || combinators ≠ 0) then combinators + name
  else
    match rest with
    | ':' :: ':' :: rest => behind 2 (wordLength pseudoElements rest)
    | ':' :: rest => behind 1 (wordLength pseudoElements rest)
    | _ => 0

/-- Counts what `lengthAt` finds from left to right without overlap; its flag is set at the start of the text. -/
def count (lengthAt : Bool → List Char → Nat) (first : Bool) (text : List Char) : Nat :=
  match _h : text with
  | [] => 0
  | _ :: rest =>
    match lengthAt first text with
    | 0 => count lengthAt false rest
    | n + 1 => 1 + count lengthAt false (rest.drop n)
termination_by text.length
decreasing_by all_goals (subst _h; simp only [List.length_drop, List.length_cons]; omega)

/-- Counted in the text: 100 for an id, 10 for a class, an attribute or a pseudo-class, 1 for an element or a
pseudo-element. -/
def specificity (s : Selector) : Nat :=
  let text := s.text.toList
  100 * text.count '#' + 10 * count (fun _ => classLength) true text + count elementLength true text

end Stylesheet.Selector
