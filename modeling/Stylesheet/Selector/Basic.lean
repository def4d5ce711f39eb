import Stylesheet.Source.Fault
import Stylesheet.Text.Blank

namespace Stylesheet

/-- A selector such as `div.note > p`. -/
structure Selector where
  text : String
  deriving DecidableEq

namespace Selector

/-- The selector with this text, blanks at either end aside, whatever it holds. -/
def ofText (text : String) : Selector := ⟨Text.trim text⟩

/-- A character that can stand in a selector outside quotes and escapes; a percent sign only in a keyframe. -/
def isSelectorChar (keyframe : Bool) (c : Char) : Bool :=
  c.isAlphanum || (0xA0 ≤ c.toNat && c.toNat ≤ 0xFFFF) || Text.isBlank c ||
    "_^$|*=~[]()-.:#+>".toList.contains c || (keyframe && c == '%')

/-- Whether the characters can go on a selector, inside a quoted text or not, at a depth of parentheses. A comma
needs parentheses around it; a quote must be closed, and nothing is an escape inside it. -/
def validFrom (keyframe : Bool) : Option Char → Nat → List Char → Bool
  | quote, _, [] => quote.isNone
  | some q, depth, c :: rest => validFrom keyframe (if c = q then none else some q) depth rest
  | none, depth, c :: rest =>
    if c = '\\' then
      match rest with
      | [] => false
      | _ :: rest => validFrom keyframe none depth rest
    else if c = '"' || c = '\'' then validFrom keyframe (some c) depth rest
    else if c = '(' then validFrom keyframe none (depth + 1) rest
    else if c = ')' then validFrom keyframe none (depth - 1) rest
    else if (c = ',' && 0 < depth) || isSelectorChar keyframe c then validFrom keyframe none depth rest
    else false

/-- Whether a text can be a selector. It must not be blank. -/
def isValid (text : String) (keyframe : Bool) : Bool :=
  !(Text.trim text).isEmpty && validFrom keyframe none 0 text.toList

/-- The selector with this text, if it can be one; the fault is at `location`. -/
def parse (text : String) (keyframe : Bool) (location : Location) : Except Fault Selector :=
  if isValid text keyframe then .ok (ofText text)
  else .error (.unexpectedToken "a valid selector" (Text.trim text) location)

end Selector

end Stylesheet
