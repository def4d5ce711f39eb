import Stylesheet.Selector.Split
import Stylesheet.Sheet.Equality
import Stylesheet.Source.Journal

namespace Stylesheet

namespace Body

def size (b : Body α) : Nat := b.contents.length

def append (a : α) (b : Body α) : Body α := { b with contents := b.contents ++ [a] }

def prepend (a : α) (b : Body α) : Body α := { b with contents := a :: b.contents }

/-- Puts `a` before the index, or behind all others if there is nothing at the index. -/
def insertBefore (a : α) (i : Nat) (b : Body α) : Body α :=
  if i < b.size then { b with contents := b.contents.insertIdx i a } else b.append a

/-- What the journal says of an insertion at an index where nothing is. -/
def insertionNotes (i : Nat) (b : Body α) : List Note :=
  if i < b.size then [] else [⟨.debug, "Sibling " ++ toString i ++ " not in list, appending instead"⟩]

/-- Puts `replacement` in the place of `length` things from `offset` on, or of all of them, and yields what was
there. -/
def splice (offset : Nat) (length : Option Nat) (replacement : List α) (b : Body α) : List α × Body α :=
  let before := b.contents.take offset
  let after := b.contents.drop offset
  let n := length.getD after.length
  (after.take n, { b with contents := before ++ replacement ++ after.drop n })

/-- Puts `replacement` in the place of the thing at an index. -/
def replace (i : Nat) (replacement : List α) (b : Body α) : Option α × Body α :=
  if i < b.size then
    (b.contents[i]?, { b with contents := b.contents.take i ++ replacement ++ b.contents.drop (i + 1) })
  else (none, b)

/-- Takes out the thing at an index. -/
def remove (i : Nat) (b : Body α) : Option α × Body α :=
  (b.contents[i]?, { b with contents := b.contents.eraseIdx i })

/-- Takes out the first thing that equals `a`, and tells whether there was one. -/
def removeItem [BEq α] (a : α) (b : Body α) : Bool × Body α :=
  match b.contents.findIdx? (· == a) with
  | some i => (true, { b with contents := b.contents.eraseIdx i })
  | none => (false, b)

end Body

namespace Sheet

/-- Whether a statement is a style rule with just these selectors. -/
def hasSelectors (selectors : List Selector) (s : Statement) : Bool :=
  s.style?.any fun r => r.selectors == selectors

/-- Takes out the style rules with these selectors, only the first one unless `all`, and counts them. -/
def removeStyleRules (selectors : List Selector) (all : Bool) (b : Sheet) : Nat × Sheet :=
  if all then
    (b.contents.countP (hasSelectors selectors),
      { b with contents := b.contents.filter fun s => !hasSelectors selectors s })
  else
    match b.contents.findIdx? (hasSelectors selectors) with
    | some i => (1, { b with contents := b.contents.eraseIdx i })
    | none => (0, b)

/-- Takes out style rules by the text of their selectors. -/
def removeStyleRulesOf (text : String) (all : Bool) (b : Sheet) : Except Fault (Nat × Sheet) :=
  (Selector.parseList text false .none).map fun selectors => b.removeStyleRules selectors all

end Sheet

namespace StyleRule

/-- The rule with the selectors in a text. -/
def withSelectorText (text : String) (keyframe : Bool) (location : Location) (r : StyleRule) :
    Except Fault StyleRule :=
  (Selector.parseList text keyframe location).map fun selectors => { r with selectors := selectors }

/-- Takes out the first selector with this text, blanks at its ends aside. -/
def removeSelector (text : String) (r : StyleRule) : Bool × StyleRule :=
  match r.selectors.findIdx? (· == Selector.ofText text) with
  | some i => (true, { r with selectors := r.selectors.eraseIdx i })
  | none => (false, r)

end StyleRule

end Stylesheet
