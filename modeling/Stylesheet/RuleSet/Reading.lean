import Stylesheet.RuleSet.Basic
import Stylesheet.Value.Reading

namespace Stylesheet

namespace Declaration

/-- Takes the characters behind backslashes that old browsers need. -/
def readHacks (n : Nat) : Read (List String) := do
  if (← Read.place).comes "\\" then
    Read.skip 1
    let hack ← Read.take 1
    discard Read.gap
    return hack :: (← Read.shorter n (fun m _ => readHacks m) (pure []))
  else return []
termination_by n

/-- Takes `!important` if an exclamation mark stands here. -/
def readImportant : Read Bool := do
  if (← Read.place).comes "!" then
    Read.skip 1
    discard Read.gap
    let p ← Read.place
    if !p.comesAnyCase "important" then throw (Read.unexpected "`important`" p 9)
    Read.skip 9
    return true
  else return false

/-- Takes semicolons, of which there may be several or none. -/
def skipSemicolons : Read Unit := do
  Read.skip ((← Read.place).rest.takeWhile (· = ';')).length

/-- Takes a declaration with the semicolons behind it; `before` are the comments already taken. Letters of a name
count in lower case, except in a name that begins with two dashes. -/
def read (before : List Comment) : Read Declaration := do
  let p ← Read.place
  let name ← Read.identifier (!p.comes "--")
  let afterName ← Read.gap
  discard (Read.literal ":")
  let value ← Value.read (Separator.ofProperty name)
  let afterValue ← Read.gap
  let hacks ← if ← Read.isLenient then readHacks (← Read.left) else pure []
  let important ← readImportant
  discard Read.gap
  skipSemicolons
  Read.note .trace ("Parsed declaration " ++ name ++ " at " ++ p.position.text)
  return ⟨name, some value, important, hacks, some p.position, before ++ afterName ++ afterValue⟩

end Declaration

namespace RuleSet

/-- Goes behind a declaration that could not be read: to the brace that closes the rule set, or behind the next
line feed or semicolons. Without any of them the rule set takes the rest of the text. -/
def recover : Read Bool := do
  try
    discard (Read.upTo ['\n', ';', '\x7d'] .before false)
    if !(← Read.place).comes "\x7d" then
      Read.skip 1
      Declaration.skipSemicolons
    return true
  catch _ =>
    Read.toEnd
    return false

/-- Takes declarations and adds them to `r`, up to the closing brace, which is taken too. -/
def readInto (r : RuleSet) (n : Nat) : Read RuleSet := do
  let comments ← Read.gap
  if (← Read.place).comes "\x7d" then
    discard (Read.literal "\x7d")
    return r
  else
    let next ← try
        let d ← Declaration.read comments
        let (i, r') := r.add d none
        modify fun reader => { reader with journal := additionNote d i :: reader.journal }
        pure (some r')
      catch e =>
        if ← Read.isLenient then
          Read.note .warn ("Skipping invalid declaration: " ++ e.message)
          if ← recover then pure (some r) else pure none
        else throw e
    match next with
    | some r' => Read.shorter n (fun m _ => readInto r' m) (pure r')
    | none => return r
termination_by n

/-- Takes the declarations of a rule set at `position` whose opening brace has been taken. -/
def read (position : Position) (comments : List Comment) : Read RuleSet := do
  Declaration.skipSemicolons
  readInto { position := some position, comments := comments } (← Read.left)

end RuleSet

end Stylesheet
