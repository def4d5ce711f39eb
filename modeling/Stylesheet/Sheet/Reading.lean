import Stylesheet.Layout.Presets
import Stylesheet.RuleSet.Reading
import Stylesheet.Selector.Split
import Stylesheet.Sheet.Basic
import Stylesheet.Sheet.Name

namespace Stylesheet

namespace Place

/-- The selector text up to the brace that opens a rule, without its comments, which are kept beside. Quoted text
and escapes are copied. Parentheses must be closed before the brace. -/
def selectorText (s : Settings) (quote : Option Char) (depth : Nat) (p : Place) :
    Except Fault (List Char × List Comment) × Place :=
  match _ho : if quote.isNone then p.opening s.width else .absent with
  | .unclosed => (.error (.unexpectedEnd "1 character" (p.toEnd s.width).location), p.toEnd s.width)
  | .whole c q =>
    let (more, r) := q.selectorText s quote depth
    (more.map fun (text, comments) => (text, c :: comments), r)
  | .absent =>
    match _hr : p.rest with
    | [] => (.error (.unexpectedEnd "`\x7b` after selectors" p.location), p)
    | c :: rest =>
      if c = '\x7b' && quote.isNone then
        if 0 < depth then (.error (.unexpectedToken "`)`" "\x7b" p.location), p)
        else (.ok ([], []), p)
      else if c = '\x7d' && quote.isNone then
        (.error (.unexpectedToken "`\x7b` after selectors" "\x7d" p.location), p)
      else if c = '\\' then
        match rest with
        | [] => (.error (.unexpectedEnd "2 characters" p.location), p)
        | d :: _ =>
          let (more, r) := (p.forward s.width 2).selectorText s quote depth
          (more.map fun (text, comments) => (c :: d :: text, comments), r)
      else if c = ')' && quote.isNone && depth = 0 then
        (.error (.unexpectedToken "a selector" ")" p.location), p)
      else
        let quote' :=
          if c = '"' || c = '\'' then
            match quote with
            | none => some c
            | some q => if q = c then none else some q
          else quote
        let depth' :=
          if quote.isSome then depth else if c = '(' then depth + 1 else if c = ')' then depth - 1 else depth
        let (more, r) := (p.next s.width).selectorText s quote' depth'
        (more.map fun (text, comments) => (c :: text, comments), r)
termination_by p.rest.length
decreasing_by
  · split at _ho
    · exact opening_rest _ho
    · exact nomatch _ho
  · simp only [forward_rest, _hr, List.length_drop, List.length_cons]
    omega
  · simp [_hr]

/-- The length of what is left of a block, its closing brace included, where `depth` blocks are open. -/
def blockLength (depth : Nat) : List Char → Nat
  | [] => 0
  | c :: rest =>
    if c = '\x7b' then blockLength (depth + 1) rest + 1
    else if c = '\x7d' then if depth ≤ 1 then 1 else blockLength (depth - 1) rest + 1
    else blockLength depth rest + 1

end Place

/-- What a body belongs to. -/
inductive Owner
  | sheet
  | grouping
  | keyframes
  deriving DecidableEq

namespace StyleRule

/-- Takes a style rule. Lenient reading leaves out a rule whose selectors cannot be read, up to the next closing
brace. -/
def read (keyframe : Bool) : Read (Option StyleRule) := do
  let p ← Read.place
  let head ← try
      let (text, comments) ← Read.move fun s q => q.selectorText s none 0
      match Selector.parseList (String.ofList text) keyframe p.location with
      | .ok selectors => pure (some (selectors, comments))
      | .error e => throw e
    catch e =>
      if (← Read.isLenient) && e.recoverable then
        Read.note .warn ("Skipping declaration block: " ++ e.message)
        discard (Read.upTo ['\x7d'] .behind true)
        pure none
      else throw e
  match head with
  | none => return none
  | some (selectors, comments) =>
    discard (Read.literal "\x7b")
    return some ⟨selectors, ← RuleSet.read p.position comments⟩

end StyleRule

namespace Statement

/-- What a statement's place in a body turns out to hold: a statement, something left out, or the closing brace. -/
inductive Item
  | statement (s : Statement)
  | omitted
  | closing

/-- Takes the text up to a semicolon, which is taken too, or up to the end. -/
def readRest : Read String := Read.upTo [';'] .behind true

/-- Takes an address and the media it is for. -/
def readImport (p : Position) : Read Statement := do
  let url ← Url.read
  discard Read.gap
  let media := Text.trim (← readRest)
  return .imports url (if media.isEmpty then none else some media) (some p) []

/-- Takes the name of a charset. -/
def readCharset (p : Position) : Read Statement := do
  let encoding ← Quoted.read
  discard Read.gap
  discard readRest
  return .charset encoding (some p) []

/-- Takes an address, perhaps behind the abbreviation that stands for it. -/
def readNaming (p : Position) : Read Statement := do
  let start ← Read.place
  let first ← Value.readPrimitive
  let url ← if first.isText then pure first else do
    discard Read.gap
    Value.readPrimitive
  if !url.isText then
    throw (.unexpectedToken "a namespace url or string" (url.toCss .compact) start.location)
  discard Read.gap
  discard readRest
  return .naming (if first.isText then none else first.keyword?) url (some p) []

/-- Takes the closing brace of a body, which may be missing at the end of the text. -/
def readClosing : Read Unit := do
  if (← Read.place).comes "\x7d" then Read.skip 1

/-- Takes keyframes, given the reader of bodies. -/
def readKeyframes (readBody : Owner → Read Sheet) (name : String) (p : Position) : Read Statement := do
  let animation ← Read.upTo ['\x7b'] .behind false
  let body ← readBody .keyframes
  readClosing
  return .keyframes name (Text.trim animation) { body with position := some p }

/-- As many opening parentheses as closing ones. -/
def balanced (text : String) : Bool := text.toList.count '(' = text.toList.count ')'

/-- Takes a rule with a block: statements in a grouping rule, declarations in any other. Lenient reading leaves
out the block if the parentheses before it do not match. -/
def readBlockRule (readBody : Owner → Read Sheet) (name : String) (p : Position) : Read (Option Statement) := do
  let location := (← Read.place).location
  let args := Text.trim (← Read.upTo ['\x7b', ';'] .before false)
  if (← Read.place).comes ";" then
    Read.skip 1
    throw (.misplaced ("@" ++ name ++ " has no block") location)
  discard (Read.literal "\x7b")
  if !balanced args then
    if !(← Read.isLenient) then
      throw (.misplaced ("Unmatched parentheses in @" ++ name ++ " arguments") location)
    Read.note .warn ("Skipping @" ++ name ++ " with unmatched parentheses at " ++ location.text)
    Read.skip (Place.blockLength 1 (← Read.place).rest)
    return none
  else if AtName.isGrouping name then
    let body ← readBody .grouping
    readClosing
    return some (.grouping name args { body with position := some p })
  else return some (.descriptors name args (← RuleSet.read p []))

/-- Takes a statement that begins with an at-sign. -/
def readAtRule (readBody : Owner → Read Sheet) : Read (Option Statement) := do
  let p := (← Read.place).position
  discard (Read.literal "@")
  let name ← Read.identifier true
  discard Read.gap
  Read.note .trace ("Parsing @" ++ name ++ " at " ++ (← Read.place).location.text)
  if name = "import" then some <$> readImport p
  else if name = "charset" then some <$> readCharset p
  else if name = "namespace" then some <$> readNaming p
  else if AtName.isKeyframes name then some <$> readKeyframes readBody name p
  else readBlockRule readBody name p

/-- Accepts the naming of a charset, which can only be the first statement of a sheet. -/
def admitCharset (owner : Owner) (first : Bool) (location : Location) (charset : String) : Read Unit := do
  if owner ≠ .sheet then throw (.misplaced "@charset may only occur in the root document" location)
  if !first then throw (.misplaced "@charset must be the first statement in a document" location)
  Read.setCharset charset

/-- Takes what stands next in a body that is not at its end; `first` tells that nothing is in it yet. -/
def readItem (readBody : Owner → Read Sheet) (owner : Owner) (first : Bool) : Read Item := do
  let p ← Read.place
  if p.comes "@" then
    match ← readAtRule readBody with
    | none => return .omitted
    | some (.charset encoding q cs) =>
      admitCharset owner first p.location encoding.text
      return .statement (.charset encoding q cs)
    | some s => return .statement s
  else if p.comes "\x7d" then
    if owner ≠ .sheet then return .closing
    else if !(← Read.isLenient) then throw (.misplaced "Unopened \x7b" p.location)
    else
      Read.note .warn ("Skipping stray `\x7d` at " ++ p.location.text)
      Read.skip 1
      return .omitted
  else
    match ← StyleRule.read (owner = .keyframes) with
    | some r => return .statement (.style r)
    | none => return .omitted

/-- The end of a body that runs to the end of the text. Only a sheet may do that, and lenient reading lets any. -/
def readEnd (owner : Owner) (pending : List Comment) : Read (List Statement × List Comment) := do
  if owner ≠ .sheet && !(← Read.isLenient) then
    throw (.unexpectedEnd "`\x7d` before end of document" (← Read.place).location)
  return ([], pending)

/-- Takes the next item and decides what a fault leads to: nothing more can be read (`none`), or the statement is
left out. At least one character is taken. -/
def readItemOrSkip (readBody : Owner → Read Sheet) (owner : Owner) (first : Bool) : Read (Option Item) := do
  let start ← Read.place
  try some <$> readItem readBody owner first
  catch e =>
    if (← Read.isLenient) && e.isEnd then
      Read.note .warn ("Stopping at end of input: " ++ e.message)
      Read.toEnd
      return none
    else if (← Read.isLenient) && e.recoverable then
      Read.note .warn ("Skipping invalid statement: " ++ e.message)
      if (← Read.place).offset = start.offset then discard (Read.take 1)
      return some .omitted
    else throw e

/-- Takes the statements of a body and the comments behind the last one, where at most `n` characters are left.
`pending` are the comments taken for the next statement. -/
def readAllIn (n : Nat) (owner : Owner) (first : Bool) (pending : List Comment) :
    Read (List Statement × List Comment) := do
  if (← Read.place).atEnd then readEnd owner pending
  else
    let pending := pending ++ (← Read.gap)
    if (← Read.place).atEnd then readEnd owner pending
    else
      let readBody (inner : Owner) : Read Sheet := do
        let (ss, cs) ← Read.shorter n (fun m _ => readAllIn m inner true []) (pure ([], []))
        return { contents := ss, trailing := cs }
      match ← readItemOrSkip readBody owner first with
      | none => return ([], pending)
      | some .closing => return ([], pending)
      | some .omitted => Read.shorter n (fun m _ => readAllIn m owner first []) (pure ([], []))
      | some (.statement s) =>
        let (ss, cs) ← Read.shorter n (fun m _ => readAllIn m owner false []) (pure ([], []))
        return (s.addComments pending :: ss, cs)
termination_by n

end Statement

namespace Sheet

/-- The text without the mark of its byte order. -/
def withoutMark (text : String) : String :=
  match text.toList with
  | '\uFEFF' :: rest => String.ofList rest
  | _ => text

/-- Takes a whole sheet. -/
def read : Read Sheet := do
  let (ss, cs) ← Statement.readAllIn (← Read.left) .sheet true []
  Read.note .debug ("Parsed stylesheet with " ++ toString ss.length ++ " top-level statements")
  return { contents := ss, position := some ⟨1, 0⟩, trailing := cs }

/-- Reads a text as a sheet, and yields the journal too, the latest note first. -/
def parse (settings : Settings) (text : String) : Except Fault Sheet × List Note :=
  let (result, reader) := read.run.run (Reader.start (withoutMark text) settings 1)
  (result, reader.journal)

end Sheet

end Stylesheet
