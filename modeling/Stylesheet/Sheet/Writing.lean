import Stylesheet.RuleSet.Writing
import Stylesheet.Sheet.Basic
import Stylesheet.Source.Fault
import Stylesheet.Source.Journal

namespace Stylesheet

/-- A blank before text that is not empty. -/
def spaced (text : String) : String := if text.isEmpty then "" else " " ++ text

/-- The fault of a style rule without selectors. -/
def StyleRule.bareFault (r : StyleRule) : Fault :=
  .unwritable "declaration block without selectors" (r.rules.position.map Position.line)

def StyleRule.toCss (f : Layout) (r : StyleRule) : Except Fault String :=
  if r.selectors.isEmpty then .error r.bareFault
  else
    .ok (f.leading r.rules.comments ++ f.inserts.beforeStyleRule ++
      String.intercalate f.selectorComma (r.selectors.map Selector.text) ++ f.inserts.afterSelectors ++
      f.beforeBrace ++ "\x7b" ++ r.rules.toCss f ++ "\x7d" ++ f.inserts.afterStyleRule)

/-- The texts in a body as one text, with the comments behind the last statement. `f` is the layout of the body,
one level deeper than its owner; a body in braces ends with the spacing at the level of the owner. -/
def Body.arrange (f : Layout) (closing : String) (trailing : List Comment) (texts : List String) : String :=
  let all :=
    if f.comments && !trailing.isEmpty then
      texts ++ [String.intercalate f.betweenBlocks (trailing.map Comment.toCss)]
    else texts
  if all.isEmpty then "" else f.beforeBlocks ++ String.intercalate f.betweenBlocks all ++ closing

mutual

/-- The text of a statement. -/
def Statement.toCss (f : Layout) : Statement → Except Fault String
  | .style r => r.toCss f
  | .descriptors name args rules =>
    .ok (f.leading rules.comments ++ "@" ++ name ++ spaced args ++ f.beforeBrace ++ "\x7b" ++ rules.toCss f ++ "\x7d")
  | .grouping name args ⟨ss, _, cs, ts⟩ =>
    (Statement.texts f.deeper ss).map fun texts =>
      f.leading cs ++ f.inserts.beforeGroupingRule ++ "@" ++ name ++ spaced args ++ f.beforeBrace ++ "\x7b" ++
        Body.arrange f.deeper f.afterBlocks ts texts ++ "\x7d" ++ f.inserts.afterGroupingRule
  | .keyframes name animation ⟨ss, _, cs, ts⟩ =>
    (Statement.texts f.deeper ss).map fun texts =>
      f.leading cs ++ "@" ++ name ++ " " ++ animation ++ f.beforeBrace ++ "\x7b" ++
        Body.arrange f.deeper f.afterBlocks ts texts ++ "\x7d"
  | .imports url media _ cs =>
    .ok (f.leading cs ++ "@import " ++ url.toCss f ++ (media.map (" " ++ ·)).getD "" ++ ";")
  | .charset encoding _ cs => .ok (f.leading cs ++ "@charset " ++ encoding.toCss f ++ ";")
  | .naming abbreviation url _ cs =>
    .ok (f.leading cs ++ "@namespace " ++ (abbreviation.map (· ++ " ")).getD "" ++ url.toCss f ++ ";")
termination_by structural s => s

/-- The texts of statements, without those that cannot be written if the layout ignores faults. -/
def Statement.texts (f : Layout) : List Statement → Except Fault (List String)
  | [] => .ok []
  | s :: ss =>
    match s.toCss f with
    | .ok text => (Statement.texts f ss).map (text :: ·)
    | .error e => if f.ignoreFaults then Statement.texts f ss else .error e
termination_by structural ss => ss

end

mutual

/-- The style rules without selectors in a statement, keyframes included. -/
def Statement.bareRules : Statement → List StyleRule
  | .style r => if r.selectors.isEmpty then [r] else []
  | .grouping _ _ ⟨ss, _, _, _⟩ => Statement.bareRulesOf ss
  | .keyframes _ _ ⟨ss, _, _, _⟩ => Statement.bareRulesOf ss
  | .descriptors .. => []
  | .imports .. => []
  | .charset .. => []
  | .naming .. => []
termination_by structural s => s

def Statement.bareRulesOf : List Statement → List StyleRule
  | [] => []
  | s :: ss => s.bareRules ++ Statement.bareRulesOf ss
termination_by structural ss => ss

end

/-- What the journal says of the rules that are left out. -/
def Statement.omissionNotes (f : Layout) (ss : List Statement) : List Note :=
  if f.ignoreFaults then
    (Statement.bareRulesOf ss).map fun _ =>
      ⟨.debug, "Skipping unrenderable node: declaration block without selectors"⟩
  else []

/-- What the journal says when a statement is written on its own: only what stands in its body can be left out. -/
def Statement.notes (f : Layout) (s : Statement) : List Note :=
  (s.body?.map fun b => Statement.omissionNotes f b.contents).getD []

/-- The text of a sheet. -/
def Sheet.toCss (f : Layout) (b : Sheet) : Except Fault String :=
  (Statement.texts f b.contents).map fun texts => f.leading b.comments ++ Body.arrange f "" b.trailing texts

end Stylesheet
