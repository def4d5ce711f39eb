import Stylesheet.Proofs.Progress
import Stylesheet.Proofs.Recurrence

namespace Stylesheet.Value

open Read (Advances SameIn Steady)

variable {R : Region} {nested nested' : List Separator → Read Value} {inner inner' : Read Value}

section Arguments

theorem readArguments_same (hn : ∀ order, SameIn R (nested order) (nested' order)) :
    SameIn R (readArguments nested) (readArguments nested') :=
  .next (fun _ => gap_steadyWhole.discard) fun _ => .here fun _ => .ite (.refl _) (.bindLeft (hn _) _)

variable (hn : ∀ order, SameIn R.behind (nested order) (nested' order))

include hn

theorem readFunction_same (ignoreCase : Bool) :
    SameIn R (readFunction nested ignoreCase) (readFunction nested' ignoreCase) := by
  refine .here fun p => .first (Advances.identifier _) fun name => ?_
  exact .next (fun _ => (Steady.literal _).discard) fun _ => .bindLeft (readArguments_same hn) _

theorem readParenthesized_same : SameIn R (readParenthesized nested) (readParenthesized nested') :=
  .here fun _ => .first (Advances.literal (by decide)).discard fun _ => .bindLeft (readArguments_same hn) _

theorem readFilter_same : SameIn R (readFilter nested) (readFilter nested') :=
  .here fun _ => .first (.upToBehind _) fun _ => .bindLeft (hn _) _

end Arguments

section Operands

theorem readToken_same (hi : SameIn R inner inner') (depth : Nat) (afterOperand : Bool) :
    SameIn R (readToken inner depth afterOperand) (readToken inner' depth afterOperand) :=
  .here fun _ => .ite (.refl _) (.ite (.refl _) (.ite (.refl _) (.bindLeft hi _)))

theorem readTokens_same (hi : SameIn R inner inner') (steady : ∀ text, SteadyPart text inner) (n depth : Nat)
    (afterOperand : Bool) :
    SameIn R (readTokens inner n depth afterOperand) (readTokens inner' n depth afterOperand) := by
  induction n using Nat.strongRecOn generalizing depth afterOperand with
  | ind n ih =>
    rw [readTokens, readTokens]
    refine .here fun p => .ite (.refl _) (.ite (.refl _) (.next (fun _ => gap_steadyWhole.discard) fun _ => ?_))
    have token (text : List Char) := (readToken_steady (steady text) depth afterOperand).whole
    refine .bind (readToken_same hi depth afterOperand) token fun next => ?_
    obtain ⟨_, depth, afterOperand⟩ := next
    refine .next (fun _ => gap_steadyWhole.discard) fun _ => ?_
    exact .bindLeft (.shorter fun m hm => ih m hm depth afterOperand) _

theorem readCalculation_same (hi : SameIn R.behind inner inner') (steady : ∀ text, SteadyPart text inner) :
    SameIn R (readCalculation inner) (readCalculation inner') := by
  refine .here fun p => .first (Advances.identifier _) fun name => .here fun q => .ite .throwBind ?_
  refine .next (fun _ => .skip 1) fun _ => .next (fun _ => .left) fun n => ?_
  exact .bindLeft (readTokens_same hi steady n 0 false) _

end Operands

section Channels

variable {word word' : Read Value}

theorem readChannel_same (hw : SameIn R word word') (s : ColorState) :
    SameIn R (readChannel word s) (readChannel word' s) :=
  .here fun _ => .ite (.bindLeft hw _) (.refl _)

theorem readChannels_same (hw : SameIn R word word') (steady : ∀ text, SteadyPart text word) (optional first : Bool)
    (s : ColorState) (keys : List Char) :
    SameIn R (readChannels word optional first s keys) (readChannels word' optional first s keys) := by
  induction keys generalizing first s with
  | nil => exact .refl _
  | cons key keys ih =>
    refine .next (fun _ => gap_steadyWhole.discard) fun _ => ?_
    have channel (text : List Char) := (readChannel_steady (steady text) s).whole
    refine .bind (readChannel_same hw s) channel fun next => ?_
    obtain ⟨v, s⟩ := next
    refine .next (fun _ => gap_steadyWhole.discard) fun _ => .here fun p => .ite (.refl _) ?_
    exact .next (fun _ => (readBetween_steady _ _).whole) fun _ => .bindLeft (ih false _) _

theorem readColorFunction_same (hw : SameIn R.behind word word') (steady : ∀ text, SteadyPart text word) :
    SameIn R (readColorFunction word) (readColorFunction word') := by
  refine .here fun p => .first (Advances.identifier _) fun name => .next (fun _ => gap_steadyWhole.discard) fun _ => ?_
  exact .next (fun _ => (Steady.literal _).discard) fun _ => .bindLeft (readChannels_same hw steady _ _ _ _) _

theorem readColor_same (hw : SameIn R.behind word word') (steady : ∀ text, SteadyPart text word) :
    SameIn R (readColor word) (readColor word') :=
  .here fun _ => .ite (.refl _) (readColorFunction_same hw steady)

end Channels

section Forms

variable (hn : ∀ order, SameIn R.behind (nested order) (nested' order)) (hi : SameIn R.behind inner inner')
  (nestedSteady : ∀ order text, SteadyPart text (nested order)) (innerSteady : ∀ text, SteadyPart text inner)

include hn hi innerSteady

theorem readCall_same (ignoreCase : Bool) (name : String) :
    SameIn R (readCall nested inner ignoreCase name) (readCall nested' inner' ignoreCase name) :=
  .ite (.refl _) (.ite (readCalculation_same hi innerSteady) (readFunction_same hn ignoreCase))

/-- A call goes back to its name, and no farther. -/
theorem readWord_same (ignoreCase : Bool) :
    SameIn R (readWord nested inner ignoreCase) (readWord nested' inner' ignoreCase) := by
  intro r hr
  rw [outcome_readWord, outcome_readWord]
  rcases named : (Read.identifier ignoreCase).outcome r with ⟨e | name, s⟩
  · rfl
  · dsimp only
    split
    · rfl
    · have passed := (Steady.identifier _ : SteadyWhole r.place.text _).reaches named
      exact readCall_same hn hi innerSteady ignoreCase name _ (R.lasts r _ hr ⟨passed.settings, .refl _ _⟩)

include nestedSteady

theorem readForm_same (lenient : Bool) (p : Place) :
    SameIn R (readForm nested inner lenient p) (readForm nested' inner' lenient p) := by
  have color : SameIn R.behind (readWord nested inner true) (readWord nested' inner' true) :=
    readWord_same (fun order => (hn order).behind) hi.behind innerSteady true
  have steady (text : List Char) : SteadyPart text (readWord nested inner true) :=
    readWord_steady (fun order => nestedSteady order text) (innerSteady text) true
  have bare :
      SameIn R (readWordOrSign (readWord nested inner false)) (readWordOrSign (readWord nested' inner' false)) := by
    intro r hr
    rw [outcome_readWordOrSign, outcome_readWordOrSign, readWord_same hn hi innerSteady false r hr]
  refine .ite (.refl _) (.ite (readColor_same color steady) (.ite (.refl _) (.ite (readFilter_same hn) ?_)))
  exact .ite (.refl _) (.ite (.refl _) (.ite (readParenthesized_same hn) bare))

theorem readPrimitiveWith_same :
    SameIn R (readPrimitiveWith nested inner) (readPrimitiveWith nested' inner') := by
  rw [readPrimitiveWith_eq, readPrimitiveWith_eq]
  refine .next (fun _ => gap_steadyWhole.discard) fun _ => .here fun p => .asking fun lenient => ?_
  exact .bindLeft (readForm_same hn hi nestedSteady innerSteady lenient p) _

end Forms

section Lists

variable {primitive primitive' : Read Value} (hp : SameIn R primitive primitive')
  (steady : ∀ text, SteadyPart text primitive)

include hp steady

theorem readMore_same (order : List Separator) (n : Nat) :
    SameIn R (readMore primitive order n) (readMore primitive' order n) := by
  induction n using Nat.strongRecOn with
  | ind n ih =>
    rw [readMore, readMore]
    refine .asking fun lenient => .here fun p => .ite (.refl _) ?_
    refine .next (fun _ => (readSeparator_steady order).whole) fun s => .bind hp (fun _ => (steady _).whole) fun v => ?_
    exact .next (fun _ => gap_steadyWhole.discard) fun _ => .bindLeft (.shorter fun m hm => ih m hm) _

theorem readWith_same (order : List Separator) : SameIn R (readWith primitive order) (readWith primitive' order) := by
  refine .here fun start => .next (fun _ => gap_steadyWhole.discard) fun _ => .here fun p => .asking fun lenient => ?_
  refine .ite .throwBind (.bind hp (fun _ => (steady _).whole) fun first => ?_)
  refine .next (fun _ => gap_steadyWhole.discard) fun _ => .next (fun _ => .left) fun n => ?_
  exact .bindLeft (readMore_same hp steady order n) _

end Lists

/-- What readers of values are used for inside one another. -/
inductive Form
  | primitive
  | list (order : List Separator)
  | word (ignoreCase : Bool)
  | color
  | colorFunction
  | function (ignoreCase : Bool)
  | parenthesized
  | calculation
  | filter

namespace Form

/-- Takes a value of the form, given the readers for what may stand inside it. -/
def readWith (nested : List Separator → Read Value) (inner : Read Value) : Form → Read Value
  | primitive => readPrimitiveWith nested inner
  | list order => Value.readWith (readPrimitiveWith nested inner) order
  | word ignoreCase => readWord nested inner ignoreCase
  | color => readColor (readWord nested inner true)
  | colorFunction => readColorFunction (readWord nested inner true)
  | function ignoreCase => readFunction nested ignoreCase
  | parenthesized => readParenthesized nested
  | calculation => readCalculation inner
  | filter => readFilter nested

/-- Takes a value of the form, with the readers for the characters that are left. -/
def read : Form → Read Value
  | primitive => readPrimitive
  | list order => Value.read order
  | word ignoreCase => readWordHere ignoreCase
  | color => readColorHere
  | colorFunction => do
    let n ← Read.left
    readColorFunction (readWord (nestedIn n) (innerIn n) true)
  | function ignoreCase => readFunctionHere ignoreCase
  | parenthesized => do readParenthesized (nestedIn (← Read.left))
  | calculation => readCalculationHere
  | filter => do readFilter (nestedIn (← Read.left))

/-- Takes a value of the form, where the values inside it are taken by `again`. -/
def step (again : Form → Read Value) (form : Form) : Read Value :=
  form.readWith (fun order => again (list order)) (again primitive)

theorem outcome_read (form : Form) (r : Reader) :
    form.read.outcome r = (form.readWith (nestedIn r.place.rest.length) (innerIn r.place.rest.length)).outcome r := by
  have bounded (n : Nat) : readPrimitiveIn n = readPrimitiveWith (nestedIn n) (innerIn n) := by
    rw [readPrimitiveIn]
    rfl
  cases form with
  | primitive => rw [read, readPrimitive, Read.outcome_left_bind, bounded, readWith]
  | list => rw [read, Value.read, Read.outcome_left_bind, bounded, readWith]
  | word => rw [read, readWordHere, Read.outcome_left_bind, readWith]
  | color => rw [read, readColorHere, Read.outcome_left_bind, readWith]
  | colorFunction => rw [read, Read.outcome_left_bind, readWith]
  | function => rw [read, readFunctionHere, Read.outcome_left_bind, readWith]
  | parenthesized => rw [read, Read.outcome_left_bind, readWith]
  | calculation => rw [read, readCalculationHere, Read.outcome_left_bind, readWith]
  | filter => rw [read, Read.outcome_left_bind, readWith]

theorem readWith_same (hn : ∀ order, SameIn R.behind (nested order) (nested' order))
    (hi : SameIn R.behind inner inner') (nestedSteady : ∀ order text, SteadyPart text (nested order))
    (innerSteady : ∀ text, SteadyPart text inner) (form : Form) :
    SameIn R (form.readWith nested inner) (form.readWith nested' inner') := by
  have word : SameIn R.behind (readWord nested inner true) (readWord nested' inner' true) :=
    readWord_same (fun order => (hn order).behind) hi.behind innerSteady true
  have wordSteady (text : List Char) : SteadyPart text (readWord nested inner true) :=
    readWord_steady (fun order => nestedSteady order text) (innerSteady text) true
  have single := readPrimitiveWith_same hn hi nestedSteady innerSteady
  cases form with
  | primitive => exact single
  | list order =>
    refine Value.readWith_same single (fun text => ?_) order
    exact readPrimitiveWith_steady (fun order => nestedSteady order text) (innerSteady text)
  | word ignoreCase => exact readWord_same hn hi innerSteady ignoreCase
  | color => exact readColor_same word wordSteady
  | colorFunction => exact readColorFunction_same word wordSteady
  | function ignoreCase => exact readFunction_same hn ignoreCase
  | parenthesized => exact readParenthesized_same hn
  | calculation => exact readCalculation_same hi innerSteady
  | filter => exact readFilter_same hn

/-- Values are read by recursion: arguments and operands begin behind some of the text. -/
theorem recurs : Read.Recurs step read := by
  refine .of_descends fun again r form same => ?_
  have nested (order : List Separator) :
      SameIn (Region.ahead r).behind (nestedIn r.place.rest.length order) (again (list order)) := by
    refine .of_passes fun s passes => ?_
    rw [nestedIn, Read.outcome_shorter, dif_pos passes.shorter, ← same (list order) s passes, read, Value.read,
      Read.outcome_left_bind]
  have inner : SameIn (Region.ahead r).behind (innerIn r.place.rest.length) (again primitive) := by
    refine .of_passes fun s passes => ?_
    rw [innerIn, Read.outcome_shorter, dif_pos passes.shorter, ← same primitive s passes, read, readPrimitive,
      Read.outcome_left_bind]
  rw [outcome_read, step]
  exact readWith_same nested inner (fun order _ => nestedIn_steady _ order) (fun _ => innerIn_steady _) form r (.refl r)

end Form

end Stylesheet.Value
