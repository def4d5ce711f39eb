import Stylesheet.Proofs.SteadyValue
import Stylesheet.Sheet.Reading

namespace Stylesheet

open Read (Steady)

variable {text : List Char} {α : Type}

/-- Steady around values, where every fault ends strict reading. -/
abbrev SteadyWhole (text : List Char) (x : Read α) : Prop := Steady (fun _ => true) text x

namespace Read.Steady

theorem whole {final : Fault → Bool} {x : Read α} (hx : Steady final text x) : SteadyWhole text x :=
  hx.mono fun _ _ => rfl

/-- A step whose faults are handled by lenient reading only. -/
theorem guarded {x : Read α} {h : Fault → Read α} (hx : SteadyWhole text x)
    (hh : ∀ e, e.located = true → SteadyWhole text (h e))
    (strict : ∀ e s, s.settings.lenient = false → (h e).outcome s = (.error e, s)) :
    SteadyWhole text (tryCatch x h) := by
  intro r hr
  refine .rescue hr (outcome_tryCatch x h r) (outcome_tryCatch x h r.relaxed) (hx r hr) ?_ ?_
  · exact fun e he s hs => hh e he s hs
  · exact fun e s _ hl => ⟨e, s, rfl, strict e s hl⟩

theorem record (n : Note) : SteadyWhole text (modify fun r => { r with journal := n :: r.journal } : Read Unit) := by
  intro r hr
  exact ⟨.still (r := r) (s := { r with journal := n :: r.journal }) rfl rfl (), fun _ _ => rfl⟩

theorem setCharset (charset : String) : SteadyWhole text (Read.setCharset charset) := by
  refine bind ?_ fun _ => .note _ _
  intro r hr
  exact ⟨.still (r := r) (s := { r with charset := charset }) rfl rfl (), fun _ _ => rfl⟩

end Read.Steady

theorem gap_steadyWhole : SteadyWhole text Read.gap := gap_steady.whole

namespace Declaration

theorem readHacks_steady (n : Nat) : SteadyWhole text (readHacks n) := by
  induction n using Nat.strongRecOn with
  | ind n ih =>
    rw [readHacks]
    refine Steady.here fun p _ => ?_
    split
    · refine (Steady.skip 1).bind fun _ => (Steady.take 1).bind fun hack => gap_steadyWhole.discard.bind fun _ => ?_
      exact (Steady.shorter (fun m hm => ih m hm) (.pure _)).bind fun hacks => .pure _
    · exact .pure _

/-- Without backslashes there are no hacks. -/
theorem outcome_readHacks {r : Reader} (h : '\\' ∉ r.place.rest) (n : Nat) :
    (readHacks n).outcome r = (.ok [], r) := by
  rw [readHacks, Read.outcome_bind, Read.outcome_place, Read.following_ok, Place.comes_backslash h rfl]
  rfl

theorem readImportant_steady : SteadyWhole text readImportant := by
  refine Steady.here fun p _ => ?_
  split
  · refine (Steady.skip 1).bind fun _ => gap_steadyWhole.discard.bind fun _ => Steady.here fun q _ => ?_
    exact Steady.orThrow rfl ((Steady.skip 9).bind fun _ => .pure _)
  · exact .pure _

theorem skipSemicolons_steady : SteadyWhole text skipSemicolons := Steady.here fun _ _ => .skip _

theorem read_steady (before : List Comment) : SteadyWhole text (read before) := by
  refine Steady.here fun p _ => (Steady.identifier _).bind fun name => gap_steadyWhole.bind fun afterName => ?_
  refine (Steady.literal _).discard.bind fun _ => (Value.read_steady _).whole.bind fun value => ?_
  refine gap_steadyWhole.bind fun afterValue => ?_
  have ending (hacks : List String) : SteadyWhole text (do
      let important ← readImportant
      discard Read.gap
      skipSemicolons
      Read.note .trace ("Parsed declaration " ++ name ++ " at " ++ p.position.text)
      return Declaration.mk name (some value) important hacks (some p.position)
        (before ++ afterName ++ afterValue)) := by
    refine readImportant_steady.bind fun important => gap_steadyWhole.discard.bind fun _ => ?_
    exact skipSemicolons_steady.bind fun _ => (Steady.note _ _).bind fun _ => .pure _
  refine Steady.asking (fun b => ?_) fun tame r hr => ?_
  · dsimp only
    split
    · exact Steady.left.bind fun n => (readHacks_steady n).bind fun hacks => ending hacks
    · exact (Steady.pure _).bind fun hacks => ending hacks
  · have noHacks := outcome_readHacks (Place.rest_unescaped (hr ▸ tame))
    simp only [if_true, Bool.false_eq_true, if_false]
    rw [Read.outcome_bind, Read.outcome_bind, Read.outcome_left, Read.following_ok, Read.outcome_bind, noHacks]
    rfl

end Declaration

namespace RuleSet

/-- Takes the text up to where a declaration can be left out. -/
def passFaulty : Read Bool := do
  discard (Read.upTo ['\n', ';', '\x7d'] .before false)
  let p ← Read.place
  if !p.comes "\x7d" then
    Read.skip 1
    Declaration.skipSemicolons
  return true

theorem outcome_recover (r : Reader) :
    recover.outcome r = Read.rescued (passFaulty.outcome r) fun _ => Read.toEnd >>= fun _ => pure false := by
  rw [recover, passFaulty]
  simp only [Read.outcome_bind, Read.outcome_tryCatch, Read.outcome_discard]
  rcases (Read.upTo ['\n', ';', '\x7d'] .before false).outcome r with ⟨e | t, s⟩
  · rfl
  · simp only [Read.following_ok, Read.outcome_pure, Read.outcome_bind, Read.outcome_place]
    split
    · rfl
    · rfl

theorem recover_steady : SteadyWhole text recover := by
  have passing : Steady (fun _ => false) text passFaulty := by
    refine (Steady.upTo _ _ _).discard.bind fun _ => Steady.here fun p _ => ?_
    split
    · refine (Steady.skip 1).bind fun _ => (Steady.here fun q _ => .skip _ : Steady _ text _).bind fun _ => .pure _
    · exact .pure _
  intro r hr
  refine .rescue hr (outcome_recover r) (outcome_recover r.relaxed) (passing r hr) ?_ ?_
  · exact fun e _ s hs => (Steady.toEnd.bind fun _ => .pure false : SteadyWhole text _) s hs
  · exact fun e s he _ => by cases he

theorem readInto_steady (r : RuleSet) (n : Nat) : SteadyWhole text (readInto r n) := by
  induction n using Nat.strongRecOn generalizing r with
  | ind n ih =>
    rw [readInto]
    refine gap_steadyWhole.bind fun comments => Steady.here fun p _ => ?_
    split
    · exact (Steady.literal _).discard.bind fun _ => .pure _
    · refine Steady.bind (Steady.guarded ?_ (fun e he => ?_) fun e s hl => ?_) fun next => ?_
      · exact (Declaration.read_steady comments).bind fun d => (Steady.record _).bind fun _ => .pure _
      · refine Steady.onlyLenient ?_ fun _ _ => ⟨e, he, rfl, rfl⟩
        refine (Steady.note _ _).bind fun _ => recover_steady.bind fun found => ?_
        split
        · exact .pure _
        · exact .pure _
      · rw [Read.outcome_bind, Read.outcome_isLenient, Read.following_ok, hl]
        rfl
      · split
        · exact .shorter (fun m hm => ih m hm _) (.pure _)
        · exact .pure _

theorem read_steady (position : Position) (comments : List Comment) :
    SteadyWhole text (read position comments) :=
  Declaration.skipSemicolons_steady.bind fun _ => Steady.left.bind fun n => readInto_steady _ n

end RuleSet

theorem Selector.located_parseList {s : String} {keyframe : Bool} {l : Location} {e : Fault}
    (h : Selector.parseList s keyframe l = .error e) : e.located = true := by
  rcases parseList_cases s keyframe with ⟨-, read⟩ | ⟨part, -, -, fails⟩
  · rw [read] at h
    cases h
  · rw [fails] at h
    cases h
    rfl

namespace StyleRule

/-- Takes the selectors of a rule, with the comments among them. -/
def readHead (keyframe : Bool) (p : Place) : Read (Option (List Selector × List Comment)) := do
  let (text, comments) ← Read.move fun s q => q.selectorText s none 0
  match Selector.parseList (String.ofList text) keyframe p.location with
  | .ok selectors => pure (some (selectors, comments))
  | .error e => throw e

/-- What the fault of selectors leads to: the rule is left out. -/
def skipRule (e : Fault) : Read (Option (List Selector × List Comment)) := do
  if (← Read.isLenient) && e.recoverable then
    Read.note .warn ("Skipping declaration block: " ++ e.message)
    discard (Read.upTo ['\x7d'] .behind true)
    pure none
  else throw e

/-- Takes the rule set behind the selectors. -/
def readRules (p : Position) : Option (List Selector × List Comment) → Read (Option StyleRule)
  | none => return none
  | some (selectors, comments) => do
    discard (Read.literal "\x7b")
    return some ⟨selectors, ← RuleSet.read p comments⟩

theorem read_eq (keyframe : Bool) : read keyframe = (do
    let p ← Read.place
    let head ← tryCatch (readHead keyframe p) skipRule
    readRules p.position head) := by
  unfold read
  refine congrArg _ (funext fun p => congrArg _ (funext fun head => ?_))
  cases head <;> rfl

theorem skipRule_strict {e : Fault} {s : Reader} (hs : s.settings.lenient = false) :
    (skipRule e).outcome s = (.error e, s) := by
  rw [skipRule, Read.outcome_bind, Read.outcome_isLenient, Read.following_ok, hs]
  rfl

theorem readHead_steady (keyframe : Bool) (p : Place) : SteadyWhole text (readHead keyframe p) := by
  refine (Steady.move (Place.moves_selectorText none 0)).bind fun ⟨taken, comments⟩ => ?_
  dsimp only
  split
  · exact .pure _
  · next hs => exact .throw (Selector.located_parseList hs)

/-- Selectors that strict reading must be able to read. -/
theorem readHeadOrSkip_steady (keyframe : Bool) (p : Place) :
    SteadyWhole text (tryCatch (readHead keyframe p) skipRule) := by
  refine Steady.guarded (readHead_steady keyframe p) (fun e he => ?_) fun e s hl => skipRule_strict hl
  refine Steady.onlyLenient ?_ fun _ _ => ⟨e, he, rfl, rfl⟩
  split
  · exact (Steady.note _ _).bind fun _ => (Steady.upTo _ _ _).discard.bind fun _ => .pure _
  · exact .throw he

theorem read_steady (keyframe : Bool) : SteadyWhole text (read keyframe) := by
  rw [read_eq]
  refine Steady.here fun p _ => (readHeadOrSkip_steady keyframe p).bind fun head => ?_
  cases head with
  | none => exact .pure _
  | some head => exact (Steady.literal _).discard.bind fun _ => (RuleSet.read_steady _ _).bind fun rules => .pure _

end StyleRule

namespace Statement

theorem readRest_steady : SteadyWhole text readRest := .upTo _ _ _

theorem readImport_steady (p : Position) : SteadyWhole text (readImport p) :=
  Url.read_steady.whole.bind fun _ => gap_steadyWhole.discard.bind fun _ => readRest_steady.bind fun _ => .pure _

theorem readCharset_steady (p : Position) : SteadyWhole text (readCharset p) :=
  Quoted.read_steady.whole.bind fun _ => gap_steadyWhole.discard.bind fun _ =>
    readRest_steady.discard.bind fun _ => .pure _

theorem readNaming_steady (p : Position) : SteadyWhole text (readNaming p) := by
  refine Steady.here fun start _ => Value.readPrimitive_steady.whole.bind fun first => ?_
  have ending (abbreviation : Option String) (url : Value) : SteadyWhole text (if !url.isText then do
      throw (.unexpectedToken "a namespace url or string" (url.toCss .compact) start.location)
      discard Read.gap
      discard readRest
      return Statement.naming abbreviation url (some p) []
    else do
      discard Read.gap
      discard readRest
      return Statement.naming abbreviation url (some p) []) :=
    Steady.orThrow rfl (gap_steadyWhole.discard.bind fun _ => readRest_steady.discard.bind fun _ => .pure _)
  dsimp only
  split
  · exact (Steady.pure _).bind (ending none)
  · exact gap_steadyWhole.discard.bind fun _ => Value.readPrimitive_steady.whole.bind (ending first.keyword?)

theorem readClosing_steady : SteadyWhole text readClosing := by
  refine Steady.here fun p _ => ?_
  split
  · exact .skip 1
  · exact .pure _

variable {readBody : Owner → Read Sheet}

theorem readKeyframes_steady (hb : ∀ owner, SteadyWhole text (readBody owner)) (name : String) (p : Position) :
    SteadyWhole text (readKeyframes readBody name p) :=
  (Steady.upTo _ _ _).bind fun _ => (hb _).bind fun _ => readClosing_steady.bind fun _ => .pure _

theorem readBlockRule_steady (hb : ∀ owner, SteadyWhole text (readBody owner)) (name : String) (p : Position) :
    SteadyWhole text (readBlockRule readBody name p) := by
  refine Steady.here fun q _ => (Steady.upTo _ _ _).bind fun args => Steady.here fun stop _ => ?_
  dsimp only
  split
  · exact (Steady.skip 1).bind fun _ => .throwBind rfl
  · refine (Steady.literal _).discard.bind fun _ => ?_
    split
    · refine Steady.onlyLenient ?_ fun _ _ => ⟨_, rfl, rfl, rfl⟩
      exact (Steady.note _ _).bind fun _ => Steady.here fun start _ => (Steady.skip _).bind fun _ => .pure _
    · split
      · exact (hb _).bind fun body => readClosing_steady.bind fun _ => .pure _
      · exact (RuleSet.read_steady p []).bind fun rules => .pure _

theorem readAtName_steady : SteadyWhole text readAtName := by
  refine Steady.here fun p _ => (Steady.literal _).discard.bind fun _ => (Steady.identifier _).bind fun name => ?_
  exact gap_steadyWhole.discard.bind fun _ => Steady.here fun q _ => (Steady.note _ _).bind fun _ => .pure _

theorem readNamed_steady (hb : ∀ owner, SteadyWhole text (readBody owner)) (name : String) (p : Position) :
    SteadyWhole text (readNamed readBody name p) := by
  unfold readNamed
  split
  · exact (readImport_steady _).map
  · split
    · exact (readCharset_steady _).map
    · split
      · exact (readNaming_steady _).map
      · split
        · exact (readKeyframes_steady hb _ _).map
        · exact readBlockRule_steady hb _ _

theorem readAtRule_steady (hb : ∀ owner, SteadyWhole text (readBody owner)) :
    SteadyWhole text (readAtRule readBody) := by
  rw [readAtRule_eq]
  exact readAtName_steady.bind fun n => readNamed_steady hb _ _

theorem admitCharset_steady (owner : Owner) (first : Bool) (l : Location) (charset : String) :
    SteadyWhole text (admitCharset owner first l charset) := by
  unfold admitCharset
  dsimp only
  split
  · exact .throwBind (Fault.located_misplaced _ _)
  · split
    · exact .throwBind (Fault.located_misplaced _ _)
    · exact .setCharset charset

theorem readItem_steady (hb : ∀ owner, SteadyWhole text (readBody owner)) (owner : Owner) (first : Bool) :
    SteadyWhole text (readItem readBody owner first) := by
  refine Steady.here fun p _ => ?_
  split
  · refine (readAtRule_steady hb).bind fun s => ?_
    split
    · exact .pure _
    · exact (admitCharset_steady _ _ _ _).bind fun _ => .pure _
    · exact .pure _
  · split
    · split
      · exact .pure _
      · refine Steady.onlyLenient ?_ fun _ _ => ⟨_, rfl, rfl, rfl⟩
        exact (Steady.note _ _).bind fun _ => (Steady.skip 1).bind fun _ => .pure _
    · refine (StyleRule.read_steady _).bind fun r => ?_
      split
      · exact .pure _
      · exact .pure _

theorem readEnd_steady (owner : Owner) (pending : List Comment) : SteadyWhole text (readEnd owner pending) := by
  cases owner with
  | sheet => exact Steady.asking (fun _ => .pure _) fun _ _ _ => rfl
  | grouping => exact Steady.onlyLenient (.pure _) fun _ _ => ⟨_, rfl, rfl, rfl⟩
  | keyframes => exact Steady.onlyLenient (.pure _) fun _ _ => ⟨_, rfl, rfl, rfl⟩

/-- What the fault of an item that began at `start` leads to. -/
def skipItem (start : Place) (e : Fault) : Read (Option Item) := do
  if (← Read.isLenient) && e.isEnd then
    Read.note .warn ("Stopping at end of input: " ++ e.message)
    Read.toEnd
    return none
  else if (← Read.isLenient) && e.recoverable then
    Read.note .warn ("Skipping invalid statement: " ++ e.message)
    if (← Read.place).offset = start.offset then discard (Read.take 1)
    return some .omitted
  else throw e

theorem outcome_readItemOrSkip (readBody : Owner → Read Sheet) (owner : Owner) (first : Bool) (r : Reader) :
    (readItemOrSkip readBody owner first).outcome r =
      Read.rescued ((some <$> readItem readBody owner first).outcome r) (skipItem r.place) := by
  rw [readItemOrSkip]
  simp only [Read.outcome_bind, Read.outcome_place, Read.following_ok, Read.outcome_tryCatch]
  rcases (some <$> readItem readBody owner first).outcome r with ⟨e | item, s⟩
  · simp only [Read.following_error, Read.rescued_error, skipItem, Read.outcome_bind, Read.outcome_isLenient,
      Read.following_ok]
    split
    · rfl
    · simp only [Read.outcome_bind, Read.outcome_isLenient, Read.following_ok]
      split
      · simp only [Read.outcome_bind, Read.outcome_note, Read.outcome_place, Read.following_ok]
        split
        · simp only [Read.outcome_bind]
          rcases (discard (Read.take 1)).outcome _ with ⟨d | u, t⟩
          · rfl
          · rfl
        · rfl
      · rfl
  · rfl

/-- Strict reading hands on the fault of an item. -/
theorem skipItem_strict (start : Place) (e : Fault) {r : Reader} (hl : r.settings.lenient = false) :
    (skipItem start e).outcome r = (.error e, r) := by
  rw [skipItem, Read.outcome_bind, Read.outcome_isLenient, Read.following_ok, hl, Bool.false_and,
    if_neg Bool.false_ne_true, Read.outcome_bind, Read.outcome_isLenient, Read.following_ok, hl, Bool.false_and,
    if_neg Bool.false_ne_true, Read.outcome_throw]

theorem skipItem_steady (start : Place) {e : Fault} (he : e.located = true) :
    SteadyWhole text (skipItem start e) := by
  refine Steady.onlyLenient ?_ fun r hl => ⟨e, he, rfl, ?_⟩
  · split
    · exact (Steady.note _ _).bind fun _ => Steady.toEnd.bind fun _ => .pure _
    · refine Steady.onlyLenient ?_ fun _ _ => ⟨e, he, rfl, rfl⟩
      split
      · refine (Steady.note _ _).bind fun _ => Steady.here fun p _ => ?_
        split
        · exact (Steady.take 1).discard.bind fun _ => .pure _
        · exact .pure _
      · exact .throw he
  · have strict := skipItem_strict start e hl
    rw [skipItem, Read.outcome_bind, Read.outcome_isLenient, Read.following_ok, hl] at strict
    exact strict

theorem readItemOrSkip_steady (hb : ∀ owner, SteadyWhole text (readBody owner)) (owner : Owner) (first : Bool) :
    SteadyWhole text (readItemOrSkip readBody owner first) := by
  intro r hr
  refine .rescue hr (outcome_readItemOrSkip readBody owner first r)
    (outcome_readItemOrSkip readBody owner first r.relaxed) ((readItem_steady hb owner first).map r hr) ?_ ?_
  · exact fun e he s hs => skipItem_steady r.place he s hs
  · intro e s _ hl
    exact ⟨e, s, rfl, skipItem_strict r.place e hl⟩

/-- The reader of statements with its recursion, of which there is one for the bodies inside and one for the
statements behind. -/
theorem readAllIn_steady (n : Nat) (owner : Owner) (first : Bool) (pending : List Comment) :
    SteadyWhole text (readAllIn n owner first pending) := by
  induction n using Nat.strongRecOn generalizing owner first pending with
  | ind n ih =>
    have inner (owner : Owner) (first : Bool) : SteadyWhole text (readBehind n owner first) :=
      .shorter (fun m hm => ih m hm owner first []) (.pure _)
    rw [readAllIn_eq]
    refine Steady.here fun p _ => ?_
    split
    · exact readEnd_steady owner pending
    · refine gap_steadyWhole.bind fun comments => Steady.here fun q _ => ?_
      dsimp only
      split
      · exact readEnd_steady owner _
      · refine (readItemOrSkip_steady (fun o => (inner o true).bind fun ⟨_, _⟩ => .pure _) owner first).bind ?_
        intro item
        split
        · exact .pure _
        · exact .pure _
        · exact inner owner first
        · exact (inner owner false).bind fun ⟨_, _⟩ => .pure _

theorem readInside_steady (n : Nat) (owner : Owner) : SteadyWhole text (readInside n owner) :=
  (Steady.shorter (fun m _ => readAllIn_steady m owner true []) (.pure _)).bind fun _ => .pure _

end Statement

namespace Sheet

/-- A whole sheet is read the same in both modes from tame text. -/
theorem read_steady : SteadyWhole text read :=
  Steady.left.bind fun n => (Statement.readAllIn_steady n .sheet true []).bind fun ⟨_, _⟩ =>
    (Steady.note _ _).bind fun _ => .pure _

theorem withoutMark_of_head {text : String} (h : text.toList.head? ≠ some '\uFEFF') : withoutMark text = text := by
  unfold withoutMark
  split
  · next rest ht =>
    rw [ht] at h
    exact absurd rfl h
  · rfl

theorem parse_eq (settings : Settings) (text : String) :
    parse settings text =
      ((read.outcome (Reader.start (withoutMark text) settings 1)).1,
        (read.outcome (Reader.start (withoutMark text) settings 1)).2.journal) := rfl

/-- A sheet is made of the statements of its text. -/
theorem parse_of_readAllIn {settings : Settings} {text : String} {c : List Statement × List Comment} {s : Reader}
    (h : (Statement.readAllIn (withoutMark text).toList.length .sheet true []).outcome
      (Reader.start (withoutMark text) settings 1) = (.ok c, s)) :
    (parse settings text).1 = .ok ⟨c.1, some ⟨1, 0⟩, [], c.2⟩ := by
  have length : (Reader.start (withoutMark text) settings 1).place.rest.length = (withoutMark text).toList.length := rfl
  rw [parse_eq, read, Read.outcome_bind, Read.outcome_left, Read.following_ok, length, Read.outcome_bind, h]
  rfl

/-- The reading of statements that a sheet comes from. -/
theorem readAllIn_of_parse {settings : Settings} {text : String} {sheet : Sheet}
    (h : (parse settings text).1 = .ok sheet) :
    ∃ cs s, (Statement.readAllIn (withoutMark text).toList.length .sheet true []).outcome
      (Reader.start (withoutMark text) settings 1) = (.ok (sheet.contents, cs), s) := by
  rw [parse_eq] at h
  rcases hread : read.outcome (Reader.start (withoutMark text) settings 1) with ⟨o, s⟩
  rw [hread] at h
  cases h
  obtain ⟨n, r, hn, hread⟩ := Read.ok_of_bind hread
  cases hn
  obtain ⟨c, t, hc, hread⟩ := Read.ok_of_bind hread
  cases hread
  exact ⟨c.2, t, hc⟩

end Sheet

end Stylesheet
