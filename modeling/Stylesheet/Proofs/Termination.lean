import Stylesheet.Proofs.Productions
import Stylesheet.Proofs.Rounds

namespace Stylesheet

open Read (Recurs RunsFrom SameIn rounds)

namespace Value

theorem readPrimitive_eq : readPrimitive = readPrimitiveWith read readPrimitive := Form.recurs.equation .primitive

/-- A value is the run of primitives behind its first gap, grouped. -/
theorem read_eq_collectRun (order : List Separator) :
    read order = groupRun order (collectRun readPrimitive order none) := by
  have list : read order = readWith (readPrimitiveWith read readPrimitive) order := Form.recurs.equation (.list order)
  rw [list, ← readPrimitive_eq, readWith_eq_collectRun]

theorem readPrimitive_advances : Read.Advances readPrimitive :=
  .behind (fun _ => .left) readPrimitiveIn_advances

end Value

namespace Statement

/-- Takes a body whose statements are taken by `again`. -/
def bodyBy (again : Owner × List Statement × List Comment → Read (List Statement × List Comment)) (owner : Owner) :
    Read Sheet := do
  let c ← again (owner, [], [])
  return { contents := c.1, trailing := c.2 }

/-- Takes the statements of a body behind those taken so far, where the bodies inside and the statements behind the next
one are taken by `again`. -/
def step (again : Owner × List Statement × List Comment → Read (List Statement × List Comment))
    (i : Owner × List Statement × List Comment) : Read (List Statement × List Comment) :=
  rounds (round (bodyBy again) i.1) (fun c => again (i.1, c)) i.2

/-- A body begins with nothing taken. -/
theorem collect_start (owner : Owner) :
    collect owner ([], []) = Read.left >>= fun n => readAllIn n owner true [] := by
  simp only [collect, collectIn, List.isEmpty_nil, List.nil_append]
  exact bind_congr fun n => bind_pure _

theorem readFresh_eq (owner : Owner) : readFresh owner = bodyBy (fun i => collect i.1 i.2) owner := by
  simp only [readFresh, bodyBy, collect_start, bind_assoc]

/-- Statements are read by recursion: the bodies inside begin behind some of the text, and so does what follows. -/
theorem recurs : Recurs step fun i => collect i.1 i.2 := by
  refine .of_descends fun again r i same => ?_
  obtain ⟨owner, c⟩ := i
  have bodies (inner : Owner) : SameIn (Region.ahead r).behind (readFresh inner) (bodyBy again inner) := by
    rw [readFresh_eq]
    exact .bindLeft (.of_passes fun s passes => same (inner, [], []) s passes) _
  dsimp only
  rw [(loop owner).equation, step, rounds, rounds, Read.outcome_bind, Read.outcome_bind,
    ← round_same bodies owner c r (.refl r), ← Read.outcome_bind, ← Read.outcome_bind]
  refine Read.outcome_bind_congr fun o s h => ?_
  cases o with
  | inl b => exact same (owner, b) s (passes_of_round (fun owner _ => readFresh_steady owner) h)
  | inr result => rfl

end Statement

namespace Sheet

/-- Makes a sheet of the statements that are taken. -/
def readBy (statements : Read (List Statement × List Comment)) : Read Sheet := do
  let c ← statements
  Read.note .debug ("Parsed stylesheet with " ++ toString c.1.length ++ " top-level statements")
  return { contents := c.1, position := some ⟨1, 0⟩, trailing := c.2 }

theorem read_eq : read = readBy (Statement.collect .sheet ([], [])) := by
  simp only [read, readBy, Statement.collect_start, bind_assoc]

end Sheet

/-- Reading makes progress. No production ends before the place where it began, and those that stand for something have
taken some of the text when they succeed. So every round of a loop takes some of the text or is the last one, every
recursion begins behind some of it, and reading a sheet takes no more rounds than its text has characters, and one. -/
theorem reading_progresses :
    (∀ (p : Production) (r : Reader), r.place.offset ≤ (p.read.outcome r).2.place.offset) ∧
    (∀ (p : Production) (r s : Reader), p.takes = true → p.read.outcome r = (.ok (), s) →
      r.place.offset < s.place.offset) ∧
    (∀ (owner : Owner) (first : Bool) (i : Statement.Item) (r s : Reader),
      (Statement.readItem Statement.readFresh owner first).outcome r = (.ok i, s) → i ≠ .closing →
        r.place.offset < s.place.offset) ∧
    -- the loops: statements, declarations, hacks, values, tokens of calculations, and names of grid lines
    (∀ owner, RunsFrom ([], []) (Statement.round Statement.readFresh owner) do
      Statement.readAllIn (← Read.left) owner true []) ∧
    (∀ rules, RunsFrom rules RuleSet.round do RuleSet.readInto rules (← Read.left)) ∧
    RunsFrom [] Declaration.hackRound (do Declaration.readHacks (← Read.left)) ∧
    (∀ order, ∃ run, RunsFrom none (Value.runRound Value.readPrimitive order) run ∧
      Value.read order = Value.groupRun order run) ∧
    RunsFrom {} (Value.tokenRound Value.readPrimitive)
      (do Value.readTokens Value.readPrimitive (← Read.left) 0 false) ∧
    RunsFrom [] Value.nameRound (do Value.readNames (← Read.left)) ∧
    -- the recursions: values inside values, statements inside and behind statements
    Recurs Value.Form.step Value.Form.read ∧
    Recurs Statement.step (fun i => Statement.collect i.1 i.2) ∧
    (∀ (settings : Settings) (text : String)
      (again : Owner × List Statement × List Comment → Read (List Statement × List Comment)) (n : Nat),
      (Sheet.withoutMark text).toList.length < n →
        let o := (Sheet.readBy (Statement.step^[n] again (.sheet, [], []))).outcome
          (Reader.start (Sheet.withoutMark text) settings 1)
        Sheet.parse settings text = (o.1, o.2.journal)) := by
  refine ⟨fun p r => (p.onward r).offset_le, fun p r s takes h => (Production.advances takes r () s h).offset_lt, ?_⟩
  refine ⟨fun owner first i r s h goesOn => ?item, fun owner => ?statements, fun rules => ⟨_, RuleSet.loop, rfl⟩,
    ⟨_, Declaration.hackLoop, ?hacks⟩, fun order => ?run, ⟨_, Value.tokenLoop Value.readPrimitive_advances, ?tokens⟩,
    ⟨_, Value.nameLoop, ?names⟩, Value.Form.recurs, Statement.recurs, fun settings text again n less => ?sheet⟩
  case item =>
    have progress := Statement.passes_of_readItem (fun owner _ => Statement.readFresh_steady owner) h
    exact (progress.resolve_left goesOn).offset_lt
  case statements => exact ⟨_, Statement.loop owner, (Statement.collect_start owner).symm⟩
  case hacks => simp only [Declaration.collectHacks, List.nil_append, bind_pure]
  case run => exact ⟨_, ⟨_, Value.runLoop Value.readPrimitive_advances order, rfl⟩, Value.read_eq_collectRun order⟩
  case tokens => simp only [Value.collectTokens, List.nil_append, bind_pure]
  case names => simp only [Value.collectNames, List.nil_append, bind_pure]
  case sheet =>
    have unrolled :=
      Statement.recurs.ends again n (Reader.start (Sheet.withoutMark text) settings 1) (.sheet, [], []) less
    rw [Sheet.parse_eq, Sheet.read_eq, Sheet.readBy, Sheet.readBy, Read.outcome_bind, Read.outcome_bind, unrolled]

/-- A function inside another one takes some of its text, and a body inside another one is read in as many rounds as the
text has characters, whatever would be read behind them. -/
theorem reading_progresses_nested :
    let r := Reader.start "f(1, g(2)) x" { lenient := false } 1
    let text := "@media a{b{c:d}}"
    (∃ s, (Production.operation (.function true)).read.outcome r = (.ok (), s) ∧ r.place.offset < s.place.offset) ∧
      (Sheet.parse {} text).1.toOption.any (fun sheet => sheet.contents.length = 1) = true ∧
      let o := (Sheet.readBy (Statement.step^[17] (fun _ => pure ([], [])) (.sheet, [], []))).outcome
        (Reader.start (Sheet.withoutMark text) {} 1)
      Sheet.parse {} text = (o.1, o.2.journal) := by
  obtain ⟨-, taking, -, -, -, -, -, -, -, -, -, parsing⟩ := reading_progresses
  intro r text
  have known : ((Production.operation (.function true)).read.outcome r).1.toOption.isSome = true := by decide +kernel
  have short : (Sheet.withoutMark text).toList.length < 17 := by decide +kernel
  refine ⟨?_, by decide +kernel, parsing {} text _ 17 short⟩
  rcases h : (Production.operation (.function true)).read.outcome r with ⟨e | u, s⟩
  · rw [h] at known
    cases known
  · exact ⟨s, rfl, taking _ r s rfl h⟩

end Stylesheet
