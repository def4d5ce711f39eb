import Stylesheet.Proofs.Outcome
import Stylesheet.Value.Reading

namespace Stylesheet

open Read (Yields YieldsAt)

theorem Size.read_position (channel : Bool) : YieldsAt (Size.read channel) fun p a => a.position = some p := by
  refine .here fun p => .behind fun _ => ?_
  split
  · exact .throw _
  · exact .behind fun _ => .behind fun _ => .pure rfl

theorem Quoted.read_position : YieldsAt Quoted.read fun p a => a.position = some p := by
  refine .here fun p => ?_
  split
  · split
    · exact .behind fun _ => .behind fun text => .behind fun q => .orThrow <| .behind fun _ => .pure rfl
    · exact .behind fun text => .pure rfl
  · exact .pure rfl

theorem Url.read_position : YieldsAt Url.read fun p a => a.position = some p := by
  refine .here fun p => .behind fun call => .behind fun _ => .behind fun address => ?_
  split
  · exact .behind fun _ => .behind fun _ => .pure rfl
  · exact .pure rfl

namespace Value

variable {nested : List Separator → Read Value} {inner word : Read Value}

/-- Takes the form of value that begins at `p`. -/
def readForm (nested : List Separator → Read Value) (inner : Read Value) (lenient : Bool) (p : Place) : Read Value :=
  if Size.begins p then Value.size <$> Size.read false
  else if p.comes "#" || p.comesAnyCase "rgb" || p.comesAnyCase "hsl" then readColor (readWord nested inner true)
  else if p.comes "'" || p.comes "\"" then Value.string <$> Quoted.read
  else if lenient && p.comesAnyCase "progid:" then readFilter nested
  else if p.comes "[" then readLineNames
  else if p.comes "U+" then readRange
  else if p.comes "(" then readParenthesized nested
  else readWordOrSign (readWord nested inner false)

theorem readPrimitiveWith_eq : readPrimitiveWith nested inner = (do
    discard Read.gap
    let p ← Read.place
    let lenient ← Read.isLenient
    let v ← readForm nested inner lenient p
    discard Read.gap
    return v) := by
  rw [readPrimitiveWith]
  refine congrArg _ (funext fun _ => congrArg _ (funext fun p => congrArg _ (funext fun lenient => ?_)))
  unfold readForm
  dsimp only
  split
  · rfl
  · split
    · rfl
    · split
      · rfl
      · split
        · rfl
        · split
          · rfl
          · split
            · rfl
            · split <;> rfl

/-- Neither a list nor a bare word. -/
structure IsMarked (v : Value) : Prop where
  unlisted : ∀ vs s p, v ≠ .list vs s p
  unworded : ∀ t, v ≠ .keyword t

/-- Neither a list nor a bare word, and at `p`. -/
structure IsMarkedAt (p : Position) (v : Value) : Prop extends v.IsMarked where
  position : v.position? = some p

theorem readHex_marked : YieldsAt readHex IsMarkedAt :=
  .here fun _ => .behind fun _ => .behind fun _ => .orThrow (.orThrow (.pure ⟨⟨nofun, nofun⟩, rfl⟩))

theorem readColorFunction_marked : YieldsAt (readColorFunction word) IsMarkedAt := by
  refine .here fun _ => .behind fun _ => .behind fun _ => .behind fun _ => .behind fun _ => .behind fun _ => ?_
  split
  · exact .pure ⟨⟨nofun, nofun⟩, rfl⟩
  · exact .pure ⟨⟨nofun, nofun⟩, rfl⟩

theorem readColor_marked : YieldsAt (readColor word) IsMarkedAt := by
  intro r v s h
  rw [readColor, Read.outcome_bind, Read.outcome_place, Read.following_ok] at h
  split at h
  · exact readHex_marked r v s h
  · exact readColorFunction_marked r v s h

theorem readFunction_marked (ignoreCase : Bool) : YieldsAt (readFunction nested ignoreCase) IsMarkedAt :=
  .here fun _ => .behind fun _ => .behind fun _ => .behind fun _ => .behind fun _ => .pure ⟨⟨nofun, nofun⟩, rfl⟩

theorem readParenthesized_marked : YieldsAt (readParenthesized nested) IsMarkedAt :=
  .here fun _ => .behind fun _ => .behind fun _ => .behind fun _ => .pure ⟨⟨nofun, nofun⟩, rfl⟩

theorem readFilter_marked : YieldsAt (readFilter nested) IsMarkedAt :=
  .here fun _ => .behind fun _ => .behind fun _ => .behind fun _ => .pure ⟨⟨nofun, nofun⟩, rfl⟩

theorem readLineNames_marked : YieldsAt readLineNames IsMarkedAt :=
  .here fun _ => .behind fun _ => .behind fun _ => .behind fun _ => .behind fun _ => .behind fun _ =>
    .pure ⟨⟨nofun, nofun⟩, rfl⟩

theorem readCalculation_marked : YieldsAt (readCalculation inner) IsMarkedAt := by
  refine .here fun _ => .behind fun _ => .behind fun _ => .orThrow ?_
  refine .behind fun _ => .behind fun _ => .behind fun _ => .behind fun _ => ?_
  split
  · exact .behind fun _ => .pure ⟨⟨nofun, nofun⟩, rfl⟩
  · exact .pure ⟨⟨nofun, nofun⟩, rfl⟩

/-- A form begins with a mark, or it is a range of code points, or a word is looked for. -/
theorem readForm_cases (nested : List Separator → Read Value) (inner : Read Value) (lenient : Bool) (p : Place) :
    YieldsAt (readForm nested inner lenient p) IsMarkedAt ∨ readForm nested inner lenient p = readRange ∨
      readForm nested inner lenient p = readWordOrSign (readWord nested inner false) := by
  unfold readForm
  split
  · exact .inl (.map ((Size.read_position false).mono fun _ _ place => ⟨⟨nofun, nofun⟩, place⟩))
  · split
    · exact .inl readColor_marked
    · split
      · exact .inl (.map (Quoted.read_position.mono fun _ _ place => ⟨⟨nofun, nofun⟩, place⟩))
      · split
        · exact .inl readFilter_marked
        · split
          · exact .inl readLineNames_marked
          · split
            · exact .inr (.inl rfl)
            · split
              · exact .inl readParenthesized_marked
              · exact .inr (.inr rfl)

/-- What a sign that stands alone makes of the fault of reading a word. -/
def orSign (next : Option Char) (e : Fault) : Read Value :=
  match e with
  | .unexpectedToken .. =>
    if [some '+', some '-', some '*', some '/'].contains next then keyword <$> Read.take 1 else throw e
  | _ => throw e

theorem outcome_readWordOrSign (word : Read Value) (r : Reader) :
    (readWordOrSign word).outcome r = Read.rescued (word.outcome r) (orSign r.place.rest.head?) := by
  rw [readWordOrSign]
  simp only [Read.outcome_bind, Read.outcome_place, Read.following_ok, Read.outcome_tryCatch]
  rcases word.outcome r with ⟨e | a, s⟩
  · cases e with
    | unexpectedToken e f l =>
      simp only [Read.following_error, Read.rescued_error, orSign, List.contains_iff_mem]
      split
      · simp only [Read.outcome_bind, Read.outcome_map]
        rcases (Read.take 1).outcome s with ⟨e | a, s'⟩
        · rfl
        · rfl
      · rfl
    | unexpectedEnd | misplaced | unwritable => rfl
  · rfl

/-- Takes a name of a grid line, or none before a closing bracket in lenient mode. -/
def readName? : Read (Option String) :=
  tryCatch (do return some (← Read.identifier false)) fun e => do
    if e.recoverable && (← Read.isLenient) && (← Read.place).comes "]" then return none else throw e

end Value

end Stylesheet
