import Stylesheet.Proofs.Descent
import Stylesheet.Proofs.SheetProgress
import Stylesheet.Proofs.StrictSheet
import Stylesheet.Value.Session

namespace Stylesheet

open Read (Advances Steady)

/-- What a steady step leaves lies ahead, also when it fails. -/
theorem Read.Steady.onward {α : Type} {r : Reader} {x : Read α} (hx : SteadyWhole r.place.text x) :
    r.Reaches (x.outcome r).2 := ⟨(hx r rfl).1.settings, (hx r rfl).1.ahead⟩

namespace Read

variable {r : Reader}

theorem moves_comment? : Place.Moves fun s p =>
    match p.opening s.width with
    | .absent => ((.ok none : Except Fault (Option Comment)), p)
    | .unclosed => (.error (.unexpectedEnd "1 character" (p.toEnd s.width).location), p.toEnd s.width)
    | .whole c q => (.ok (some c), q) where
  ahead s p := by
    split
    · exact .refl s.width p
    · exact Place.ahead_toEnd s.width p
    · next h => exact Place.ahead_of_opening h
  located s p e h := by
    split at h
    · cases h
    · cases h
      rfl
    · cases h
  mode s b p := rfl

theorem onward_of_character? (forIdentifier : Bool) :
    r.Reaches ((discard (character? forIdentifier)).outcome r).2 := by
  rw [outcome_discard, character?, outcome_bind, outcome_place, following_ok, outcome_bind, outcome_get, following_ok]
  split
  · exact .refl r
  · have ahead := Place.ahead_piece r.settings r.place
    rw [outcome_bind, outcome_move]
    rcases one : r.place.piece r.settings with ⟨e | piece, q⟩
    · exact ⟨rfl, by rwa [one] at ahead⟩
    · exact ⟨rfl, by rwa [one] at ahead⟩

end Read

namespace Operation

/-- The operations that take some of the text whenever they succeed. -/
def takes : Operation → Bool
  | take n => 0 < n
  | upTo _ stopAt orEnd => stopAt = .behind && !orEnd
  | literal text => !text.toList.isEmpty
  | identifier _ => true
  | value _ | primitive | size _ | color | hexColor | colorFunction => true
  | function _ | parenthesized | calculation | lineNames | range | filter => true
  | _ => false

theorem onward (o : Operation) (r : Reader) : r.Reaches (o.read.outcome r).2 := by
  have nested (n : Nat) (order : List Separator) : SteadyPart r.place.text (Value.nestedIn n order) :=
    Value.nestedIn_steady n order
  have word (n : Nat) (ignoreCase : Bool) :
      SteadyPart r.place.text (Value.readWord (Value.nestedIn n) (Value.innerIn n) ignoreCase) :=
    Value.readWord_steady (nested n) (Value.innerIn_steady n) ignoreCase
  cases o with
  | take n => exact Steady.onward (.discard (.take n))
  | literal text => exact Steady.onward (.discard (.literal text))
  | upTo stops stopAt orEnd => exact Steady.onward (.discard (.upTo stops stopAt orEnd))
  | gap => exact gap_steadyWhole.discard.onward
  | comment => exact Steady.onward (.discard (.move Read.moves_comment?))
  | character forIdentifier => exact Read.onward_of_character? forIdentifier
  | identifier ignoreCase => exact Steady.onward (.discard (.identifier ignoreCase))
  | value order => exact (Value.read_steady order).discard.whole.onward
  | primitive => exact Value.readPrimitive_steady.discard.whole.onward
  | word ignoreCase => exact Steady.onward (.discard (.bind .left fun n => (word n ignoreCase).whole))
  | size channel => exact (Size.read_steady channel).discard.whole.onward
  | color => exact Steady.onward (.discard (.bind .left fun n => (Value.readColor_steady (word n true)).whole))
  | hexColor => exact Value.readHex_steady.discard.whole.onward
  | colorFunction =>
    exact Steady.onward (.bind .left fun n => (Value.readColorFunction_steady (word n true)).discard.whole)
  | quoted => exact Quoted.read_steady.discard.whole.onward
  | url => exact Url.read_steady.discard.whole.onward
  | function ignoreCase =>
    exact Steady.onward (.discard (.bind .left fun n => (Value.readFunction_steady (nested n) ignoreCase).whole))
  | parenthesized =>
    exact Steady.onward (.bind .left fun n => (Value.readParenthesized_steady (nested n)).discard.whole)
  | arguments => exact (Value.readArguments_steady Value.read_steady).discard.whole.onward
  | calculation =>
    exact Steady.onward (.discard (.bind .left fun n => (Value.readCalculation_steady (Value.innerIn_steady n)).whole))
  | lineNames => exact Value.readLineNames_steady.discard.whole.onward
  | range => exact Value.readRange_steady.discard.whole.onward
  | filter => exact Steady.onward (.bind .left fun n => (Value.readFilter_steady (nested n)).discard.whole)
  | toEnd => exact Steady.onward .toEnd
  | setCharset charset => exact Steady.onward (.setCharset charset)

theorem advances {o : Operation} (takes : o.takes = true) : Advances o.read := by
  have nested (n : Nat) (order : List Separator) (text : List Char) : SteadyPart text (Value.nestedIn n order) :=
    Value.nestedIn_steady n order
  have inner (n : Nat) (text : List Char) : SteadyPart text (Value.innerIn n) := Value.innerIn_steady n
  have word (n : Nat) (text : List Char) : SteadyPart text (Value.readWord (Value.nestedIn n) (Value.innerIn n) true) :=
    Value.readWord_steady (fun order => nested n order text) (inner n text) true
  have inside {x : Nat → Read Value} (hx : ∀ n, Advances (x n)) : Advances (Read.left >>= x) :=
    .behind (fun _ => .left) hx
  cases o with
  | take n => exact (Advances.take (of_decide_eq_true takes)).discard
  | literal text => exact (Advances.literal (by simpa [Operation.takes] using takes)).discard
  | upTo stops stopAt orEnd =>
    obtain ⟨rfl, rfl⟩ : stopAt = .behind ∧ orEnd = false := by simpa [Operation.takes] using takes
    exact (Advances.upToBehind stops).discard
  | identifier ignoreCase => exact (Advances.identifier ignoreCase).discard
  | value order =>
    refine (inside fun n => ?_).discard
    exact Value.readWith_advances (fun _ => Value.readPrimitiveIn_steady n) (Value.readPrimitiveIn_advances n) order
  | primitive => exact (inside Value.readPrimitiveIn_advances).discard
  | size channel => exact (Size.read_advances channel).discard
  | color => exact (inside fun n => Value.readColor_advances (word n)).discard
  | hexColor => exact Value.readHex_advances.discard
  | colorFunction => exact .behind (fun _ => .left) fun n => (Value.readColorFunction_advances (word n)).discard
  | function ignoreCase => exact (inside fun n => Value.readFunction_advances (nested n) ignoreCase).discard
  | parenthesized => exact .behind (fun _ => .left) fun n => (Value.readParenthesized_advances (nested n)).discard
  | calculation => exact (inside fun n => Value.readCalculation_advances (inner n)).discard
  | lineNames => exact Value.readLineNames_advances.discard
  | range => exact Value.readRange_advances.discard
  | filter => exact .behind (fun _ => .left) fun n => (Value.readFilter_advances (nested n)).discard
  | gap | comment | character | word | quoted | url | arguments | toEnd | setCharset => cases takes

end Operation

/-- One thing that reading asks of a text. What it yields is left aside. -/
inductive Production
  | operation (o : Operation)
  | declaration (comments : List Comment)
  | recovery
  | ruleSet (position : Position) (comments : List Comment)
  | selectors
  | styleRule (keyframe : Bool)
  | imports (p : Position)
  | charset (p : Position)
  | naming (p : Position)
  | keyframes (name : String) (p : Position)
  | blockRule (name : String) (p : Position)
  | block
  | atRule
  | item (owner : Owner) (first : Bool)
  | itemOrSkip (owner : Owner) (first : Bool)
  | body (owner : Owner)
  | sheet

namespace Production

/-- The step of reading that a production is. -/
def read : Production → Read Unit
  | operation o => o.read
  | declaration comments => discard (Declaration.read comments)
  | recovery => discard RuleSet.recover
  | ruleSet position comments => discard (RuleSet.read position comments)
  | selectors => discard (Read.move fun s p => p.selectorText s none 0)
  | styleRule keyframe => discard (StyleRule.read keyframe)
  | imports p => discard (Statement.readImport p)
  | charset p => discard (Statement.readCharset p)
  | naming p => discard (Statement.readNaming p)
  | keyframes name p => discard (Statement.readKeyframes Statement.readFresh name p)
  | blockRule name p => discard (Statement.readBlockRule Statement.readFresh name p)
  | block => do Read.skip (Place.blockLength 1 (← Read.place).rest)
  | atRule => discard (Statement.readAtRule Statement.readFresh)
  | item owner first => discard (Statement.readItem Statement.readFresh owner first)
  | itemOrSkip owner first => discard (Statement.readItemOrSkip Statement.readFresh owner first)
  | body owner => discard (Statement.readFresh owner)
  | sheet => discard Sheet.read

/-- The productions that take some of the text whenever they succeed. -/
def takes : Production → Bool
  | operation o => o.takes
  | declaration _ | styleRule _ | atRule => true
  | _ => false

/-- No production ends before the place where it began. -/
theorem onward (p : Production) (r : Reader) : r.Reaches (p.read.outcome r).2 := by
  have body (owner : Owner) : SteadyWhole r.place.text (Statement.readFresh owner) := Statement.readFresh_steady owner
  cases p with
  | operation o => exact o.onward r
  | declaration comments => exact (Declaration.read_steady comments).discard.onward
  | recovery => exact RuleSet.recover_steady.discard.onward
  | ruleSet position comments => exact (RuleSet.read_steady position comments).discard.onward
  | selectors => exact Steady.onward (.discard (.move (Place.moves_selectorText none 0)))
  | styleRule keyframe => exact (StyleRule.read_steady keyframe).discard.onward
  | imports p => exact (Statement.readImport_steady p).discard.onward
  | charset p => exact (Statement.readCharset_steady p).discard.onward
  | naming p => exact (Statement.readNaming_steady p).discard.onward
  | keyframes name p => exact (Statement.readKeyframes_steady body name p).discard.onward
  | blockRule name p => exact (Statement.readBlockRule_steady body name p).discard.onward
  | block => exact Steady.onward (.here fun _ _ => .skip _)
  | atRule => exact (Statement.readAtRule_steady body).discard.onward
  | item owner first => exact (Statement.readItem_steady body owner first).discard.onward
  | itemOrSkip owner first => exact (Statement.readItemOrSkip_steady body owner first).discard.onward
  | body owner => exact (body owner).discard.onward
  | sheet => exact Sheet.read_steady.discard.onward

theorem advances {p : Production} (takes : p.takes = true) : Advances p.read := by
  have body (owner : Owner) (text : List Char) : SteadyWhole text (Statement.readFresh owner) :=
    Statement.readFresh_steady owner
  cases p with
  | operation o => exact Operation.advances takes
  | declaration comments => exact (Declaration.read_advances comments).discard
  | styleRule keyframe => exact (StyleRule.read_advances keyframe).discard
  | atRule => exact (Statement.readAtRule_advances body).discard
  | recovery | ruleSet | selectors | imports | charset | naming | keyframes | blockRule => cases takes
  | block | item | itemOrSkip | body | sheet => cases takes

end Production

end Stylesheet
