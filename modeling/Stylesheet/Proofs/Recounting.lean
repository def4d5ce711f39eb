import Stylesheet.Proofs.AbreastSheet

namespace Stylesheet

/-- The fault with nothing of its place but the number of characters before it. -/
def Fault.uncounted : Fault → Fault
  | unexpectedToken expected found l => .unexpectedToken expected found ⟨0, 0, l.offset⟩
  | unexpectedEnd expected l => .unexpectedEnd expected ⟨0, 0, l.offset⟩
  | misplaced reason l => .misplaced reason ⟨0, 0, l.offset⟩
  | unwritable reason _ => .unwritable reason none

/-- What a reading comes to, whatever the lines and columns: a result as it is looked at, or an uncounted fault. -/
def Read.uncounted {α β : Type} (look : α → β) (o : Except Fault α) : Except Fault β :=
  (o.map look).mapError Fault.uncounted

/-- What a step comes to, with the number of characters before the place that it leaves. -/
def Read.seen {α β : Type} (look : α → β) (o : Except Fault α × Reader) : Except Fault β × Nat :=
  (uncounted look o.1, o.2.place.offset)

/-- A reader of `text` behind `n` characters, or at its end. The first line of the text has the number `line`. -/
def Reader.behind (text : String) (settings : Settings) (line n : Nat) : Reader :=
  { start text settings line with place := (Place.start text.toList line).forward settings.width n }

namespace Counting

variable {α β : Type} {g : Counting}

theorem Named.uncounted {e e' : Fault} (h : g.Named e e') : e'.uncounted = e.uncounted := by
  cases h with
  | token point =>
    have same := point.offset
    simp only [Fault.uncounted, Place.location, same]
  | ending point =>
    have same := point.offset
    simp only [Fault.uncounted, Place.location, same]
  | misplaced point =>
    have same := point.offset
    simp only [Fault.uncounted, Place.location, same]

theorem Agree.uncounted {look : α → β} {o o' : Except Fault α × Reader} (h : g.Agree look o o') :
    Read.uncounted look o'.1 = Read.uncounted look o.1 := by
  cases h with
  | ok alike readers => exact congrArg Except.ok alike
  | fault named readers => exact congrArg Except.error named.uncounted

theorem Agree.readers {look : α → β} {o o' : Except Fault α × Reader} (h : g.Agree look o o') :
    g.Readers o.2 o'.2 := by
  cases h with
  | ok alike readers => exact readers
  | fault named readers => exact readers

/-- Readings of one text from its start. -/
def ofText {first second : Settings} (mode : second.lenient = first.lenient) (text : String) (line line' : Nat) :
    Counting :=
  ⟨first, second, mode, Place.start text.toList line, Place.start text.toList line', rfl, rfl⟩

variable {first second : Settings} {mode : second.lenient = first.lenient} {text : String} {line line' : Nat}

theorem readers_start :
    (ofText mode text line line').Readers (Reader.start text first line) (Reader.start text second line') where
  first := rfl
  second := rfl
  point := .origin _

theorem readers_behind (n : Nat) :
    (ofText mode text line line').Readers (Reader.behind text first line n) (Reader.behind text second line' n) where
  first := rfl
  second := rfl
  point := (Point.origin (ofText mode text line line')).forward n

end Counting

/-- Values behind the same characters of one text are read the same, up to the same character. -/
theorem Value.read_recounted {first second : Settings} (mode : second.lenient = first.lenient)
    (order : List Separator) (text : String) (line line' n : Nat) :
    Read.seen bare ((read order).outcome (Reader.behind text second line' n)) =
      Read.seen bare ((read order).outcome (Reader.behind text first line n)) := by
  have agree := read_alike (g := .ofText mode text line line') order _ _ (Counting.readers_behind n)
  have reached := agree.readers.point.offset
  rw [Read.seen, Read.seen, agree.uncounted, reached]

namespace Sheet

/-- Settings that agree on the mode read the same sheet, or meet the same fault, and read the same values, on whichever
line the text begins. -/
theorem parse_recounted {first second : Settings} (mode : second.lenient = first.lenient) :
    (∀ text, Read.uncounted (bare true) (parse second text).1 = Read.uncounted (bare true) (parse first text).1) ∧
      ∀ (order : List Separator) (text : String) (line line' n : Nat),
        Read.seen Value.bare ((Value.read order).outcome (Reader.behind text second line' n)) =
          Read.seen Value.bare ((Value.read order).outcome (Reader.behind text first line n)) := by
  refine ⟨fun text => ?_, Value.read_recounted mode⟩
  have agree := read_alike (g := .ofText mode (withoutMark text) 1 1) _ _ Counting.readers_start
  rw [parse_eq, parse_eq]
  exact agree.uncounted

/-- Columns in bytes instead of characters, and another line to begin with. -/
theorem parse_recounted_bytes :
    ({ multibyte := false, charset := "latin1" } : Settings).lenient = ({} : Settings).lenient ∧
      Read.uncounted (bare true) (parse { multibyte := false, charset := "latin1" } "é{é:c;b:d}").1 =
        Read.uncounted (bare true) (parse {} "é{é:c;b:d}").1 ∧
      Read.seen Value.bare
          ((Value.read [.comma]).outcome
            (Reader.behind "é é,a" { multibyte := false, charset := "latin1" } 7 1)) =
        Read.seen Value.bare ((Value.read [.comma]).outcome (Reader.behind "é é,a" {} 1 1)) := by
  have mode : ({ multibyte := false, charset := "latin1" } : Settings).lenient = ({} : Settings).lenient := rfl
  have same := parse_recounted mode
  exact ⟨mode, same.1 "é{é:c;b:d}", same.2 [.comma] "é é,a" 1 7 1⟩

end Sheet

end Stylesheet
