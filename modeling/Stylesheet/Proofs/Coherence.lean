import Mathlib.Algebra.GroupWithZero.Nat
import Mathlib.Data.List.DropRight
import Stylesheet.Proofs.Recounting
import Stylesheet.Value.Session

namespace Stylesheet

/-- A location in a text whose first line has the number `line`: what is counted there is what stands before it, and the
line has a number. -/
structure Location.Coherent (width : Char → Nat) (text : List Char) (line : Nat) (l : Location) : Prop where
  inside : l.offset ≤ text.length
  lines : l.line = line + (text.take l.offset).count '\n'
  columns : l.column = (((text.take l.offset).rtakeWhile (· ≠ '\n')).map width).sum
  numbered : l.line ≤ Position.lastNumber

namespace Place

variable {width : Char → Nat} {text : List Char} {line : Nat} {p : Place}

/-- A place in a text whose line and column are counted from the characters that it has passed. -/
structure Counted (width : Char → Nat) (text : List Char) (line : Nat) (p : Place) : Prop where
  whole : p.text = text
  lines : p.line = line + p.passed.reverse.count '\n'
  columns : p.column = ((p.passed.reverse.rtakeWhile (· ≠ '\n')).map width).sum

namespace Counted

theorem start (width : Char → Nat) (text : List Char) (line : Nat) : Counted width text line (Place.start text line) where
  whole := rfl
  lines := rfl
  columns := rfl

theorem next (h : p.Counted width text line) : (p.next width).Counted width text line := by
  have whole : (p.next width).text = text := (next_text width p).trans h.whole
  cases hr : p.rest with
  | nil =>
    rw [next_of_rest_nil hr]
    exact h
  | cons c rest =>
    by_cases hc : c = '\n'
    · have moved : p.next width = ⟨c :: p.passed, rest, p.line + 1, 0⟩ := by simp [Place.next, hr, hc]
      have begun : (p.passed.reverse ++ [c]).rtakeWhile (· ≠ '\n') = [] := by simp [hc]
      refine ⟨whole, ?_, ?_⟩
      · simp only [moved, List.reverse_cons, List.count_append, hc, List.count_singleton_self, h.lines]
        omega
      · simp only [moved, List.reverse_cons, begun, List.map_nil, List.sum_nil]
    · have moved : p.next width = ⟨c :: p.passed, rest, p.line, p.column + width c⟩ := by simp [Place.next, hr, hc]
      have other : [c].count '\n' = 0 := List.count_eq_zero.mpr (by simpa using Ne.symm hc)
      have longer : (p.passed.reverse ++ [c]).rtakeWhile (· ≠ '\n') =
          p.passed.reverse.rtakeWhile (· ≠ '\n') ++ [c] := by simp [hc]
      refine ⟨whole, ?_, ?_⟩
      · simp only [moved, List.reverse_cons, List.count_append, other, h.lines, Nat.add_zero]
      · simp only [moved, List.reverse_cons, longer, List.map_append, List.map_cons, List.map_nil, List.sum_append,
          List.sum_singleton, h.columns]

theorem forward (h : p.Counted width text line) (n : Nat) : (p.forward width n).Counted width text line := by
  induction n generalizing p with
  | zero => exact h
  | succ n ih => exact ih h.next

theorem coherent (h : p.Counted width text line) (numbered : line + text.count '\n' ≤ Position.lastNumber) :
    p.location.Coherent width text line := by
  have split : text = p.passed.reverse ++ p.rest := h.whole.symm
  have before : text.take p.offset = p.passed.reverse := by rw [split, List.take_left' (by simp [offset])]
  have inside : p.offset ≤ text.length := by
    rw [split, List.length_append, List.length_reverse, offset]
    omega
  have lines : p.line = line + (text.take p.offset).count '\n' := by rw [before, h.lines]
  refine ⟨inside, lines, ?_, ?_⟩
  · show p.column = (((text.take p.offset).rtakeWhile (· ≠ '\n')).map width).sum
    rw [before, h.columns]
  · show p.line ≤ Position.lastNumber
    have fewer := (List.take_sublist p.offset text).count_le '\n'
    omega

end Counted

end Place

namespace Counting

variable {α β : Type} {g : Counting}

theorem Agree.named {look : α → β} {e e' : Fault} {r r' : Reader}
    (h : g.Agree look (.error e, r) (.error e', r')) : g.Named e e' := by
  cases h with
  | fault named readers => exact named

/-- The location of a fault is a point of the text. -/
theorem Named.located {e e' : Fault} (h : g.Named e e') :
    ∃ p p', g.Point p p' ∧ e.location? = some p.location := by
  cases h with
  | token point => exact ⟨_, _, point, rfl⟩
  | ending point => exact ⟨_, _, point, rfl⟩
  | misplaced point => exact ⟨_, _, point, rfl⟩

end Counting

open Counting (Alike)

/-- Every operation does the same in both readings. -/
theorem Operation.read_alike {g : Counting} (o : Operation) : g.Alike id o.read o.read := by
  cases o with
  | take n => exact (Alike.take n).discard
  | literal text => exact Alike.token text
  | upTo stops stopAt orEnd => exact (Alike.upTo stops stopAt orEnd).discard
  | gap => exact Alike.gapIgnored
  | comment => exact Alike.comment?.discard
  | character forIdentifier => exact (Alike.character? forIdentifier).discard
  | identifier ignoreCase => exact (Alike.identifier ignoreCase).discard
  | value order => exact (Value.read_alike order).discard
  | primitive => exact Value.readPrimitive_alike.discard
  | word ignoreCase => exact (Value.readWordHere_alike ignoreCase).discard
  | size channel => exact (Size.read_alike channel).discard
  | color => exact Value.readColorHere_alike.discard
  | hexColor => exact Value.readHex_alike.discard
  | colorFunction =>
    refine Alike.leftBind fun n => ?_
    have word := Value.readWord_alike (Value.nestedIn_alike (g := g) n) (Value.innerIn_alike n) true
    exact (Value.readColorFunction_alike word).discard
  | quoted => exact Quoted.read_alike.discard
  | url => exact Url.read_alike.discard
  | function ignoreCase => exact (Value.readFunctionHere_alike ignoreCase).discard
  | parenthesized =>
    exact Alike.leftBind fun n => (Value.readParenthesized_alike (Value.nestedIn_alike n)).discard
  | arguments => exact (Value.readArguments_alike Value.read_alike).discard
  | calculation => exact Value.readCalculationHere_alike.discard
  | lineNames => exact Value.readLineNames_alike.discard
  | range => exact Value.readRange_alike.discard
  | filter => exact Alike.leftBind fun n => (Value.readFilter_alike (Value.nestedIn_alike n)).discard
  | toEnd => exact Alike.toEnd
  | setCharset charset => exact Alike.setCharset charset

namespace Session

variable {g : Counting} {s : Session}

/-- A session whose places are points of one text, each reached by counting forward from the origin. -/
structure Traced (g : Counting) (s : Session) : Prop where
  readers : g.Readers s.reader s.reader
  kept : ∀ p ∈ s.kept, g.Point p p
  faults : ∀ e ∈ s.faults, g.Named e e

namespace Traced

theorem operation (h : s.Traced g) (o : Operation) : (s.step (.operation o)).Traced g := by
  have agree : g.Agree id (o.read.outcome s.reader) (o.read.outcome s.reader) := o.read_alike _ _ h.readers
  have ran : o.read.run.run s.reader = o.read.outcome s.reader := rfl
  rw [step, ran]
  generalize o.read.outcome s.reader = result at agree
  rcases result with ⟨e | a, r⟩
  · refine ⟨agree.readers, h.kept, fun e' he => ?_⟩
    rcases List.mem_append.mp he with known | met
    · exact h.faults e' known
    · obtain rfl : e' = e := List.mem_singleton.mp met
      exact agree.named
  · exact ⟨agree.readers, h.kept, h.faults⟩

theorem keep (h : s.Traced g) : (s.step .keep).Traced g := by
  refine ⟨h.readers, fun p hp => ?_, h.faults⟩
  rcases List.mem_append.mp hp with known | new
  · exact h.kept p known
  · obtain rfl : p = s.reader.place := List.mem_singleton.mp new
    exact h.readers.point

theorem back (h : s.Traced g) (i : Nat) : (s.step (.back i)).Traced g := by
  rw [step]
  split
  · next p hp =>
    have point : g.Point p p := h.kept p (List.mem_of_getElem? hp)
    exact ⟨⟨h.readers.first, h.readers.second, point⟩, h.kept, h.faults⟩
  · exact h

theorem step (h : s.Traced g) (t : Step) : (s.step t).Traced g := by
  cases t with
  | operation o => exact h.operation o
  | keep => exact h.keep
  | back i => exact h.back i

theorem run (h : s.Traced g) (steps : List Step) : (s.run steps).Traced g := by
  induction steps generalizing s with
  | nil => exact h
  | cons t steps ih => exact ih (h.step t)

end Traced

/-- A session whose places and faults are all counted from the text before them. -/
structure Coherent (settings : Settings) (text : List Char) (line : Nat) (s : Session) : Prop where
  whole : s.reader.place.text = text
  place : s.reader.place.location.Coherent settings.width text line
  kept : ∀ p ∈ s.kept, p.location.Coherent settings.width text line
  faults : ∀ e ∈ s.faults, ∃ l, e.location? = some l ∧ l.Coherent settings.width text line

/-- Whatever the steps of a session are and whether they succeed, the places it is at and comes back to and those that
its faults name are coherent, where every line of the text has a number. -/
theorem run_coherent (text : String) (settings : Settings) (line : Nat)
    (numbered : line + text.toList.count '\n' ≤ Position.lastNumber) (steps : List Step) :
    ((start text settings line).run steps).Coherent settings text.toList line := by
  -- the session runs beside itself
  let g : Counting := .ofText (Eq.refl settings.lenient) text line line
  have begun : (start text settings line).Traced g := by
    refine ⟨Counting.readers_start, ?_, ?_⟩
    · intro p hp
      cases hp
    · intro e he
      cases he
  have counted {p p' : Place} (h : g.Point p p') : p.Counted settings.width text.toList line := by
    obtain ⟨n, rfl, -⟩ := h
    exact (Place.Counted.start _ _ _).forward n
  have traced : ((start text settings line).run steps).Traced g := begun.run steps
  refine ⟨(counted traced.readers.point).whole, (counted traced.readers.point).coherent numbered, ?_, ?_⟩
  · intro p hp
    exact (counted (traced.kept p hp)).coherent numbered
  · intro e he
    obtain ⟨p, p', point, located⟩ := (traced.faults e he).located
    exact ⟨p.location, located, (counted point).coherent numbered⟩

/-- A session that goes back from the last line that has a number. -/
theorem run_coherent_last_line :
    let text := "a\n1,2)"
    let line := Position.lastNumber - 1
    line + text.toList.count '\n' ≤ Position.lastNumber ∧
      ((start text {} line).run [.keep, .operation (.take 2), .operation .arguments, .operation (.take 9),
        .back 0]).Coherent {} text.toList line := by
  intro text line
  have numbered : line + text.toList.count '\n' ≤ Position.lastNumber := by decide
  exact ⟨numbered, run_coherent text {} line numbered _⟩

example :
    ((start "a\nbc" {} 4).run [.keep, .operation (.take 3), .operation (.take 9), .back 0]).faults =
      [.unexpectedEnd "9 characters" ⟨5, 1, 3⟩] := by decide

end Session

end Stylesheet
