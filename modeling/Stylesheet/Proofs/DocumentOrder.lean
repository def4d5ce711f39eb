import Stylesheet.Proofs.Derivation
import Stylesheet.Proofs.SourceOrder

namespace Stylesheet

/-- The places of a rule set and of its declarations. -/
def RuleSet.places (r : RuleSet) : List (Option Position) := r.position :: r.declarations.map Declaration.position

mutual

/-- The places of a statement and of all that stands in it: first its own, then those of its declarations or of the
statements in it. -/
def Statement.places : Statement → List (Option Position)
  | .style r => r.rules.places
  | .descriptors _ _ rules => rules.places
  | .grouping _ _ ⟨ss, p, _, _⟩ => p :: Statement.placesOf ss
  | .keyframes _ _ ⟨ss, p, _, _⟩ => p :: Statement.placesOf ss
  | .imports _ _ p _ => [p]
  | .charset _ p _ => [p]
  | .naming _ _ p _ => [p]
termination_by structural s => s

def Statement.placesOf : List Statement → List (Option Position)
  | [] => []
  | s :: ss => s.places ++ Statement.placesOf ss
termination_by structural ss => ss

end

theorem Settings.width_pos (s : Settings) (c : Char) : 0 < s.width c := by
  unfold width
  split
  · exact Nat.one_pos
  · exact Char.utf8Size_pos c

namespace Place

variable {width : Char → Nat} {p q : Place}

theorem before_next (positive : ∀ c, 0 < width c) {c : Char} {rest : List Char} (h : p.rest = c :: rest) :
    p.position.before (p.next width).position = true := by
  have column := positive c
  unfold next
  rw [h]
  dsimp only
  split
  · simp [Position.before, position]
  · simpa [Position.before, position] using column

/-- Where some of the text is taken, the position that is reached is a later one. -/
theorem Ahead.before (positive : ∀ c, 0 < width c) (h : Ahead width p q) (shorter : q.rest.length < p.rest.length) :
    p.position.before q.position = true := by
  obtain ⟨n, rfl⟩ := h
  rw [forward_rest, List.length_drop] at shorter
  cases n with
  | zero => omega
  | succ n =>
    cases hr : p.rest with
    | nil => simp [hr] at shorter
    | cons c rest =>
      have first := before_next positive hr
      have others : ((p.next width).forward width n).position.before (p.next width).position = false :=
        (ahead_forward width n _).not_before
      rw [forward]
      simp only [Position.before, Bool.or_eq_false_iff, Bool.and_eq_false_iff, decide_eq_false_iff_not,
        beq_eq_false_iff_ne, Bool.or_eq_true, Bool.and_eq_true, decide_eq_true_eq, beq_iff_eq] at first others ⊢
      omega

end Place

namespace Reader

variable {r s t : Reader}

/-- The position that a reader is at. -/
def position (r : Reader) : Position := r.place.position

theorem Reaches.not_before (h : r.Reaches s) : s.position.before r.position = false := h.ahead.not_before

theorem Passes.before (h : r.Passes s) : r.position.before s.position = true :=
  h.ahead.before r.settings.width_pos h.shorter

end Reader

/-- All the places are there, from `p` on and before `q`, and each stands before the next one. -/
def Position.Climb (p q : Position) (ps : List (Option Position)) : Prop :=
  ∃ xs : List Position, ps = xs.map some ∧ xs.Pairwise (fun x y => x.before y = true) ∧
    ∀ x ∈ xs, x.before p = false ∧ x.before q = true

theorem Position.climb_map_some {p q : Position} {xs : List Position} :
    Climb p q (xs.map some) ↔
      xs.Pairwise (fun x y => x.before y = true) ∧ ∀ x ∈ xs, x.before p = false ∧ x.before q = true := by
  constructor
  · rintro ⟨ys, same, order, inside⟩
    obtain rfl := List.map_injective_iff.mpr (fun _ _ => Option.some.inj) same
    exact ⟨order, inside⟩
  · rintro ⟨order, inside⟩
    exact ⟨xs, rfl, order, inside⟩

namespace Position.Climb

variable {p q m : Position} {as bs : List (Option Position)}

theorem nil (p q : Position) : Climb p q [] := ⟨[], rfl, .nil, by simp⟩

theorem single (h : p.before q = true) : Climb p q [some p] := by
  refine ⟨[p], rfl, List.pairwise_singleton _ p, fun x hx => ?_⟩
  rw [List.mem_singleton.mp hx]
  exact ⟨before_irrefl p, h⟩

theorem append (ha : Climb p m as) (hb : Climb m q bs) (hp : m.before p = false) (hq : q.before m = false) :
    Climb p q (as ++ bs) := by
  obtain ⟨xs, rfl, first, inside⟩ := ha
  obtain ⟨ys, rfl, second, behind⟩ := hb
  refine ⟨xs ++ ys, List.map_append.symm, List.pairwise_append.mpr ⟨first, second, fun x hx y hy => ?_⟩, ?_⟩
  · exact before_of_not_before (inside x hx).2 (behind y hy).1
  · intro x hx
    rcases List.mem_append.mp hx with hx | hx
    · exact ⟨(inside x hx).1, before_of_not_before (inside x hx).2 hq⟩
    · exact ⟨not_before_trans hp (behind x hx).1, (behind x hx).2⟩

/-- The same places between wider bounds. -/
theorem widen {p' q' : Position} (h : Climb p q as) (hp : p.before p' = false) (hq : q'.before q = false) :
    Climb p' q' as := by
  obtain ⟨xs, rfl, order, inside⟩ := h
  refine ⟨xs, rfl, order, fun x hx => ⟨not_before_trans hp (inside x hx).1, ?_⟩⟩
  exact before_of_not_before (inside x hx).2 hq

end Position.Climb

open Position (Climb)

namespace RuleSet

variable {p : Position} {r s : Reader} {rules : RuleSet}

theorem Collected.climb (h : Collected p r rules s) :
    Climb r.position s.position (rules.declarations.map Declaration.position) := by
  induction h with
  | empty moved => exact .nil _ _
  | passed before moved ih => exact ih.widen (Position.before_irrefl _) moved.not_before
  | @added rules s t comments d before declared last ih =>
    obtain ⟨position, shorter⟩ := Declaration.of_read declared
    have taken : s.Passes t := ⟨(Declaration.read_steady _).reaches declared, shorter⟩
    have more : Climb s.position t.position [d.position] := by
      rw [position]
      exact .single taken.before
    rw [last]
    simp only [withDeclarations, List.map_append, List.map_cons, List.map_nil]
    exact ih.append more before.reaches.not_before taken.toReaches.not_before

/-- A rule set that begins at `u` before its declarations are collected. -/
theorem Collected.climb_places {u : Reader} (h : Collected u.position r rules s) (start : u.Passes r) :
    Climb u.position s.position rules.places := by
  have inside := h.climb
  have first := Climb.single start.before
  rw [places, h.position]
  exact first.append inside start.toReaches.not_before h.reaches.not_before

end RuleSet

namespace Statement

mutual

theorem Taken.climb {owner : Owner} {first : Bool} {r s : Reader} {st : Statement} :
    Taken owner first r st s → Climb r.position s.position st.places
  | .style _ start block => block.climb_places start
  | .descriptors start block => block.climb_places start
  | .grouping start body =>
    (Climb.single start.before).append body.climb start.toReaches.not_before body.reaches.not_before
  | .keyframes start body =>
    (Climb.single start.before).append body.climb start.toReaches.not_before body.reaches.not_before
  | .imports start => .single start.before
  | .charset start => .single start.before
  | .naming start => .single start.before

theorem AllTaken.climb {owner : Owner} {first : Bool} {r s : Reader} {ss : List Statement} :
    AllTaken owner first r ss s → Climb r.position s.position (placesOf ss)
  | .nil _ => .nil _ _
  | .cons moved head tail => by
    have this := head.climb.append tail.climb head.passes.toReaches.not_before tail.reaches.not_before
    exact this.widen moved.not_before (Position.before_irrefl _)

end

end Statement

namespace Sheet

/-- Every statement and every declaration of a sheet that was read has a place, at whatever depth, and each stands
before the next one in the order of writing. The sheet is what was taken from the text one piece behind the other:
sorting in put every declaration behind those read before it. -/
theorem parse_source_order {settings : Settings} {text : String} {sheet : Sheet}
    (h : (parse settings text).1 = .ok sheet) :
    (∃ ps : List Position, Statement.placesOf sheet.contents = ps.map some ∧
      ps.Pairwise fun p q => p.before q = true) ∧
    ∃ s, Statement.AllTaken .sheet true (Reader.start (withoutMark text) settings 1) sheet.contents s := by
  obtain ⟨s, taken⟩ := allTaken_of_parse h
  obtain ⟨ps, places, order, -⟩ := taken.climb
  exact ⟨⟨ps, places, order⟩, s, taken⟩

theorem parse_source_order_nested :
    ∃ sheet, (parse { multibyte := false } "@media é{a{b:c;d;e:f}}g{}").1 = .ok sheet ∧
      (∃ ps : List Position, Statement.placesOf sheet.contents = ps.map some ∧
        ps.Pairwise fun p q => p.before q = true) ∧
      ∃ s, Statement.AllTaken .sheet true
        (Reader.start (withoutMark "@media é{a{b:c;d;e:f}}g{}") { multibyte := false } 1) sheet.contents s := by
  have read : (parse { multibyte := false } "@media é{a{b:c;d;e:f}}g{}").1.toOption.isSome = true := by decide +kernel
  cases h : (parse { multibyte := false } "@media é{a{b:c;d;e:f}}g{}").1 with
  | error e =>
    rw [h] at read
    cases read
  | ok sheet => exact ⟨sheet, rfl, parse_source_order h⟩

end Sheet

end Stylesheet
