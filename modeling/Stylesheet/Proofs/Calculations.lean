import Stylesheet.Proofs.Progress

namespace Stylesheet

open Read (AdvancesAt Advances)

namespace CalcToken

variable {α : Type}

def operator? : CalcToken α → Option Char
  | operator symbol => some symbol
  | _ => none

/-- What a calculation is made of but for its parentheses. -/
def isTerm : CalcToken α → Bool
  | operand _ | operator _ => true
  | opening | closing => false

/-- How much deeper a token leads into parentheses. -/
def delta : CalcToken α → Int
  | opening => 1
  | closing => -1
  | _ => 0

/-- Opening parentheses less closing ones. -/
def nesting (tokens : List (CalcToken α)) : Int := tokens.foldr (fun token depth => token.delta + depth) 0

@[simp] theorem nesting_nil : nesting ([] : List (CalcToken α)) = 0 := rfl

@[simp] theorem nesting_cons (token : CalcToken α) (tokens : List (CalcToken α)) :
    nesting (token :: tokens) = token.delta + nesting tokens := rfl

/-- Behind `depth` open parentheses, none is closed that is not open, and all are closed in the end. -/
structure Closes (depth : Int) (tokens : List (CalcToken α)) : Prop where
  inside : ∀ before, before <+: tokens → 0 ≤ depth + nesting before
  closed : depth + nesting tokens = 0

/-- No parenthesis is closed that is not open, and all are closed in the end. -/
abbrev Balanced (tokens : List (CalcToken α)) : Prop := Closes 0 tokens

namespace Closes

variable {depth : Int} {token : CalcToken α} {tokens : List (CalcToken α)}

theorem nil : Closes 0 ([] : List (CalcToken α)) := by
  refine ⟨fun before h => ?_, rfl⟩
  rw [List.prefix_nil.mp h]
  simp

theorem cons (inside : 0 ≤ depth) (h : Closes (depth + token.delta) tokens) : Closes depth (token :: tokens) := by
  constructor
  · intro before hb
    rcases List.prefix_cons_iff.mp hb with rfl | ⟨more, rfl, hm⟩
    · simpa using inside
    · have deeper := h.inside more hm
      rw [nesting_cons]
      omega
  · have closed := h.closed
    rw [nesting_cons]
    omega

/-- A parenthesis that is not open is not closed. -/
theorem not_closing : ¬ Balanced (closing :: tokens) := by
  intro h
  have first := h.inside [closing] ⟨tokens, rfl⟩
  simp [delta] at first

end Closes

end CalcToken

namespace Calculation

open CalcToken

variable {inner : Read Value} {r s t : Reader} {depth depth' : Nat} {after after' : Bool} {token : CalcToken Value}
  {placed : List (CalcToken Value × Place)}

/-- The state behind `n` characters. -/
def beyond (r : Reader) (n : Nat) : Reader := { r with place := r.place.forward r.settings.width n }

theorem beyond_rest {c : Char} {l : List Char} (left : r.place.rest = c :: l) : (beyond r 1).place.rest = l := by
  rw [beyond, Place.forward_rest, left]
  rfl

/-- The operators, where those that are signs must have blanks on both sides. -/
structure IsOperator (c : Char) (p : Place) : Prop where
  here : p.charAt 0 = some c
  known : c ∈ ['+', '-', '*', '/']
  spaced : c = '+' ∨ c = '-' → (p.charAt (-1)).any Text.isBlank = true ∧ (p.charAt 1).any Text.isBlank = true

/-- The token that is taken where a reading is, with the parentheses open and whether an operand came last, before and
behind it. -/
inductive Taken (inner : Read Value) (r : Reader) : Nat → Bool → CalcToken Value → Nat → Bool → Reader → Prop
  | opening {depth : Nat} {after : Bool} : r.place.comes "(" = true →
    Taken inner r depth after .opening (depth + 1) after (beyond r 1)
  | closing {depth : Nat} {after : Bool} : r.place.comes ")" = true →
    Taken inner r depth after .closing (depth - 1) after (beyond r 1)
  | operator {depth : Nat} {c : Char} : IsOperator c r.place →
    Taken inner r depth true (.operator c) depth false (beyond r 1)
  | operand {depth : Nat} {v : Value} {s : Reader} : r.place.comes "(" = false → r.place.comes ")" = false →
    inner.outcome r = (.ok v, s) → Taken inner r depth false (.operand v) depth true s

theorem isOperator_of_readOperator {c : Char} (h : Value.readOperator.outcome r = (.ok c, s)) :
    IsOperator c r.place ∧ s = beyond r 1 := by
  rw [Value.readOperator, Read.outcome_bind, Read.outcome_place, Read.following_ok] at h
  cases left : r.place.rest with
  | nil =>
    rw [left] at h
    cases h
  | cons d rest =>
    rw [left] at h
    dsimp only at h
    split at h
    · cases h
    · next known =>
      split at h
      · cases h
      · next spaced =>
        cases h
        refine ⟨⟨?_, Decidable.not_not.mp known, fun sign => ?_⟩, rfl⟩
        · simp [Place.charAt, left]
        · have blanks : (r.place.passed.head?.any Text.isBlank && rest.head?.any Text.isBlank) = true := by
            simpa [sign] using spaced
          rw [Bool.and_eq_true, List.head?_eq_getElem?, List.head?_eq_getElem?] at blanks
          refine ⟨blanks.1, ?_⟩
          have second : r.place.charAt 1 = rest[0]? := by simp [Place.charAt, left]
          rw [second]
          exact blanks.2

theorem taken_of_readToken (h : (Value.readToken inner depth after).outcome r = (.ok (token, depth', after'), s)) :
    Taken inner r depth after token depth' after' s := by
  rw [Value.readToken, Read.outcome_bind, Read.outcome_place, Read.following_ok] at h
  split at h
  · next opens =>
    cases h
    exact .opening opens
  · next unopened =>
    rw [Bool.not_eq_true] at unopened
    split at h
    · next closes =>
      cases h
      exact .closing closes
    · next unclosed =>
      rw [Bool.not_eq_true] at unclosed
      cases after with
      | true =>
        obtain ⟨c, t, read, h⟩ := Read.ok_of_bind h
        cases h
        obtain ⟨operator, rfl⟩ := isOperator_of_readOperator read
        exact .operator operator
      | false =>
        obtain ⟨v, t, read, h⟩ := Read.ok_of_bind h
        cases h
        exact .operand unopened unclosed read

/-- The tokens taken from a state on up to the end of the calculation, each with the place behind the gap before it. -/
inductive Run (inner : Read Value) : Nat → Bool → Reader → List (CalcToken Value × Place) → Reader → Prop
  | ended {after : Bool} {r : Reader} : r.place.comes ")" = true ∨ r.place.atEnd = true → Run inner 0 after r [] r
  | round {depth depth' : Nat} {after after' : Bool} {r s t u e : Reader} {cs ds : List Comment}
    {token : CalcToken Value} {placed : List (CalcToken Value × Place)} :
    ¬ (r.place.comes ")" = true ∧ depth = 0) → r.place.atEnd = false → Read.gap.outcome r = (.ok cs, s) →
    Taken inner s depth after token depth' after' t → Read.gap.outcome t = (.ok ds, u) →
    Run inner depth' after' u placed e → Run inner depth after r ((token, s.place) :: placed) e

/-- What is taken is some of the text. -/
theorem Taken.passes (hi : Advances inner) (h : Taken inner r depth after token depth' after' s) : r.Passes s := by
  have one (nonempty : r.place.rest ≠ []) : r.Passes (beyond r 1) :=
    AdvancesAt.skip Nat.one_pos nonempty () _ rfl
  have comes {l : String} (hl : r.place.comes l = true) : r.place.rest ≠ [] := by
    intro left
    rw [Place.comes_of_nil left] at hl
    cases hl
  cases h with
  | opening opens => exact one (comes opens)
  | closing closes => exact one (comes closes)
  | operator operator =>
    refine one fun left => ?_
    have here := operator.here
    simp [Place.charAt, left] at here
  | operand _ _ read => exact hi r _ s read

/-- The run of a loop that has characters enough left is the run of its rounds. -/
theorem run_of_readTokens (hi : Advances inner) {n : Nat} {tokens : List (CalcToken Value)}
    (enough : r.place.rest.length ≤ n)
    (h : (Value.readTokens inner n depth after).outcome r = (.ok tokens, s)) :
    ∃ placed, tokens = placed.map Prod.fst ∧ Run inner depth after r placed s := by
  induction n using Nat.strongRecOn generalizing depth after r tokens with
  | ind n ih =>
    rw [Value.readTokens, Read.outcome_bind, Read.outcome_place, Read.following_ok] at h
    split at h
    · next closed =>
      cases h
      rw [Bool.and_eq_true, decide_eq_true_eq] at closed
      obtain ⟨closes, rfl⟩ := closed
      exact ⟨[], rfl, .ended (.inl closes)⟩
    · next going =>
      rw [Bool.and_eq_true, decide_eq_true_eq] at going
      split at h
      · next ended =>
        split at h
        · next outside =>
          cases h
          subst outside
          exact ⟨[], rfl, .ended (.inr ended)⟩
        · cases h
      · next more =>
        rw [Bool.not_eq_true] at more
        obtain ⟨_, t, before, h⟩ := Read.ok_of_bind h
        obtain ⟨cs, before⟩ := Read.ok_of_discard before
        obtain ⟨⟨token, depth', after'⟩, u, read, h⟩ := Read.ok_of_bind h
        obtain ⟨_, w, behind, h⟩ := Read.ok_of_bind h
        obtain ⟨ds, behind⟩ := Read.ok_of_discard behind
        obtain ⟨later, x, again, h⟩ := Read.ok_of_bind h
        cases h
        have taken := taken_of_readToken read
        have passed : r.Passes w :=
          ((gap_steady.reaches before).passes (taken.passes hi)).reaches (gap_steady.reaches behind)
        have less : w.place.rest.length < n := Nat.lt_of_lt_of_le passed.shorter enough
        rw [Read.outcome_shorter, dif_pos less] at again
        obtain ⟨placed, rfl, run⟩ := ih _ less (Nat.le_refl _) again
        exact ⟨(token, t.place) :: placed, rfl, .round going more before taken behind run⟩

namespace Run

/-- What is said of the tokens of a run, by what one token does. -/
theorem ahead (hi : Advances inner) (h : Run inner depth after r placed s) :
    r.Reaches s ∧ ∀ token p, (token, p) ∈ placed → Place.Ahead r.settings.width r.place p := by
  induction h with
  | ended => exact ⟨.refl _, by simp⟩
  | @round depth depth' after after' r s t u e cs ds token placed going more before taken behind run ih =>
    have first : r.Reaches s := gap_steady.reaches before
    have round : r.Reaches u := (first.passes (taken.passes hi)).toReaches.trans (gap_steady.reaches behind)
    refine ⟨round.trans ih.1, fun token' p mem => ?_⟩
    rcases List.mem_cons.mp mem with here | later
    · cases here
      exact first.ahead
    · have further := ih.2 token' p later
      rw [round.settings] at further
      exact round.ahead.trans further

/-- Whatever counts as an operator is one where it stands. -/
theorem isOperator (h : Run inner depth after r placed s) {c : Char} {p : Place}
    (mem : (CalcToken.operator c, p) ∈ placed) : IsOperator c p := by
  induction h with
  | ended => cases mem
  | round going more before taken behind run ih =>
    rcases List.mem_cons.mp mem with here | later
    · cases here
      cases taken with
      | operator operator => exact operator
    · exact ih later

/-- Terms take turns, from an operand on, or from an operator on where an operand came last. -/
theorem turns (h : Run inner depth after r placed s) {i : Nat} {term : CalcToken Value}
    (hi : ((placed.map Prod.fst).filter isTerm)[i]? = some term) :
    if (i + after.toNat) % 2 = 0 then term.operand?.isSome = true
    else ∃ c ∈ ['+', '-', '*', '/'], term.operator? = some c := by
  induction h generalizing i with
  | ended => cases hi
  | round going more before taken behind run ih =>
    cases taken with
    | opening => exact ih hi
    | closing => exact ih hi
    | operator operator =>
      cases i with
      | zero =>
        cases hi
        exact ⟨_, operator.known, rfl⟩
      | succ i =>
        have parity : (i + 1 + true.toNat) % 2 = (i + false.toNat) % 2 := by
          simp only [Bool.toNat_true, Bool.toNat_false]
          omega
        rw [parity]
        exact ih hi
    | operand _ _ _ =>
      cases i with
      | zero =>
        cases hi
        rfl
      | succ i =>
        exact ih hi

/-- From a state behind a gap on, the parentheses are closed as they are opened. -/
theorem closes (h : Run inner depth after r placed s) (stops : Stops r.place.rest) :
    Closes depth (placed.map Prod.fst) := by
  induction h with
  | ended => exact .nil
  | @round depth depth' after after' r s t u e cs ds token placed going more before taken behind run ih =>
    have rest := ih (Read.stops_of_gap behind)
    apply Closes.cons (Int.natCast_nonneg _)
    rw [Read.outcome_gap_of_stops stops] at before
    cases before
    cases taken with
    | opening => simpa [delta] using rest
    | closing closes =>
      have positive : 0 < depth := Nat.pos_of_ne_zero fun outside => going ⟨closes, outside⟩
      have less : ((depth - 1 : Nat) : Int) = depth + closing.delta (α := Value) := by
        change ((depth - 1 : Nat) : Int) = depth + -1
        omega
      rw [← less]
      exact rest
    | operator => simpa [delta] using rest
    | operand => simpa [delta] using rest

end Run

/-- Behind a gap the parenthesis stands that closes the calculation. -/
def ClosesAtOnce (l : List Char) : Prop := ∃ texts g behind, IsGap texts g ∧ g ≠ [] ∧ l = g ++ ')' :: behind

/-- No gap begins with a closing parenthesis. -/
theorem not_closesAtOnce_of_parenthesis {l : List Char} : ¬ ClosesAtOnce (')' :: l) := by
  rintro ⟨texts, g, behind, gap, nonempty, parts⟩
  cases gap with
  | nil => exact nonempty rfl
  | blank blank _ =>
    cases parts
    exact absurd blank (by decide)
  | comment => cases parts

/-- The parentheses of a run from its beginning are balanced, unless the run is over at once. Then the parenthesis that
closes it comes first, and the others are balanced. -/
theorem Run.balanced (h : Run inner 0 after r placed s) :
    let tokens := placed.map Prod.fst
    (Balanced tokens ↔ ¬ ClosesAtOnce r.place.rest) ∧
      (Balanced tokens ∨ ∃ more, tokens = .closing :: more ∧ Balanced more) := by
  intro tokens
  cases h with
  | ended final =>
    have balanced : Balanced tokens := .nil
    refine ⟨iff_of_true balanced ?_, .inl balanced⟩
    rcases final with closes | ended
    · obtain ⟨-, rest, left⟩ := Place.comes_iff.mp closes
      rw [← left]
      exact not_closesAtOnce_of_parenthesis
    · rintro ⟨texts, g, behind, -, -, parts⟩
      have left : r.place.rest = [] := by simpa [Place.atEnd] using ended
      rw [left] at parts
      simp at parts
  | @round depth depth' after after' r t u w e cs ds token placed going more before taken behind run =>
    have rest := run.closes (Read.stops_of_gap behind)
    have closing_of (soon : ClosesAtOnce r.place.rest) : t.place.comes ")" = true := by
      obtain ⟨texts, g, l, gap, -, parts⟩ := soon
      obtain ⟨_, t', skipped, left, -⟩ := Read.Takes.gap gap (l := ')' :: l) (.cons (by decide) (by decide)) r parts
      rw [before] at skipped
      cases skipped
      exact Place.comes_iff.mpr ⟨by decide, l, left.symm⟩
    have balanced (inside : Closes token.delta (placed.map Prod.fst)) (other : t.place.comes ")" = false) :
        (Balanced tokens ↔ ¬ ClosesAtOnce r.place.rest) ∧
          (Balanced tokens ∨ ∃ more, tokens = .closing :: more ∧ Balanced more) := by
      have all : Balanced tokens := .cons (Int.le_refl 0) (by simpa using inside)
      refine ⟨iff_of_true all fun soon => ?_, .inl all⟩
      rw [closing_of soon] at other
      cases other
    cases taken with
    | opening opens =>
      obtain ⟨-, l, left⟩ := Place.comes_iff.mp opens
      exact balanced (by simpa [delta] using rest) (Place.comes_of_head left.symm rfl (by decide))
    | closing closes =>
      obtain ⟨-, l, left⟩ := Place.comes_iff.mp closes
      refine ⟨iff_of_false Closes.not_closing (not_not_intro ?_), .inr ⟨_, rfl, by simpa using rest⟩⟩
      rcases Read.gap_cases before with ⟨texts, g, gap, parts⟩ | ⟨-, ended⟩
      · refine ⟨texts, g, l, gap, fun empty => ?_, by rw [parts, ← left]; rfl⟩
        rw [empty, List.nil_append] at parts
        exact going ⟨Place.comes_iff.mpr ⟨by decide, l, by rw [parts]; exact left⟩, rfl⟩
      · rw [ended] at left
        cases left
    | operator operator =>
      have here := operator.here
      have other : t.place.comes ")" = false := by
        rw [Bool.eq_false_iff]
        intro closes
        obtain ⟨-, l, left⟩ := Place.comes_iff.mp closes
        have known := operator.known
        simp only [Place.charAt, ← left] at here
        cases here
        exact absurd known (by decide)
      exact balanced (by simpa [delta] using rest) other
    | operand _ other _ => exact balanced (by simpa [delta] using rest) other

/-- Only parentheses with gaps around them stand before what ends a calculation; where the text ends with it, its last
comment need not. -/
inductive OnlyParentheses (ending : List Char) : List Char → Prop
  | gap {texts : List String} {g : List Char} : IsGap texts g → OnlyParentheses ending (g ++ ending)
  | unclosed {l : List Char} : ending = [] → EndsInComment l → OnlyParentheses ending l
  | parenthesis {texts : List String} {g l : List Char} {c : Char} : IsGap texts g → c = '(' ∨ c = ')' →
    OnlyParentheses ending l → OnlyParentheses ending (g ++ c :: l)

namespace OnlyParentheses

variable {ending l : List Char}

theorem behind_gap {texts : List String} {g : List Char} (hg : IsGap texts g) (h : OnlyParentheses ending l) :
    OnlyParentheses ending (g ++ l) := by
  cases h with
  | gap more =>
    rw [← List.append_assoc]
    exact .gap (hg.append more)
  | unclosed ended comment =>
    obtain ⟨more, g', body, gap, rfl, never⟩ := comment
    refine .unclosed ended ⟨_, g ++ g', body, hg.append gap, ?_, never⟩
    rw [List.append_assoc]
  | parenthesis more bracket h =>
    rw [← List.append_assoc]
    exact .parenthesis (hg.append more) bracket h

theorem ending_of_nil (h : OnlyParentheses ending l) (empty : l = []) : ending = [] := by
  cases h with
  | gap => exact (List.append_eq_nil_iff.mp empty).2
  | unclosed ended _ => exact ended
  | parenthesis => simp at empty

/-- Also the gap that takes the rest of the text leads to its end. -/
theorem of_gap {r s : Reader} {cs : List Comment} (skipped : Read.gap.outcome r = (.ok cs, s))
    (h : OnlyParentheses ending s.place.rest) : OnlyParentheses ending r.place.rest := by
  rcases Read.gap_cases skipped with ⟨texts, g, gap, parts⟩ | ⟨comment, ended⟩
  · rw [parts]
    exact h.behind_gap gap
  · exact .unclosed (h.ending_of_nil ended) comment

end OnlyParentheses

namespace Run

/-- A run without terms passes parentheses only. -/
theorem onlyParentheses (h : Run inner depth after r placed s) (bare : (placed.map Prod.fst).filter isTerm = []) :
    OnlyParentheses s.place.rest r.place.rest := by
  induction h with
  | ended => exact .gap .nil
  | @round depth depth' after after' r t u w e cs ds token placed going more before taken behind run ih =>
    apply OnlyParentheses.of_gap before
    cases taken with
    | opening opens =>
      have rest := OnlyParentheses.of_gap behind (ih bare)
      obtain ⟨-, l, left⟩ := Place.comes_iff.mp opens
      rw [beyond_rest left.symm] at rest
      rw [← left]
      exact .parenthesis .nil (.inl rfl) rest
    | closing closes =>
      have rest := OnlyParentheses.of_gap behind (ih bare)
      obtain ⟨-, l, left⟩ := Place.comes_iff.mp closes
      rw [beyond_rest left.symm] at rest
      rw [← left]
      exact .parenthesis .nil (.inr rfl) rest
    | operator => cases bare
    | operand => cases bare

/-- What follows the last term, if that is an operator. -/
theorem trailing (h : Run inner depth after r placed s) {c : Char}
    (last : ((placed.map Prod.fst).filter isTerm).getLast? = some (.operator c)) :
    ∃ p l, (.operator c, p) ∈ placed ∧ p.rest = c :: l ∧ OnlyParentheses s.place.rest l := by
  induction h with
  | ended => cases last
  | @round depth depth' after after' r t u w e cs ds token placed going more before taken behind run ih =>
    rw [List.map_cons, List.filter_cons] at last
    by_cases bare : (placed.map Prod.fst).filter isTerm = []
    · have rest := OnlyParentheses.of_gap behind (run.onlyParentheses bare)
      rw [bare] at last
      cases taken with
      | opening => cases last
      | closing => cases last
      | operator operator =>
        cases last
        have here := operator.here
        cases left : t.place.rest with
        | nil => simp [Place.charAt, left] at here
        | cons d l =>
          have same : d = c := by simpa [Place.charAt, left] using here
          subst same
          rw [beyond_rest (c := d) left] at rest
          exact ⟨t.place, l, List.mem_cons_self, left, rest⟩
      | operand => cases last
    · have later : ((placed.map Prod.fst).filter isTerm).getLast? = some (.operator c) := by
        split at last
        · rwa [List.getLast?_cons_of_ne_nil bare] at last
        · exact last
      obtain ⟨p, l, mem, left, rest⟩ := ih later
      exact ⟨p, l, List.mem_cons_of_mem _ mem, left, rest⟩

end Run

/-- How a calculation is read: a name, the parenthesis behind it, a run of tokens, and the parenthesis that closes the
calculation or the end of the text. -/
structure IsReading (inner : Read Value) (r : Reader) (v : Value) (placed : List (CalcToken Value × Place)) (s : Reader) :
    Prop where
  value : ∃ name, v = .calculation name (placed.map Prod.fst) (some r.place.position)
  run : ∃ body ending, r.Passes body ∧ (r.place.identifier r.settings).2.rest = '(' :: body.place.rest ∧
    Run inner 0 false body placed ending ∧
    (ending.place.rest = ')' :: s.place.rest ∨ ending.place.rest = [] ∧ s.place.rest = [])

theorem isReading_of_readCalculation {v : Value} (hi : Advances inner)
    (h : (Value.readCalculation inner).outcome r = (.ok v, s)) : ∃ placed, IsReading inner r v placed s := by
  rw [Value.readCalculation, Read.outcome_bind, Read.outcome_place, Read.following_ok] at h
  obtain ⟨name, t, named, h⟩ := Read.ok_of_bind h
  have passed := Advances.identifier true r name t named
  have behind : (r.place.identifier r.settings).2 = t.place := by
    rw [Read.outcome_identifier] at named
    exact congrArg (fun o => o.2.place) named
  rw [Read.outcome_bind, Read.outcome_place, Read.following_ok] at h
  split at h
  · cases h
  · next opens =>
    obtain ⟨-, rest, left⟩ := Place.comes_iff.mp (by simpa using opens)
    obtain ⟨_, body, skipped, h⟩ := Read.ok_of_bind h
    cases skipped
    rw [Read.outcome_bind, Read.outcome_left, Read.following_ok] at h
    obtain ⟨tokens, ending, read, h⟩ := Read.ok_of_bind h
    obtain ⟨placed, rfl, run⟩ := run_of_readTokens hi (Nat.le_refl _) read
    have start : (r.place.identifier r.settings).2.rest = '(' :: (beyond t 1).place.rest := by
      rw [behind, beyond_rest left.symm, ← left]
      rfl
    have reaches : r.Passes (beyond t 1) := passed.reaches ⟨rfl, Place.ahead_forward _ 1 _⟩
    rw [Read.outcome_bind, Read.outcome_place, Read.following_ok] at h
    split at h
    · obtain ⟨_, u, closed, h⟩ := Read.ok_of_bind h
      obtain ⟨_, closed⟩ := Read.ok_of_discard closed
      cases h
      exact ⟨placed, ⟨name, rfl⟩, _, _, reaches, start, run, .inl (Read.rest_of_literal closed)⟩
    · next ended =>
      cases h
      have final : s.place.rest = [] := by simpa [Place.atEnd] using ended
      exact ⟨placed, ⟨name, rfl⟩, _, _, reaches, start, run, .inr ⟨final, final⟩⟩

end Calculation

namespace Value

open CalcToken Calculation

variable {r s : Reader} {v : Value}

/-- Operands and operators take turns in a calculation, from an operand on, and whatever counts as an operator is one
where it stands in the text: a sign has blanks on both sides. -/
theorem calculation_alternates (h : readCalculationHere.outcome r = (.ok v, s)) :
    ∃ placed, IsReading (innerIn r.place.rest.length) r v placed s ∧
      (∀ i term, ((placed.map Prod.fst).filter isTerm)[i]? = some term →
        if i % 2 = 0 then term.operand?.isSome = true
        else ∃ c ∈ ['+', '-', '*', '/'], term.operator? = some c) ∧
      ∀ c p, (.operator c, p) ∈ placed → Place.Ahead r.settings.width r.place p ∧ IsOperator c p := by
  rw [readCalculationHere, Read.outcome_bind, Read.outcome_left, Read.following_ok] at h
  obtain ⟨placed, reading⟩ := isReading_of_readCalculation (innerIn_advances _) h
  obtain ⟨body, ending, passed, -, run, -⟩ := reading.run
  refine ⟨placed, reading, fun i term => run.turns, fun c p mem => ⟨?_, run.isOperator mem⟩⟩
  have ahead := (run.ahead (innerIn_advances _)).2 _ p mem
  rw [passed.settings] at ahead
  exact passed.ahead.trans ahead

/-- The tokens of a calculation, where the value is one. -/
def tokens? : Value → Option (List (CalcToken Value))
  | calculation _ tokens _ => some tokens
  | _ => none

/-- Nested parentheses, comments and signs. -/
theorem calculation_alternates_nested :
    let r := Reader.start "calc( (1px/*-*/ + -2px)* 3 - (4px))" {} 1
    ∃ v s, readCalculationHere.outcome r = (.ok v, s) ∧
      ∃ placed, IsReading (innerIn r.place.rest.length) r v placed s ∧
        (∀ i term, ((placed.map Prod.fst).filter isTerm)[i]? = some term →
          if i % 2 = 0 then term.operand?.isSome = true
          else ∃ c ∈ ['+', '-', '*', '/'], term.operator? = some c) ∧
        ∀ c p, (.operator c, p) ∈ placed → Place.Ahead r.settings.width r.place p ∧ IsOperator c p := by
  intro r
  have known : (readCalculationHere.outcome r).1.toOption.isSome = true := by decide +kernel
  rcases read : readCalculationHere.outcome r with ⟨e | v, s⟩
  · rw [read] at known
    cases known
  · exact ⟨v, s, rfl, calculation_alternates read⟩

/-- The parentheses of a calculation are balanced unless it is over behind the gap that it begins with, where the
parenthesis that closes it is taken for one of its own; the others are balanced then. If its last term is an operator,
only parentheses stand between that and its end. -/
theorem calculation_closed (h : readCalculationHere.outcome r = (.ok v, s)) :
    ∃ placed, IsReading (innerIn r.place.rest.length) r v placed s ∧
      let tokens := placed.map Prod.fst
      (Balanced tokens ↔ ¬ ClosesAtOnce (r.place.identifier r.settings).2.rest.tail) ∧
        (Balanced tokens ∨ ∃ more, tokens = .closing :: more ∧ Balanced more) ∧
        ∀ c, (tokens.filter isTerm).getLast? = some (.operator c) →
          ∃ p l ending, (.operator c, p) ∈ placed ∧ p.rest = c :: l ∧ OnlyParentheses ending l ∧
            (ending = ')' :: s.place.rest ∨ ending = [] ∧ s.place.rest = []) := by
  rw [readCalculationHere, Read.outcome_bind, Read.outcome_left, Read.following_ok] at h
  obtain ⟨placed, reading⟩ := isReading_of_readCalculation (innerIn_advances _) h
  obtain ⟨body, ending, -, start, run, final⟩ := reading.run
  have balanced := run.balanced
  refine ⟨placed, reading, ?_, balanced.2, fun c last => ?_⟩
  · rw [start, List.tail_cons]
    exact balanced.1
  · obtain ⟨p, l, mem, left, only⟩ := run.trailing last
    exact ⟨p, l, _, mem, left, only, final⟩

/-- A calculation that breaks off behind an operator, in a comment that takes the rest of the text. -/
theorem calculation_closed_by_comment :
    let r := Reader.start "calc((1px + ) /* )" {} 1
    ∃ v s, readCalculationHere.outcome r = (.ok v, s) ∧
      ∃ placed, IsReading (innerIn r.place.rest.length) r v placed s ∧
        let tokens := placed.map Prod.fst
        (Balanced tokens ↔ ¬ ClosesAtOnce (r.place.identifier r.settings).2.rest.tail) ∧
          (Balanced tokens ∨ ∃ more, tokens = .closing :: more ∧ Balanced more) ∧
          ∀ c, (tokens.filter isTerm).getLast? = some (.operator c) →
            ∃ p l ending, (.operator c, p) ∈ placed ∧ p.rest = c :: l ∧ OnlyParentheses ending l ∧
              (ending = ')' :: s.place.rest ∨ ending = [] ∧ s.place.rest = []) := by
  intro r
  have known : (readCalculationHere.outcome r).1.toOption.isSome = true := by decide +kernel
  rcases read : readCalculationHere.outcome r with ⟨e | v, s⟩
  · rw [read] at known
    cases known
  · exact ⟨v, s, rfl, calculation_closed read⟩

/-- A calculation may hold nothing but the parenthesis that closes it, and it may end with an operator. -/
theorem calculation_not_closed :
    let terms (text : String) := (readCalculationHere.outcome (Reader.start text {} 1)).1.toOption.bind tokens?
    (terms "calc( )").map (List.map delta) = some [-1] ∧
      (terms "calc(1px + )").map (List.map operator?) = some [none, some '+'] := by
  intro terms
  exact ⟨by decide +kernel, by decide +kernel⟩

end Value

end Stylesheet
