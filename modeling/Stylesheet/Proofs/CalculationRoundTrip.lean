import Stylesheet.Proofs.Calculations
import Stylesheet.Proofs.Counting
import Stylesheet.Proofs.ValueRoundTrip

namespace Stylesheet

open Read (Takes Advances)

namespace CalcToken

variable {α : Type}

/-- Tokens that a calculation goes on with where `depth` parentheses are open, behind an operand or not: none is closed
that is not open, and all are closed in the end, operands and operators take turns, and no sign comes last, as it needs a
blank behind it. -/
def isExpression (depth : Nat) (after : Bool) : List (CalcToken α) → Bool
  | [] => depth = 0
  | opening :: tokens => isExpression (depth + 1) after tokens
  | closing :: tokens => 0 < depth && isExpression (depth - 1) after tokens
  | operator c :: tokens =>
    after && c ∈ ['+', '-', '*', '/'] && !(c ∈ ['+', '-'] && tokens.isEmpty) && isExpression depth false tokens
  | operand _ :: tokens => !after && isExpression depth true tokens

end CalcToken

namespace Calculation

open CalcToken

variable {f : Layout} {inner : Read Value} {r s : Reader} {depth depth' n : Nat} {after after' : Bool}
  {token : CalcToken Value} {tokens : List (CalcToken Value)} {placed : List (CalcToken Value × Place)} {l : List Char}

section Completeness

/-- What counts as an operator is taken. -/
theorem readOperator_of_isOperator {c : Char} (h : IsOperator c r.place) :
    Value.readOperator.outcome r = (.ok c, beyond r 1) := by
  obtain ⟨rest, left⟩ : ∃ rest, r.place.rest = c :: rest := by
    have here := h.here
    cases left : r.place.rest with
    | nil => simp [Place.charAt, left] at here
    | cons d rest => exact ⟨rest, by simpa [Place.charAt, left] using here⟩
  have blanks : ((c = '+' || c = '-') && !(r.place.passed.head?.any Text.isBlank && rest.head?.any Text.isBlank)) =
      false := by
    by_cases sign : c = '+' ∨ c = '-'
    · have spaced := h.spaced sign
      have second : r.place.charAt 1 = rest.head? := by simp [Place.charAt, left, List.head?_eq_getElem?]
      have before : r.place.charAt (-1) = r.place.passed.head? := (List.head?_eq_getElem? ..).symm
      rw [second, before] at spaced
      rw [spaced.1, spaced.2, Bool.and_true, Bool.not_true, Bool.and_false]
    · rw [not_or] at sign
      simp [sign]
  rw [Value.readOperator, Read.outcome_bind, Read.outcome_place, Read.following_ok, left]
  simp only [h.known, not_true_eq_false, if_false, blanks, Bool.false_eq_true]
  rfl

theorem readToken_of_taken (h : Taken inner r depth after token depth' after' s) :
    (Value.readToken inner depth after).outcome r = (.ok (token, depth', after'), s) := by
  rw [Value.readToken, Read.outcome_bind, Read.outcome_place, Read.following_ok]
  cases h with
  | opening opens =>
    rw [if_pos opens]
    rfl
  | closing closes =>
    have unopened : r.place.comes "(" = false := by
      obtain ⟨-, l, left⟩ := Place.comes_iff.mp closes
      exact Place.comes_of_head left.symm rfl (by decide)
    rw [unopened, if_neg Bool.false_ne_true, if_pos closes]
    rfl
  | @operator c operator =>
    have absent {t : String} {d : Char} (ht : t.toList = [d]) (other : d ∉ ['+', '-', '*', '/']) :
        r.place.comes t = false := by
      rw [Bool.eq_false_iff]
      intro comes
      obtain ⟨-, l, left⟩ := Place.comes_iff.mp comes
      have here := operator.here
      rw [ht] at left
      simp only [Place.charAt, ← left, List.singleton_append, List.getElem?_cons_zero, Option.some.injEq] at here
      exact other (here ▸ operator.known)
    rw [absent (t := "(") rfl (by decide), absent (t := ")") rfl (by decide), if_neg Bool.false_ne_true,
      if_neg Bool.false_ne_true, if_pos rfl, Read.outcome_bind, readOperator_of_isOperator operator]
    rfl
  | operand unopened unclosed read =>
    rw [unopened, unclosed, if_neg Bool.false_ne_true, if_neg Bool.false_ne_true, if_neg Bool.false_ne_true,
      Read.outcome_bind, read]
    rfl

/-- A run is what a loop takes that has characters enough left. -/
theorem readTokens_of_run (hi : Advances inner) (h : Run inner depth after r placed s)
    (enough : r.place.rest.length ≤ n) :
    (Value.readTokens inner n depth after).outcome r = (.ok (placed.map Prod.fst), s) := by
  induction h generalizing n with
  | @ended after r final =>
    rw [Value.readTokens, Read.outcome_bind, Read.outcome_place, Read.following_ok]
    rcases final with closes | ended
    · rw [closes]
      rfl
    · rw [ended]
      split
      · rfl
      · rfl
  | @round depth depth' after after' r s t u e cs ds token placed going more before taken behind run ih =>
    have passed : r.Passes u :=
      ((gap_steady.reaches before).passes (taken.passes hi)).reaches (gap_steady.reaches behind)
    have fewer : u.place.rest.length < n := Nat.lt_of_lt_of_le passed.shorter enough
    have skipped {x y : Reader} {cs : List Comment} (gap : Read.gap.outcome x = (.ok cs, y)) :
        (discard Read.gap).outcome x = (.ok (), y) := by
      rw [Read.outcome_discard, gap]
      rfl
    rw [Value.readTokens, Read.outcome_bind, Read.outcome_place, Read.following_ok, more, if_neg (by simpa using going),
      if_neg Bool.false_ne_true, Read.outcome_bind, skipped before, Read.following_ok, Read.outcome_bind,
      readToken_of_taken taken, Read.following_ok, Read.outcome_bind, skipped behind, Read.following_ok,
      Read.outcome_bind, Read.outcome_shorter, dif_pos fewer, ih (Nat.le_refl _)]
    rfl

end Completeness

/-- What is written of a token. -/
def textOfToken (f : Layout) : CalcToken Value → List Char
  | .operand v => (v.toCss f).toList
  | .operator c => [c]
  | .opening => ['(']
  | .closing => [')']

/-- Tokens behind others, up to the parenthesis that closes their calculation. -/
def textBehind (f : Layout) (l : List Char) (tokens : List (CalcToken Value)) : List Char :=
  tokens.flatMap (fun token => ' ' :: textOfToken f token) ++ ')' :: l

/-- Tokens with blanks between them, up to the parenthesis that closes their calculation. -/
def textOfTokens (f : Layout) (l : List Char) : List (CalcToken Value) → List Char
  | [] => ')' :: l
  | token :: tokens => textOfToken f token ++ textBehind f l tokens

theorem textBehind_cons (token : CalcToken Value) (tokens : List (CalcToken Value)) :
    textBehind f l (token :: tokens) = ' ' :: textOfTokens f l (token :: tokens) := by
  simp [textBehind, textOfTokens]

theorem head_textBehind (f : Layout) (l : List Char) (tokens : List (CalcToken Value)) :
    ∃ d rest, textBehind f l tokens = d :: rest ∧ d ∈ [' ', ')'] := by
  cases tokens with
  | nil => exact ⟨')', l, rfl, by decide⟩
  | cons token tokens => exact ⟨' ', _, textBehind_cons token tokens, by decide⟩

theorem toCss_calculation (name : String) (tokens : List (CalcToken Value)) (p : Option Position) :
    ((Value.calculation name tokens p).toCss f).toList ++ l = name.toList ++ '(' :: textOfTokens f l tokens := by
  have texts : Value.textsOfTokens f tokens = tokens.map fun token => String.ofList (textOfToken f token) := by
    induction tokens with
    | nil => rfl
    | cons token tokens ih =>
      cases token with
      | operand v => rw [Value.textsOfTokens, ih, List.map_cons, textOfToken, String.ofList_toList]
      | operator | opening | closing =>
        rw [Value.textsOfTokens, ih, List.map_cons]
        rfl
  have joined : (String.intercalate " " (Value.textsOfTokens f tokens)).toList ++ ')' :: l =
      textOfTokens f l tokens := by
    rw [texts]
    cases tokens with
    | nil => rfl
    | cons token tokens =>
      rw [List.map_cons, toList_intercalate_cons, textOfTokens, textBehind, List.flatMap_map, String.toList_ofList,
        List.append_assoc]
      simp only [String.toList_ofList]
      rfl
  rw [Value.toCss, ← joined]
  simp

theorem toCss_calculation_of_same {name : String} {tokens tokens' : List (CalcToken Value)} (p q : Option Position)
    (same : tokens'.map (textOfToken f) = tokens.map (textOfToken f)) :
    (Value.calculation name tokens' p).toCss f = (Value.calculation name tokens q).toCss f := by
  have behind (ts : List (CalcToken Value)) : textBehind f [] ts =
      (ts.map (textOfToken f)).flatMap (fun t => ' ' :: t) ++ [')'] := by rw [textBehind, List.flatMap_map]
  have text : textOfTokens f [] tokens' = textOfTokens f [] tokens := by
    cases tokens with
    | nil => rw [List.map_eq_nil_iff.mp same]
    | cons token tokens =>
      cases tokens' with
      | nil => cases same
      | cons token' tokens' =>
        rw [List.map_cons, List.map_cons, List.cons.injEq] at same
        rw [textOfTokens, textOfTokens, same.1, behind, behind, same.2]
  have whole := toCss_calculation (f := f) (l := []) name tokens' p
  rw [text, ← toCss_calculation name tokens q, List.append_nil, List.append_nil] at whole
  exact String.toList_inj.mp whole

section Written

variable {P : Value → Prop} {Q : Value → Value → Prop}

theorem stops_textOfTokens (hp : Value.Rereads f P Q n inner) (operands : ∀ v, .operand v ∈ tokens → P v)
    (shape : isExpression depth after tokens = true) : Stops (textOfTokens f l tokens) := by
  cases tokens with
  | nil => exact .cons rfl (by decide)
  | cons token tokens =>
    rw [textOfTokens]
    cases token with
    | opening => exact .cons rfl (by decide)
    | closing => exact .cons rfl (by decide)
    | operand v =>
      obtain ⟨c, rest, hc, start⟩ := hp.head v (operands v List.mem_cons_self)
      rw [textOfToken, hc]
      exact Value.stops_of_start start
    | operator c =>
      simp only [isExpression, Bool.and_eq_true, decide_eq_true_eq] at shape
      have known := shape.1.1.2
      have solid : Text.isBlank c = false := not_isBlank_of_mem known (by decide)
      obtain ⟨d, rest, hd, first⟩ := head_textBehind f l tokens
      rw [textOfToken, hd]
      refine ⟨pastBlank_cons solid, fun comment => ?_⟩
      obtain ⟨tail, same⟩ := comment
      cases same
      exact absurd first (by decide)

theorem pastBlank_textBehind (hp : Value.Rereads f P Q n inner) (operands : ∀ v, .operand v ∈ tokens → P v)
    (shape : isExpression depth after tokens = true) :
    pastBlank (textBehind f l tokens) = textOfTokens f l tokens := by
  cases tokens with
  | nil => exact pastBlank_cons rfl
  | cons token tokens =>
    rw [textBehind_cons, pastBlank]
    exact (stops_textOfTokens hp operands shape).solid

theorem closed_textBehind (hp : Value.Rereads f P Q n inner) (operands : ∀ v, .operand v ∈ tokens → P v)
    (shape : isExpression depth after tokens = true) : Closed (textBehind f l tokens) := by
  obtain ⟨d, rest, hd, first⟩ := head_textBehind f l tokens
  have known : d = ' ' ∨ d = ')' := by simpa using first
  refine ⟨?_, fun c more hc => ?_, ?_⟩
  · rw [hd]
    rcases known with rfl | rfl
    · exact .cons (by decide) (by decide)
    · exact .cons (by decide) (by decide)
  · rw [hd] at hc
    cases hc
    rcases known with rfl | rfl
    · decide
    · decide
  · rw [pastBlank_textBehind hp operands shape]
    exact stops_textOfTokens hp operands shape

/-- The calculation is not over, and a token is taken as one of which the same is written, with the blank behind it. -/
theorem taken_of_text (hp : Value.RereadsText f P n inner) (operands : ∀ v, .operand v ∈ token :: tokens → P v)
    (shape : isExpression depth after (token :: tokens) = true)
    (left : r.place.rest = textOfTokens f l (token :: tokens))
    (blank : after = true → (r.place.charAt (-1)).any Text.isBlank = true) (length : r.place.rest.length ≤ n) :
    ¬ (r.place.comes ")" = true ∧ depth = 0) ∧
      ∃ token' depth' after' t u cs, Taken inner r depth after token' depth' after' t ∧
        Read.gap.outcome t = (.ok cs, u) ∧ u.place.rest = textOfTokens f l tokens ∧
        textOfToken f token' = textOfToken f token ∧ isExpression depth' after' tokens = true := by
  rw [textOfTokens] at left
  have others : ∀ v, .operand v ∈ tokens → P v := fun v hv => operands v (List.mem_cons_of_mem token hv)
  have gap {t : Reader} {d : Nat} {a : Bool} (more : isExpression d a tokens = true)
      (here : pastBlank t.place.rest = textOfTokens f l tokens) :
      ∃ u cs, Read.gap.outcome t = (.ok cs, u) ∧ u.place.rest = textOfTokens f l tokens := by
    have stops : Stops (pastBlank t.place.rest) := here ▸ stops_textOfTokens hp others more
    obtain ⟨cs, u, skipped, rest, -⟩ := Takes.blanks stops t rfl
    exact ⟨u, cs, skipped, rest.trans here⟩
  have one {c : Char} {d : Nat} {a : Bool} (hc : textOfToken f token = [c]) (more : isExpression d a tokens = true) :
      ∃ u cs, Read.gap.outcome (beyond r 1) = (.ok cs, u) ∧ u.place.rest = textOfTokens f l tokens := by
    refine gap more ?_
    rw [hc, List.singleton_append] at left
    rw [beyond_rest left, pastBlank_textBehind hp others more]
  cases token with
  | opening =>
    obtain ⟨u, cs, skipped, rest⟩ := one rfl shape
    have going : r.place.comes ")" = false := Place.comes_of_head left rfl (by decide)
    exact ⟨by simp [going], _, _, _, _, u, cs, .opening (Place.comes_char left rfl), skipped, rest, rfl, shape⟩
  | closing =>
    rw [isExpression, Bool.and_eq_true, decide_eq_true_eq] at shape
    obtain ⟨u, cs, skipped, rest⟩ := one rfl shape.2
    exact ⟨fun closed => Nat.ne_of_gt shape.1 closed.2, _, _, _, _, u, cs, .closing (Place.comes_char left rfl),
      skipped, rest, rfl, shape.2⟩
  | operator c =>
    simp only [isExpression, Bool.and_eq_true, decide_eq_true_eq, Bool.not_eq_true'] at shape
    obtain ⟨⟨⟨rfl, known⟩, sign⟩, more⟩ := shape
    obtain ⟨u, cs, skipped, rest⟩ := one rfl more
    have operator : IsOperator c r.place := by
      refine ⟨by simp [Place.charAt, left, textOfToken], known, fun signed => ⟨blank rfl, ?_⟩⟩
      cases tokens with
      | nil => simp [signed] at sign
      | cons token tokens =>
        rw [textBehind_cons] at left
        simp [Place.charAt, left, textOfToken]
        decide
    have going : r.place.comes ")" = false := by
      refine Place.comes_of_head left rfl ?_
      rintro rfl
      exact absurd known (by decide)
    exact ⟨by simp [going], _, _, _, _, u, cs, .operator operator, skipped, rest, rfl, more⟩
  | operand v =>
    rw [isExpression, Bool.and_eq_true, Bool.not_eq_true'] at shape
    obtain ⟨rfl, more⟩ := shape
    have hv := operands v List.mem_cons_self
    obtain ⟨c, rest, hc, start⟩ := hp.head v hv
    have head : r.place.rest = c :: (rest ++ textBehind f l tokens) := by rw [left, textOfToken, hc]; rfl
    have absent {t : String} {d : Char} (ht : t.toList = [d]) (hd : isValueStart d = false) :
        r.place.comes t = false := by
      refine Place.comes_of_head head ht ?_
      rintro rfl
      rw [start] at hd
      cases hd
    rw [left] at length
    obtain ⟨w, t, read, behind, same⟩ := hp.taken v _ hv (closed_textBehind hp others more) length r left
    have passed : pastBlank t.place.rest = textOfTokens f l tokens := by
      rw [behind, pastBlank_textBehind hp others more, (stops_textOfTokens hp others more).solid]
    obtain ⟨u, cs, skipped, rest⟩ := gap more passed
    have going := absent (t := ")") rfl rfl
    exact ⟨by simp [going], _, _, _, t, u, cs, .operand (absent (t := "(") rfl rfl) going read, skipped, rest,
      congrArg String.toList same, more⟩

/-- Tokens are taken one after the other, up to the parenthesis that closes their calculation. -/
theorem run_of_text (hp : Value.RereadsText f P n inner) (hi : Advances inner)
    (operands : ∀ v, .operand v ∈ tokens → P v) (shape : isExpression depth after tokens = true)
    (left : r.place.rest = textOfTokens f l tokens)
    (blank : tokens ≠ [] → after = true → (r.place.charAt (-1)).any Text.isBlank = true)
    (length : r.place.rest.length ≤ n) :
    ∃ placed s, Run inner depth after r placed s ∧ s.place.rest = ')' :: l ∧
      (placed.map Prod.fst).map (textOfToken f) = tokens.map (textOfToken f) := by
  induction tokens generalizing depth after r with
  | nil =>
    rw [isExpression, decide_eq_true_eq] at shape
    subst shape
    exact ⟨[], r, .ended (.inl (Place.comes_char left rfl)), left, rfl⟩
  | cons token tokens ih =>
    have stops : Stops r.place.rest := left ▸ stops_textOfTokens hp operands shape
    obtain ⟨going, token', depth', after', t, u, cs, taken, skipped, rest, same, more⟩ :=
      taken_of_text hp operands shape left (blank (List.cons_ne_nil token tokens)) length
    have passed : r.Passes u := (taken.passes hi).reaches (gap_steady.reaches skipped)
    have behind : tokens ≠ [] → after' = true → (u.place.charAt (-1)).any Text.isBlank = true := by
      intro nonempty _
      obtain ⟨next, others, rfl⟩ := List.exists_cons_of_ne_nil nonempty
      have way : r.place.rest = (textOfToken f token ++ [' ']) ++ u.place.rest := by
        rw [left, rest, textOfTokens, textBehind_cons, List.append_assoc]
        rfl
      have before : u.place.charAt (-1) = some ' ' := by
        change u.place.passed[0]? = some ' '
        rw [passed.ahead.eq_forward way, Place.forward_passed, way, List.take_left, List.reverse_append]
        rfl
      rw [before]
      rfl
    have others : ∀ v, .operand v ∈ tokens → P v := fun v hv => operands v (List.mem_cons_of_mem token hv)
    obtain ⟨placed, s, run, final, texts⟩ := ih others more rest behind
      (Nat.le_trans (Nat.le_of_lt passed.shorter) length)
    have nonempty : r.place.atEnd = false :=
      List.isEmpty_eq_false_iff.mpr (List.ne_nil_of_length_pos (Nat.lt_of_le_of_lt (Nat.zero_le _) passed.shorter))
    refine ⟨(token', r.place) :: placed, s, .round going nonempty (Read.outcome_gap_of_stops stops) taken skipped run,
      final, ?_⟩
    rw [List.map_cons, List.map_cons, List.map_cons, same, texts]

theorem calculationNames_lower : ∀ name ∈ Value.calculationNames,
    name.toList ≠ [] ∧ name.toList.all isNameChar = true ∧ name.toList.map Char.toLower = name.toList := by decide

/-- A calculation is read as one of which the same is written. -/
theorem takes_calculation (hp : Value.RereadsText f P n inner) (hi : Advances inner) {name : String}
    (hn : name ∈ Value.calculationNames) (operands : ∀ v, .operand v ∈ tokens → P v)
    (shape : isExpression 0 false tokens = true) (p : Option Position) (length : (textOfTokens f l tokens).length ≤ n) :
    Takes (((Value.calculation name tokens p).toCss f).toList ++ l) l (Value.readCalculation inner)
      fun w => w.toCss f = (Value.calculation name tokens p).toCss f := by
  obtain ⟨nonempty, chars, lower⟩ := calculationNames_lower name hn
  have loop (k : Nat) (enough : (textOfTokens f l tokens).length ≤ k) :
      Takes (textOfTokens f l tokens) (')' :: l) (Value.readTokens inner k 0 false)
        fun tokens' => tokens'.map (textOfToken f) = tokens.map (textOfToken f) := by
    intro r left
    obtain ⟨placed, s, run, rest, same⟩ := run_of_text hp hi operands shape left (fun _ behind => nomatch behind)
      (left ▸ length)
    exact ⟨_, s, readTokens_of_run hi run (left ▸ enough), rest, same⟩
  rw [toCss_calculation]
  refine Takes.here fun q _ => (Takes.identifier true chars nonempty (.cons rfl (by decide))).bind fun t ht => ?_
  refine Takes.here fun q' hq' => ?_
  rw [Place.comes_char hq' rfl]
  refine Takes.passing Bool.false_ne_true ((Takes.skip 1).bind fun _ _ => Takes.left.bind fun k hk => ?_)
  refine (loop k (Nat.le_of_eq hk.symm)).bind fun tokens' same => Takes.here fun e he => ?_
  have unended : e.atEnd = false := by rw [Place.atEnd, he]; rfl
  rw [unended, Bool.not_false, if_pos rfl]
  refine (Takes.char rfl).discard.bind fun _ _ => .pure ?_
  rw [ht, if_pos rfl, lower, String.ofList_toList]
  exact toCss_calculation_of_same _ p same

end Written

end Calculation

end Stylesheet
