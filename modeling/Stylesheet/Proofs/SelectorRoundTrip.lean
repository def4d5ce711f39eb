import Stylesheet.Proofs.Trimming
import Stylesheet.Proofs.ValueRoundTrip

namespace Stylesheet

open Read (Takes)

namespace Text

variable {b x : List Char}

theorem isTrimmed_iff {text : String} : isTrimmed text = true ↔ trimChars text.toList = text.toList := by
  rw [isTrimmed, beq_iff_eq, trim]
  constructor
  · intro h
    rw [← String.toList_ofList (l := trimChars text.toList), h]
  · intro h
    rw [h, String.ofList_toList]

theorem trim_around {text : String} (ht : isTrimmed text = true) (hb : b.all isBlank = true)
    (hx : x.all isBlank = true) : trim (String.ofList (b ++ (text.toList ++ x))) = text := by
  rw [trim, String.toList_ofList,
    trimChars_around (isTrimmed_iff.mp ht) (List.all_eq_true.mp hb) (List.all_eq_true.mp hx), String.ofList_toList]

end Text

namespace Selector

/-- Characters of selectors that open and close nothing and separate nothing. -/
def isOrdinary (keyframe : Bool) (c : Char) : Bool :=
  isSelectorChar keyframe c && !(['(', ')', '[', ']'].contains c)

/-- Text that goes on a selector where parentheses and brackets are open, and closes all of them. A comma needs a
parenthesis around it. -/
inductive Runs (keyframe : Bool) : Nat → Nat → List Char → Prop
  | nil : Runs keyframe 0 0 []
  | opening {a b : Nat} {t : List Char} : Runs keyframe (a + 1) b t → Runs keyframe a b ('(' :: t)
  | closing {a b : Nat} {t : List Char} : Runs keyframe a b t → Runs keyframe (a + 1) b (')' :: t)
  | bracket {a b : Nat} {t : List Char} : Runs keyframe a (b + 1) t → Runs keyframe a b ('[' :: t)
  | unbracket {a b : Nat} {t : List Char} : Runs keyframe a b t → Runs keyframe a (b + 1) (']' :: t)
  | comma {a b : Nat} {t : List Char} : Runs keyframe (a + 1) b t → Runs keyframe (a + 1) b (',' :: t)
  | ordinary {a b : Nat} {c : Char} {t : List Char} : isOrdinary keyframe c = true → Runs keyframe a b t →
    Runs keyframe a b (c :: t)

variable {keyframe : Bool} {a b depth : Nat} {t u l m : List Char} {c : Char}

/-- What an ordinary character is not. -/
structure Ordinary (keyframe : Bool) (c : Char) : Prop where
  unquoted : c ≠ '"' ∧ c ≠ '\'' ∧ c ≠ '\\'
  unnested : c ≠ '(' ∧ c ≠ ')' ∧ c ≠ '[' ∧ c ≠ ']'
  other : c ≠ ',' ∧ c ≠ '/' ∧ c ≠ '\x7b' ∧ c ≠ '\x7d'
  unruled : c ≠ '@'
  char : isSelectorChar keyframe c = true

theorem ordinary_of (hc : isOrdinary keyframe c = true) : Ordinary keyframe c := by
  have not {d : Char} (hd : isOrdinary true d = false ∧ isOrdinary false d = false) : c ≠ d := by
    rintro rfl
    cases keyframe with
    | true => rw [hd.1] at hc; cases hc
    | false => rw [hd.2] at hc; cases hc
  have char := hc
  rw [isOrdinary, Bool.and_eq_true] at char
  exact ⟨⟨not (by decide), not (by decide), not (by decide)⟩,
    ⟨not (by decide), not (by decide), not (by decide), not (by decide)⟩,
    ⟨not (by decide), not (by decide), not (by decide), not (by decide)⟩, not (by decide), char.1⟩

theorem validFrom_cons (hc : c ≠ '"' ∧ c ≠ '\'' ∧ c ≠ '\\') :
    validFrom keyframe none a (c :: t) =
      if c = '(' then validFrom keyframe none (a + 1) t
      else if c = ')' then validFrom keyframe none (a - 1) t
      else if (c = ',' && 0 < a) || isSelectorChar keyframe c then validFrom keyframe none a t
      else false := by
  have unquoted : (decide (c = '"') || decide (c = '\'')) = false := by simp [hc.1, hc.2.1]
  rw [validFrom.eq_def]
  dsimp only
  rw [if_neg hc.2.2, unquoted, if_neg Bool.false_ne_true]

theorem runs_of_plain (chars : ∀ c ∈ t, c ≠ '"' ∧ c ≠ '\'' ∧ c ≠ '\\')
    (valid : validFrom keyframe none a t = true) (parens : Text.isNested '(' ')' a t = true)
    (brackets : Text.isNested '[' ']' b t = true) : Runs keyframe a b t := by
  induction t generalizing a b with
  | nil =>
    rw [Text.isNested, beq_iff_eq] at parens brackets
    rw [parens, brackets]
    exact .nil
  | cons c t ih =>
    have others : ∀ d ∈ t, d ≠ '"' ∧ d ≠ '\'' ∧ d ≠ '\\' := fun d hd => chars d (List.mem_cons_of_mem c hd)
    rw [validFrom_cons (chars c List.mem_cons_self)] at valid
    rw [Text.isNested] at parens brackets
    by_cases opens : c = '('
    · subst opens
      exact .opening (ih others valid parens brackets)
    · by_cases closes : c = ')'
      · subst closes
        rw [if_neg (by decide), if_pos rfl] at valid parens
        rw [Bool.and_eq_true, decide_eq_true_eq] at parens
        obtain ⟨n, rfl⟩ : ∃ n, a = n + 1 := ⟨a - 1, by omega⟩
        exact .closing (ih others valid parens.2 brackets)
      · rw [if_neg opens, if_neg closes] at valid parens
        split at valid
        · next fits =>
          by_cases bracket : c = '['
          · subst bracket
            exact .bracket (ih others valid parens brackets)
          · by_cases unbracket : c = ']'
            · subst unbracket
              rw [if_neg (by decide), if_pos rfl, Bool.and_eq_true, decide_eq_true_eq] at brackets
              obtain ⟨n, rfl⟩ : ∃ n, b = n + 1 := ⟨b - 1, by omega⟩
              exact .unbracket (ih others valid parens brackets.2)
            · rw [if_neg bracket, if_neg unbracket] at brackets
              have more := ih others valid parens brackets
              rw [Bool.or_eq_true, Bool.and_eq_true, decide_eq_true_eq, decide_eq_true_eq] at fits
              rcases fits with ⟨rfl, inside⟩ | fits
              · obtain ⟨n, rfl⟩ : ∃ n, a = n + 1 := ⟨a - 1, by omega⟩
                exact .comma more
              · exact .ordinary (by simp [isOrdinary, fits, opens, closes, bracket, unbracket]) more
        · cases valid

theorem runs_of_blanks (ht : t.all Text.isBlank = true) : Runs keyframe 0 0 t := by
  induction t with
  | nil => exact .nil
  | cons c t ih =>
    rw [List.all_cons, Bool.and_eq_true] at ht
    refine .ordinary ?_ (ih ht.2)
    have other {d : Char} (hd : Text.isBlank d = false) : c ≠ d := fun h => by
      rw [h, hd] at ht
      cases ht.1
    have char : isSelectorChar keyframe c = true := by simp [isSelectorChar, ht.1]
    rw [isOrdinary, char]
    simp [other (d := '(') rfl, other (d := ')') rfl, other (d := '[') rfl, other (d := ']') rfl]

theorem Runs.append (ht : Runs keyframe a b t) (hu : Runs keyframe 0 0 u) : Runs keyframe a b (t ++ u) := by
  induction ht with
  | nil => exact hu
  | opening _ ih => exact .opening ih
  | closing _ ih => exact .closing ih
  | bracket _ ih => exact .bracket ih
  | unbracket _ ih => exact .unbracket ih
  | comma _ ih => exact .comma ih
  | ordinary hc _ ih => exact .ordinary hc ih

theorem Runs.validFrom (ht : Runs keyframe a b t) : validFrom keyframe none a t = true := by
  induction ht with
  | nil => rfl
  | opening _ ih => rw [validFrom_cons (by decide)]; exact ih
  | closing _ ih => rw [validFrom_cons (by decide)]; exact ih
  | bracket _ ih =>
    rw [validFrom_cons (by decide)]
    simpa [isSelectorChar] using ih
  | unbracket _ ih =>
    rw [validFrom_cons (by decide)]
    simpa [isSelectorChar] using ih
  | comma _ ih =>
    rw [validFrom_cons (by decide)]
    simpa using ih
  | ordinary hc _ ih =>
    have known := ordinary_of hc
    rw [validFrom_cons known.unquoted, if_neg known.unnested.1, if_neg known.unnested.2.1, known.char, Bool.or_true,
      if_pos rfl]
    exact ih

theorem foldr_push (t part : List Char) (parts : List (List Char)) :
    t.foldr push (part :: parts) = (t ++ part) :: parts := by
  induction t with
  | nil => rfl
  | cons c t ih => rw [List.foldr_cons, ih, push, List.cons_append]

theorem partsFrom_cons (hc : c ≠ '"' ∧ c ≠ '\'' ∧ c ≠ '\\') :
    partsFrom none depth (c :: t) =
      if c = '(' || c = '[' then push c (partsFrom none (depth + 1) t)
      else if c = ')' || c = ']' then push c (partsFrom none (depth - 1) t)
      else if c = ',' && depth = 0 then [] :: partsFrom none 0 t
      else push c (partsFrom none depth t) := by
  have unquoted : (decide (c = '"') || decide (c = '\'')) = false := by simp [hc.1, hc.2.1]
  rw [partsFrom.eq_def]
  dsimp only
  rw [if_neg hc.2.2, unquoted, if_neg Bool.false_ne_true]

/-- No part ends inside a selector. -/
theorem Runs.partsFrom (ht : Runs keyframe a b t) :
    partsFrom none (a + b) (t ++ u) = t.foldr push (partsFrom none 0 u) := by
  induction ht with
  | nil => rfl
  | @opening a b t _ ih =>
    rw [List.cons_append, partsFrom_cons (by decide), List.foldr_cons, ← ih, Nat.add_right_comm]
    rfl
  | @closing a b t _ ih =>
    have one : a + 1 + b - 1 = a + b := by omega
    rw [List.cons_append, partsFrom_cons (by decide), List.foldr_cons, ← ih, one]
    rfl
  | bracket _ ih =>
    rw [List.cons_append, partsFrom_cons (by decide), List.foldr_cons, ← ih]
    rfl
  | unbracket _ ih =>
    rw [List.cons_append, partsFrom_cons (by decide), List.foldr_cons, ← ih]
    rfl
  | @comma a b t _ ih =>
    have inside : decide (a + 1 + b = 0) = false := decide_eq_false (by omega)
    rw [List.cons_append, partsFrom_cons (by decide), List.foldr_cons, ← ih, inside]
    rfl
  | ordinary hc _ ih =>
    have known := ordinary_of hc
    rw [List.cons_append, partsFrom_cons known.unquoted, List.foldr_cons, ← ih]
    simp [known.unnested, known.other]

end Selector

/-- Reading selector text from `l` with parentheses open takes `t` and leaves `m`. -/
def YieldsSelectors (depth : Nat) (l t m : List Char) : Prop :=
  ∀ (s : Settings) (p : Place), p.rest = l →
    (p.selectorText s none depth).1 = .ok (t, []) ∧ (p.selectorText s none depth).2.rest = m

namespace YieldsSelectors

variable {keyframe : Bool} {a b depth : Nat} {t u l m : List Char} {c : Char}

theorem brace : YieldsSelectors 0 ('\x7b' :: l) [] ('\x7b' :: l) := by
  intro s p hp
  have absent : p.opening s.width = .absent := Place.opening_absent (by rw [hp]; simp)
  rw [Place.selectorText_eq, absent, hp]
  exact ⟨rfl, hp⟩

theorem cons (hc : c ≠ '\\' ∧ c ≠ '/' ∧ c ≠ '\x7b' ∧ c ≠ '\x7d') (hq : c ≠ '"' ∧ c ≠ '\'')
    (closes : c = ')' → depth ≠ 0) (h : YieldsSelectors (Place.depthBehind none depth c) l t m) :
    YieldsSelectors depth (c :: l) (c :: t) m := by
  intro s p hp
  have absent : p.opening s.width = .absent := by
    refine Place.opening_absent fun hpre => ?_
    rw [hp] at hpre
    obtain ⟨tail, ht⟩ := hpre
    exact hc.2.1 (List.cons.inj ht).1.symm
  have quote : Place.quoteBehind none c = none := by simp [Place.quoteBehind, hq.1, hq.2]
  have known : (decide (c = ')') && (none : Option Char).isNone && decide (depth = 0)) = false := by
    by_cases h : c = ')'
    · simp [closes h]
    · simp [h]
  obtain ⟨ho, hr⟩ := h s (p.next s.width) (by rw [Place.next_rest, hp, List.tail_cons])
  rw [Place.selectorText_eq, absent, hp]
  simp only [Option.isNone_none, Bool.and_true, hc.2.2.1, hc.2.2.2, hc.1, decide_false, if_true, if_false] at known ⊢
  rw [known, if_neg Bool.false_ne_true, quote, Place.selectorMore, ho]
  exact ⟨rfl, hr⟩

theorem comma (h : YieldsSelectors 0 l t m) : YieldsSelectors 0 (',' :: l) (',' :: t) m :=
  cons (by decide) (by decide) (fun hc => absurd hc (by decide)) h

theorem runs (ht : Selector.Runs keyframe a b t) (h : YieldsSelectors 0 l u m) :
    YieldsSelectors a (t ++ l) (t ++ u) m := by
  induction ht with
  | nil => exact h
  | opening _ ih => exact cons (by decide) (by decide) (fun hc => absurd hc (by decide)) ih
  | closing _ ih => exact cons (by decide) (by decide) (fun _ => Nat.succ_ne_zero _) ih
  | bracket _ ih => exact cons (by decide) (by decide) (fun hc => absurd hc (by decide)) ih
  | unbracket _ ih => exact cons (by decide) (by decide) (fun hc => absurd hc (by decide)) ih
  | comma _ ih => exact cons (by decide) (by decide) (fun hc => absurd hc (by decide)) ih
  | @ordinary a b c t hc _ ih =>
    have known := Selector.ordinary_of hc
    have depth : Place.depthBehind none a c = a := by
      simp [Place.depthBehind, known.unnested.1, known.unnested.2.1]
    refine cons ⟨known.unquoted.2.2, known.other.2⟩ ⟨known.unquoted.1, known.unquoted.2.1⟩
      (fun h => absurd h known.unnested.2.1) ?_
    rw [depth]
    exact ih

end YieldsSelectors

namespace Selector

variable {keyframe : Bool} {x y e l : List Char}

/-- Selectors with blanks around the commas and behind the last one. -/
def textOf (x y e : List Char) : List Selector → List Char
  | [] => []
  | [s] => s.text.toList ++ e
  | s :: more => s.text.toList ++ (x ++ ',' :: (y ++ textOf x y e more))

theorem runs_of_isPlain {s : Selector} (hs : s.isPlain keyframe = true) : Runs keyframe 0 0 s.text.toList := by
  simp only [isPlain, isValid, Bool.and_eq_true] at hs
  obtain ⟨⟨⟨⟨⟨-, -, valid⟩, -⟩, chars⟩, parens⟩, brackets⟩ := hs
  refine runs_of_plain (fun c hc => ?_) valid parens brackets
  have char := List.all_eq_true.mp chars c hc
  simpa [and_assoc] using char

/-- A plain selector with blanks around it is the selector. -/
theorem parse_around {s : Selector} (hs : s.isPlain keyframe = true) {b : List Char}
    (hb : b.all Text.isBlank = true) (hx : x.all Text.isBlank = true) (location : Location) :
    parse (String.ofList (b ++ (s.text.toList ++ x))) keyframe location = .ok s := by
  have runs : Runs keyframe 0 0 (b ++ (s.text.toList ++ x)) :=
    (runs_of_blanks hb).append ((runs_of_isPlain hs).append (runs_of_blanks hx))
  simp only [isPlain, isValid, Bool.and_eq_true] at hs
  obtain ⟨⟨⟨⟨⟨trimmed, solid, -⟩, -⟩, -⟩, -⟩, -⟩ := hs
  have trim := Text.trim_around trimmed hb hx
  have same : Text.trim s.text = s.text := by simpa [Text.isTrimmed] using trimmed
  rw [parse, isValid, trim, String.toList_ofList, runs.validFrom, Bool.and_true, ← same, if_pos solid, ofText, same, trim]

/-- Written selectors are parsed as what they were. -/
theorem parseList_textOf (hx : x.all Text.isBlank = true) (hy : y.all Text.isBlank = true)
    (he : e.all Text.isBlank = true) {ss : List Selector} (h0 : ss ≠ [])
    (hs : ∀ s ∈ ss, s.isPlain keyframe = true) {b : List Char} (hb : b.all Text.isBlank = true)
    (location : Location) : parseList (String.ofList (b ++ textOf x y e ss)) keyframe location = .ok ss := by
  rw [parseList, parts, String.toList_ofList]
  induction ss generalizing b with
  | nil => exact absurd rfl h0
  | cons s ss ih =>
    have plain := hs s List.mem_cons_self
    cases ss with
    | nil =>
      have runs : Runs keyframe 0 0 (b ++ (s.text.toList ++ e)) :=
        (runs_of_blanks hb).append ((runs_of_isPlain plain).append (runs_of_blanks he))
      have one := runs.partsFrom (u := [])
      rw [List.append_nil, Nat.add_zero, Selector.partsFrom, foldr_push, List.append_nil] at one
      rw [textOf, one, List.map_singleton, List.mapM_cons, parse_around plain hb he]
      rfl
    | cons second ss =>
      have runs : Runs keyframe 0 0 (b ++ (s.text.toList ++ x)) :=
        (runs_of_blanks hb).append ((runs_of_isPlain plain).append (runs_of_blanks hx))
      have one := runs.partsFrom (u := ',' :: (y ++ textOf x y e (second :: ss)))
      have comma : Selector.partsFrom none 0 (',' :: (y ++ textOf x y e (second :: ss))) =
          [] :: Selector.partsFrom none 0 (y ++ textOf x y e (second :: ss)) := by
        rw [partsFrom_cons (by decide)]
        rfl
      have text : b ++ textOf x y e (s :: second :: ss) =
          (b ++ (s.text.toList ++ x)) ++ ',' :: (y ++ textOf x y e (second :: ss)) := by
        simp only [textOf, List.append_assoc]
      rw [Nat.add_zero, comma, foldr_push, List.append_nil] at one
      rw [text, one, List.map_cons, List.mapM_cons, parse_around plain hb hx]
      rw [ih (List.cons_ne_nil _ _) (fun t ht => hs t (List.mem_cons_of_mem s ht)) hy]
      rfl

theorem yields_textOf (hx : x.all Text.isBlank = true) (hy : y.all Text.isBlank = true)
    (he : e.all Text.isBlank = true) {ss : List Selector} (hs : ∀ s ∈ ss, s.isPlain keyframe = true) :
    YieldsSelectors 0 (textOf x y e ss ++ '\x7b' :: l) (textOf x y e ss) ('\x7b' :: l) := by
  have blanks {b : List Char} (hb : b.all Text.isBlank = true) : Runs keyframe 0 0 b := runs_of_blanks hb
  induction ss with
  | nil => exact .brace
  | cons s ss ih =>
    have first := runs_of_isPlain (hs s List.mem_cons_self)
    cases ss with
    | nil =>
      have whole := YieldsSelectors.runs (first.append (blanks he)) (.brace (l := l))
      rwa [List.append_nil] at whole
    | cons second ss =>
      have others := ih fun t ht => hs t (List.mem_cons_of_mem s ht)
      have whole := YieldsSelectors.runs first (.runs (blanks hx) (.comma (.runs (blanks hy) others)))
      simpa only [textOf, List.append_assoc, List.cons_append] using whole

end Selector

end Stylesheet
