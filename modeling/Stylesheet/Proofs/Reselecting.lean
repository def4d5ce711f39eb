import Stylesheet.Layout.Presets
import Stylesheet.Proofs.Validity
import Stylesheet.Sheet.Edit
import Stylesheet.Sheet.Writing

namespace Stylesheet

namespace Selector

/-- Behind the text a backslash waits for the character that it escapes. -/
def EndsInEscape (text : List Char) : Prop := (text.foldl Nesting.next {}).escaped = true

instance (text : List Char) : Decidable (EndsInEscape text) := inferInstanceAs (Decidable (_ = _))

variable {keyframe : Bool} {m m' n : Nesting} {c q : Char} {text blanks core : List Char}

/-- What blanks make of the state of a scan: they end an escape. -/
def Nesting.past (blanks : List Char) (n : Nesting) : Nesting :=
  if blanks.isEmpty then n else { n with escaped := false }

@[simp] theorem Nesting.past_quote (blanks : List Char) (n : Nesting) : (n.past blanks).quote = n.quote := by
  unfold Nesting.past
  split
  · rfl
  · rfl

theorem Nesting.past_of_unescaped (blanks : List Char) (h : n.escaped = false) : n.past blanks = n := by
  unfold Nesting.past
  split
  · rfl
  · rw [← h]

theorem ne_of_isBlank (hc : Text.isBlank c = true) {d : Char} (hd : Text.isBlank d = false) : c ≠ d := by
  rintro rfl
  rw [hc] at hd
  cases hd

theorem validNext_blank (hc : Text.isBlank c = true) (quotes : ∀ q ∈ n.quote, IsQuote q) :
    validNext keyframe n c = some { n with escaped := false } := by
  obtain ⟨quote, depth, escaped⟩ := n
  have other {d : Char} (hd : Text.isBlank d = false) : c ≠ d := ne_of_isBlank hc hd
  cases escaped with
  | true => simp [validNext]
  | false =>
    cases quote with
    | none =>
      simp [validNext, isSelectorChar, hc, other (d := '\\') (by decide), other (d := '"') (by decide),
        other (d := '\'') (by decide), other (d := '(') (by decide), other (d := ')') (by decide)]
    | some q => simp [validNext, other (isBlank_of_isQuote (quotes q rfl))]

theorem next_blank (hc : Text.isBlank c = true) (quotes : ∀ q ∈ n.quote, IsQuote q) :
    n.next c = { n with escaped := false } := by
  obtain ⟨quote, depth, escaped⟩ := n
  have other {d : Char} (hd : Text.isBlank d = false) : c ≠ d := ne_of_isBlank hc hd
  cases escaped with
  | true => simp [Nesting.next]
  | false =>
    cases quote with
    | none =>
      simp [Nesting.next, other (d := '\\') (by decide), other (d := '"') (by decide), other (d := '\'') (by decide),
        other (d := '(') (by decide), other (d := ')') (by decide), other (d := '[') (by decide),
        other (d := ']') (by decide)]
    | some q => simp [Nesting.next, other (d := '\\') (by decide), other (isBlank_of_isQuote (quotes q rfl))]

theorem foldlM_blanks (hb : ∀ c ∈ blanks, Text.isBlank c = true) (quotes : ∀ q ∈ n.quote, IsQuote q) :
    blanks.foldlM (validNext keyframe) n = some (n.past blanks) := by
  induction blanks generalizing n with
  | nil => rfl
  | cons c blanks ih =>
    obtain ⟨here, later⟩ := List.forall_mem_cons.mp hb
    have more := ih later (n := { n with escaped := false }) quotes
    rw [List.foldlM_cons, validNext_blank here quotes]
    rw [Nesting.past_of_unescaped blanks rfl] at more
    simpa [Nesting.past] using more

theorem foldl_blanks (hb : ∀ c ∈ blanks, Text.isBlank c = true) (quotes : ∀ q ∈ n.quote, IsQuote q) :
    blanks.foldl Nesting.next n = n.past blanks := by
  induction blanks generalizing n with
  | nil => rfl
  | cons c blanks ih =>
    obtain ⟨here, later⟩ := List.forall_mem_cons.mp hb
    have more := ih later (n := { n with escaped := false }) quotes
    rw [List.foldl_cons, next_blank here quotes]
    rw [Nesting.past_of_unescaped blanks rfl] at more
    simpa [Nesting.past] using more

/-- The state `m` of the scan for validity beside the state `n` of the scan for parts. The first one does not know of
escapes in quotes; outside its quotes both know of the same ones. -/
structure Beside (m n : Nesting) : Prop where
  escaped : m.quote = none → m.escaped = n.escaped
  quoted : ∀ q ∈ m.quote, IsQuote q ∧ m.escaped = false
  quotes : ∀ q ∈ n.quote, IsQuote q

theorem Beside.start : Beside {} {} where
  escaped _ := rfl
  quoted q hq := by cases hq
  quotes q hq := by cases hq

theorem Nesting.escaped_next (n : Nesting) (c : Char) : (n.next c).escaped = (!n.escaped && c == '\\') := by
  obtain ⟨quote, depth, escaped⟩ := n
  cases escaped with
  | true => simp [Nesting.next]
  | false =>
    by_cases escape : c = '\\'
    · simp [Nesting.next, escape]
    · cases quote with
      | some q => simp [Nesting.next, escape]
      | none =>
        simp only [Nesting.next, escape, if_false, Bool.false_eq_true, beq_eq_false_iff_ne.mpr escape]
        split_ifs
        · simp
        · simp
        · simp
        · simp

theorem Nesting.quotes_next (h : ∀ q ∈ n.quote, IsQuote q) (c : Char) : ∀ q ∈ (n.next c).quote, IsQuote q := by
  obtain ⟨quote, depth, escaped⟩ := n
  cases escaped with
  | true => simpa [Nesting.next] using h
  | false =>
    by_cases escape : c = '\\'
    · simpa [Nesting.next, escape] using h
    · cases quote with
      | some q =>
        by_cases closes : c = q
        · simp [Nesting.next, closes, (not_backslash_of_isQuote (h q rfl)).symm]
        · simpa [Nesting.next, escape, closes] using h
      | none =>
        simp only [Nesting.next, escape, if_false, Bool.false_eq_true]
        split_ifs with opens
        · simpa [IsQuote] using opens
        · simp
        · simp
        · simp

/-- The two scans stay side by side. -/
theorem Beside.next (h : Beside m n) (step : validNext keyframe m c = some m') : Beside m' (n.next c) := by
  have quotes := Nesting.quotes_next h.quotes c
  have behind := Nesting.escaped_next n c
  obtain ⟨quote, depth, escaped⟩ := m
  cases quote with
  | some q =>
    obtain ⟨isQuote, rfl⟩ := h.quoted q rfl
    rw [validNext_quoted] at step
    cases step
    by_cases closes : c = q
    · subst closes
      refine ⟨fun _ => ?_, by simp, quotes⟩
      rw [behind]
      simp [(not_backslash_of_isQuote isQuote).symm]
    · rw [if_neg closes]
      exact ⟨by simp, by simpa using isQuote, quotes⟩
  | none =>
    have same : escaped = n.escaped := h.escaped rfl
    cases escaped with
    | true =>
      have ended : validNext keyframe ⟨none, depth, true⟩ c = some ⟨none, depth, false⟩ := by simp [validNext]
      rw [ended] at step
      cases step
      exact ⟨fun _ => by simp [behind, ← same], by simp, quotes⟩
    | false =>
      by_cases escape : c = '\\'
      · have begun : validNext keyframe ⟨none, depth, false⟩ c = some ⟨none, depth, true⟩ := by
          simp [validNext, escape]
        rw [begun] at step
        cases step
        refine ⟨fun _ => ?_, by simp, quotes⟩
        rw [behind, ← same]
        simp [escape]
      · rcases validNext_unquoted escape depth with refused | ⟨quote, d, passed, opened⟩
        · rw [refused] at step
          cases step
        · rw [passed] at step
          cases step
          refine ⟨fun _ => by simp [behind, escape], fun q hq => ?_, quotes⟩
          obtain ⟨rfl, isQuote⟩ := opened q hq
          exact ⟨isQuote, rfl⟩

theorem Beside.run (h : Beside m n) (scan : text.foldlM (validNext keyframe) m = some m') :
    Beside m' (text.foldl Nesting.next n) := by
  induction text generalizing m n with
  | nil =>
    cases scan
    exact h
  | cons c text ih =>
    rw [List.foldlM_cons] at scan
    obtain ⟨between, step, scan⟩ := Option.bind_eq_some_iff.mp scan
    exact ih (h.next step) scan

/-- A selector that is valid is so without the blanks at its ends, unless the last one of them is escaped. -/
theorem isValid_trim_iff {part : String} (valid : isValid part keyframe = true) :
    isValid (Text.trim part) keyframe = true ↔ ¬ EndsInEscape (Text.trim part).toList := by
  obtain ⟨front, back, split, hf, hb⟩ := Text.trimChars_split part.toList
  rw [isValid, Bool.and_eq_true, validFrom_eq] at valid
  obtain ⟨solid, valid⟩ := valid
  rw [split, validIn_append, foldlM_blanks hf (by simp), Nesting.past_of_unescaped front rfl, Option.any_some,
    validIn_append] at valid
  cases scan : (Text.trimChars part.toList).foldlM (validNext keyframe) {} with
  | none => simp [scan] at valid
  | some m =>
    have beside := Beside.start.run scan
    have quotes : ∀ q ∈ m.quote, IsQuote q := fun q hq => (beside.quoted q hq).1
    have unquoted : m.quote = none := by
      rw [scan, Option.any_some, ← List.append_nil back, validIn_append, foldlM_blanks hb quotes, Option.any_some,
        validIn_nil, Nesting.isComplete, Nesting.past_quote, Bool.and_eq_true, Option.isNone_iff_eq_none] at valid
      exact valid.1
    have again : isValid (Text.trim part) keyframe = !m.escaped := by
      rw [isValid, Text.trim_trim, solid, Bool.true_and, validFrom_eq, Text.trim, String.toList_ofList, validIn, scan]
      simp [Nesting.isComplete, unquoted]
    rw [again, EndsInEscape, Text.trim, String.toList_ofList, ← beside.escaped unquoted]
    simp

/-- Blanks around a text whose last character is not escaped have no part in how the scan for parts ends. -/
theorem isOutside_trim {part : List Char} (outside : IsOutside part) (ended : ¬ EndsInEscape (Text.trimChars part)) :
    IsOutside (Text.trimChars part) := by
  obtain ⟨front, back, split, hf, hb⟩ := Text.trimChars_split part
  have quotes : ∀ q ∈ ((Text.trimChars part).foldl Nesting.next {}).quote, IsQuote q := by
    generalize Text.trimChars part = core
    induction core using List.reverseRecOn with
    | nil => simp
    | append_singleton core c ih =>
      rw [List.foldl_append]
      exact Nesting.quotes_next ih c
  rw [IsOutside, split, List.foldl_append, foldl_blanks hf (by simp), Nesting.past_of_unescaped front rfl,
    List.foldl_append, foldl_blanks hb quotes, Nesting.past_of_unescaped back (by simpa [EndsInEscape] using ended)]
    at outside
  exact outside

theorem partsIn_trim {part : List Char} (alone : partsIn {} part = [part]) :
    partsIn {} (Text.trimChars part) = [Text.trimChars part] := by
  obtain ⟨front, back, split, hf, -⟩ := Text.trimChars_split part
  have single : (partsIn {} (front ++ (Text.trimChars part ++ back))).length = 1 := by
    rw [← split, alone]
    rfl
  have core := partsIn_single_of_append single
  rwa [foldl_blanks hf (by simp), Nesting.past_of_unescaped front rfl] at core

/-- The parts of a list are found again without the blanks at their ends, if none of these is escaped. -/
theorem parts_trimmed (text : String) (ended : ∀ part ∈ parts text, ¬ EndsInEscape (Text.trim part).toList) :
    parts (String.intercalate "," ((parts text).map Text.trim)) = (parts text).map Text.trim := by
  have cores : (parts text).map Text.trim = ((partsIn {} text.toList).map Text.trimChars).map String.ofList := by
    rw [parts_eq, List.map_map, List.map_map]
    simp [Function.comp_def, Text.trim]
  obtain ⟨part, others, found⟩ := List.exists_cons_of_ne_nil (partsIn_ne_nil {} text.toList)
  have alone : ∀ p ∈ partsIn {} text.toList, partsIn {} p = [p] := by
    rw [found]
    exact List.forall_mem_cons.mpr (partsIn_part found)
  have outside : ∀ p ∈ (partsIn {} text.toList).dropLast, IsOutside p := by
    obtain ⟨closed, later⟩ := parts_of_partsIn found
    rw [found]
    cases others with
    | nil => simp
    | cons second others =>
      rw [List.dropLast_cons_of_ne_nil (List.cons_ne_nil _ _)]
      exact List.forall_mem_cons.mpr ⟨closed (List.cons_ne_nil _ _), later⟩
  have again : partsIn {} ([','].intercalate ((partsIn {} text.toList).map Text.trimChars)) =
      (partsIn {} text.toList).map Text.trimChars := by
    apply partsIn_intercalate
    · simpa using partsIn_ne_nil {} text.toList
    · intro core mem
      obtain ⟨p, hp, rfl⟩ := List.mem_map.mp mem
      exact partsIn_trim (alone p hp)
    · intro core mem
      rw [← List.map_dropLast] at mem
      obtain ⟨p, hp, rfl⟩ := List.mem_map.mp mem
      have whole : String.ofList p ∈ parts text := by
        rw [parts_eq]
        exact List.mem_map_of_mem (List.dropLast_subset _ hp)
      apply isOutside_trim (outside p hp)
      simpa [Text.trim] using ended _ whole
  rw [cores, parts_eq, String.toList_intercalate]
  simpa [Function.comp_def] using congrArg (List.map String.ofList) again

theorem length_intercalate (part second : List Char) (parts : List (List Char)) :
    ([','].intercalate (part :: second :: parts)).length =
      part.length + 1 + ([','].intercalate (second :: parts)).length := by
  simp [List.intercalate]
  omega

theorem length_intercalate_trimmed (parts : List (List Char)) :
    ([','].intercalate (parts.map Text.trimChars)).length ≤ ([','].intercalate parts).length := by
  induction parts with
  | nil => simp
  | cons part parts ih =>
    have here := Text.length_trimChars_le part
    cases parts with
    | nil => simpa [List.intercalate] using here
    | cons second parts =>
      rw [List.map_cons, List.map_cons, length_intercalate, length_intercalate]
      rw [List.map_cons] at ih
      omega

/-- Parts that are as long together without the blanks at their ends have no such blanks. -/
theorem trimmed_of_length {parts : List (List Char)}
    (same : ([','].intercalate (parts.map Text.trimChars)).length = ([','].intercalate parts).length) :
    parts.map Text.trimChars = parts := by
  induction parts with
  | nil => rfl
  | cons part parts ih =>
    have here := Text.length_trimChars_le part
    cases parts with
    | nil =>
      have whole : (Text.trimChars part).length = part.length := by simpa [List.intercalate] using same
      rw [List.map_cons, Text.trimChars_of_length whole, List.map_nil]
    | cons second parts =>
      have later := length_intercalate_trimmed (second :: parts)
      rw [List.map_cons, List.map_cons, length_intercalate, length_intercalate] at same
      rw [List.map_cons] at later ih
      rw [List.map_cons, Text.trimChars_of_length (by omega), List.map_cons, ih (by omega)]

/-- A list that is read and comes out as its own text is made of texts without blanks at their ends. -/
theorem parts_of_intercalate {texts : List String}
    (h : (parts (String.intercalate "," texts)).map Text.trim = texts) :
    parts (String.intercalate "," texts) = texts := by
  generalize joined : String.intercalate "," texts = text at h ⊢
  have cores : texts.map String.toList = (partsIn {} text.toList).map Text.trimChars := by
    rw [← h, parts_eq]
    simp [Function.comp_def, Text.trim]
  have whole : [','].intercalate ((partsIn {} text.toList).map Text.trimChars) =
      [','].intercalate (partsIn {} text.toList) := by
    rw [← cores, intercalate_partsIn, ← joined, String.toList_intercalate]
    rfl
  rw [trimmed_of_length (congrArg List.length whole)] at cores
  rw [parts_eq, ← cores]
  simp [Function.comp_def]

/-- The selectors that are read are valid as they stand just if none of them ends with a backslash that escapes
nothing, and just then they are read again where they are joined by commas. -/
theorem parseList_again_iff {text : String} {l : Location} {selectors : List Selector}
    (h : parseList text keyframe l = .ok selectors) :
    (∀ s ∈ selectors, (isValid s.text keyframe = true ↔ ¬ EndsInEscape s.text.toList)) ∧
      ∀ k, parseList (String.intercalate "," (selectors.map Selector.text)) keyframe k = .ok selectors ↔
        ∀ s ∈ selectors, ¬ EndsInEscape s.text.toList := by
  obtain ⟨valid, rfl⟩ := parseList_eq_ok_iff.mp h
  have texts : ((parts text).map ofText).map Selector.text = (parts text).map Text.trim := by
    simp [ofText, Function.comp_def]
  have each : ∀ s ∈ (parts text).map ofText, (isValid s.text keyframe = true ↔ ¬ EndsInEscape s.text.toList) := by
    intro s hs
    obtain ⟨part, mem, rfl⟩ := List.mem_map.mp hs
    exact isValid_trim_iff (valid part mem)
  refine ⟨each, fun k => ?_⟩
  rw [parseList_eq_ok_iff, texts]
  constructor
  · rintro ⟨again, same⟩ s hs
    have trimmed := congrArg (List.map Selector.text) same
    rw [texts, List.map_map] at trimmed
    have found := parts_of_intercalate trimmed.symm
    rw [found] at again
    have mem : s.text ∈ (parts text).map Text.trim := by
      rw [← texts]
      exact List.mem_map_of_mem hs
    exact (each s hs).mp (again s.text mem)
  · intro ended
    rw [parts_trimmed text fun part mem => ended _ (List.mem_map_of_mem mem)]
    constructor
    · intro core mem
      obtain ⟨part, hp, rfl⟩ := List.mem_map.mp mem
      have stored := List.mem_map_of_mem (f := ofText) hp
      exact (each _ stored).mpr (ended _ stored)
    · simp [ofText, Function.comp_def]

end Selector

namespace StyleRule

open Selector (EndsInEscape isValid)

/-- The selectors of a rule as the compact layout writes them. -/
def joined (r : StyleRule) : String := String.intercalate "," (r.selectors.map Selector.text)

theorem toCss_compact {r : StyleRule} (nonempty : r.selectors ≠ []) :
    r.toCss .compact = .ok (r.joined ++ "\x7b" ++ r.rules.toCss .compact ++ "\x7d") := by
  have comma : Layout.compact.selectorComma = "," := by decide
  have brace : Layout.compact.beforeBrace = "" := by decide
  have comments : Layout.compact.leading r.rules.comments = "" := rfl
  have inserts : Layout.compact.inserts = {} := rfl
  have bare : r.selectors.isEmpty = false := by simpa using nonempty
  simp [toCss, bare, comments, inserts, comma, brace, joined]

theorem withSelectorText_eq_ok {text : String} {keyframe : Bool} {selectors : List Selector} (r : StyleRule)
    (l : Location) (valid : ∀ part ∈ Selector.parts text, isValid part keyframe = true)
    (found : selectors = (Selector.parts text).map Selector.ofText) :
    r.withSelectorText text keyframe l = .ok { r with selectors := selectors } := by
  rw [withSelectorText, Selector.parseList_eq_ok_iff.mpr ⟨valid, found⟩]
  rfl

/-- Setting the selectors of a rule to the text that is written of them stores the same selectors, in any rule and
place, just if none of them ends with a backslash that escapes nothing. Such a one alone is not valid. -/
theorem withSelectorText_again_iff {r r' : StyleRule} {text : String} {keyframe : Bool} {l : Location}
    (h : r.withSelectorText text keyframe l = .ok r') :
    r'.toCss .compact = .ok (r'.joined ++ "\x7b" ++ r'.rules.toCss .compact ++ "\x7d") ∧
      (∀ s ∈ r'.selectors, (isValid s.text keyframe = true ↔ ¬ EndsInEscape s.text.toList)) ∧
      ∀ (other : StyleRule) k,
        other.withSelectorText r'.joined keyframe k = .ok { other with selectors := r'.selectors } ↔
          ∀ s ∈ r'.selectors, ¬ EndsInEscape s.text.toList := by
  obtain ⟨selectors, parsed, rfl⟩ : ∃ selectors, Selector.parseList text keyframe l = .ok selectors ∧
      { r with selectors := selectors } = r' := by
    unfold withSelectorText at h
    cases parsed : Selector.parseList text keyframe l with
    | error e => rw [parsed] at h; cases h
    | ok selectors =>
      rw [parsed] at h
      exact ⟨selectors, rfl, Except.ok.inj h⟩
  obtain ⟨valid, again⟩ := Selector.parseList_again_iff parsed
  have nonempty : selectors ≠ [] := by
    rw [(Selector.parseList_eq_ok_iff.mp parsed).2, Selector.parts_eq]
    simpa using Selector.partsIn_ne_nil {} text.toList
  refine ⟨toCss_compact nonempty, valid, fun other k => ?_⟩
  rw [← again k]
  show (Selector.parseList _ keyframe k).map _ = _ ↔ _
  cases second : Selector.parseList (String.intercalate "," (selectors.map Selector.text)) keyframe k with
  | error e => simp [joined, second, Except.map]
  | ok others => simp [joined, second, Except.map]

/-- Escapes in the middle of selectors, and blanks around them. -/
theorem withSelectorText_again_iff_escapes :
    let r : StyleRule := { selectors := [], rules := {} }
    let r' : StyleRule := { selectors := [⟨"a\\:b"⟩, ⟨"c\\ d"⟩], rules := {} }
    r.withSelectorText " a\\:b , c\\ d" false .none = .ok r' ∧
      r'.toCss .compact = .ok "a\\:b,c\\ d\x7b\x7d" ∧ (∀ s ∈ r'.selectors, isValid s.text false = true) ∧
      ∀ (other : StyleRule) k,
        other.withSelectorText r'.joined false k = .ok { other with selectors := r'.selectors } := by
  intro r r'
  have read : r.withSelectorText " a\\:b , c\\ d" false .none = .ok r' :=
    withSelectorText_eq_ok r .none (by decide +kernel) (by decide +kernel)
  have ended : ∀ s ∈ r'.selectors, ¬ EndsInEscape s.text.toList := by decide +kernel
  obtain ⟨written, valid, again⟩ := withSelectorText_again_iff read
  have text : r'.joined ++ "\x7b" ++ r'.rules.toCss .compact ++ "\x7d" = "a\\:b,c\\ d\x7b\x7d" := by decide +kernel
  rw [text] at written
  exact ⟨read, written, fun s hs => (valid s hs).mpr (ended s hs), fun other k => (again other k).mpr ended⟩

/-- An escaped blank at the end is cut off, and its backslash is not: what is stored is not valid, and before another
selector it takes the comma. -/
theorem withSelectorText_not_again :
    let r : StyleRule := { selectors := [], rules := {} }
    r.withSelectorText "a\\ " false .none = .ok { r with selectors := [⟨"a\\"⟩] } ∧ isValid "a\\" false = false ∧
      r.withSelectorText "a\\" false .none = .error (.unexpectedToken "a valid selector" "a\\" .none) ∧
      r.withSelectorText "a\\ ,b" false .none = .ok { r with selectors := [⟨"a\\"⟩, ⟨"b"⟩] } ∧
      r.withSelectorText "a\\,b" false .none = .ok { r with selectors := [⟨"a\\,b"⟩] } := by
  intro r
  have invalid : isValid "a\\" false = false := by decide +kernel
  have refused : r.withSelectorText "a\\" false .none = .error (.unexpectedToken "a valid selector" "a\\" .none) := by
    have parts : Selector.parts "a\\" = ["a\\"] := by decide +kernel
    have trimmed : Text.trim "a\\" = "a\\" := by decide +kernel
    simp [withSelectorText, Selector.parseList, parts, Selector.parse, invalid, trimmed, Except.map, bind, Except.bind]
  have blank : r.withSelectorText "a\\ " false .none = .ok { r with selectors := [⟨"a\\"⟩] } :=
    withSelectorText_eq_ok r .none (by decide +kernel) (by decide +kernel)
  have list : r.withSelectorText "a\\ ,b" false .none = .ok { r with selectors := [⟨"a\\"⟩, ⟨"b"⟩] } :=
    withSelectorText_eq_ok r .none (by decide +kernel) (by decide +kernel)
  have joined : r.withSelectorText "a\\,b" false .none = .ok { r with selectors := [⟨"a\\,b"⟩] } :=
    withSelectorText_eq_ok r .none (by decide +kernel) (by decide +kernel)
  exact ⟨blank, invalid, refused, list, joined⟩

end StyleRule

end Stylesheet
