import Mathlib.Data.List.Find
import Stylesheet.Proofs.Lowering
import Stylesheet.Proofs.Trimming
import Stylesheet.Selector.Specificity

namespace Stylesheet.Selector

/-- The codes of the characters that combine. -/
def combinatorCodes : List Nat :=
  List.range' 0x09 5 ++ List.range' 0x2000 11 ++
    [0x20, 0x2B, 0x3E, 0x7E, 0x85, 0xA0, 0x1680, 0x2028, 0x2029, 0x202F, 0x205F, 0x3000]

variable {c : Char}

theorem code_of_isCombinator (hc : isCombinator c = true) : c.toNat ∈ combinatorCodes := by
  simp only [isCombinator, Text.isBlank, Bool.or_eq_true, Bool.and_eq_true, decide_eq_true_eq, beq_iff_eq] at hc
  rcases hc with ((blank | rfl) | rfl) | rfl
  · simp only [combinatorCodes, List.mem_append, List.mem_range'_1, List.mem_cons, List.not_mem_nil, or_false]
    omega
  · decide
  · decide
  · decide

/-- A combinator is part of no name. -/
theorem isWord_of_isCombinator (hc : isCombinator c = true) : Text.isWord c = false := by
  have all : ∀ n ∈ combinatorCodes, Text.inRanges Text.wordRanges n = false := by decide +kernel
  exact all c.toNat (code_of_isCombinator hc)

/-- A combinator is part of no word that names a pseudo-class or a pseudo-element. -/
theorem foldsTo_of_isCombinator (hc : isCombinator c = true) {w : String} (hw : w ∈ pseudoClasses ++ pseudoElements)
    {a : Char} (ha : a ∈ w.toList) : foldsTo a c = false := by
  have letter : a = '-' ∨ 0x61 ≤ a.toNat ∧ a.toNat ≤ 0x7A := by
    have all : ((pseudoClasses ++ pseudoElements).all fun w =>
        w.toList.all fun a => a = '-' ∨ 0x61 ≤ a.toNat ∧ a.toNat ≤ 0x7A) = true := by
      decide +kernel
    simpa using List.all_eq_true.mp (List.all_eq_true.mp all w hw) a ha
  have codes : ∀ n ∈ combinatorCodes, n ≠ 0x2D ∧ ¬ (0x41 ≤ n ∧ n ≤ 0x5A) ∧ ¬ (0x61 ≤ n ∧ n ≤ 0x7A) ∧ n ≠ 0x212A ∧
      n ≠ 0x17F := by
    decide
  obtain ⟨dash, capital, small, kelvin, long⟩ := codes c.toNat (code_of_isCombinator hc)
  have folded : c.toLower ≠ a := by
    intro same
    have code := Text.toNat_toLower c
    rw [if_neg capital, same] at code
    rcases letter with rfl | letter
    · exact dash code.symm
    · omega
  have signs : c ≠ '\u212A' ∧ c ≠ '\u017F' := by
    constructor
    · rintro rfl
      exact kelvin rfl
    · rintro rfl
      exact long rfl
  simp [foldsTo, folded, signs]

theorem ne_of_isCombinator (hc : isCombinator c = true) {d : Char} (hd : isCombinator d = false) : c ≠ d := by
  rintro rfl
  rw [hc] at hd
  cases hd

variable {first : Bool} {text before rest : List Char}

/-- A character that stops a run stops it whatever comes behind. -/
theorem takeWhile_append_stop {p : Char → Bool} (hc : p c = false) (text rest : List Char) :
    (text ++ c :: rest).takeWhile p = text.takeWhile p := by
  induction text with
  | nil => simp [hc]
  | cons d text ih => simp [List.takeWhile_cons, ih]

theorem runLength_append (hc : isCombinator c = true) (text rest : List Char) :
    runLength (text ++ c :: rest) = runLength text := by
  rw [runLength, takeWhile_append_stop (isWord_of_isCombinator hc), runLength]

theorem startsWord_append {word : List Char} (hc : ∀ a ∈ word, foldsTo a c = false) (text rest : List Char) :
    startsWord word (text ++ c :: rest) = startsWord word text := by
  induction word generalizing text with
  | nil => simp [startsWord]
  | cons a word ih =>
    have later : ∀ b ∈ word, foldsTo b c = false := fun b hb => hc b (List.mem_cons_of_mem a hb)
    cases text with
    | nil => simp [startsWord, hc a List.mem_cons_self]
    | cons d text => simp [startsWord, ih later]

theorem wordLength_append {words : List String} (hw : ∀ w ∈ words, w ∈ pseudoClasses ++ pseudoElements)
    (hc : isCombinator c = true) (text rest : List Char) :
    wordLength words (text ++ c :: rest) = wordLength words text := by
  have same : words.find? (fun w => startsWord w.toList (text ++ c :: rest)) =
      words.find? fun w => startsWord w.toList text := by
    apply List.find?_congr
    intro w mem
    exact startsWord_append (fun a ha => foldsTo_of_isCombinator hc (hw w mem) ha) text rest
  rw [wordLength, same, wordLength]

theorem runLength_le (text : List Char) : runLength text ≤ text.length :=
  (List.takeWhile_prefix _).length_le

theorem startsWord_le {word : List Char} (h : startsWord word text = true) : word.length ≤ text.length := by
  induction word generalizing text with
  | nil => simp
  | cons a word ih =>
    cases text with
    | nil => simp [startsWord] at h
    | cons d text =>
      simp only [startsWord, Bool.and_eq_true] at h
      simpa using ih h.2

theorem wordLength_le (words : List String) (text : List Char) : wordLength words text ≤ text.length := by
  unfold wordLength
  split
  · next w found =>
    have starts := List.find?_some found
    rw [← String.length_toList]
    exact startsWord_le starts
  · simp

theorem behind_le {sign length n : Nat} (h : length ≤ n) : behind sign length ≤ n + sign := by
  unfold behind
  split
  · omega
  · omega

theorem classLength_le (text : List Char) : classLength text ≤ text.length := by
  unfold classLength
  split
  · simpa using behind_le (runLength_le _)
  · simpa using behind_le (runLength_le _)
  · simpa using behind_le (wordLength_le _ _)
  · simp

theorem classLength_of_isCombinator (hc : isCombinator c = true) (rest : List Char) : classLength (c :: rest) = 0 := by
  have dot := ne_of_isCombinator hc (d := '.') (by decide)
  have bracket := ne_of_isCombinator hc (d := '[') (by decide)
  have colon := ne_of_isCombinator hc (d := ':') (by decide)
  simp [classLength, dot, bracket, colon]

theorem classLength_append (hc : isCombinator c = true) (text rest : List Char) :
    classLength (text ++ c :: rest) = classLength text := by
  cases text with
  | nil => simpa [classLength] using classLength_of_isCombinator hc rest
  | cons d text =>
    have words : ∀ w ∈ pseudoClasses, w ∈ pseudoClasses ++ pseudoElements := fun w hw => List.mem_append_left _ hw
    by_cases dot : d = '.'
    · subst dot
      simp [classLength, runLength_append hc]
    by_cases bracket : d = '['
    · subst bracket
      simp [classLength, runLength_append hc]
    by_cases colon : d = ':'
    · subst colon
      simp [classLength, wordLength_append words hc]
    simp [classLength, dot, bracket, colon]

/-- The length of the combinators that a text begins with. -/
def leading (text : List Char) : Nat := (text.takeWhile isCombinator).length

/-- The length of the name behind the combinators that a text begins with. -/
def nameLength (text : List Char) : Nat := runLength (text.drop (leading text))

/-- The length of the pseudo-element at the start of a text, or zero. -/
def pseudoElementLength : List Char → Nat
  | ':' :: ':' :: rest => behind 2 (wordLength pseudoElements rest)
  | ':' :: rest => behind 1 (wordLength pseudoElements rest)
  | _ => 0

theorem elementLength_eq (first : Bool) (text : List Char) :
    elementLength first text =
      if nameLength text ≠ 0 ∧ (first = true ∨ leading text ≠ 0) then leading text + nameLength text
      else pseudoElementLength text := by
  simp only [elementLength, nameLength, leading, Bool.and_eq_true, Bool.or_eq_true, decide_eq_true_eq]
  rfl

theorem leading_le (text : List Char) : leading text ≤ text.length :=
  (List.takeWhile_prefix _).length_le

theorem leading_add_nameLength_le (text : List Char) : leading text + nameLength text ≤ text.length := by
  have name := runLength_le (text.drop (leading text))
  have combining := leading_le text
  rw [List.length_drop] at name
  unfold nameLength
  omega

theorem pseudoElementLength_le (text : List Char) : pseudoElementLength text ≤ text.length := by
  unfold pseudoElementLength
  split
  · simpa using behind_le (wordLength_le _ _)
  · simpa using behind_le (wordLength_le _ _)
  · simp

theorem elementLength_le (first : Bool) (text : List Char) : elementLength first text ≤ text.length := by
  rw [elementLength_eq]
  split
  · exact leading_add_nameLength_le text
  · exact pseudoElementLength_le text

theorem pseudoElementLength_of_isCombinator (hc : isCombinator c = true) (rest : List Char) :
    pseudoElementLength (c :: rest) = 0 := by
  have colon := ne_of_isCombinator hc (d := ':') (by decide)
  simp [pseudoElementLength, colon]

theorem pseudoElementLength_append (hc : isCombinator c = true) (text rest : List Char) :
    pseudoElementLength (text ++ c :: rest) = pseudoElementLength text := by
  have words : ∀ w ∈ pseudoElements, w ∈ pseudoClasses ++ pseudoElements := fun w hw => List.mem_append_right _ hw
  have colon := ne_of_isCombinator hc (d := ':') (by decide)
  have seen (text : List Char) := wordLength_append words hc text rest
  match text with
  | [] => simpa [pseudoElementLength] using pseudoElementLength_of_isCombinator hc rest
  | [d] =>
    by_cases single : d = ':'
    · subst single
      have single := seen []
      simp only [List.nil_append] at single
      simp [pseudoElementLength, colon, single]
    · simp [pseudoElementLength, single]
  | d :: e :: text =>
    by_cases single : d = ':'
    · subst single
      by_cases double : e = ':'
      · subst double
        simp [pseudoElementLength, seen text]
      · have same := seen (e :: text)
        simp only [List.cons_append] at same
        simp [pseudoElementLength, double, same]
    · simp [pseudoElementLength, single]

/-- A combinator behind a text changes nothing of an element at its start, unless the text has only combinators. -/
theorem elementLength_append (first : Bool) (hc : isCombinator c = true) {text : List Char}
    (solid : ∃ d ∈ text, isCombinator d = false) (rest : List Char) :
    elementLength first (text ++ c :: rest) = elementLength first text := by
  obtain ⟨d, mem, stops⟩ := solid
  have same : leading (text ++ c :: rest) = leading text := by
    obtain ⟨front, back, rfl⟩ := List.append_of_mem mem
    simp [leading, takeWhile_append_stop stops]
  have name : nameLength (text ++ c :: rest) = nameLength text := by
    rw [nameLength, same, List.drop_append_of_le_length (leading_le text), runLength_append hc, nameLength]
  rw [elementLength_eq, elementLength_eq, same, name, pseudoElementLength_append hc]

/-- A combinator in front goes with the combinators that follow it. -/
theorem elementLength_cons (first : Bool) (hc : isCombinator c = true) (rest : List Char) :
    elementLength first (c :: rest) = if nameLength rest = 0 then 0 else leading rest + nameLength rest + 1 := by
  have more : leading (c :: rest) = leading rest + 1 := by simp [leading, hc]
  have name : nameLength (c :: rest) = nameLength rest := by simp [nameLength, more]
  rw [elementLength_eq, more, name, pseudoElementLength_of_isCombinator hc]
  split
  · next named =>
    rw [if_neg named.1]
    omega
  · next unnamed =>
    rw [if_pos]
    simpa using unnamed

/-- A way to find things that does not reach over a combinator. What it finds fits into the text; a combinator behind
changes nothing of it unless the text has only combinators; and behind a combinator the same is found as at the start,
with the combinator or without it. -/
structure KeepsApart (lengthAt : Bool → List Char → Nat) : Prop where
  fits : ∀ first text, lengthAt first text ≤ text.length
  before : ∀ first c text rest, isCombinator c = true → (∃ d ∈ text, isCombinator d = false) →
    lengthAt first (text ++ c :: rest) = lengthAt first text
  behind : ∀ first c rest, isCombinator c = true →
    lengthAt first (c :: rest) = 0 ∧ lengthAt true rest = lengthAt false rest ∨
      lengthAt true rest ≠ 0 ∧ lengthAt first (c :: rest) = lengthAt true rest + 1

theorem keepsApart_classes : KeepsApart fun _ => classLength where
  fits _ text := classLength_le text
  before _ _ text rest hc _ := classLength_append hc text rest
  behind _ _ rest hc := .inl ⟨classLength_of_isCombinator hc rest, rfl⟩

theorem keepsApart_elements : KeepsApart elementLength where
  fits := elementLength_le
  before first _ _ rest hc solid := elementLength_append first hc solid rest
  behind first c rest hc := by
    rw [elementLength_cons first hc, elementLength_eq true, elementLength_eq false]
    by_cases unnamed : nameLength rest = 0
    · left
      simp [unnamed]
    · right
      simp [unnamed]

variable {lengthAt : Bool → List Char → Nat}

theorem count_missed (h : lengthAt first (c :: rest) = 0) :
    count lengthAt first (c :: rest) = count lengthAt false rest := by
  rw [count, h]

theorem count_found (h : lengthAt first (c :: rest) ≠ 0) :
    count lengthAt first (c :: rest) = 1 + count lengthAt false ((c :: rest).drop (lengthAt first (c :: rest))) := by
  obtain ⟨n, hn⟩ := Nat.exists_eq_succ_of_ne_zero h
  rw [count, hn]
  simp

/-- Where the start of the text makes no difference to what is found, it makes none to the count. -/
theorem count_start (h : lengthAt true text = lengthAt false text) :
    count lengthAt true text = count lengthAt false text := by
  cases text with
  | nil => simp [count]
  | cons c rest =>
    by_cases missed : lengthAt true (c :: rest) = 0
    · rw [count_missed missed, count_missed (h ▸ missed)]
    · rw [count_found missed, count_found (h ▸ missed), h]

namespace KeepsApart

variable (h : KeepsApart lengthAt)

include h

/-- Behind a combinator the same is counted as at the start. -/
theorem count_cons (first : Bool) (hc : isCombinator c = true) (rest : List Char) :
    count lengthAt first (c :: rest) = count lengthAt true rest := by
  rcases h.behind first c rest hc with ⟨missed, same⟩ | ⟨found, longer⟩
  · rw [count_missed missed, count_start same]
  · have reached : lengthAt first (c :: rest) ≠ 0 := by omega
    rw [count_found reached, longer, List.drop_succ_cons]
    cases rest with
    | nil =>
      have nothing := h.fits true []
      simp at nothing
      exact absurd nothing found
    | cons d rest => rw [count_found found]

/-- Combinators in front of a text do not count. -/
theorem count_run {run : List Char} (hr : ∀ c ∈ run, isCombinator c = true) (rest : List Char) :
    count lengthAt true (run ++ rest) = count lengthAt true rest := by
  induction run with
  | nil => rfl
  | cons c run ih =>
    rw [List.cons_append, h.count_cons true (hr c List.mem_cons_self)]
    exact ih fun d hd => hr d (List.mem_cons_of_mem c hd)

/-- A text and what stands behind a combinator are counted apart. -/
theorem count_append (first : Bool) (before : List Char) (hc : isCombinator c = true) (rest : List Char) :
    count lengthAt first (before ++ c :: rest) = count lengthAt first before + count lengthAt true rest := by
  obtain ⟨n, length⟩ : ∃ n, before.length = n := ⟨_, rfl⟩
  induction n using Nat.strong_induction_on generalizing before first with
  | _ n ih =>
    by_cases solid : ∃ d ∈ before, isCombinator d = false
    · obtain ⟨d, more, rfl⟩ : ∃ d more, before = d :: more := by
        obtain ⟨d, mem, -⟩ := solid
        exact List.exists_cons_of_ne_nil (List.ne_nil_of_mem mem)
      have same := h.before first c (d :: more) rest hc solid
      rw [List.cons_append] at same ⊢
      by_cases missed : lengthAt first (d :: more) = 0
      · rw [count_missed (same.trans missed), count_missed missed]
        exact ih more.length (by simp [← length]) false more rfl
      · have fits := h.fits first (d :: more)
        have shorter : ((d :: more).drop (lengthAt first (d :: more))).length < n := by
          rw [List.length_drop, length]
          omega
        have found : lengthAt first (d :: (more ++ c :: rest)) ≠ 0 := same ▸ missed
        rw [count_found found, count_found missed, same, ← List.cons_append, List.drop_append_of_le_length fits,
          ih _ shorter false _ rfl, Nat.add_assoc]
    · have combining : ∀ d ∈ before, isCombinator d = true := by simpa using solid
      cases before with
      | nil => simpa [count] using h.count_cons first hc rest
      | cons d more =>
        have later : ∀ e ∈ more, isCombinator e = true := fun e he => combining e (List.mem_cons_of_mem d he)
        have alone : count lengthAt true more = 0 := by simpa [count] using h.count_run later []
        have start := h.count_cons first (combining d List.mem_cons_self)
        rw [List.cons_append, start, start, h.count_run later, h.count_cons true hc, alone, Nat.zero_add]

/-- A text is counted as it is without the blanks at its ends. -/
theorem count_trim (text : List Char) : count lengthAt true (Text.trimChars text) = count lengthAt true text := by
  have combining {c : Char} (hc : Text.isBlank c = true) : isCombinator c = true := by simp [isCombinator, hc]
  obtain ⟨front, back, split, hf, hb⟩ := Text.trimChars_split text
  have start := h.count_run (fun c hc => combining (hf c hc)) (Text.trimChars text ++ back)
  rw [← split] at start
  rw [start]
  cases back with
  | nil => simp
  | cons c back =>
    have nothing : count lengthAt true back = 0 := by
      have run := h.count_run (fun d hd => combining (hb d (List.mem_cons_of_mem c hd))) []
      simpa [count] using run
    rw [h.count_append true _ (combining (hb c List.mem_cons_self)), nothing, Nat.add_zero]

/-- With combinators between them two texts are counted apart. -/
theorem count_combined (before : List Char) {link : List Char} (nonempty : link ≠ [])
    (hl : ∀ c ∈ link, isCombinator c = true) (after : List Char) :
    count lengthAt true (before ++ (link ++ after)) = count lengthAt true before + count lengthAt true after := by
  obtain ⟨c, link, rfl⟩ := List.exists_cons_of_ne_nil nonempty
  rw [List.cons_append, h.count_append true before (hl c List.mem_cons_self)]
  rw [h.count_run fun d hd => hl d (List.mem_cons_of_mem c hd)]

end KeepsApart

/-- The specificity of a text, which is that of the text without the blanks at its ends. -/
theorem specificity_ofText (text : String) :
    (ofText text).specificity = 100 * text.toList.count '#' + 10 * count (fun _ => classLength) true text.toList +
      count elementLength true text.toList := by
  have ids : (Text.trimChars text.toList).count '#' = text.toList.count '#' := by
    simpa [Text.trim] using Text.count_trim (c := '#') (by decide) text.toList
  simp only [specificity, ofText, Text.trim, String.toList_ofList, ids, keepsApart_classes.count_trim,
    keepsApart_elements.count_trim]

/-- Two selectors that are combined are as specific as both together, whether a blank combines them or any run of
combinators. -/
theorem specificity_combined (a b : String) :
    (ofText (a ++ " " ++ b)).specificity = (ofText a).specificity + (ofText b).specificity ∧
      ∀ link : String, link ≠ "" → (∀ c ∈ link.toList, isCombinator c = true) →
        (ofText (a ++ link ++ b)).specificity = (ofText a).specificity + (ofText b).specificity := by
  have combined (link : String) (nonempty : link.toList ≠ []) (hl : ∀ c ∈ link.toList, isCombinator c = true) :
      (ofText (a ++ link ++ b)).specificity = (ofText a).specificity + (ofText b).specificity := by
    have chars : (a ++ link ++ b).toList = a.toList ++ (link.toList ++ b.toList) := by simp
    have unmarked : link.toList.count '#' = 0 := by
      rw [List.count_eq_zero]
      intro mem
      exact absurd (hl '#' mem) (by decide)
    rw [specificity_ofText, specificity_ofText, specificity_ofText, chars,
      keepsApart_classes.count_combined _ nonempty hl, keepsApart_elements.count_combined _ nonempty hl]
    simp only [List.count_append, unmarked]
    omega
  constructor
  · exact combined " " (by decide) (by simp [isCombinator, Text.isBlank])
  · intro link nonempty hl
    exact combined link (by simpa using nonempty) hl

/-- A child combinator and a sibling combinator with blanks around them. -/
theorem specificity_combined_link :
    " > + " ≠ "" ∧ (∀ c ∈ " > + ".toList, isCombinator c = true) ∧
      (ofText ("ul.a:hover" ++ " > + " ++ "#b li::before")).specificity =
        (ofText "ul.a:hover").specificity + (ofText "#b li::before").specificity := by
  have nonempty : " > + " ≠ "" := by decide
  have combining : ∀ c ∈ " > + ".toList, isCombinator c = true := List.all_eq_true.mp (by decide)
  exact ⟨nonempty, combining, (specificity_combined "ul.a:hover" "#b li::before").2 " > + " nonempty combining⟩

end Stylesheet.Selector
