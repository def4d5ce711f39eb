import Stylesheet.Proofs.Folding
import Stylesheet.Proofs.SteadyValue
import Stylesheet.Proofs.Tokens

namespace Stylesheet

open Read (Takes)

section Spacing

variable {c : Char} {b l : List Char}

theorem isBlank_of_isSpacing (h : Text.isSpacing c = true) : Text.isBlank c = true := by
  rw [Text.isSpacing, Bool.and_eq_true] at h
  exact h.1

theorem endsName_of_isSpacing (h : Text.isSpacing c = true) : EndsName (c :: l) := by
  rw [Text.isSpacing, Bool.and_eq_true, Bool.not_eq_true'] at h
  refine .cons h.2 fun hc => ?_
  rw [hc] at h
  exact absurd h.1 (by decide)

theorem all_isBlank (h : b.all Text.isSpacing = true) : b.all Text.isBlank = true :=
  List.all_eq_true.mpr fun c hc => isBlank_of_isSpacing (List.all_eq_true.mp h c hc)

namespace Layout

variable {f : Layout} {space : String}

theorem spacing_fit (hf : f.IsBlank) (h : isSpace space = true) : (f.fit space).toList.all Text.isSpacing = true :=
  isSpace_fit hf.indentation h

theorem blank_fit (hf : f.IsBlank) (h : isSpace space = true) : (f.fit space).toList.all Text.isBlank = true :=
  all_isBlank (spacing_fit hf h)

theorem IsBlank.deeper (hf : f.IsBlank) : f.deeper.IsBlank := { hf with }

/-- A separator is written between blanks. -/
theorem around_eq (hf : f.IsBlankInValues) (s : Separator) :
    ∃ b d, (f.around s).toList = b ++ (s.symbol.toList ++ d) ∧ b.all Text.isSpacing = true ∧
      d.all Text.isSpacing = true := by
  refine ⟨(f.beforeSeparator s).toList, (f.afterSeparator s).toList, ?_, hf.before s, hf.after s⟩
  rw [around, String.toList_append, String.toList_append, List.append_assoc]
  rfl

end Layout

end Spacing

/-- What may stand behind a value that is no list: nothing of it goes on, and no comment comes next. -/
structure Closed (l : List Char) : Prop where
  name : EndsName l
  head : ∀ c rest, l = c :: rest → c ∉ ['(', ':', '+', '.', '%']
  stops : Stops (pastBlank l)

/-- What may stand behind a whole value. -/
structure Ends (l : List Char) : Prop extends Closed l where
  ends : ∀ c rest, pastBlank l = c :: rest → c ∈ ['\x7d', ';', '!', ')']

theorem Ends.nil : Ends [] := ⟨⟨fun _ _ h => (by cases h), fun _ _ h => (by cases h), .nil⟩, fun _ _ h => by cases h⟩

theorem not_isBlank_of_mem {c : Char} {cs : List Char} (hc : c ∈ cs)
    (solid : cs.all (fun c => !Text.isBlank c) = true) : Text.isBlank c = false := by
  have other := List.all_eq_true.mp solid c hc
  rwa [Bool.not_eq_true'] at other

/-- An ending of values: blanks, and a character that ends a value behind them. -/
theorem ends_of_spacing {b l : List Char} {c : Char} (hb : b.all Text.isSpacing = true)
    (hc : c ∈ ['\x7d', ';', '!', ')']) : Ends (b ++ c :: l) := by
  have known : isIdentifierChar c = false ∧ c ≠ '\\' ∧ c ∉ ['(', ':', '+', '.', '%'] ∧ c ≠ '/' := by
    simp only [List.mem_cons, List.not_mem_nil, or_false] at hc
    rcases hc with rfl | rfl | rfl | rfl <;> decide
  obtain ⟨name, escape, other, slash⟩ := known
  have solid : Text.isBlank c = false := not_isBlank_of_mem hc (by decide)
  have behind : pastBlank (b ++ c :: l) = c :: l := (pastBlank_append (all_isBlank hb)).trans (pastBlank_cons solid)
  have head : EndsName (b ++ c :: l) ∧ ∀ d rest, b ++ c :: l = d :: rest → d ∉ ['(', ':', '+', '.', '%'] := by
    cases b with
    | nil =>
      refine ⟨.cons name escape, fun d rest h => ?_⟩
      cases h
      exact other
    | cons d b =>
      rw [List.all_cons, Bool.and_eq_true] at hb
      refine ⟨endsName_of_isSpacing hb.1, fun e rest h he => ?_⟩
      cases h
      have blank := isBlank_of_isSpacing hb.1
      rw [not_isBlank_of_mem he (by decide)] at blank
      cases blank
  refine ⟨⟨head.1, head.2, ?_⟩, fun d rest h => ?_⟩
  · rw [behind]
    exact .cons solid slash
  · rw [behind] at h
    cases h
    exact hc

theorem toLower_not_name {c : Char} (h : isIdentifierChar c = false) : isNameChar c.toLower = false := by
  rw [Bool.eq_false_iff]
  intro hn
  have code := Text.toNat_toLower c
  split at code
  · next hc =>
    have upper : isNameChar c = true := by
      rw [isNameChar, Char.isAlphanum, isAlpha_iff.mpr (.inl hc)]
      rfl
    rw [isIdentifierChar_of_isNameChar upper] at h
    cases h
  · have same : c.toLower = c := Char.toNat_inj.mp code
    rw [same] at hn
    rw [isIdentifierChar_of_isNameChar hn] at h
    cases h

theorem isBlank_of_isNameChar {c : Char} (h : isNameChar c = true) : Text.isBlank c = false := by
  have codes := toNat_of_isNameChar h
  rw [Bool.eq_false_iff]
  intro hb
  simp only [Text.isBlank, Bool.or_eq_true, Bool.and_eq_true, decide_eq_true_eq, beq_iff_eq] at hb
  omega

theorem toLower_eq_colon {c : Char} (h : c.toLower = ':') : c = ':' := by
  have code := Text.toNat_toLower c
  rw [h] at code
  split at code
  · next hc =>
    have colon : ':'.toNat = 58 := rfl
    omega
  · exact (Char.toNat_inj.mp code).symm

theorem isDigit_of_isAlpha {c : Char} (h : c.isAlpha = true) : c.isDigit = false := by
  have letters := isAlpha_iff.mp h
  rw [Bool.eq_false_iff]
  intro hd
  have digits := isDigit_iff.mp hd
  omega

namespace Place

variable {p : Place} {name l : List Char} {word : String}

/-- A word is not found where a name stands that does not begin with it, if what follows the name is no part of
it. -/
theorem comesAnyCase_name (hw : Text.isPlainWord word.toList = true)
    (hn : (name.take word.toList.length).map Char.toLower ≠ word.toList)
    (hl : ∀ c rest, l = c :: rest → c.toLower ∉ word.toList) (hp : p.rest = name ++ l) :
    p.comesAnyCase word = false := by
  rw [Bool.eq_false_iff]
  intro hc
  have letters := take_toLower_of_comesAnyCase hw hc
  rw [hp, List.take_append] at letters
  by_cases long : word.toList.length ≤ name.length
  · rw [Nat.sub_eq_zero_of_le long, List.take_zero, List.append_nil] at letters
    exact hn letters
  · cases l with
    | nil =>
      rw [List.take_nil, List.append_nil] at letters
      exact hn letters
    | cons c rest =>
      refine hl c rest rfl ?_
      obtain ⟨k, hk⟩ : ∃ k, word.toList.length - name.length = k + 1 :=
        ⟨word.toList.length - name.length - 1, by omega⟩
      rw [hk, List.take_succ_cons, List.map_append, List.map_cons] at letters
      rw [← letters]
      exact List.mem_append_right _ List.mem_cons_self

theorem comesAnyCase_head {c d : Char} {rest more : List Char} (hw : Text.isPlainWord word.toList = true)
    (hd : word.toList = d :: more) (hc : c.toLower ≠ d) (hp : p.rest = c :: rest) : p.comesAnyCase word = false := by
  rw [Bool.eq_false_iff]
  intro h
  have letters := take_toLower_of_comesAnyCase hw h
  rw [hp, hd, List.length_cons, List.take_succ_cons, List.map_cons, List.cons.injEq] at letters
  exact hc letters.1

end Place

/-- The characters that plain values begin with. -/
def isPlainStart (c : Char) : Bool := c.isAlpha || c == '"' || c == '\'' || c == '['

/-- The characters that separate, enclose or end values, and the asterisk, which begins a comment behind a slash. -/
def delimiters : List Char := ['/', '*', ',', '=', '(', '\x7d', ';', '!', ')', '\\']

theorem isAlphanum_of_delimiter {d : Char} (hd : d ∈ delimiters) : d.isAlphanum = false := by
  have all : delimiters.all (fun d => !d.isAlphanum) = true := rfl
  simpa only [Bool.not_eq_true'] using List.all_eq_true.mp all d hd

/-- The characters that a value may begin with behind a separator. -/
def isValueStart (c : Char) : Bool := !Text.isBlank c && c ∉ delimiters

theorem isValueStart_of_isPlainStart {c : Char} (h : isPlainStart c = true) : isValueStart c = true := by
  simp only [isPlainStart, Bool.or_eq_true, beq_iff_eq] at h
  rcases h with ((alpha | rfl) | rfl) | rfl
  · have solid : Text.isBlank c = false := isBlank_of_isNameChar (by rw [isNameChar, Char.isAlphanum, alpha]; rfl)
    have other : c ∉ delimiters := by
      intro hc
      have letter := isAlphanum_of_delimiter hc
      rw [Char.isAlphanum, alpha] at letter
      cases letter
    rw [isValueStart, solid, decide_eq_true other]
    rfl
  · rfl
  · rfl
  · rfl

theorem isValueStart_of_isAlpha {c : Char} (alpha : c.isAlpha = true) : isValueStart c = true :=
  isValueStart_of_isPlainStart (by rw [isPlainStart, alpha]; rfl)

theorem isValueStart_iff {c : Char} : isValueStart c = true ↔
    Text.isBlank c = false ∧ c ∉ delimiters := by
  rw [isValueStart, Bool.and_eq_true, Bool.not_eq_true', decide_eq_true_eq]

theorem isPlainName_eq {name : String} (h : isPlainName name = true) :
    ∃ c rest, name.toList = c :: rest ∧ c.isAlpha = true ∧ name.toList.all isNameChar = true := by
  unfold isPlainName at h
  split at h
  · cases h
  · next c rest hn =>
    rw [Bool.and_eq_true] at h
    refine ⟨c, rest, hn, h.1, ?_⟩
    rw [hn, List.all_cons, h.2, isNameChar, Char.isAlphanum, h.1]
    rfl

/-- Characters of names, one at least. -/
structure IsName (name : String) : Prop where
  nonempty : name.toList ≠ []
  chars : name.toList.all isNameChar = true

theorem isName_of_isPlainName {name : String} (h : isPlainName name = true) : IsName name := by
  obtain ⟨c, rest, hn, -, chars⟩ := isPlainName_eq h
  exact ⟨by rw [hn]; exact List.cons_ne_nil c rest, chars⟩

theorem isPlainWord_eq {name : String} (h : isPlainWord name = true) : isPlainName name = true ∧
    (name.toList.take 3).map Char.toLower ≠ "rgb".toList ∧ (name.toList.take 3).map Char.toLower ≠ "hsl".toList := by
  simp only [isPlainWord, Bool.and_eq_true, Bool.not_eq_true', beginsAnyCase, beq_eq_false_iff_ne] at h
  exact ⟨h.1.1, h.1.2, h.2⟩

theorem isPlainCall_eq {name : String} (h : isPlainCall name = true) : isPlainWord name = true ∧
    name.toList.map Char.toLower ≠ "url".toList ∧ name.toList.map Char.toLower ≠ "calc".toList := by
  simp only [isPlainCall, Bool.and_eq_true, bne_iff_ne] at h
  exact ⟨h.1.1, h.1.2, h.2⟩

namespace Value

variable {f : Layout}

/-- A plain value that is no list begins with a letter, a quote or a bracket. -/
theorem head_of_plain (hf : f.IsBlankInValues) {v : Value} (hv : v.isPlain [] = true) :
    ∃ c rest, (v.toCss f).toList = c :: rest ∧ isPlainStart c = true := by
  have name {name : String} (h : isPlainWord name = true) (more : List Char) :
      ∃ c rest, name.toList ++ more = c :: rest ∧ isPlainStart c = true := by
    obtain ⟨c, rest, hn, hc, -⟩ := isPlainName_eq (isPlainWord_eq h).1
    exact ⟨c, rest ++ more, by rw [hn]; rfl, by rw [isPlainStart, hc]; rfl⟩
  cases v with
  | keyword t =>
    have start := name hv []
    rwa [List.append_nil] at start
  | function fname args s p =>
    simp only [isPlain, Bool.and_eq_true] at hv
    have start := name (isPlainCall_eq hv.1).1
    simp only [toCss, String.toList_append, List.append_assoc]
    exact start _
  | string q =>
    refine ⟨f.quote, _, by rw [toCss, Quoted.toCss, String.toList_ofList], ?_⟩
    rcases hf.quote with h | h <;> rw [h] <;> rfl
  | url u => exact ⟨'u', _, by simp only [toCss, Url.toCss, String.toList_append]; rfl, rfl⟩
  | lineNames names p => exact ⟨'[', _, by simp only [toCss, String.toList_append]; rfl, rfl⟩
  | list vs s p =>
    simp only [isPlain, Bool.and_eq_true] at hv
    cases hv.1.2
  | size | color | calculation => cases hv

variable {nested : List Separator → Read Value} {inner word primitive : Read Value} {l m : List Char}
  {good : Value → Prop}

theorem takes_wordOrSign (hw : Takes l m word good) : Takes l m (readWordOrSign word) good := by
  intro r hr
  obtain ⟨v, s, hs, hm, hv⟩ := hw r hr
  exact ⟨v, s, by rw [outcome_readWordOrSign, hs, Read.rescued_ok], hm, hv⟩

theorem takes_primitiveWith (hl : Stops l) (hm : Stops (pastBlank m))
    (hv : ∀ p b, p.rest = l → Takes l m (readForm nested inner b p) good) :
    Takes l (pastBlank m) (readPrimitiveWith nested inner) good := by
  rw [readPrimitiveWith_eq]
  refine (Takes.noGap hl).discard.bind fun _ _ => Takes.here fun p hp => Takes.asking fun b => ?_
  exact (hv p b hp).bind fun v hg => (Takes.blanks hm).discard.bind fun _ _ => .pure hg

theorem begins_of_start {p : Place} {c : Char} {rest : List Char} (hp : p.rest = c :: rest)
    (hc : isPlainStart c = true) : Size.begins p = false := by
  have digit : c.isDigit = false := by
    simp only [isPlainStart, Bool.or_eq_true, beq_iff_eq] at hc
    rcases hc with ((hc | rfl) | rfl) | rfl
    · exact isDigit_of_isAlpha hc
    · rfl
    · rfl
    · rfl
  have minus : c ≠ '-' := fun h => by
    rw [h] at hc
    exact absurd hc (by decide)
  have point : c ≠ '.' := fun h => by
    rw [h] at hc
    exact absurd hc (by decide)
  unfold Size.begins
  rw [hp]
  split
  · next h => cases h; exact absurd rfl minus
  · next h => cases h; exact absurd rfl minus
  · next h => cases h; exact absurd rfl point
  · next h => cases h; exact digit
  · rfl

/-- What stands behind a name that is read as a word or a call. -/
structure BehindWord (l : List Char) : Prop where
  name : EndsName l
  head : ∀ c rest, l = c :: rest → c ≠ ':' ∧ c ≠ '+'

theorem behindWord_parenthesis (l : List Char) : BehindWord ('(' :: l) :=
  ⟨.cons rfl (by decide), fun c rest h => by cases h; decide⟩

/-- A plain word is read as one, and not as a color, a filter or a range. -/
theorem readForm_of_word {name : String} (hn : isPlainWord name = true) (hl : BehindWord l) {p : Place}
    (hp : p.rest = name.toList ++ l) (lenient : Bool) :
    readForm nested inner lenient p = readWordOrSign (readWord nested inner false) := by
  obtain ⟨plain, rgb, hsl⟩ := isPlainWord_eq hn
  obtain ⟨c, rest, hc, alpha, chars⟩ := isPlainName_eq plain
  have start : p.rest = c :: (rest ++ l) := by rw [hp, hc]; rfl
  have begins : isPlainStart c = true := by rw [isPlainStart, alpha]; rfl
  have other {d : Char} (hd : d.isAlpha = false) : d ≠ c := fun h => by
    rw [h, alpha] at hd
    cases hd
  have letters {word : String} (hw : word.toList.all isNameChar = true) :
      ∀ d rest, l = d :: rest → d.toLower ∉ word.toList := by
    intro d rest hd hm
    have free := toLower_not_name (hl.name d rest hd).1
    rw [List.all_eq_true.mp hw _ hm] at free
    cases free
  have noRgb : p.comesAnyCase "rgb" = false := Place.comesAnyCase_name (by decide) rgb (letters (by decide)) hp
  have noHsl : p.comesAnyCase "hsl" = false := Place.comesAnyCase_name (by decide) hsl (letters (by decide)) hp
  have noFilter : p.comesAnyCase "progid:" = false := by
    refine Place.comesAnyCase_name (by decide) (fun h => ?_) (fun d rest hd hm => ?_) hp
    · have colon : ':' ∈ (name.toList.take "progid:".toList.length).map Char.toLower := by
        rw [h]
        decide
      obtain ⟨d, hd, lower⟩ := List.mem_map.mp colon
      have char := List.all_eq_true.mp chars d (List.mem_of_mem_take hd)
      rw [toLower_eq_colon lower] at char
      exact absurd char (by decide)
    · have part : d.toLower = ':' ∨ isNameChar d.toLower = true := by
        generalize d.toLower = e at hm ⊢
        simp only [String.reduceToList, List.mem_cons, List.not_mem_nil, or_false] at hm
        rcases hm with rfl | rfl | rfl | rfl | rfl | rfl | rfl <;> decide
      rcases part with h | h
      · exact (hl.head d rest hd).1 (toLower_eq_colon h)
      · rw [toLower_not_name (hl.name d rest hd).1] at h
        cases h
  have noRange : p.comes "U+" = false := by
    rw [Bool.eq_false_iff]
    intro h
    obtain ⟨-, tail, ht⟩ := Place.comes_iff.mp h
    have second : (rest ++ l).head? = some '+' := by
      rw [start] at ht
      obtain ⟨-, more⟩ := List.cons.inj ht
      rw [← more]
      rfl
    cases rest with
    | nil =>
      cases l with
      | nil => cases second
      | cons d l => exact (hl.head d l rfl).2 (Option.some.inj second)
    | cons d rest =>
      have char : isNameChar d = true := List.all_eq_true.mp chars d (by rw [hc]; simp)
      rw [Option.some.inj second] at char
      exact absurd char (by decide)
  unfold readForm
  rw [begins_of_start start begins, noRgb, noHsl, noFilter, noRange, Place.comes_of_head start rfl (other rfl),
    Place.comes_of_head start rfl (other rfl), Place.comes_of_head start rfl (other rfl),
    Place.comes_of_head start rfl (other rfl), Place.comes_of_head start rfl (other rfl)]
  simp

/-- A sign that no number begins with begins a word. -/
theorem readForm_of_minus {p : Place} {c : Char} {more : List Char} (hp : p.rest = '-' :: c :: more)
    (digit : c.isDigit = false) (point : c ≠ '.') (lenient : Bool) :
    readForm nested inner lenient p = readWordOrSign (readWord nested inner false) := by
  have begins : Size.begins p = false := by
    unfold Size.begins
    rw [hp]
    split
    · next h => cases h; exact absurd rfl point
    · next h => cases h; exact digit
    · next h => cases h
    · next other _ h => cases h; exact absurd rfl (other c more rfl)
    · rfl
  have absent {u : String} {d : Char} {rest : List Char} (hd : u.toList = d :: rest) (other : d ≠ '-') :
      p.comes u = false := Place.comes_of_head hp hd other
  have noRgb : p.comesAnyCase "rgb" = false := Place.comesAnyCase_head (by decide) rfl (by decide) hp
  have noHsl : p.comesAnyCase "hsl" = false := Place.comesAnyCase_head (by decide) rfl (by decide) hp
  have noFilter : p.comesAnyCase "progid:" = false := Place.comesAnyCase_head (by decide) rfl (by decide) hp
  unfold readForm
  rw [begins, noRgb, noHsl, noFilter, absent (u := "#") rfl (by decide), absent (u := "'") rfl (by decide),
    absent (u := "\"") rfl (by decide), absent (u := "[") rfl (by decide), absent (u := "U+") rfl (by decide),
    absent (u := "(") rfl (by decide)]
  simp

theorem takes_name {name : String} (hn : IsName name) (hl : EndsName l) :
    Takes (name.toList ++ l) l (Read.identifier false) (· = name) := by
  refine (Takes.identifier false hn.chars hn.nonempty hl).mono fun t ht => ?_
  rw [ht, if_neg Bool.false_ne_true, String.ofList_toList]

theorem closed_behindWord (hl : Closed l) : BehindWord l :=
  ⟨hl.name, fun c rest h => by
    have other := hl.head c rest h
    simp only [List.mem_cons, not_or] at other
    exact ⟨other.2.1, other.2.2.1⟩⟩

theorem takes_keyword {name : String} (hn : IsName name) (hl : Closed l) :
    Takes (name.toList ++ l) l (readWord nested inner false) (·.bare = .keyword name) := by
  refine Takes.here fun p _ => (takes_name hn hl.name).bind fun t ht => ?_
  refine Takes.here fun q hq => ?_
  have word : q.comes "(" = false := by
    cases l with
    | nil => exact Place.comes_of_nil hq
    | cons c rest => exact Place.comes_of_head hq rfl fun h => hl.head c rest rfl (h ▸ List.mem_cons_self)
  rw [word]
  exact .pure (by rw [ht]; rfl)

/-- A call goes back to its name, which decides what it is. -/
theorem takes_call {name : String} (hn : IsName name) {m : List Char} {kind : Read Value}
    (hk : Takes (name.toList ++ '(' :: l) m kind good)
    (choice : (if Text.lower name = "url" then Value.url <$> Url.read
      else if Text.lower name ∈ calculationNames then readCalculation inner else readFunction nested false) = kind) :
    Takes (name.toList ++ '(' :: l) m (readWord nested inner false) good := by
  refine Takes.here fun p hp => (takes_name hn (.cons rfl (by decide))).bind fun t ht => Takes.here fun q hq => ?_
  rw [Place.comes_char hq rfl]
  subst ht
  simp only [Bool.not_true, Bool.false_eq_true, if_false]
  refine (Takes.goto p).bind fun _ _ => ?_
  rw [hp]
  rw [← choice] at hk
  simp only [map_eq_pure_bind] at hk
  exact hk

theorem lower_name {name : String} (h : name.toList.all isNameChar = true) :
    Text.lower name = String.ofList (name.toList.map Char.toLower) := by
  rw [Text.lower, Text.lowerFrom_low fun c hc => toNat_lt_of_isNameChar (List.all_eq_true.mp h c hc)]

theorem isAlpha_toLower {c : Char} (h : c.isAlpha = true) : c.toLower ≠ '-' := by
  intro hm
  have code := Text.toNat_toLower c
  rw [hm] at code
  have minus : '-'.toNat = 45 := rfl
  split at code
  · omega
  · have same : c = '-' := (Char.toNat_inj.mp code).symm
    rw [same] at h
    exact absurd h (by decide)

/-- The name of a plain call is neither that of an address nor that of a calculation. -/
theorem lower_of_isPlainCall {name : String} (hn : isPlainCall name = true) :
    Text.lower name ≠ "url" ∧ Text.lower name ∉ calculationNames := by
  obtain ⟨word, url, sum⟩ := isPlainCall_eq hn
  obtain ⟨c, rest, hc, alpha, chars⟩ := isPlainName_eq (isPlainWord_eq word).1
  have letters : (Text.lower name).toList = name.toList.map Char.toLower := by
    rw [lower_name chars, String.toList_ofList]
  have vendor {t : String} (ht : t.toList.head? = some '-') : Text.lower name ≠ t := by
    intro h
    rw [← h, letters, hc, List.map_cons, List.head?_cons, Option.some.injEq] at ht
    exact isAlpha_toLower alpha ht
  refine ⟨fun h => url (by rw [← letters, h]), fun h => ?_⟩
  rcases List.mem_cons.mp h with h | h
  · exact sum (by rw [← letters, h])
  · rcases List.mem_cons.mp h with h | h
    · exact vendor rfl h
    · exact vendor rfl (List.mem_singleton.mp h)

theorem choice_of_function {name : String} (url : Text.lower name ≠ "url")
    (sum : Text.lower name ∉ calculationNames) :
    (if Text.lower name = "url" then Value.url <$> Url.read
      else if Text.lower name ∈ calculationNames then readCalculation inner else readFunction nested false) =
      readFunction nested false := by
  rw [if_neg url, if_neg sum]

/-- An address is read as one. -/
theorem takes_url (hf : f.IsBlankInValues) {u : Url} (hu : u.address.isPlain = true) :
    Takes ((u.toCss f).toList ++ l) l (readWord nested inner false) (·.bare = (Value.url u).bare) := by
  have start : (u.toCss f).toList ++ l = "url".toList ++ '(' :: ((u.address.toCss f).toList ++ ')' :: l) := by
    simp [Url.toCss]
  have nul : '\x00' ∉ u.address.text.toList := by simpa [Quoted.isPlain] using hu
  have taken := (Takes.url (l := l) hf.quote nul).map (f := Value.url) (Q := (·.bare = (Value.url u).bare))
    fun v hv => by rw [bare, bare, hv]
  rw [start] at taken ⊢
  refine takes_call (isName_of_isPlainName rfl) taken (if_pos ?_)
  rw [lower_name (by decide)]
  rfl

theorem mem_of_two {vs : List Value} {s : Separator} {p : Option Position} {order : List Separator}
    (two : 2 ≤ vs.length) (hs : order.contains s = true) (parts : arePlain vs (order.takeWhile (· ≠ s)) = true) :
    (Value.list vs s p).isPlain order = true := by
  simp only [isPlain, two, decide_true, hs, parts, Bool.and_self]

/-- The arguments of a plain function are none, or what a plain value stands for. -/
theorem arguments_of_plain {args : List Value} {s : Separator} (h : (if args.length < 2 then
      s == .comma && arePlain args [] else Separator.ofArguments.contains s &&
        arePlain args (Separator.ofArguments.takeWhile (· ≠ s))) = true) :
    (args = [] ∧ s = .comma) ∨ ∃ w : Value, w.isPlain Separator.ofArguments = true ∧
      (w.toCss f) = String.intercalate (f.around s) (Value.texts f args) ∧
      ∀ v : Value, v.bare = w.bare → bareAll v.arguments.1 = bareAll args ∧ v.arguments.2 = s := by
  match args with
  | [] =>
    have few : ([] : List Value).length < 2 := Nat.zero_lt_succ 1
    simp only [if_pos few, Bool.and_eq_true, beq_iff_eq] at h
    exact .inl ⟨rfl, h.1⟩
  | [w] =>
    have one : [w].length < 2 := Nat.lt_succ_self 1
    simp only [if_pos one, Bool.and_eq_true, beq_iff_eq, arePlain, Bool.and_true] at h
    obtain ⟨rfl, hw⟩ := h
    have other : w.IsWhole := fun vs t p hl => by
      rw [hl] at hw
      simp only [isPlain, Bool.and_eq_true] at hw
      cases hw.1.2
    refine .inr ⟨w, by rw [isPlain_other other _ []]; exact hw, ?_, fun v hv => ?_⟩
    · rw [texts, texts, String.intercalate_singleton]
    · have single : v.arguments = ([v], .comma) := by
        cases v with
        | list vs t p =>
          cases w with
          | list us t' q => exact absurd rfl (other us t' q)
          | keyword | size | color | string | url | function | calculation | lineNames => cases hv
        | keyword | size | color | string | url | function | calculation | lineNames => rfl
      rw [single]
      exact ⟨by rw [bareAll, bareAll, bareAll, bareAll, hv], rfl⟩
  | u :: w :: args =>
    have two : ¬ (u :: w :: args).length < 2 := by simp
    rw [if_neg two, Bool.and_eq_true] at h
    refine .inr ⟨.list (u :: w :: args) s none, mem_of_two (by simp) h.1 h.2, by rw [toCss], fun v hv => ?_⟩
    cases v with
    | list vs t p =>
      rw [bare, bare, list.injEq] at hv
      exact ⟨hv.1, hv.2.1⟩
    | keyword | size | color | string | url | function | calculation | lineNames => cases hv

/-- What a reader of nested values does with plain arguments in parentheses, where fewer than `n` characters are
left. -/
def ReadsArguments (f : Layout) (n : Nat) (nested : List Separator → Read Value) : Prop :=
  ∀ (w : Value) (l : List Char), w.isPlain Separator.ofArguments = true →
    ((w.toCss f).toList ++ ')' :: l).length < n →
      Takes ((w.toCss f).toList ++ ')' :: l) (')' :: l) (nested Separator.ofArguments) (·.bare = w.bare)

theorem stops_of_start {c : Char} {rest : List Char} (hc : isValueStart c = true) : Stops (c :: rest) := by
  obtain ⟨solid, other⟩ := isValueStart_iff.mp hc
  exact .cons solid fun h => other (h ▸ List.mem_cons_self)

theorem takes_noArguments : Takes (')' :: l) (')' :: l) (readArguments nested) (· = ([], .comma)) := by
  refine (Takes.noGap (.cons rfl (by decide))).discard.bind fun _ _ => Takes.here fun p hp => ?_
  rw [if_pos (Place.comes_char hp rfl)]
  exact .pure rfl

theorem takes_arguments {c : Char} {rest : List Char} (hc : isValueStart c = true)
    (taken : Takes (c :: rest) m (nested Separator.ofArguments) good) :
    Takes (c :: rest) m (readArguments nested) fun args => ∃ v, good v ∧ args = v.arguments := by
  refine (Takes.noGap (stops_of_start hc)).discard.bind fun _ _ => Takes.here fun p hp => ?_
  have more : p.comes ")" = false :=
    Place.comes_of_head hp rfl fun h => (isValueStart_iff.mp hc).2 (h ▸ by decide)
  rw [more, if_neg Bool.false_ne_true]
  exact taken.bind fun v hv => .pure ⟨v, hv, rfl⟩

/-- A call is read with what is read of its arguments. -/
theorem takes_namedCall {name : String} (hn : IsName name) {goodArgs : List Value × Separator → Prop}
    (arguments : Takes m (')' :: l) (readArguments nested) goodArgs) :
    Takes (name.toList ++ '(' :: m) l (readFunction nested false)
      fun v => ∃ args p, goodArgs args ∧ v = .function name args.1 args.2 p := by
  refine Takes.here fun p _ => (takes_name hn (.cons rfl (by decide))).bind fun t ht => ?_
  refine (Takes.char rfl).discard.bind fun _ _ => arguments.bind fun args ha => ?_
  refine (Takes.char rfl).discard.bind fun _ _ => .pure ⟨args, some p.position, ha, ?_⟩
  rw [ht]

theorem takes_function (hf : f.IsBlankInValues) {n : Nat} (hn : ReadsArguments f n nested) {name : String}
    {args : List Value} {s : Separator} {p : Option Position}
    (hv : (Value.function name args s p).isPlain [] = true)
    (hl : (((Value.function name args s p).toCss f).toList ++ l).length ≤ n) :
    Takes (((Value.function name args s p).toCss f).toList ++ l) l (readFunction nested false)
      (·.bare = (Value.function name args s p).bare) := by
  simp only [isPlain, Bool.and_eq_true] at hv
  have plain := isName_of_isPlainName (isPlainWord_eq (isPlainCall_eq hv.1).1).1
  rcases arguments_of_plain (f := f) hv.2 with ⟨rfl, rfl⟩ | ⟨w, hw, text, args'⟩
  · have start : ((Value.function name [] .comma p).toCss f).toList ++ l = name.toList ++ '(' :: ')' :: l := by
      simp [toCss, texts]
    rw [start]
    refine (takes_namedCall plain takes_noArguments).mono ?_
    rintro v ⟨_, q, rfl, rfl⟩
    rfl
  · have start : ((Value.function name args s p).toCss f).toList ++ l =
        name.toList ++ '(' :: ((w.toCss f).toList ++ ')' :: l) := by
      rw [text]
      simp [toCss]
    rw [start] at hl ⊢
    obtain ⟨c, rest, hc, begins⟩ := head_of_plain hf (flat_isPlain hw).first
    have head : (w.toCss f).toList ++ ')' :: l = c :: (rest ++ (Chain.textOfMore f (w.flat []).more ++ ')' :: l)) := by
      rw [toCss_flat, Chain.text, hc, List.append_assoc]
      rfl
    have fewer : ((w.toCss f).toList ++ ')' :: l).length < n := by
      rw [List.length_append, List.length_cons] at hl
      omega
    have taken := hn w l hw fewer
    rw [head] at taken ⊢
    refine (takes_namedCall plain (takes_arguments (isValueStart_of_isPlainStart begins) taken)).mono ?_
    rintro v ⟨_, q, ⟨u, hu, rfl⟩, rfl⟩
    obtain ⟨same, separator⟩ := args' u hu
    rw [bare, bare, same, separator]

/-- Names with blanks between them, up to the bracket that closes them. -/
def textOfNames (names : List String) (l : List Char) : List Char :=
  match names with
  | [] => ']' :: l
  | name :: names => name.toList ++ names.flatMap (fun t => ' ' :: t.toList) ++ ']' :: l

theorem head_of_names {names : List String} (hn : ∀ t ∈ names, isPlainName t = true) :
    ∃ c rest, textOfNames names l = c :: rest ∧ Stops (textOfNames names l) ∧ (names ≠ [] → c ≠ ']') := by
  cases names with
  | nil => exact ⟨']', l, rfl, .cons rfl (by decide), fun h => absurd rfl h⟩
  | cons name names =>
    obtain ⟨c, rest, hc, alpha, -⟩ := isPlainName_eq (hn name List.mem_cons_self)
    have start : textOfNames (name :: names) l =
        c :: (rest ++ names.flatMap (fun t => ' ' :: t.toList) ++ ']' :: l) := by
      rw [textOfNames, hc]
      rfl
    refine ⟨c, _, start, by rw [start]; exact stops_of_start (isValueStart_of_isAlpha alpha), fun _ h => ?_⟩
    rw [h] at alpha
    exact absurd alpha (by decide)

theorem takes_names {name : String} {names : List String} (hn : ∀ t ∈ name :: names, isPlainName t = true) {n : Nat}
    (hl : (textOfNames (name :: names) l).length ≤ n) :
    Takes (textOfNames (name :: names) l) (']' :: l) (readNames n) (· = name :: names) := by
  induction names generalizing name n with
  | nil =>
    have start : textOfNames [name] l = name.toList ++ ']' :: l := by simp [textOfNames]
    rw [start, readNames]
    have named := isName_of_isPlainName (hn name List.mem_cons_self)
    refine (Takes.caught ((takes_name named (.cons rfl (by decide))).bind fun t ht =>
      .pure (P := (· = some name)) (congrArg some ht))).bind fun t ht => ?_
    refine (Takes.noGap (.cons rfl (by decide))).discard.bind fun _ _ => Takes.here fun p hp => ?_
    rw [if_pos (Place.comes_char hp rfl), ht]
    exact .pure rfl
  | cons second names ih =>
    have others : ∀ t ∈ second :: names, isPlainName t = true := fun t ht => hn t (List.mem_cons_of_mem name ht)
    obtain ⟨c, rest, hc, stops, bracket⟩ := head_of_names (l := l) others
    have start : textOfNames (name :: second :: names) l =
        name.toList ++ ' ' :: textOfNames (second :: names) l := by
      simp [textOfNames]
    have behind : pastBlank (' ' :: textOfNames (second :: names) l) = textOfNames (second :: names) l :=
      (pastBlank_append (b := [' ']) rfl).trans stops.solid
    rw [start] at hl ⊢
    rw [List.length_append, List.length_cons] at hl
    rw [readNames]
    have named := isName_of_isPlainName (hn name List.mem_cons_self)
    refine (Takes.caught ((takes_name named (.cons rfl (by decide))).bind fun t ht =>
      .pure (P := (· = some name)) (congrArg some ht))).bind fun t ht => ?_
    refine (Takes.blanks (behind.symm ▸ stops)).discard.bind fun _ _ => Takes.here fun p hp => ?_
    rw [behind] at hp ⊢
    rw [Place.comes_of_head (hp.trans hc) rfl (Ne.symm (bracket (List.cons_ne_nil _ _))), if_neg Bool.false_ne_true]
    refine (Takes.shorter (by omega) fun h => ih others (Nat.le_refl _)).bind fun more hm => .pure ?_
    rw [ht, hm]
    rfl

theorem takes_lineNames {names : List String} {p : Option Position} (hv : (lineNames names p).isPlain [] = true) :
    Takes (((lineNames names p).toCss f).toList ++ l) l readLineNames (·.bare = (lineNames names p).bare) := by
  simp only [isPlain, Bool.and_eq_true, Bool.not_eq_true', List.isEmpty_eq_false_iff, List.all_eq_true] at hv
  cases names with
  | nil => exact absurd rfl hv.1
  | cons name names =>
    have start : ((lineNames (name :: names) p).toCss f).toList ++ l = '[' :: textOfNames (name :: names) l := by
      rw [toCss, String.toList_append, String.toList_append, toList_intercalate_cons]
      simp [textOfNames]
    obtain ⟨c, rest, hc, stops, bracket⟩ := head_of_names (l := l) hv.2
    rw [start]
    refine Takes.here fun q _ => (Takes.char rfl).discard.bind fun _ _ => (Takes.noGap stops).discard.bind fun _ _ => ?_
    refine Takes.left.bind fun n hn => (takes_names hv.2 (Nat.le_of_eq hn.symm)).bind fun ts hts => ?_
    refine (Takes.char rfl).discard.bind fun _ _ => .pure ?_
    rw [hts]
    rfl

theorem readForm_of_quote {c : Char} {rest : List Char} (hc : c = '"' ∨ c = '\'') {p : Place}
    (hp : p.rest = c :: rest) (lenient : Bool) : readForm nested inner lenient p = Value.string <$> Quoted.read := by
  have begins : isPlainStart c = true := by rcases hc with rfl | rfl <;> rfl
  have hash : p.comes "#" = false := Place.comes_of_head hp rfl (by rcases hc with rfl | rfl <;> decide)
  have rgb : p.comesAnyCase "rgb" = false :=
    Place.comesAnyCase_head (by decide) rfl (by rcases hc with rfl | rfl <;> decide) hp
  have hsl : p.comesAnyCase "hsl" = false :=
    Place.comesAnyCase_head (by decide) rfl (by rcases hc with rfl | rfl <;> decide) hp
  have quote : (p.comes "'" || p.comes "\"") = true := by
    rcases hc with rfl | rfl
    · rw [Place.comes_char (t := "\"") hp rfl, Bool.or_true]
    · rw [Place.comes_char (t := "'") hp rfl, Bool.true_or]
  unfold readForm
  rw [begins_of_start hp begins, hash, rgb, hsl, quote]
  rfl

theorem readForm_of_bracket {rest : List Char} {p : Place} (hp : p.rest = '[' :: rest) (lenient : Bool) :
    readForm nested inner lenient p = readLineNames := by
  have begins : Size.begins p = false := begins_of_start hp rfl
  have other {t : String} {d : Char} {more : List Char} (ht : t.toList = d :: more) (h : d ≠ '[') : p.comes t = false :=
    Place.comes_of_head hp ht h
  have rgb : p.comesAnyCase "rgb" = false := Place.comesAnyCase_head (by decide) rfl (by decide) hp
  have hsl : p.comesAnyCase "hsl" = false := Place.comesAnyCase_head (by decide) rfl (by decide) hp
  have filter : p.comesAnyCase "progid:" = false := Place.comesAnyCase_head (by decide) rfl (by decide) hp
  unfold readForm
  rw [begins, other (t := "#") rfl (by decide), rgb, hsl, other (t := "'") rfl (by decide),
    other (t := "\"") rfl (by decide), filter, Place.comes_char hp rfl, Bool.and_false]
  rfl

/-- Every form of a plain value is read as such. -/
theorem takes_form (hf : f.IsBlankInValues) {n : Nat} (hn : ReadsArguments f n nested) {v : Value}
    (hv : v.isPlain [] = true) (hl : Closed l) (hlen : ((v.toCss f).toList ++ l).length ≤ n) {p : Place}
    (hp : p.rest = (v.toCss f).toList ++ l) (lenient : Bool) :
    Takes ((v.toCss f).toList ++ l) l (readForm nested inner lenient p) (·.bare = v.bare) := by
  cases v with
  | keyword t =>
    rw [readForm_of_word hv (closed_behindWord hl) hp]
    exact takes_wordOrSign (takes_keyword (isName_of_isPlainName (isPlainWord_eq hv).1) hl)
  | function name args s q =>
    have call := hv
    simp only [isPlain, Bool.and_eq_true] at call
    have word := (isPlainCall_eq call.1).1
    have start : ((function name args s q).toCss f).toList ++ l =
        name.toList ++ '(' :: ((String.intercalate (f.around s) (texts f args)).toList ++ ')' :: l) := by
      rw [toCss, String.toList_append, String.toList_append, String.toList_append]
      simp only [List.append_assoc]
      rfl
    have taken := takes_function hf hn hv hlen
    obtain ⟨noUrl, noSum⟩ := lower_of_isPlainCall call.1
    have plain := isName_of_isPlainName (isPlainWord_eq word).1
    rw [start] at hp taken ⊢
    rw [readForm_of_word word (behindWord_parenthesis _) hp]
    exact takes_wordOrSign (takes_call plain taken (choice_of_function noUrl noSum))
  | string t =>
    have start : ((string t).toCss f).toList ++ l =
        f.quote :: (t.text.toList.flatMap Quoted.escape ++ [f.quote] ++ l) := by
      rw [toCss, Quoted.toCss, String.toList_ofList]
      rfl
    have nul : '\x00' ∉ t.text.toList := by simpa [isPlain, Quoted.isPlain] using hv
    rw [readForm_of_quote hf.quote (hp.trans start)]
    exact (Takes.quoted hf.quote nul).map fun a ha => by rw [bare, bare, ha]
  | url u =>
    have start : ((url u).toCss f).toList ++ l = "url".toList ++ '(' :: ((u.address.toCss f).toList ++ ')' :: l) := by
      rw [toCss, Url.toCss, String.toList_append, String.toList_append]
      simp only [List.append_assoc]
      rfl
    rw [readForm_of_word (show isPlainWord "url" = true by decide) (behindWord_parenthesis _) (hp.trans start)]
    exact takes_wordOrSign (takes_url hf hv)
  | lineNames names q =>
    have start : ((lineNames names q).toCss f).toList ++ l =
        '[' :: ((String.intercalate " " names).toList ++ ']' :: l) := by
      rw [toCss, String.toList_append, String.toList_append]
      simp only [List.append_assoc]
      rfl
    rw [readForm_of_bracket (hp.trans start)]
    exact takes_lineNames hv
  | list vs s q =>
    simp only [isPlain, Bool.and_eq_true] at hv
    cases hv.1.2
  | size | color | calculation => cases hv

/-- What stands at a separator behind the blanks before it: for a blank the next value, for any other its
character. -/
inductive Parted (f : Layout) (s : Separator) (l : List Char) : Prop
  | blank : s = .space → pastBlank ((f.around s).toList ++ l) = l → Parted f s l
  | symbol (c : Char) (d : List Char) : s ≠ .space → s.symbol.toList = [c] → d.all Text.isSpacing = true →
    pastBlank ((f.around s).toList ++ l) = c :: (d ++ l) → Parted f s l

theorem parted (hf : f.IsBlankInValues) (s : Separator) (hl : Stops l) : Parted f s l := by
  obtain ⟨b, d, text, hb, hd⟩ := Layout.around_eq hf s
  have skipped : pastBlank ((f.around s).toList ++ l) = pastBlank (s.symbol.toList ++ (d ++ l)) := by
    rw [text, List.append_assoc, pastBlank_append (all_isBlank hb), List.append_assoc]
  cases s with
  | space =>
    refine .blank rfl ?_
    have blank : Separator.space.symbol.toList.all Text.isBlank = true := rfl
    rw [skipped, pastBlank_append blank, pastBlank_append (all_isBlank hd), hl.solid]
  | comma => exact .symbol ',' d (by decide) rfl hd (skipped.trans (pastBlank_cons rfl))
  | slash => exact .symbol '/' d (by decide) rfl hd (skipped.trans (pastBlank_cons rfl))
  | equals => exact .symbol '=' d (by decide) rfl hd (skipped.trans (pastBlank_cons rfl))

theorem symbol_single {s : Separator} (hs : s ≠ .space) : ∃ c, s.symbol.toList = [c] := by
  cases s with
  | space => exact absurd rfl hs
  | comma | slash | equals => exact ⟨_, rfl⟩

theorem symbol_inj {s t : Separator} (h : s.symbol.toList = t.symbol.toList) : s = t := by
  revert h
  cases s <;> cases t <;> decide

theorem symbol_char {s : Separator} {c : Char} (hc : s.symbol.toList = [c]) (hs : s ≠ .space) :
    c = ',' ∨ c = '/' ∨ c = '=' := by
  cases s with
  | space => exact absurd rfl hs
  | comma | slash | equals =>
    cases hc
    decide

/-- A separator and the value behind it may stand behind a value. -/
theorem closed_of_around (hf : f.IsBlankInValues) (s : Separator) {c : Char} {rest : List Char}
    (hc : isValueStart c = true) : Closed ((f.around s).toList ++ c :: rest) := by
  have stops : Stops (c :: rest) := stops_of_start hc
  have head : ∃ e more, (f.around s).toList ++ c :: rest = e :: more ∧ EndsName (e :: more) ∧
      e ∉ ['(', ':', '+', '.', '%'] := by
    obtain ⟨b, d, text, hb, hd⟩ := Layout.around_eq hf s
    rw [text]
    cases b with
    | nil =>
      cases s with
      | space | comma | slash | equals => exact ⟨_, _, rfl, .cons rfl (by decide), by decide⟩
    | cons e b =>
      rw [List.all_cons, Bool.and_eq_true] at hb
      have blank := isBlank_of_isSpacing hb.1
      refine ⟨e, _, rfl, endsName_of_isSpacing hb.1, fun he => ?_⟩
      rw [not_isBlank_of_mem he (by decide)] at blank
      cases blank
  obtain ⟨e, more, he, name, other⟩ := head
  refine ⟨he ▸ name, fun e' more' h => ?_, ?_⟩
  · rw [he] at h
    cases h
    exact other
  · cases parted hf s stops with
    | blank _ h => rw [h]; exact stops
    | symbol a d hs ha hd h =>
      rw [h]
      refine ⟨pastBlank_cons (by rcases symbol_char ha hs with rfl | rfl | rfl <;> rfl), fun hp => ?_⟩
      obtain ⟨tail, ht⟩ := hp
      rw [List.cons_append, List.cons_append, List.nil_append, List.cons.injEq] at ht
      cases d with
      | nil =>
        rw [List.nil_append, List.cons.injEq] at ht
        exact (isValueStart_iff.mp hc).2 (ht.2.1 ▸ by decide)
      | cons e d =>
        rw [List.cons_append, List.cons.injEq] at ht
        rw [List.all_cons, Bool.and_eq_true, ← ht.2.1] at hd
        exact absurd hd.1 (by decide)

theorem not_end_of_start {c : Char} (hc : isValueStart c = true) : c ∉ ['\x7d', ';', '!', ')', '\\'] := by
  have all : ['\x7d', ';', '!', ')', '\\'] ⊆ delimiters := by simp [delimiters]
  exact fun h => (isValueStart_iff.mp hc).2 (all h)

theorem head_of_parted (hf : f.IsBlankInValues) (s : Separator) {c : Char} (rest : List Char)
    (hc : isValueStart c = true) :
    ∃ e more, pastBlank ((f.around s).toList ++ c :: rest) = e :: more ∧ e ∉ ['\x7d', ';', '!', ')', '\\'] := by
  have stops : Stops (c :: rest) := stops_of_start hc
  cases parted hf s stops with
  | blank _ h => exact ⟨c, rest, h, not_end_of_start hc⟩
  | symbol a d hs ha _ h =>
    refine ⟨a, _, h, ?_⟩
    rcases symbol_char ha hs with rfl | rfl | rfl <;> decide

theorem length_of_parted (hf : f.IsBlankInValues) (s : Separator) {c : Char} (rest : List Char)
    (hc : isValueStart c = true) :
    (c :: rest).length ≤ (pastBlank ((f.around s).toList ++ c :: rest)).length := by
  have stops : Stops (c :: rest) := stops_of_start hc
  cases parted hf s stops with
  | blank _ h => exact Nat.le_of_eq (congrArg List.length h.symm)
  | symbol a d _ _ _ h =>
    rw [h]
    simp only [List.length_cons, List.length_append]
    omega

theorem not_endsAt {p : Place} {c : Char} {rest : List Char} (hp : p.rest = c :: rest)
    (hc : c ∉ ['\x7d', ';', '!', ')', '\\']) (lenient : Bool) : endsAt lenient p = false := by
  have other {t : String} {d : Char} {more : List Char} (ht : t.toList = d :: more)
      (hd : d ∈ ['\x7d', ';', '!', ')', '\\']) : p.comes t = false :=
    Place.comes_of_head hp ht fun h => hc (h ▸ hd)
  have more : p.atEnd = false := by rw [Place.atEnd, hp]; rfl
  unfold endsAt
  rw [more, other (t := "\x7d") rfl (by decide), other (t := ";") rfl (by decide), other (t := "!") rfl (by decide),
    other (t := ")") rfl (by decide), other (t := "\\9") rfl (by decide), other (t := "\\0") rfl (by decide)]
  simp

theorem endsAt_of_ends (hl : Ends l) {p : Place} (hp : p.rest = pastBlank l) (lenient : Bool) :
    endsAt lenient p = true := by
  unfold endsAt
  cases h : pastBlank l with
  | nil => simp [Place.atEnd, hp, h]
  | cons c rest =>
    have start := hp.trans h
    have known := hl.ends c rest h
    simp only [List.mem_cons, List.not_mem_nil, or_false] at known
    rcases known with rfl | rfl | rfl | rfl
    · simp [Place.comes_char (t := "\x7d") start rfl]
    · simp [Place.comes_char (t := ";") start rfl]
    · simp [Place.comes_char (t := "!") start rfl]
    · simp [Place.comes_char (t := ")") start rfl]

/-- No value begins with a separator. -/
theorem no_separator {order : List Separator} {p : Place} {c : Char} {rest : List Char} (hp : p.rest = c :: rest)
    (hc : isValueStart c = true) : order.find? (fun t => t ≠ .space && p.comes t.symbol) = none := by
  rw [List.find?_eq_none]
  intro t _ ht
  simp only [Bool.and_eq_true, decide_eq_true_eq] at ht
  obtain ⟨a, ha⟩ := symbol_single ht.1
  have differs : a ≠ c := fun h => by
    refine (isValueStart_iff.mp hc).2 (h ▸ ?_)
    rcases symbol_char ha ht.1 with rfl | rfl | rfl <;> decide
  rw [Place.comes_of_head hp ha differs] at ht
  cases ht.2

/-- A separator of the order is found, with the blanks around it. -/
theorem takes_separator (hf : f.IsBlankInValues) {order : List Separator} {s : Separator} (hs : s ∈ order) {c : Char}
    (rest : List Char) (hc : isValueStart c = true) :
    Takes (pastBlank ((f.around s).toList ++ c :: rest)) (c :: rest) (readSeparator order) (· = s) := by
  have stops : Stops (c :: rest) := stops_of_start hc
  refine Takes.here fun p hp => ?_
  cases parted hf s stops with
  | blank space h =>
    rw [h] at hp ⊢
    rw [no_separator hp hc]
    exact .pure space.symm
  | symbol a d other ha hd h =>
    rw [h] at hp ⊢
    have found : order.find? (fun t => t ≠ .space && p.comes t.symbol) = some s := by
      cases hf : order.find? (fun t => t ≠ .space && p.comes t.symbol) with
      | none =>
        have unnamed := List.find?_eq_none.mp hf s hs
        rw [Place.comes_char hp ha, Bool.and_true, decide_eq_true_eq] at unnamed
        exact absurd other unnamed
      | some t =>
        have ht := List.find?_some hf
        simp only [Bool.and_eq_true, decide_eq_true_eq] at ht
        obtain ⟨e, he⟩ := symbol_single ht.1
        by_cases same : e = a
        · rw [symbol_inj ((he.trans (congrArg (fun x => [x]) same)).trans ha.symm)]
        · rw [Place.comes_of_head hp he same] at ht
          cases ht.2
    rw [found]
    refine (Takes.char ha).discard.bind fun _ _ => ?_
    exact (Takes.gap (.ofBlanks (all_isBlank hd)) stops).discard.bind fun _ _ => .pure rfl

/-- What is written of the values that `P` holds of begins as a value does, and it is read by `primitive` as values that
`Q` relates to them, where at most `n` characters are left. -/
structure Rereads (f : Layout) (P : Value → Prop) (Q : Value → Value → Prop) (n : Nat) (primitive : Read Value) :
    Prop where
  head : ∀ v, P v → ∃ c rest, (v.toCss f).toList = c :: rest ∧ isValueStart c = true
  taken : ∀ v l, P v → Closed l → ((v.toCss f).toList ++ l).length ≤ n →
    Takes ((v.toCss f).toList ++ l) (pastBlank l) primitive (Q v)

/-- A reader of values that are read so that the same is written of them again. -/
abbrev RereadsText (f : Layout) (P : Value → Prop) (n : Nat) (primitive : Read Value) : Prop :=
  Rereads f P (fun v w => w.toCss f = v.toCss f) n primitive

/-- The same separators between related values. -/
def AreRelated (Q : Value → Value → Prop) : List (Separator × Value) → List (Separator × Value) → Prop :=
  List.Forall₂ fun a b => b.1 = a.1 ∧ Q a.2 b.2

namespace Rereads

variable {P : Value → Prop} {Q : Value → Value → Prop} {n : Nat} {order : List Separator}

theorem closed_of_more (hp : Rereads f P Q n primitive) (hf : f.IsBlankInValues) {more : List (Separator × Value)}
    (hm : ∀ e ∈ more, P e.2) (hl : Closed l) : Closed (Chain.textOfMore f more ++ l) := by
  cases more with
  | nil => exact hl
  | cons entry more =>
    obtain ⟨s, v⟩ := entry
    obtain ⟨c, rest, hc, start⟩ := hp.head v (hm (s, v) List.mem_cons_self)
    rw [Chain.textOfMore_cons, hc, List.append_assoc]
    exact closed_of_around hf s start

/-- The values behind the first one read back with their separators. -/
theorem takes_more (hp : Rereads f P Q n primitive) (hf : f.IsBlankInValues) {more : List (Separator × Value)}
    (hm : ∀ e ∈ more, e.1 ∈ order ∧ P e.2) (hl : Ends l) (hn : (Chain.textOfMore f more ++ l).length ≤ n) {k : Nat}
    (hk : (pastBlank (Chain.textOfMore f more ++ l)).length ≤ k) :
    Takes (pastBlank (Chain.textOfMore f more ++ l)) (pastBlank l) (readMore primitive order k) (AreRelated Q more) := by
  induction more generalizing k with
  | nil =>
    rw [readMore]
    refine Takes.asking fun b => Takes.here fun p hp => ?_
    rw [endsAt_of_ends hl hp, if_pos rfl]
    exact .pure .nil
  | cons entry more ih =>
    obtain ⟨s, v⟩ := entry
    obtain ⟨⟨hs, hv⟩, others⟩ := List.forall_mem_cons.mp hm
    obtain ⟨c, rest, hc, start⟩ := hp.head v hv
    have closed := hp.closed_of_more hf (fun e he => (others e he).2) hl.toClosed
    have text : Chain.textOfMore f ((s, v) :: more) ++ l =
        (f.around s).toList ++ ((v.toCss f).toList ++ (Chain.textOfMore f more ++ l)) := by
      rw [Chain.textOfMore_cons, List.append_assoc, List.append_assoc]
    have value : (v.toCss f).toList ++ (Chain.textOfMore f more ++ l) =
        c :: (rest ++ (Chain.textOfMore f more ++ l)) := by rw [hc]; rfl
    rw [text] at hn hk ⊢
    rw [readMore]
    refine Takes.asking fun b => Takes.here fun p hp' => ?_
    obtain ⟨e, tail, he, going⟩ := head_of_parted hf s (rest ++ (Chain.textOfMore f more ++ l)) start
    rw [← value] at he
    rw [not_endsAt (hp'.trans he) going, if_neg Bool.false_ne_true]
    have separator := takes_separator hf hs (rest ++ (Chain.textOfMore f more ++ l)) start
    rw [← value] at separator
    have shorter : ((v.toCss f).toList ++ (Chain.textOfMore f more ++ l)).length ≤ n := by
      rw [List.length_append] at hn
      omega
    refine separator.bind fun s' hs' => (hp.taken v _ hv closed shorter).bind fun v' hv' => ?_
    refine (Takes.noGap closed.stops).discard.bind fun _ _ => ?_
    have passed : (pastBlank (Chain.textOfMore f more ++ l)).length ≤ (Chain.textOfMore f more ++ l).length :=
      (List.dropWhile_sublist _).length_le
    have room : (pastBlank (Chain.textOfMore f more ++ l)).length < k := by
      have reached := length_of_parted hf s (rest ++ (Chain.textOfMore f more ++ l)) start
      rw [← value] at reached
      have one : 0 < (v.toCss f).toList.length := by rw [hc]; exact Nat.zero_lt_succ _
      rw [List.length_append] at reached
      omega
    refine (Takes.shorter room fun h => ih others ?_ (Nat.le_refl _)).bind fun found hfound => ?_
    · rw [List.length_append] at shorter
      omega
    · exact .pure (.cons ⟨hs', hv'⟩ hfound)

/-- A run reads back as a run of related values, up to what ends it. -/
theorem takes_run (hp : Rereads f P Q n primitive) (hf : f.IsBlankInValues) {c : Chain} (hc : c.IsRun P order)
    (hl : Ends l) (hn : (c.text f ++ l).length ≤ n) {b : List Char} (hb : b.all Text.isBlank = true) :
    Takes (b ++ (c.text f ++ l)) (pastBlank l) (readRunWith primitive order)
      fun d => Q c.first d.first ∧ AreRelated Q c.more d.more := by
  obtain ⟨first, more⟩ := c
  obtain ⟨e, rest, he, start⟩ := hp.head first hc.first
  have text : Chain.text f ⟨first, more⟩ ++ l = (first.toCss f).toList ++ (Chain.textOfMore f more ++ l) := by
    rw [Chain.text, List.append_assoc]
  have value : Chain.text f ⟨first, more⟩ ++ l = e :: (rest ++ (Chain.textOfMore f more ++ l)) := by
    rw [text, he]
    rfl
  have stops : Stops (Chain.text f ⟨first, more⟩ ++ l) := by rw [value]; exact stops_of_start start
  have closed := hp.closed_of_more hf (fun e he => (hc.more e he).2) hl.toClosed
  refine (Takes.gap (.ofBlanks hb) stops).discard.bind fun _ _ => Takes.here fun q hq => ?_
  refine Takes.asking fun lenient => Takes.passing ?_ ?_
  · rw [not_endsAt (hq.trans value) (not_end_of_start start)]
    exact Bool.false_ne_true
  · rw [text] at hn ⊢
    refine (hp.taken first _ hc.first closed hn).bind fun first' hfirst => ?_
    refine (Takes.noGap closed.stops).discard.bind fun _ _ => Takes.left.bind fun k hk => ?_
    have fewer : (Chain.textOfMore f more ++ l).length ≤ n := by
      rw [List.length_append] at hn
      omega
    exact (hp.takes_more hf hc.more hl fewer (Nat.le_of_eq hk.symm)).bind fun more' hmore => .pure ⟨hfirst, hmore⟩

end Rereads

/-- A run is read as the value that it is grouped into. -/
theorem takes_grouped {order : List Separator} {goodRun : Chain → Prop}
    (run : Takes l m (readRunWith primitive order) goodRun)
    (grouped : ∀ c, goodRun c → ∀ p, ∃ v, c.foldAll order p = ⟨v, []⟩ ∧ good v) :
    Takes l m (readWith primitive order) good := by
  rw [readWith_eq]
  refine Takes.here fun p _ => run.bind fun c hc => ?_
  obtain ⟨v, folded, hv⟩ := grouped c hc (some p.position)
  rw [group, folded]
  exact .pure hv

/-- A reader of plain values that are no lists, where at most `n` characters are left. -/
abbrev RereadsPlain (f : Layout) (n : Nat) (primitive : Read Value) : Prop :=
  Rereads f (·.isPlain [] = true) (fun v w => w.bare = v.bare) n primitive

theorem bare_of_areRelated {more more' : List (Separator × Value)}
    (h : AreRelated (fun v w => w.bare = v.bare) more more') :
    more'.map (fun e => (e.1, e.2.bare)) = more.map fun e => (e.1, e.2.bare) := by
  induction h with
  | nil => rfl
  | cons same _ ih => rw [List.map_cons, List.map_cons, ih, same.1, same.2]

/-- A plain value reads back, up to what ends it. -/
theorem takes_with (hf : f.IsBlankInValues) {n : Nat} (hp : RereadsPlain f n primitive) {order : List Separator}
    (ho : .space ∈ order) {v : Value} (hv : v.isPlain order = true) (hl : Ends l)
    (hn : ((v.toCss f).toList ++ l).length ≤ n) {b : List Char} (hb : b.all Text.isBlank = true) :
    Takes (b ++ ((v.toCss f).toList ++ l)) (pastBlank l) (readWith primitive order) (·.bare = v.bare) := by
  rw [toCss_flat] at hn ⊢
  refine takes_grouped (hp.takes_run hf (flat_isPlain hv) hl hn hb) ?_
  rintro c ⟨first, more⟩ p
  have same : c.bare = (v.flat []).bare := by rw [Chain.bare, Chain.bare, first, bare_of_areRelated more]
  have grouped := foldAll_flat ho hv same p
  rw [Chain.bare, Chain.mk.injEq, List.map_eq_nil_iff] at grouped
  exact ⟨(c.foldAll order p).first, congrArg (Chain.mk _) grouped.2, grouped.1⟩

/-- The reader of plain values with its recursion. -/
theorem rereads (hf : f.IsBlankInValues) (n : Nat) : RereadsPlain f n (readPrimitiveIn n) := by
  have head : ∀ v : Value, v.isPlain [] = true →
      ∃ c rest, (v.toCss f).toList = c :: rest ∧ isValueStart c = true := by
    intro v hv
    obtain ⟨c, rest, hc, start⟩ := head_of_plain hf hv
    exact ⟨c, rest, hc, isValueStart_of_isPlainStart start⟩
  induction n using Nat.strongRecOn with
  | ind n ih =>
    refine ⟨head, fun v l hv hl hn => ?_⟩
    obtain ⟨c, rest, hc, start⟩ := head v hv
    have stops : Stops ((v.toCss f).toList ++ l) := by rw [hc]; exact stops_of_start start
    rw [readPrimitiveIn]
    refine takes_primitiveWith stops hl.stops fun p b hp => takes_form hf (n := n) ?_ hv hl hn hp b
    intro w l' hw hlen
    refine Takes.shorter hlen fun h => ?_
    have space : Separator.space ∈ Separator.ofArguments := by decide
    have ends : Ends (')' :: l') := ends_of_spacing (b := []) rfl (by decide)
    have taken := takes_with hf (ih _ h) space hw ends (Nat.le_refl _) (b := []) rfl
    rwa [pastBlank_cons rfl] at taken

/-- A plain value that is no list reads back on its own. -/
theorem takes_readPrimitive (hf : f.IsBlankInValues) {v : Value} (hv : v.isPlain [] = true) (hl : Closed l) :
    Takes ((v.toCss f).toList ++ l) (pastBlank l) readPrimitive (·.bare = v.bare) :=
  Takes.left.bind fun n hn => (rereads hf n).taken v l hv hl (Nat.le_of_eq hn.symm)

theorem space_mem_ofProperty (property : String) : Separator.space ∈ Separator.ofProperty property := by
  unfold Separator.ofProperty
  split
  · decide
  · split
    · decide
    · decide

/-- A plain value reads back behind blanks. -/
theorem takes_read (hf : f.IsBlankInValues) {order : List Separator} (ho : .space ∈ order) {v : Value}
    (hv : v.isPlain order = true) (hl : Ends l) {b : List Char} (hb : b.all Text.isBlank = true) :
    Takes (b ++ ((v.toCss f).toList ++ l)) (pastBlank l) (read order) (·.bare = v.bare) := by
  refine Takes.left.bind fun n hn => ?_
  rw [List.length_append] at hn
  exact takes_with hf (rereads hf n) ho hv hl (by omega) hb

/-- Reading undoes writing on plain values, in both modes and wherever the value stands: whatever blanks the layout
puts around separators, the reader yields the value again and stops where it ends. -/
theorem read_toCss {f : Layout} (hf : f.IsBlankInValues) {order : List Separator} (ho : .space ∈ order) {v : Value}
    (hv : v.isPlain order = true) {rest : List Char} (hr : ∀ c ∈ rest.head?, c ∈ ['\x7d', ';', '!', ')']) {r : Reader}
    (hp : r.place.rest = (v.toCss f).toList ++ rest) :
    ∃ w s, (read order).outcome r = (.ok w, s) ∧ w.bare = v.bare ∧ s.place.rest = rest ∧
      s.place = r.place.forward r.settings.width (v.toCss f).length := by
  obtain ⟨ends, stays⟩ : Ends rest ∧ pastBlank rest = rest := by
    cases rest with
    | nil => exact ⟨.nil, rfl⟩
    | cons c rest =>
      have known := hr c rfl
      refine ⟨ends_of_spacing (b := []) rfl known, pastBlank_cons ?_⟩
      simp only [List.mem_cons, List.not_mem_nil, or_false] at known
      rcases known with rfl | rfl | rfl | rfl <;> rfl
  obtain ⟨w, s, read, left, same⟩ := takes_read hf ho hv ends (b := []) rfl r hp
  rw [stays] at left
  have ahead := ((read_steady order).kept read).ahead
  refine ⟨w, s, read, same, left, ?_⟩
  rw [← String.length_toList]
  exact ahead.eq_forward (hp.trans (congrArg ((v.toCss f).toList ++ ·) left.symm))

/-- A list in a list, and a function whose arguments are grouped by an order of their own, read back in strict mode
with line feeds behind the commas. -/
theorem read_toCss_font :
    let f : Layout := { quote := '\'', indentation := "x", level := 1, spacing :=
      { beforeSeparator := " ", afterSeparatorOf := { comma := some "\n\t" } } }
    let v : Value := .list [.keyword "bold", .list [.keyword "a", .lineNames ["b-1", "C"] none] .slash none,
      .list [.string ⟨"d\"\n1", none⟩, .function "e" [.list [.keyword "x", .keyword "y"] .equals none,
        .url ⟨⟨"z", none⟩, none⟩] .space none] .comma none] .space none
    let r := Reader.start (v.toCss f ++ "!") { lenient := false } 1
    f.IsBlankInValues ∧ v.isPlain [.comma, .slash, .space] = true ∧
      ∃ w s, (read [.comma, .slash, .space]).outcome r = (.ok w, s) ∧ w.bare = v.bare ∧ s.place.rest = ['!'] ∧
        s.place = r.place.forward r.settings.width (v.toCss f).length := by
  intro f v r
  have blank : f.IsBlankInValues := ⟨.inr rfl, fun s => by cases s <;> decide, fun s => by cases s <;> decide⟩
  have plain : v.isPlain [.comma, .slash, .space] = true := by decide +kernel
  have start : r.place.rest = (v.toCss f).toList ++ ['!'] := Reader.start_append _ "!" _ _
  have stop : ∀ c ∈ ['!'].head?, c ∈ ['\x7d', ';', '!', ')'] := by
    intro c hc
    cases hc
    decide
  exact ⟨blank, plain, read_toCss blank (by decide) plain stop start⟩

end Value

end Stylesheet
