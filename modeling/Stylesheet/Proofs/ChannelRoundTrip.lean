import Stylesheet.Proofs.ColorForms

namespace Stylesheet

open Read (Takes Fails)

/-- What may stand behind a channel. -/
def EndsChannel (l : List Char) : Prop :=
  ∀ c rest, l = c :: rest → Text.isSpacing c = true ∨ c = ',' ∨ c = ')'

namespace EndsChannel

variable {l : List Char}

theorem endsName (h : EndsChannel l) : EndsName l := by
  cases l with
  | nil => nofun
  | cons c l =>
    rcases h c l rfl with blank | rfl | rfl
    · exact endsName_of_isSpacing blank
    · exact .cons (by decide) (by decide)
    · exact .cons (by decide) (by decide)

theorem endsSize (h : EndsChannel l) : EndsSize l := by
  intro c rest hc
  rcases h c rest hc with blank | rfl | rfl
  · have solid := isBlank_of_isSpacing blank
    rw [Text.isSpacing, Bool.and_eq_true, Bool.not_eq_true'] at blank
    obtain ⟨digit, alpha⟩ := not_isAlphanum blank.2
    refine ⟨digit, ?_, alpha, ?_⟩
    · rintro rfl
      exact absurd solid (by decide)
    · rintro rfl
      exact absurd solid (by decide)
  · decide
  · decide

end EndsChannel

/-- A text without line breaks. -/
def Unbroken (t : String) : Prop := ∀ c ∈ t.toList, c ≠ '\n' ∧ c ≠ '\r'

/-- No number begins here. -/
theorem Size.fails_read {c : Char} {l : List Char} (digit : c.isDigit = false)
    (other : c ∉ ['.', '-', 'e', 'E']) (channel : Bool) : Fails (c :: l) (Size.read channel) := by
  have number : numberAt (c :: l) = [] := by
    simp only [List.mem_cons, List.not_mem_nil, or_false, not_or] at other
    obtain ⟨point, minus, small, capital⟩ := other
    have noDigits : numberChars (c :: l) = [] := by
      cases l with
      | nil => simp [numberChars, digit, point]
      | cons d l => simp [numberChars, digit, point, small, capital]
    unfold numberAt
    split
    · next rest begins =>
      cases begins
      exact absurd rfl minus
    · exact noDigits
  refine Fails.here fun p hp => ?_
  rw [hp, number]
  have numberless : Number.Binary64.read? (String.ofList []) = none := by decide
  refine (Takes.skip 0).fails fun _ _ => ?_
  rw [numberless]
  exact fun r hr => ⟨_, r, rfl⟩

namespace Value

variable {f : Layout} {n : Nat} {v w : Value} {l : List Char} {s : ColorState}

/-- The reader of variables where at most `n` characters are left. -/
def wordIn (n : Nat) : Read Value := readWord (nestedIn n) (innerIn n) true

/-- What is written of a variable is read as a word or a call of which the same is written. -/
def ReadsAgain (f : Layout) (v : Value) : Prop :=
  ∀ n l, EndsChannel l → ((v.toCss f).toList ++ l).length ≤ n →
    Takes ((v.toCss f).toList ++ l) l (wordIn n) fun w => w.toCss f = v.toCss f

/-- A channel that is read again: its number is finite and is what its digits stand for, its word has no line break, and
a call is read again. -/
structure IsLasting (f : Layout) (v : Value) : Prop where
  channel : IsChannel v
  number : ∀ z, v = .size z → z.magnitude.isFinite = true ∧
    Number.Binary64.read? z.magnitude.toText = some z.magnitude
  word : ∀ t, v = .keyword t → Unbroken t
  call : ∀ name args s p, v = .function name args s p → ReadsAgain f v

/-- The same channel but for places; of a variable the same is written. -/
structure SameChannel (f : Layout) (v w : Value) : Prop where
  text : w.toCss f = v.toCss f
  bare : v.isVariable = false → w.bare = v.bare

theorem sameChannel_of_bare (h : w.bare = v.bare) : SameChannel f v w :=
  ⟨by rw [← toCss_bare, h, toCss_bare], fun _ => h⟩

/-- The characters that channels begin with. -/
def isChannelStart (c : Char) : Bool := c.isDigit || c == '.' || c == '-' || c == 'n' || c == 'v'

theorem toCss_of_isVariable (h : v.isVariable = true) : ∃ rest, (v.toCss f).toList = "var".toList ++ rest := by
  cases v with
  | keyword t =>
    obtain ⟨rest, ht⟩ := List.isPrefixOf_iff_prefix.mp h
    exact ⟨rest, ht.symm⟩
  | function name args sep p =>
    obtain ⟨rest, ht⟩ := List.isPrefixOf_iff_prefix.mp h
    refine ⟨rest ++ ("(".toList ++ ((String.intercalate (f.around sep) (texts f args)).toList ++ ")".toList)), ?_⟩
    rw [toCss, String.toList_append, String.toList_append, String.toList_append, ← ht]
    simp only [List.append_assoc]
  | _ => cases h

theorem toCss_of_isMissing (h : v.isMissing = true) : ∃ rest, (v.toCss f).toList = "none".toList ++ rest := by
  cases v with
  | keyword t =>
    obtain ⟨rest, ht⟩ := List.isPrefixOf_iff_prefix.mp h
    exact ⟨rest, ht.symm⟩
  | _ => cases h

/-- A channel begins as a number, as `none` or as `var`. -/
theorem IsLasting.head (h : IsLasting f v) :
    ∃ c rest, (v.toCss f).toList = c :: rest ∧ isChannelStart c = true := by
  cases h.channel with
  | @number z unit channel =>
    obtain ⟨c, rest, text, first⟩ := Size.head_toCss (h.number z rfl).1
    refine ⟨c, rest, by rw [toCss, text], ?_⟩
    rcases first with digit | rfl | rfl
    · simp [isChannelStart, digit]
    · decide
    · decide
  | word known =>
    rcases known with missing | var
    · obtain ⟨rest, text⟩ := toCss_of_isMissing (f := f) missing
      exact ⟨'n', _, text, rfl⟩
    · obtain ⟨rest, text⟩ := toCss_of_isVariable (f := f) var
      exact ⟨'v', _, text, rfl⟩
  | call var =>
    obtain ⟨rest, text⟩ := toCss_of_isVariable (f := f) var
    exact ⟨'v', _, text, rfl⟩

theorem ne_of_isChannelStart {c d : Char} (hc : isChannelStart c = true) (hd : isChannelStart d = false) : c ≠ d := by
  rintro rfl
  rw [hc] at hd
  cases hd

theorem stops_of_isChannelStart {c : Char} {rest : List Char} (hc : isChannelStart c = true) : Stops (c :: rest) := by
  refine .cons ?_ (ne_of_isChannelStart hc (by decide))
  by_cases point : c = '.'
  · subst point
    decide
  · apply isBlank_of_isNameChar
    simp only [isChannelStart, Bool.or_eq_true, beq_iff_eq] at hc
    rcases hc with (((digit | rfl) | rfl) | rfl) | rfl
    · simp [isNameChar, Char.isAlphanum, digit]
    · exact absurd rfl point
    · rfl
    · rfl
    · rfl

theorem IsLasting.stops (h : IsLasting f v) (l : List Char) : Stops ((v.toCss f).toList ++ l) := by
  obtain ⟨c, rest, text, start⟩ := h.head
  rw [text]
  exact stops_of_isChannelStart start

theorem toLower_ne_of_number {c d : Char} (hc : c.isDigit = true ∨ c = '.' ∨ c = '-') (hd : d.isAlpha = true) :
    c.toLower ≠ d := by
  intro same
  have letter : c.isAlpha = true := isAlpha_of_toLower (by rw [same, hd])
  rcases hc with digit | rfl | rfl
  · rw [isDigit_of_isAlpha letter] at digit
    cases digit
  · cases letter
  · cases letter

/-- The word of a channel is taken again. -/
theorem IsLasting.takes_word {t : String} (h : IsLasting f (.keyword t)) (hl : EndsChannel l) :
    Takes (t.toList ++ l) l (Read.identifier true) (· = t) := by
  cases h.channel with
  | word known spelling lowered =>
    have nonempty : t ≠ "" := by
      rintro rfl
      rcases known with missing | var
      · cases missing
      · cases var
    exact Takes.spelled spelling (fun _ => lowered) nonempty (h.word t rfl) hl.endsName

/-- A variable is read again, as a word or as a call. -/
theorem IsLasting.again (h : IsLasting f v) (var : v.isVariable = true) : ReadsAgain f v := by
  cases h.channel with
  | number => cases var
  | word =>
    intro n l hl _
    refine Takes.here fun p _ => (h.takes_word hl).bind fun a ha => Takes.here fun q hq => ?_
    have alone : q.comes "(" = false := by
      cases l with
      | nil => exact Place.comes_of_nil hq
      | cons c rest =>
        refine Place.comes_of_head hq rfl ?_
        rintro rfl
        rcases hl '(' rest rfl with blank | comma | close
        · cases blank
        · cases comma
        · cases close
    rw [alone]
    exact .pure (by rw [ha])
  | @call name args s p _ => exact h.call name args s p rfl

/-- A channel is taken again, but for one that is missing in classic notation. -/
theorem takes_channel (h : IsLasting f v) (hs : v.isMissing = true → s.classic = false) (hl : EndsChannel l)
    (length : ((v.toCss f).toList ++ l).length ≤ n) :
    Takes ((v.toCss f).toList ++ l) l (readChannel (wordIn n) s)
      fun a => SameChannel f v a.1 ∧ a.2 = stepChannel s v := by
  refine Takes.here fun p hp => ?_
  by_cases var : v.isVariable = true
  · obtain ⟨rest, text⟩ := toCss_of_isVariable (f := f) var
    have left : p.rest = "var".toList ++ (rest ++ l) := by rw [hp, text, List.append_assoc]
    have isVar : p.comesAnyCase "var" = true := by
      rw [Place.comesAnyCase, left, Place.startsWith_append]
      rfl
    rw [isVar, if_pos rfl]
    refine (h.again var n l hl length).bind fun w hw => .pure ⟨⟨hw, fun empty => absurd var ?_⟩, ?_⟩
    · rw [empty]
      exact Bool.false_ne_true
    · rw [stepChannel, if_pos var]
  · cases h.channel with
    | @number z unit channel =>
      obtain ⟨finite, number⟩ := h.number z rfl
      obtain ⟨c, rest, text, first⟩ := Size.head_toCss finite
      have left : p.rest = c :: (rest ++ l) := by rw [hp, toCss, text]; rfl
      have noVar : p.comesAnyCase "var" = false :=
        Place.comesAnyCase_head (by decide) rfl (toLower_ne_of_number first (by decide)) left
      have noNone : p.comesAnyCase "none" = false :=
        Place.comesAnyCase_head (by decide) rfl (toLower_ne_of_number first (by decide)) left
      rw [noVar, noNone, Bool.and_false, if_neg Bool.false_ne_true, if_neg Bool.false_ne_true]
      refine (Size.takes_again finite number unit hl.endsSize true).bind fun a ha => .pure ?_
      obtain ⟨magnitude, unit', channel'⟩ := ha
      refine ⟨sameChannel_of_bare ?_, rfl⟩
      rw [bare, bare, magnitude, unit', channel', channel]
    | word known =>
      have missing := known.resolve_right var
      obtain ⟨rest, text⟩ := toCss_of_isMissing (f := f) missing
      have left : p.rest = "none".toList ++ (rest ++ l) := by rw [hp, text, List.append_assoc]
      have first : p.rest = 'n' :: ("one".toList ++ (rest ++ l)) := left
      have noVar : p.comesAnyCase "var" = false := Place.comesAnyCase_head (by decide) rfl (by decide) first
      have isNone : p.comesAnyCase "none" = true := by
        rw [Place.comesAnyCase, left, Place.startsWith_append]
        rfl
      rw [noVar, isNone, hs missing, if_neg Bool.false_ne_true]
      refine (h.takes_word hl).bind fun a ha => .pure ⟨sameChannel_of_bare (by rw [ha]), ?_⟩
      rw [stepChannel, if_neg var, if_pos missing, hs missing]
    | call known => exact absurd known var

/-- No missing channel is taken in classic notation. -/
theorem fails_missing (h : v.isMissing = true) (classic : s.classic = true) (word : Read Value) :
    Fails ((v.toCss f).toList ++ l) (readChannel word s) := by
  obtain ⟨rest, text⟩ := toCss_of_isMissing (f := f) h
  refine Fails.here fun p hp => ?_
  have left : p.rest = 'n' :: ("one".toList ++ (rest ++ l)) := by rw [hp, text, List.append_assoc]; rfl
  have noVar : p.comesAnyCase "var" = false := Place.comesAnyCase_head (by decide) rfl (by decide) left
  rw [noVar, classic, text, if_neg Bool.false_ne_true]
  exact (Size.fails_read (by decide) (by decide) true).first

/-- No channel begins with a comma or a slash. -/
theorem fails_channel {c : Char} (hc : c ∈ [',', '/']) (word : Read Value) :
    Fails (c :: l) (readChannel word s) := by
  have known : c.isDigit = false ∧ c ∉ ['.', '-', 'e', 'E'] ∧ c.toLower ≠ 'v' ∧ c.toLower ≠ 'n' := by
    simp only [List.mem_cons, List.not_mem_nil, or_false] at hc
    rcases hc with rfl | rfl
    · decide
    · decide
  obtain ⟨digit, other, noV, noN⟩ := known
  refine Fails.here fun p hp => ?_
  have noVar : p.comesAnyCase "var" = false := Place.comesAnyCase_head (by decide) rfl noV hp
  have noNone : p.comesAnyCase "none" = false := Place.comesAnyCase_head (by decide) rfl noN hp
  rw [noVar, noNone, Bool.and_false, if_neg Bool.false_ne_true, if_neg Bool.false_ne_true]
  exact (Size.fails_read digit other true).first

section Reference

variable {nested : List Separator → Read Value} {inner : Read Value} {t : String} {more : List Char}

/-- The name of a custom property is taken as the only argument. -/
theorem takes_customName (ht : t.toList = '-' :: '-' :: more) (spelling : IsSpelling t.toList) (unbroken : Unbroken t)
    (n : Nat) (order : List Separator) : Takes (t.toList ++ ')' :: l) (')' :: l) (readWith (readPrimitiveIn n) order)
      (· = .keyword t) := by
  have start : t.toList ++ ')' :: l = '-' :: '-' :: (more ++ ')' :: l) := by rw [ht]; rfl
  have stops : Stops (t.toList ++ ')' :: l) := by
    rw [start]
    exact .cons rfl (by decide)
  have close : Stops (pastBlank (')' :: l)) := .cons rfl (by decide)
  have nonempty : t ≠ "" := by
    rintro rfl
    cases ht
  have word : Takes (t.toList ++ ')' :: l) (')' :: l) (readWord (nestedIn n) (innerIn n) false) (· = .keyword t) := by
    have name : Takes (t.toList ++ ')' :: l) (')' :: l) (Read.identifier false) (· = t) :=
      Takes.spelled spelling nofun nonempty unbroken (.cons rfl (by decide))
    refine Takes.here fun p _ => name.bind fun a ha => Takes.here fun q hq => ?_
    rw [Place.comes_of_head hq rfl (by decide)]
    exact .pure (congrArg keyword ha)
  have primitive : Takes (t.toList ++ ')' :: l) (')' :: l) (readPrimitiveIn n) (· = .keyword t) := by
    rw [readPrimitiveIn]
    refine takes_primitiveWith stops close fun p lenient hp => ?_
    rw [readForm_of_minus (hp.trans start) rfl (by decide)]
    exact takes_wordOrSign word
  have going (p : Place) (hp : p.rest = t.toList ++ ')' :: l) (lenient : Bool) : endsAt lenient p = false :=
    not_endsAt (hp.trans start) (by decide) lenient
  have chain : Takes (t.toList ++ ')' :: l) (')' :: l) (readRunWith (readPrimitiveIn n) order)
      (· = ⟨.keyword t, []⟩) := by
    refine (Takes.noGap stops).discard.bind fun _ _ => Takes.here fun p hp => Takes.asking fun lenient => ?_
    refine Takes.passing (by rw [going p hp]; exact Bool.false_ne_true) (primitive.bind fun a ha => ?_)
    refine (Takes.noGap close).discard.bind fun _ _ => Takes.left.bind fun k _ => ?_
    have ended : Takes (')' :: l) (')' :: l) (readMore (readPrimitiveIn n) order k) (· = []) := by
      rw [readMore]
      refine Takes.asking fun lenient => Takes.here fun p hp => ?_
      rw [endsAt_of_ends (ends_of_spacing (b := []) rfl (by decide)) (hp.trans (pastBlank_cons rfl).symm), if_pos rfl]
      exact .pure rfl
    exact ended.bind fun found hf => .pure (by rw [ha, hf])
  rw [readWith_eq]
  refine Takes.here fun p _ => chain.bind fun c hc => ?_
  rw [hc, group_single]
  exact .pure rfl

/-- A reference to a custom property is read again. -/
theorem readsAgain_reference (ht : t.toList = '-' :: '-' :: more) (spelling : IsSpelling t.toList)
    (unbroken : Unbroken t) (s : Separator) (p : Option Position) :
    ReadsAgain f (.function "var" [.keyword t] s p) := by
  intro n l _ length
  have written : ((Value.function "var" [.keyword t] s p).toCss f).toList ++ l =
      "var".toList ++ '(' :: (t.toList ++ ')' :: l) := by
    rw [toCss, texts, texts, toCss, String.intercalate_singleton]
    simp
  have var : Takes ("var".toList ++ '(' :: (t.toList ++ ')' :: l)) ('(' :: (t.toList ++ ')' :: l))
      (Read.identifier true) (· = "var") := by
    refine (Takes.identifier true (by decide) (by decide) (.cons rfl (by decide))).mono fun a ha => ?_
    rw [ha]
    decide
  rw [written] at length ⊢
  have fewer : (t.toList ++ ')' :: l).length < n := by
    rw [List.length_append, List.length_cons] at length
    omega
  have call : Takes ("var".toList ++ '(' :: (t.toList ++ ')' :: l)) l (readFunction (nestedIn n) true)
      fun w => ∃ q, w = .function "var" [.keyword t] .comma q := by
    refine Takes.here fun q _ => var.bind fun name hname => (Takes.char rfl).discard.bind fun _ _ => ?_
    have arguments : Takes (t.toList ++ ')' :: l) (')' :: l) (readArguments (nestedIn n))
        (· = ([.keyword t], .comma)) := by
      have stops : Stops (t.toList ++ ')' :: l) := by
        rw [ht]
        exact .cons rfl (by decide)
      refine (Takes.noGap stops).discard.bind fun _ _ => Takes.here fun r hr => ?_
      rw [ht] at hr
      rw [Place.comes_of_head hr rfl (by decide), if_neg Bool.false_ne_true]
      refine (Takes.shorter fewer fun _ => takes_customName ht spelling unbroken _ _).bind fun a ha => .pure ?_
      rw [ha]
      rfl
    refine arguments.bind fun a ha => ?_
    subst ha
    exact (Takes.char rfl).discard.bind fun _ _ => .pure ⟨some q.position, by rw [hname]⟩
  refine Takes.here fun q hq => var.bind fun name hname => Takes.here fun r hr => ?_
  subst hname
  rw [Place.comes_char hr rfl]
  refine (Takes.goto q).bind fun _ _ => ?_
  have plain : Text.lower "var" ≠ "url" ∧ Text.lower "var" ∉ calculationNames := by decide
  rw [hq, if_neg plain.1, if_neg plain.2]
  refine call.mono ?_
  rintro w ⟨q', rfl⟩
  rw [toCss, toCss, texts, texts, String.intercalate_singleton, String.intercalate_singleton]

end Reference

end Value

end Stylesheet
