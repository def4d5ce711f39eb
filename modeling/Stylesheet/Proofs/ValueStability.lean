import Stylesheet.Proofs.StableValues

namespace Stylesheet

open Read (Takes)

theorem Closed.endsSize {l : List Char} (hl : Closed l) : EndsSize l := by
  intro c rest hc
  obtain ⟨digit, alpha⟩ := not_isAlphanum (hl.name c rest hc).1
  have head := hl.head c rest hc
  refine ⟨digit, ?_, alpha, ?_⟩
  · rintro rfl
    exact head (by decide)
  · rintro rfl
    exact head (by decide)

theorem isValueStart_of_isDigit {c : Char} (digit : c.isDigit = true) : isValueStart c = true := by
  have solid : Text.isBlank c = false := isBlank_of_isNameChar (by simp [isNameChar, Char.isAlphanum, digit])
  refine isValueStart_iff.mpr ⟨solid, fun known => ?_⟩
  have other := isAlphanum_of_delimiter known
  rw [Char.isAlphanum, digit, Bool.or_true] at other
  cases other

namespace Size

variable {z : Size}

/-- What is written of a finite size begins as a number does. -/
theorem begins_of_toCss (finite : z.magnitude.isFinite = true) {l : List Char} {p : Place}
    (hp : p.rest = z.toCss.toList ++ l) : begins p = true := by
  obtain ⟨negative, d, text, numeral, -⟩ := Number.Binary64.toCss_cases finite
  rw [toCss, String.toList_append, text, String.toList_ofList, List.append_assoc, List.append_assoc] at hp
  generalize (z.unit.getD "").toList ++ l = m at hp
  unfold begins
  rw [hp]
  cases numeral with
  | decimal decimal =>
    obtain ⟨c, rest, rfl, digit⟩ := decimal.head
    have minus : c ≠ '-' := ne_of_isDigit digit (by decide)
    have point : c ≠ '.' := ne_of_isDigit digit (by decide)
    cases negative with
    | false => simp [Number.Binary64.sign, minus, point, digit]
    | true => simp [Number.Binary64.sign, point, digit]
  | @point c more digits =>
    have digit := digits c List.mem_cons_self
    cases negative with
    | false => exact digit
    | true => exact digit

end Size

namespace Value

variable {f : Layout} {v : Value} {nested : List Separator → Read Value} {inner : Read Value} {n : Nat} {l : List Char}
  {good : Value → Prop}

/-- A name that is read as a word is, and not as a color, a filter or a range. -/
theorem readForm_of_wordName {name : String} (hn : isWordName name = true) (hl : BehindWord l) {p : Place}
    (hp : p.rest = name.toList ++ l) (lenient : Bool) :
    readForm nested inner lenient p = readWordOrSign (readWord nested inner false) := by
  rw [isWordName, Bool.or_eq_true] at hn
  rcases hn with plain | dashed
  · exact readForm_of_word plain hl hp lenient
  · obtain ⟨c, rest, dashes, digit, point, -⟩ := isDashedName_eq dashed
    exact readForm_of_minus (hp.trans (by rw [dashes]; rfl)) digit point lenient

section Color

variable {hash : Bool}

/-- The name of a stable color, which is in lower case, begins with `rgb` or `hsl`. -/
theorem colorName_of_stable (h : v.isStableColor hash = true) :
    v.colorName.toList.all isNameChar = true ∧
      (beginsAnyCase v.colorName "rgb" = true ∨ beginsAnyCase v.colorName "hsl" = true) ∧
      ∃ c rest, v.colorName.toList = c :: rest ∧ c.isAlpha = true := by
  simp only [isStableColor, isLowerName, Bool.and_eq_true, Bool.or_eq_true, beq_iff_eq] at h
  obtain ⟨⟨⟨⟨⟨-, ⟨-, chars⟩, lower⟩, color⟩, -⟩, -⟩, -⟩ := h
  refine ⟨chars, color, ?_⟩
  cases name : v.colorName.toList with
  | nil =>
    simp only [beginsAnyCase, name] at color
    rcases color with h | h <;> cases h
  | cons c rest =>
    refine ⟨c, rest, rfl, isAlpha_of_toLower ?_⟩
    simp only [beginsAnyCase, name, beq_iff_eq] at color
    rcases color with h | h
    · rw [(List.cons.inj h).1]
      rfl
    · rw [(List.cons.inj h).1]
      rfl

/-- What is written of a stable color begins with a hash or with the name of the color. -/
theorem toCss_of_stableColor (h : v.isStableColor hash = true) :
    (∃ rest, (v.toCss f).toList = '#' :: rest) ∨ ∃ rest, (v.toCss f).toList = v.colorName.toList ++ rest := by
  have call (name arguments : String) : ∃ rest, (name ++ "(" ++ arguments ++ ")").toList = name.toList ++ rest := by
    simp only [String.toList_append, List.append_assoc]
    exact ⟨_, rfl⟩
  cases v with
  | color cs classic p =>
    rw [toCss, Notation.colorText]
    cases Notation.ofChannels f cs with
    | hash =>
      left
      dsimp only [Notation.hashText]
      split
      · exact ⟨_, String.toList_ofList⟩
      · exact ⟨_, String.toList_ofList⟩
    | modern => exact .inr (call _ _)
    | classic => exact .inr (call _ _)
  | function name args s p =>
    rw [toCss]
    exact .inr (call _ _)
  | keyword | size | string | url | calculation | list | lineNames => simp [isStableColor, hasFittingVariables] at h

theorem head_of_stableColor (h : v.isStableColor hash = true) :
    ∃ c rest, (v.toCss f).toList = c :: rest ∧ (c = '#' ∨ c.isAlpha = true) := by
  rcases toCss_of_stableColor (f := f) h with ⟨rest, text⟩ | ⟨rest, text⟩
  · exact ⟨'#', rest, text, .inl rfl⟩
  · obtain ⟨-, -, c, more, name, alpha⟩ := colorName_of_stable h
    exact ⟨c, more ++ rest, by rw [text, name]; rfl, .inr alpha⟩

/-- A stable color is read as a color. -/
theorem readForm_of_stableColor (h : v.isStableColor hash = true) {p : Place}
    (hp : p.rest = (v.toCss f).toList ++ l) (lenient : Bool) :
    readForm nested inner lenient p = readColor (readWord nested inner true) := by
  obtain ⟨c, rest, head, known⟩ := head_of_stableColor (f := f) h
  have begins : Size.begins p = false := by
    rcases known with rfl | alpha
    · rw [Size.begins, hp, head]
      rfl
    · exact begins_of_start (hp.trans (by rw [head]; rfl)) (by rw [isPlainStart, alpha]; rfl)
  have color : (p.comes "#" || p.comesAnyCase "rgb" || p.comesAnyCase "hsl") = true := by
    rcases toCss_of_stableColor (f := f) h with ⟨rest, text⟩ | ⟨rest, text⟩
    · rw [text] at hp
      rw [Place.comes_char (t := "#") hp rfl]
      rfl
    · obtain ⟨chars, color, -⟩ := colorName_of_stable h
      rw [text, List.append_assoc] at hp
      exact begins_color chars color hp
  rw [readForm, begins, color, if_neg Bool.false_ne_true, if_pos rfl]

end Color

theorem texts_of_arguments (f : Layout) (v : Value) :
    String.intercalate (f.around v.arguments.2) (texts f v.arguments.1) = v.toCss f := by
  cases v with
  | list vs s p => rw [arguments, toCss]
  | keyword | size | color | string | url | function | calculation | lineNames =>
    simp only [arguments, texts, String.intercalate_singleton]

/-- The text of a call does not depend on how its arguments are grouped. -/
theorem toCss_function (f : Layout) (name : String) (args : List Value) (s : Separator) (p : Option Position)
    (l : List Char) : ((function name args s p).toCss f).toList ++ l =
      name.toList ++ '(' :: (((list args s none).toCss f).toList ++ ')' :: l) := by
  rw [toCss, toCss]
  simp

/-- What is written of a stable value that is no list begins as a value does. -/
theorem head_of_stable (hf : f.IsBlankInValues) {hash : Bool} (hv : v.isStable hash [] = true) :
    ∃ c rest, (v.toCss f).toList = c :: rest ∧ isValueStart c = true := by
  have plain (hp : v.isPlain [] = true) : ∃ c rest, (v.toCss f).toList = c :: rest ∧ isValueStart c = true := by
    obtain ⟨c, rest, hc, start⟩ := head_of_plain hf hp
    exact ⟨c, rest, hc, isValueStart_of_isPlainStart start⟩
  have color (h : v.isStableColor hash = true) :
      ∃ c rest, (v.toCss f).toList = c :: rest ∧ isValueStart c = true := by
    obtain ⟨c, rest, hc, known⟩ := head_of_stableColor (f := f) h
    refine ⟨c, rest, hc, ?_⟩
    rcases known with rfl | alpha
    · decide
    · exact isValueStart_of_isAlpha alpha
  cases v with
  | keyword t => exact head_of_isWordName hv
  | size z =>
    rw [isStable, Size.isPlain, Bool.and_eq_true, Bool.and_eq_true] at hv
    obtain ⟨c, rest, hc, first⟩ := Size.head_toCss hv.1.1
    refine ⟨c, rest, hc, ?_⟩
    rcases first with digit | rfl | rfl
    · exact isValueStart_of_isDigit digit
    · decide
    · decide
  | color cs classic p => exact color hv
  | string q => exact plain hv
  | url u => exact plain hv
  | lineNames names p => exact plain hv
  | function name args s p =>
    rw [isStable, Bool.or_eq_true] at hv
    rcases hv with h | h
    · exact color h
    · rw [Bool.and_eq_true, Bool.and_eq_true] at h
      obtain ⟨c, rest, hc, start⟩ := head_of_isWordName (isCallName_eq h.1.1).1
      have text := toCss_function f name args s p []
      rw [List.append_nil, hc] at text
      exact ⟨c, _, text, start⟩
  | calculation name tokens p =>
    rw [isStable, Bool.and_eq_true, Bool.and_eq_true, List.contains_iff_mem] at hv
    have names : ∀ t ∈ calculationNames, ∃ c rest, t.toList = c :: rest ∧ isValueStart c = true := by
      intro t ht
      simp only [calculationNames, List.mem_cons, List.not_mem_nil, or_false] at ht
      rcases ht with rfl | rfl | rfl
      · exact ⟨_, _, rfl, rfl⟩
      · exact ⟨_, _, rfl, rfl⟩
      · exact ⟨_, _, rfl, rfl⟩
    obtain ⟨c, rest, hc, start⟩ := names name hv.1.1
    have text := Calculation.toCss_calculation (f := f) (l := []) name tokens p
    rw [List.append_nil, hc] at text
    exact ⟨c, _, text, start⟩
  | list vs s p => exact absurd (isStable_list.mp hv).2.1 List.not_mem_nil

/-- A form is read as a value that is no list. -/
theorem takes_readPrimitiveIn {t m : List Char} (ht : Stops t) (hm : Stops (pastBlank m))
    (form : ∀ p lenient, p.rest = t → Takes t m (readForm (nestedIn n) (innerIn n) lenient p) good) :
    Takes t (pastBlank m) (readPrimitiveIn n) good := by
  rw [readPrimitiveIn]
  exact takes_primitiveWith ht hm form

/-- Operands are read again where fewer characters are left than before their calculation. -/
theorem rereads_innerIn {P : Value → Prop} {Q : Value → Value → Prop} {k : Nat} (hk : k < n)
    (again : ∀ m < n, Rereads f P Q m (readPrimitiveIn m)) : Rereads f P Q k (innerIn n) := by
  refine ⟨(again k hk).head, fun v l hv hl length => ?_⟩
  exact Takes.shorter (Nat.lt_of_le_of_lt length hk) fun fewer => (again _ fewer).taken v l hv hl (Nat.le_refl _)

/-- Related values are written as the same text. -/
theorem textOfMore_of_areRelated {more more' : List (Separator × Value)}
    (h : AreRelated (fun v w => w.toCss f = v.toCss f) more more') :
    Chain.textOfMore f more' = Chain.textOfMore f more := by
  induction h with
  | nil => rfl
  | cons same _ ih => rw [Chain.textOfMore_cons, Chain.textOfMore_cons, ih, same.1, same.2]

/-- A value is read so that the same is written of it again, up to what ends it, however it is grouped then. -/
theorem takes_text {primitive : Read Value} (hf : f.IsBlankInValues) {hash : Bool}
    (hp : RereadsText f (·.isStable hash [] = true) n primitive) (whole : Read.Yields primitive IsWhole)
    {order : List Separator} (hv : v.isStable hash order = true) (hl : Ends l)
    (hn : ((v.toCss f).toList ++ l).length ≤ n) {b : List Char} (hb : b.all Text.isBlank = true) :
    Takes (b ++ ((v.toCss f).toList ++ l)) (pastBlank l) (readWith primitive order) fun w => w.toCss f = v.toCss f := by
  rw [toCss_flat] at hn ⊢
  have run := (hp.takes_run hf (flat_isStable hv) hl hn hb).yielding (readRunWith_flat whole order)
  refine takes_grouped run ?_
  rintro c ⟨⟨first, more⟩, flat⟩ p
  obtain ⟨w, folded, written, -⟩ := flat.foldAll p
  refine ⟨w, folded, String.toList_inj.mp ?_⟩
  rw [toCss_flat, toCss_flat, written, Chain.text, Chain.text, first, textOfMore_of_areRelated more]

section Forms

variable {hash : Bool}

theorem takes_stableColor (hf : f.IsBlankInValues) (h : v.isStableColor f.hashColors = true) (hl : Closed l)
    (length : ((v.toCss f).toList ++ l).length ≤ n) {p : Place} (hp : p.rest = (v.toCss f).toList ++ l)
    (lenient : Bool) :
    Takes ((v.toCss f).toList ++ l) l (readForm (nestedIn n) (innerIn n) lenient p) fun w => w.toCss f = v.toCss f := by
  rw [readForm_of_stableColor h hp]
  exact isReadAsColor_of_stable hf h n l hl.name length

theorem takes_stableSize {z : Size} (h : z.isPlain = true) (hl : Closed l) {p : Place}
    (hp : p.rest = z.toCss.toList ++ l) (lenient : Bool) :
    Takes (z.toCss.toList ++ l) l (readForm nested inner lenient p) fun w => w.toCss f = z.toCss := by
  rw [Size.isPlain, Bool.and_eq_true, Bool.and_eq_true, decide_eq_true_eq, Option.all_eq_true] at h
  obtain ⟨⟨finite, number⟩, unit⟩ := h
  have known : z.HasKnownUnit := fun u hu => of_decide_eq_true (unit u hu)
  rw [readForm, if_pos (Size.begins_of_toCss finite hp)]
  refine (Size.takes_again finite number known hl.endsSize false).map fun a same => ?_
  rw [toCss, Size.toCss, Size.toCss, same.1, same.2.1]

theorem takes_stableWord {t : String} (ht : isWordName t = true) (hl : Closed l) {p : Place}
    (hp : p.rest = t.toList ++ l) (lenient : Bool) :
    Takes (t.toList ++ l) l (readForm nested inner lenient p) fun w => w.toCss f = t := by
  rw [readForm_of_wordName ht (closed_behindWord hl) hp]
  refine (takes_wordOrSign (takes_keyword (isName_of_isWordName ht) hl)).mono fun w same => ?_
  rw [← toCss_bare, same, toCss]

theorem takes_stableCalculation {name : String} {tokens : List (CalcToken Value)} {p : Option Position}
    (hv : (calculation name tokens p).isStable hash [] = true)
    (again : ∀ m < n, RereadsText f (·.isStable hash [] = true) m (readPrimitiveIn m))
    (length : (((calculation name tokens p).toCss f).toList ++ l).length ≤ n) {q : Place}
    (hq : q.rest = ((calculation name tokens p).toCss f).toList ++ l) (lenient : Bool) :
    Takes (((calculation name tokens p).toCss f).toList ++ l) l (readForm nested (innerIn n) lenient q)
      fun w => w.toCss f = (calculation name tokens p).toCss f := by
  rw [isStable, Bool.and_eq_true, Bool.and_eq_true, List.contains_iff_mem, areStableOperands_iff] at hv
  obtain ⟨⟨known, shape⟩, operands⟩ := hv
  have text := Calculation.toCss_calculation (f := f) (l := l) name tokens p
  have word : ∀ t ∈ calculationNames, isWordName t = true := by decide
  have fewer : (Calculation.textOfTokens f l tokens).length < n := by
    rw [text, List.length_append, List.length_cons] at length
    omega
  have taken := Calculation.takes_calculation (l := l) (rereads_innerIn fewer again) (innerIn_advances n) known operands
    shape p (Nat.le_refl _)
  rw [text] at hq taken ⊢
  rw [readForm_of_wordName (word name known) (behindWord_parenthesis _) hq]
  refine takes_wordOrSign (takes_call (isName_of_isWordName (word name known)) taken ?_)
  have lower : ∀ t ∈ calculationNames, Text.lower t ≠ "url" ∧ Text.lower t ∈ calculationNames := by decide +kernel
  rw [if_neg (lower name known).1, if_pos (lower name known).2]

/-- The arguments of a function are read up to its parenthesis, and whatever they are grouped into, their text is the one
that they were written as. -/
theorem takes_stableArguments (hf : f.IsBlankInValues) {args : List Value} {s : Separator}
    (hs : s ∈ Separator.ofArguments) (parts : ∀ v ∈ args, v.isStable hash Separator.ofArguments = true)
    (again : ∀ m < n, RereadsText f (·.isStable hash [] = true) m (readPrimitiveIn m))
    (fewer : (((list args s none).toCss f).toList ++ ')' :: l).length < n) :
    Takes (((list args s none).toCss f).toList ++ ')' :: l) (')' :: l) (readArguments (nestedIn n))
      fun a => String.intercalate (f.around a.2) (texts f a.1) = (list args s none).toCss f := by
  cases args with
  | nil =>
    refine takes_noArguments.mono fun a ha => ?_
    rw [ha, toCss]
    rfl
  | cons v vs =>
    have stable : (list (v :: vs) s none).isStable hash Separator.ofArguments = true :=
      isStable_list.mpr ⟨List.cons_ne_nil v vs, hs, parts⟩
    have ends : Ends (')' :: l) := ends_of_spacing (b := []) rfl (by decide)
    have taken := takes_text hf (again _ fewer) (readPrimitiveIn_whole _) stable ends (Nat.le_refl _) (b := []) rfl
    rw [List.nil_append, pastBlank_cons rfl] at taken
    obtain ⟨c, rest, hc, start⟩ := head_of_stable hf (flat_isStable stable).first
    have head : ((list (v :: vs) s none).toCss f).toList ++ ')' :: l =
        c :: (rest ++ (Chain.textOfMore f ((list (v :: vs) s none).flat []).more ++ ')' :: l)) := by
      rw [toCss_flat, Chain.text, hc, List.append_assoc]
      rfl
    rw [head] at fewer taken ⊢
    have nested : Takes _ _ (nestedIn n Separator.ofArguments) _ := Takes.shorter fewer fun _ => taken
    refine (takes_arguments start nested).mono ?_
    rintro a ⟨w, same, rfl⟩
    rw [texts_of_arguments, same]

theorem takes_stableFunction (hf : f.IsBlankInValues) {name : String} {args : List Value} {s : Separator}
    {p : Option Position} (hn : isCallName name = true) (hs : s ∈ Separator.ofArguments)
    (parts : ∀ v ∈ args, v.isStable hash Separator.ofArguments = true)
    (again : ∀ m < n, RereadsText f (·.isStable hash [] = true) m (readPrimitiveIn m))
    (length : (((function name args s p).toCss f).toList ++ l).length ≤ n) {q : Place}
    (hq : q.rest = ((function name args s p).toCss f).toList ++ l) (lenient : Bool) :
    Takes (((function name args s p).toCss f).toList ++ l) l (readForm (nestedIn n) inner lenient q)
      fun w => w.toCss f = (function name args s p).toCss f := by
  obtain ⟨word, url, sum⟩ := isCallName_eq hn
  have text := toCss_function f name args s p l
  have fewer : (((list args s none).toCss f).toList ++ ')' :: l).length < n := by
    rw [text, List.length_append, List.length_cons] at length
    omega
  have taken : Takes (name.toList ++ '(' :: (((list args s none).toCss f).toList ++ ')' :: l)) l
      (readFunction (nestedIn n) false) fun w => w.toCss f = (function name args s p).toCss f := by
    have arguments := takes_stableArguments hf hs parts again fewer
    refine (takes_namedCall (isName_of_isWordName word) arguments).mono ?_
    rintro w ⟨a, q, same, rfl⟩
    rw [toCss, same, toCss, toCss]
  rw [text] at hq ⊢
  rw [readForm_of_wordName word (behindWord_parenthesis _) hq]
  exact takes_wordOrSign (takes_call (isName_of_isWordName word) taken (choice_of_function url sum))

end Forms

/-- The reader of stable values with its recursion. -/
theorem rereads_stable (hf : f.IsBlankInValues) (n : Nat) :
    RereadsText f (·.isStable f.hashColors [] = true) n (readPrimitiveIn n) := by
  induction n using Nat.strongRecOn with
  | ind n ih =>
    refine ⟨fun v hv => head_of_stable hf hv, fun v l hv hl length => ?_⟩
    obtain ⟨c, rest, hc, start⟩ := head_of_stable hf hv
    have stops : Stops ((v.toCss f).toList ++ l) := by rw [hc]; exact stops_of_start start
    have plain (hp : v.isPlain [] = true) :
        Takes ((v.toCss f).toList ++ l) (pastBlank l) (readPrimitiveIn n) fun w => w.toCss f = v.toCss f :=
      ((rereads hf n).taken v l hp hl length).mono fun w same => by rw [← toCss_bare, same, toCss_bare]
    have color (h : v.isStableColor f.hashColors = true) :
        Takes ((v.toCss f).toList ++ l) (pastBlank l) (readPrimitiveIn n) fun w => w.toCss f = v.toCss f :=
      takes_readPrimitiveIn stops hl.stops fun p lenient hp => takes_stableColor hf h hl length hp lenient
    cases v with
    | keyword t => exact takes_readPrimitiveIn stops hl.stops fun p lenient hp => takes_stableWord hv hl hp lenient
    | size z => exact takes_readPrimitiveIn stops hl.stops fun p lenient hp => takes_stableSize hv hl hp lenient
    | color cs classic p => exact color hv
    | string q => exact plain hv
    | url u => exact plain hv
    | lineNames names p => exact plain hv
    | function name args s p =>
      rw [isStable, Bool.or_eq_true] at hv
      rcases hv with h | h
      · exact color h
      · rw [Bool.and_eq_true, Bool.and_eq_true, List.contains_iff_mem, areStable_iff] at h
        exact takes_readPrimitiveIn stops hl.stops fun q lenient hq =>
          takes_stableFunction hf h.1.1 h.1.2 h.2 ih length hq lenient
    | calculation name tokens p =>
      exact takes_readPrimitiveIn stops hl.stops fun q lenient hq => takes_stableCalculation hv ih length hq lenient
    | list vs s p => exact absurd (isStable_list.mp hv).2.1 List.not_mem_nil

/-- What is written of a stable value is read as a value of which the same is written. -/
theorem takes_stable (hf : f.IsBlankInValues) {order : List Separator} (hv : v.isStable f.hashColors order = true)
    (hl : Ends l) {b : List Char} (hb : b.all Text.isBlank = true) :
    Takes (b ++ ((v.toCss f).toList ++ l)) (pastBlank l) (read order) fun w => w.toCss f = v.toCss f := by
  refine Takes.left.bind fun n hn => ?_
  rw [List.length_append] at hn
  exact takes_text hf (rereads_stable hf n) (readPrimitiveIn_whole n) hv hl (by omega) hb

end Value

end Stylesheet
