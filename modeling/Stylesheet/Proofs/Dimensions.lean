import Stylesheet.Proofs.BareWords
import Stylesheet.Proofs.Folding

namespace Stylesheet

open Read (Takes Fails)

/-- Digits, with a point and further digits behind them or without. -/
inductive IsDecimal : List Char → Prop
  | whole {ds : List Char} : ds ≠ [] → (∀ c ∈ ds, c.isDigit = true) → IsDecimal ds
  | fraction {ds more : List Char} : ds ≠ [] → (∀ c ∈ ds, c.isDigit = true) → (∀ c ∈ more, c.isDigit = true) →
    IsDecimal (ds ++ '.' :: more)

/-- Letters below U+0080 that do not begin with the letter of an exponent. -/
structure IsLetters (u : List Char) : Prop where
  nonempty : u ≠ []
  letters : ∀ c ∈ u, c.isAlpha = true
  exponent : u.head? ≠ some 'e' ∧ u.head? ≠ some 'E'

theorem ne_of_isDigit {c d : Char} (hc : c.isDigit = true) (hd : d.isDigit = false) : c ≠ d := by
  rintro rfl
  rw [hc] at hd
  cases hd

namespace IsDecimal

variable {n : List Char}

theorem digit_or_point (h : IsDecimal n) : ∀ c ∈ n, c.isDigit = true ∨ c = '.' := by
  cases h with
  | whole _ digits => exact fun c hc => .inl (digits c hc)
  | fraction _ digits more =>
    intro c hc
    rcases List.mem_append.mp hc with before | behind
    · exact .inl (digits c before)
    · rcases List.mem_cons.mp behind with point | behind
      · exact .inr point
      · exact .inl (more c behind)

/-- A decimal begins with a digit. -/
theorem head (h : IsDecimal n) : ∃ c rest, n = c :: rest ∧ c.isDigit = true := by
  cases h with
  | whole nonempty digits =>
    obtain ⟨c, rest, rfl⟩ := List.exists_cons_of_ne_nil nonempty
    exact ⟨c, rest, rfl, digits c List.mem_cons_self⟩
  | @fraction ds more nonempty digits _ =>
    obtain ⟨c, rest, rfl⟩ := List.exists_cons_of_ne_nil nonempty
    exact ⟨c, rest ++ '.' :: more, rfl, digits c List.mem_cons_self⟩

/-- A decimal stands for a number. -/
theorem numeral (h : IsDecimal n) : ∃ m, Number.Numeral.read? n = some m := by
  cases h with
  | whole nonempty digits =>
    have taken : n.takeWhile Char.isDigit = n := List.takeWhile_eq_self_iff.mpr digits
    have left : n.dropWhile Char.isDigit = [] := List.dropWhile_eq_nil_iff.mpr digits
    unfold Number.Numeral.read?
    simp [taken, left, nonempty]
  | @fraction ds more nonempty digits more' =>
    have point : ('.' :: more).takeWhile Char.isDigit = [] := rfl
    have taken : (ds ++ '.' :: more).takeWhile Char.isDigit = ds := by
      rw [List.takeWhile_append_of_pos digits, point, List.append_nil]
    have left : (ds ++ '.' :: more).dropWhile Char.isDigit = '.' :: more := by
      rw [List.dropWhile_append_of_pos digits]
      rfl
    have taken' : more.takeWhile Char.isDigit = more := List.takeWhile_eq_self_iff.mpr more'
    have left' : more.dropWhile Char.isDigit = [] := List.dropWhile_eq_nil_iff.mpr more'
    unfold Number.Numeral.read?
    simp [taken, left, taken', left', nonempty]

theorem binary64 (h : IsDecimal n) : ∃ x, Number.Binary64.read? (String.ofList n) = some x := by
  obtain ⟨m, read⟩ := h.numeral
  obtain ⟨c, rest, rfl, digit⟩ := h.head
  have minus : c ≠ '-' := ne_of_isDigit digit (by decide)
  have plus : c ≠ '+' := ne_of_isDigit digit (by decide)
  refine ⟨m.toBinary64 false, ?_⟩
  unfold Number.Binary64.read?
  simp [minus, plus, read]

end IsDecimal

theorem IsLetters.cons {c : Char} {u : List Char} (h : IsLetters (c :: u)) :
    c.isDigit = false ∧ c ≠ '.' ∧ c ≠ 'e' ∧ c ≠ 'E' := by
  have alpha : c.isAlpha = true := h.letters c List.mem_cons_self
  refine ⟨isDigit_of_isAlpha alpha, ?_, ?_, ?_⟩
  · rintro rfl
    exact absurd alpha (by decide)
  · rintro rfl
    exact h.exponent.1 rfl
  · rintro rfl
    exact h.exponent.2 rfl

namespace Size

variable {n u : List Char}

theorem numberChars_of_letters (hu : IsLetters u) : numberChars u = [] := by
  obtain ⟨c, u, rfl⟩ := List.exists_cons_of_ne_nil hu.nonempty
  obtain ⟨digit, point, small, capital⟩ := hu.cons
  cases u with
  | nil => simp [numberChars, digit, point]
  | cons d u => simp [numberChars, digit, point, small, capital]

theorem numberChars_cons {c : Char} (hc : c.isDigit = true ∨ c = '.') (l : List Char) :
    numberChars (c :: l) = c :: numberChars l := by
  cases l with
  | nil => simp [numberChars, hc]
  | cons d l => simp [numberChars, hc]

theorem numberChars_before {l : List Char} (hl : ∀ c ∈ l, c.isDigit = true ∨ c = '.') (hu : numberChars u = []) :
    numberChars (l ++ u) = l := by
  induction l with
  | nil => exact hu
  | cons c l ih =>
    have rest := ih fun d hd => hl d (List.mem_cons_of_mem c hd)
    rw [List.cons_append, numberChars_cons (hl c List.mem_cons_self), rest]

/-- The number before letters is all that stands before them. -/
theorem numberAt_of_letters (hn : IsDecimal n) (hu : IsLetters u) : numberAt (n ++ u) = n := by
  have whole := numberChars_before hn.digit_or_point (numberChars_of_letters hu)
  obtain ⟨c, rest, rfl, digit⟩ := hn.head
  have minus : c ≠ '-' := ne_of_isDigit digit (by decide)
  unfold numberAt
  rw [List.cons_append] at whole ⊢
  split
  · next h => cases h; exact absurd rfl minus
  · exact whole

/-- The letters are a unit, in any case. -/
def IsUnit (u : List Char) : Prop := ∃ t ∈ unitsLongestFirst, u.map Char.toLower = t.toList.map Char.toLower

instance (u : List Char) : Decidable (IsUnit u) :=
  inferInstanceAs (Decidable (∃ t ∈ unitsLongestFirst, u.map Char.toLower = t.toList.map Char.toLower))

/-- What is left of the letters behind the longest unit that they begin with. -/
def behindUnit (u : List Char) : List Char := u.drop ((unitAt? u).getD "").length

theorem unitsLongestFirst_sorted : unitsLongestFirst.Pairwise fun t t' => t'.length ≤ t.length := by decide +kernel

/-- No unit that letters begin with is longer than the one that is found. -/
theorem length_le_unitAt {t : String} (known : t ∈ unitsLongestFirst)
    (letters : (u.take t.length).map Char.toLower = t.toList.map Char.toLower) :
    ∃ t', unitAt? u = some t' ∧ t.length ≤ t'.length := by
  unfold unitAt?
  cases found : unitsLongestFirst.find? fun v => (u.take v.length).map Char.toLower = v.toList.map Char.toLower with
  | none =>
    have unknown := List.find?_eq_none.mp found t known
    simp [letters] at unknown
  | some t' =>
    obtain ⟨-, before, behind, parts, others⟩ := List.find?_eq_some_iff_append.mp found
    refine ⟨t', rfl, ?_⟩
    have sorted := unitsLongestFirst_sorted
    rw [parts, List.pairwise_append, List.pairwise_cons] at sorted
    rw [parts, List.mem_append, List.mem_cons] at known
    rcases known with earlier | rfl | later
    · have other := others t earlier
      simp [letters] at other
    · exact Nat.le_refl _
    · exact sorted.2.1.1 t later

/-- Nothing is left exactly if the letters are a unit. -/
theorem behindUnit_eq_nil_iff (nonempty : u ≠ []) : behindUnit u = [] ↔ IsUnit u := by
  unfold behindUnit
  rw [List.drop_eq_nil_iff]
  constructor
  · intro covered
    cases found : unitAt? u with
    | none =>
      rw [found] at covered
      exact absurd (List.length_eq_zero_iff.mp (Nat.le_zero.mp covered)) nonempty
    | some t =>
      rw [found] at covered
      change u.length ≤ t.length at covered
      have letters := List.find?_some found
      rw [decide_eq_true_eq, List.take_of_length_le covered] at letters
      exact ⟨t, List.mem_of_find?_eq_some found, letters⟩
  · rintro ⟨t, known, letters⟩
    have length : u.length = t.length := by
      rw [← String.length_toList]
      simpa only [List.length_map] using congrArg List.length letters
    have whole : u.take t.length = u := List.take_of_length_le (Nat.le_of_eq length)
    obtain ⟨t', found, longer⟩ := length_le_unitAt known (by rw [whole, letters])
    rw [found, length]
    exact longer

example : IsUnit "VMIN".toList ∧ ¬ IsUnit "svw".toList := by decide +kernel

end Size

namespace Number

/-- A character of a number that is written: a digit, a point, a minus or a letter. -/
def isNumberChar (c : Char) : Bool := c.isDigit || c == '.' || c == '-' || c.isAlpha

theorem isDigit_of_mem_toDigits {n : Nat} : ∀ c ∈ Nat.toDigits 10 n, c.isDigit = true :=
  fun _ hc => Nat.isDigit_of_mem_toDigits (by decide) (by decide) hc

namespace Decimal

theorem isDigit_of_mem_padded {width n : Nat} : ∀ c ∈ padded width n, c.isDigit = true := by
  intro c hc
  rcases List.mem_append.mp hc with zero | digit
  · rw [List.eq_of_mem_replicate zero]
    decide
  · exact isDigit_of_mem_toDigits c digit

/-- A decimal is written as digits, or with a point that has digits on both sides. -/
theorem toChars_cases (d : Decimal) :
    (d.toChars ≠ [] ∧ ∀ c ∈ d.toChars, c.isDigit = true) ∨
      ∃ ds more, d.toChars = ds ++ '.' :: more ∧ (ds ≠ [] ∧ ∀ c ∈ ds, c.isDigit = true) ∧
        (more ≠ [] ∧ ∀ c ∈ more, c.isDigit = true) := by
  have digits (n : Nat) : Nat.toDigits 10 n ≠ [] ∧ ∀ c ∈ Nat.toDigits 10 n, c.isDigit = true :=
    ⟨Nat.toDigits_ne_nil, isDigit_of_mem_toDigits⟩
  unfold toChars
  split
  · exact .inl (digits _)
  · dsimp only
    split
    · exact .inl (digits _)
    · next nonempty =>
      refine .inr ⟨_, _, rfl, digits _, nonempty, fun c hc => ?_⟩
      rw [List.mem_reverse] at hc
      have padding := (List.dropWhile_sublist _).mem hc
      rw [List.mem_reverse] at padding
      exact isDigit_of_mem_padded c padding

theorem isDecimal_toChars (d : Decimal) : IsDecimal d.toChars := by
  rcases d.toChars_cases with ⟨nonempty, digits⟩ | ⟨ds, more, parts, ⟨nonempty, digits⟩, -, more'⟩
  · exact .whole nonempty digits
  · rw [parts]
    exact .fraction nonempty digits more'

end Decimal

theorem Binary64.isDecimal_magnitudeChars (units : Nat) : IsDecimal (magnitudeChars units) := by
  unfold magnitudeChars
  split
  · exact .whole (by decide) (List.all_eq_true.mp rfl)
  · exact Decimal.isDecimal_toChars _

namespace Binary64

theorem isNumberChar_of_mem_toText {x : Binary64} {c : Char} (h : c ∈ x.toText.toList) : isNumberChar c = true := by
  have words : ∀ word ∈ ["inf", "-inf", "NaN"], ∀ d ∈ word.toList, isNumberChar d = true := by
    simp [isNumberChar]
  cases x with
  | finite negative units =>
    rw [toText, String.toList_ofList] at h
    rcases List.mem_append.mp h with minus | digits
    · cases negative with
      | false => cases minus
      | true =>
        rw [List.mem_singleton.mp minus]
        decide
    · rcases (isDecimal_magnitudeChars units).digit_or_point c digits with digit | rfl
      · simp [isNumberChar, digit]
      · decide
  | infinite negative =>
    cases negative with
    | false => exact words "inf" (by simp) c h
    | true => exact words "-inf" (by simp) c h
  | nan => exact words "NaN" (by simp) c h

theorem isNumberChar_of_mem_toCss {x : Binary64} {c : Char} (h : c ∈ x.toCss.toList) : isNumberChar c = true := by
  have text (d : Char) (hd : d ∈ x.toText.toList) : isNumberChar d = true := isNumberChar_of_mem_toText hd
  unfold toCss at h
  split at h
  · next r parts =>
    rw [String.toList_ofList] at h
    exact text c (by rw [parts]; exact List.mem_cons_of_mem _ h)
  · next r parts =>
    rw [String.toList_ofList] at h
    rcases List.mem_cons.mp h with rfl | rest
    · decide
    · exact text c (by rw [parts]; exact List.mem_cons_of_mem _ (List.mem_cons_of_mem _ rest))
  · exact text c h

end Binary64

end Number

namespace Size

theorem units_unspaced : ∀ t ∈ unitsLongestFirst, ' ' ∉ t.toList := by decide +kernel

/-- There is no blank in the text of a size with a unit of the table or without one. -/
theorem unspaced_toCss {z : Size} (h : ∀ t ∈ z.unit, t ∈ unitsLongestFirst) : ' ' ∉ z.toCss.toList := by
  rw [toCss, String.toList_append, List.mem_append, not_or]
  constructor
  · intro blank
    exact absurd (Number.Binary64.isNumberChar_of_mem_toCss blank) (by decide)
  · cases unit : z.unit with
    | none => simp
    | some t => exact units_unspaced t (h t unit)

end Size

namespace Value

variable {nested : List Separator → Read Value} {inner : Read Value} {n u w : List Char}

/-- The number is read with the longest unit behind it. -/
theorem takes_size (hn : IsDecimal n) (hu : IsLetters u) :
    Takes (n ++ u) (Size.behindUnit u) (Size.read false) fun z => z.unit = Size.unitAt? u := by
  obtain ⟨x, read⟩ := hn.binary64
  refine Takes.here fun p hp => ?_
  have number : Size.numberAt p.rest = n := by rw [hp, Size.numberAt_of_letters hn hu]
  rw [number]
  have behind : Takes (n ++ u) u (Read.skip (String.ofList n).length) fun _ => True := by
    have passed := Takes.skip (l := n ++ u) n.length
    rw [List.drop_left] at passed
    rwa [String.length_ofList]
  refine behind.bind fun _ _ => ?_
  rw [read]
  refine Takes.here fun q hq => ?_
  rw [hq]
  exact (Takes.skip (l := u) _).bind fun _ _ => .pure rfl

theorem begins_of_decimal (hn : IsDecimal n) {p : Place} (hp : p.rest = n ++ u) : Size.begins p = true := by
  obtain ⟨c, rest, rfl, digit⟩ := hn.head
  have minus : c ≠ '-' := ne_of_isDigit digit (by decide)
  have point : c ≠ '.' := ne_of_isDigit digit (by decide)
  rw [List.cons_append] at hp
  simp [Size.begins, hp, minus, point, digit]

/-- Neither a blank nor a comment begins at letters or at the end of the text. -/
theorem stops_of_letters (hw : ∀ c ∈ w, c.isAlpha = true) : Stops w := by
  cases w with
  | nil => exact .nil
  | cons c w => exact stops_of_start (isValueStart_of_isAlpha (hw c List.mem_cons_self))

theorem head_of_letters (nonempty : w ≠ []) (hw : ∀ c ∈ w, c.isAlpha = true) :
    ∃ c rest, w = c :: rest ∧ c.isAlpha = true ∧ isValueStart c = true := by
  obtain ⟨c, rest, rfl⟩ := List.exists_cons_of_ne_nil nonempty
  have alpha := hw c List.mem_cons_self
  exact ⟨c, rest, rfl, alpha, isValueStart_of_isAlpha alpha⟩

theorem letters_behindUnit (hu : IsLetters u) : ∀ c ∈ Size.behindUnit u, c.isAlpha = true :=
  fun c hc => hu.letters c (List.mem_of_mem_drop hc)

theorem stops_of_decimal (hn : IsDecimal n) : Stops (n ++ u) := by
  obtain ⟨c, rest, rfl, digit⟩ := hn.head
  have name : isNameChar c = true := by simp [isNameChar, Char.isAlphanum, digit]
  exact .cons (isBlank_of_isNameChar name) (ne_of_isDigit digit (by decide))

/-- A dimension is read as a size, and what is left of its letters is left. -/
theorem takes_dimension (nested : List Separator → Read Value) (inner : Read Value) (hn : IsDecimal n)
    (hu : IsLetters u) :
    Takes (n ++ u) (Size.behindUnit u) (readPrimitiveWith nested inner)
      fun v => ∃ z, v = .size z ∧ z.unit = Size.unitAt? u := by
  have behind : Stops (Size.behindUnit u) := stops_of_letters (letters_behindUnit hu)
  have form (p : Place) (lenient : Bool) (hp : p.rest = n ++ u) :
      Takes (n ++ u) (Size.behindUnit u) (readForm nested inner lenient p)
        fun v => ∃ z, v = .size z ∧ z.unit = Size.unitAt? u := by
    rw [readForm, if_pos (begins_of_decimal hn hp)]
    exact (takes_size hn hu).map fun z hz => ⟨z, rfl, hz⟩
  have read := takes_primitiveWith (stops_of_decimal hn) (by rwa [behind.solid]) form
  rwa [behind.solid] at read

theorem isPlainName_of_letters (nonempty : w ≠ []) (hw : ∀ c ∈ w, c.isAlpha = true) :
    isPlainName (String.ofList w) = true := by
  obtain ⟨c, rest, rfl⟩ := List.exists_cons_of_ne_nil nonempty
  have others : rest.all isNameChar = true :=
    List.all_eq_true.mpr fun d hd => isNameChar_of_isAlpha (hw d (List.mem_cons_of_mem c hd))
  simp [isPlainName, hw c List.mem_cons_self, others]

/-- Letters that a color may begin with. -/
def BeginsColor (w : List Char) : Prop :=
  beginsAnyCase (String.ofList w) "rgb" = true ∨ beginsAnyCase (String.ofList w) "hsl" = true

theorem BeginsColor.ne_nil (h : BeginsColor w) : w ≠ [] := by
  rintro rfl
  rcases h with h | h
  · exact absurd h (by decide)
  · exact absurd h (by decide)

/-- Letters that begin like a color are not read at the end of the text: no parenthesis follows them. -/
theorem fails_color (hw : ∀ c ∈ w, c.isAlpha = true) (color : BeginsColor w) :
    Fails w (readPrimitiveWith nested inner) := by
  have fails := fails_colorWord nested inner (isPlainName_of_letters color.ne_nil hw) color .nil .nil nofun nofun
  rwa [String.toList_ofList, List.append_nil, List.append_nil] at fails

/-- Other letters are a bare word at the end of the text. -/
theorem takes_letters (nonempty : w ≠ []) (hw : ∀ c ∈ w, c.isAlpha = true) (other : ¬ BeginsColor w) :
    Takes w [] (readPrimitiveWith nested inner) (· = .keyword (String.ofList w)) := by
  have name := isPlainName_of_letters nonempty hw
  obtain ⟨rgb, hsl⟩ := not_or.mp other
  have plain : isPlainWord (String.ofList w) = true := by simp [isPlainWord, name, rgb, hsl]
  obtain ⟨ends, call⟩ := behindWord_of_end (l := []) fun c hc => by cases hc
  intro r hr
  have start : r.place.rest = (String.ofList w).toList ++ [] := by rw [hr, String.toList_ofList, List.append_nil]
  have ended : (r.place.forward r.settings.width (String.ofList w).length).rest = [] := by
    rw [Place.forward_rest, hr, String.length_ofList, List.drop_length]
  have read := outcome_readPrimitiveWith_of_word nested inner plain ends call start
  rw [Read.outcome_gap_of_stops (by rw [ended]; exact .nil)] at read
  exact ⟨_, _, read, ended, rfl⟩

/-- The text ends behind the first value. -/
theorem takes_noMore (primitive : Read Value) (order : List Separator) (k : Nat) :
    Takes [] [] (readMore primitive order k) (· = []) := by
  rw [readMore]
  refine Takes.asking fun b => Takes.here fun p hp => ?_
  have ended : endsAt b p = true := by simp [endsAt, Place.atEnd, hp]
  rw [ended, if_pos rfl]
  exact .pure rfl

section More

variable {primitive : Read Value} (order : List Separator)

theorem takes_noSeparator {c : Char} {rest : List Char} (hc : isValueStart c = true) :
    Takes (c :: rest) (c :: rest) (readSeparator order) (· = .space) := by
  refine Takes.here fun q hq => ?_
  rw [no_separator hq hc]
  exact .pure rfl

/-- Behind the first value no separator stands before letters, so that a blank is put there. -/
theorem takes_wordBehind (nonempty : w ≠ []) (hw : ∀ c ∈ w, c.isAlpha = true) {v : Value}
    (read : Takes w [] primitive (· = v)) {k : Nat} (room : 0 < k) :
    Takes w [] (readMore primitive order k) (· = [(.space, v)]) := by
  obtain ⟨c, rest, rfl, -, start⟩ := head_of_letters nonempty hw
  rw [readMore]
  refine Takes.asking fun b => Takes.here fun p hp => ?_
  rw [not_endsAt hp (not_end_of_start start), if_neg Bool.false_ne_true]
  refine (takes_noSeparator order start).bind fun s hs => read.bind fun v' hv => ?_
  refine (Takes.noGap .nil).discard.bind fun _ _ => ?_
  refine (Takes.shorter room fun _ => takes_noMore _ _ _).bind fun more hm => .pure ?_
  rw [hs, hv, hm]

theorem fails_wordBehind (nonempty : w ≠ []) (hw : ∀ c ∈ w, c.isAlpha = true) (fails : Fails w primitive) (k : Nat) :
    Fails w (readMore primitive order k) := by
  obtain ⟨c, rest, rfl, -, start⟩ := head_of_letters nonempty hw
  rw [readMore]
  refine Fails.asking fun b => Fails.here fun p hp => ?_
  rw [not_endsAt hp (not_end_of_start start), if_neg Bool.false_ne_true]
  exact (takes_noSeparator order start).fails fun s _ => fails.first

end More

/-- A dimension comes to what is read of the letters that are left. -/
theorem outcome_readRun_of_dimension (order : List Separator) {r : Reader} (hn : IsDecimal n) (hu : IsLetters u)
    (hr : r.place.rest = n ++ u) :
    ∃ z s, z.unit = Size.unitAt? u ∧ s.place.rest = Size.behindUnit u ∧
      (readRun order).outcome r =
        Read.following ((readMore (readPrimitiveIn (n ++ u).length) order (Size.behindUnit u).length).outcome s)
          fun more => pure ⟨.size z, more⟩ := by
  obtain ⟨c, rest, start, digit⟩ := hn.head
  have before : Stops r.place.rest := by
    rw [hr]
    exact stops_of_decimal hn
  have ends : c ∉ ['\x7d', ';', '!', ')', '\\'] := by
    intro mem
    simp only [List.mem_cons, List.not_mem_nil, or_false] at mem
    rcases mem with rfl | rfl | rfl | rfl | rfl <;> exact absurd digit (by decide)
  have here : r.place.rest = c :: (rest ++ u) := by
    rw [hr, start]
    rfl
  have going : endsAt r.settings.lenient r.place = false := not_endsAt here ends _
  obtain ⟨v, s, first, left, z, rfl, unit⟩ :=
    takes_dimension (nestedIn (n ++ u).length) (innerIn (n ++ u).length) hn hu r hr
  have behind : Stops s.place.rest := by
    rw [left]
    exact stops_of_letters (letters_behindUnit hu)
  refine ⟨z, s, unit, left, ?_⟩
  rw [readRun, Read.outcome_bind, Read.outcome_left, Read.following_ok, readRunWith, hr]
  have primitive : (readPrimitiveIn (n ++ u).length).outcome r = (.ok (.size z), s) := by
    rw [readPrimitiveIn]
    exact first
  simp only [Read.outcome_bind, Read.outcome_discard, Read.outcome_gap_of_stops before, Read.following_ok,
    Read.outcome_pure, Read.outcome_place, Read.outcome_isLenient, going, Bool.false_eq_true, if_false, primitive,
    Read.outcome_gap_of_stops behind, Read.outcome_left, left]

/-- A value is read as a run, which is grouped then. -/
theorem outcome_read (order : List Separator) (r : Reader) :
    (read order).outcome r = Read.following ((readRun order).outcome r) (group order r.place.position) := by
  rw [read, readRun, Read.outcome_bind, Read.outcome_bind, Read.outcome_left, Read.following_ok, Read.following_ok,
    readWith_eq, Read.outcome_bind, Read.outcome_place, Read.following_ok, Read.outcome_bind]

/-- One value is a group of its own. -/
theorem group_single (order : List Separator) (start : Position) (v : Value) :
    group order start ⟨v, []⟩ = pure v := by
  have single (ds : List Separator) :
      ds.foldl (fun c d => Chain.fold d (some start) c) (Chain.mk v []) = Chain.mk v [] := by
    induction ds with
    | nil => rfl
    | cons d ds ih => exact ih
  rw [group, Chain.foldAll, single]
  rfl

variable (order : List Separator) {r : Reader}

/-- A number with a unit is one size. -/
theorem read_of_unit (hn : IsDecimal n) (hu : IsLetters u) (unit : Size.IsUnit u) (hr : r.place.rest = n ++ u) :
    ∃ z s, (read order).outcome r = (.ok (.size z), s) ∧ z.unit = Size.unitAt? u := by
  obtain ⟨z, s, known, left, run⟩ := outcome_readRun_of_dimension order hn hu hr
  rw [(Size.behindUnit_eq_nil_iff hu.nonempty).mpr unit] at left run
  obtain ⟨more, t, ended, -, rfl⟩ := takes_noMore (readPrimitiveIn (n ++ u).length) order 0 s left
  refine ⟨z, t, ?_, known⟩
  rw [outcome_read, run, List.length_nil, ended, Read.following_ok, Read.outcome_pure, Read.following_ok, group_single,
    Read.outcome_pure]

/-- A number with letters that are no unit is a fault, if a color could begin behind the unit in them. -/
theorem read_of_color (hn : IsDecimal n) (hu : IsLetters u) (color : BeginsColor (Size.behindUnit u))
    (hr : r.place.rest = n ++ u) : ∃ e s, (read order).outcome r = (.error e, s) := by
  obtain ⟨z, s, known, left, run⟩ := outcome_readRun_of_dimension order hn hu hr
  have fails : Fails (Size.behindUnit u) (readPrimitiveIn (n ++ u).length) := by
    rw [readPrimitiveIn]
    exact fails_color (letters_behindUnit hu) color
  obtain ⟨e, t, fault⟩ := fails_wordBehind order color.ne_nil (letters_behindUnit hu) fails
    (Size.behindUnit u).length s left
  refine ⟨e, t, ?_⟩
  rw [outcome_read, run, fault, Read.following_error, Read.following_error]

/-- A number with other letters is split: the size is written with a blank and the letters left behind it. -/
theorem read_of_split (hn : IsDecimal n) (hu : IsLetters u) (unit : ¬ Size.IsUnit u)
    (color : ¬ BeginsColor (Size.behindUnit u)) (hr : r.place.rest = n ++ u) :
    ∃ v z s, (read order).outcome r = (.ok v, s) ∧ z.unit = Size.unitAt? u ∧
      v.flat [] = ⟨.size z, [(.space, .keyword (String.ofList (Size.behindUnit u)))]⟩ := by
  obtain ⟨z, s, known, left, run⟩ := outcome_readRun_of_dimension order hn hu hr
  have nonempty : Size.behindUnit u ≠ [] := fun empty => unit ((Size.behindUnit_eq_nil_iff hu.nonempty).mp empty)
  have word : Takes (Size.behindUnit u) [] (readPrimitiveIn (n ++ u).length)
      (· = .keyword (String.ofList (Size.behindUnit u))) := by
    rw [readPrimitiveIn]
    exact takes_letters nonempty (letters_behindUnit hu) color
  have room : 0 < (Size.behindUnit u).length := List.length_pos_of_ne_nil nonempty
  obtain ⟨more, t, behind, -, rfl⟩ := takes_wordBehind order nonempty (letters_behindUnit hu) word room s left
  rw [behind, Read.following_ok, Read.outcome_pure] at run
  have joined : (Chain.mk (.size z) [(.space, .keyword (String.ofList (Size.behindUnit u)))]).IsFlat
      (Chain.fullOrder order) := by
    refine ⟨fun _ _ _ h => (by cases h), fun e he => ?_⟩
    rw [List.mem_singleton.mp he]
    exact ⟨space_mem_fullOrder order, fun _ _ _ h => by cases h⟩
  obtain ⟨v, folded, flat, -⟩ := joined.foldAll (some r.place.position)
  refine ⟨v, z, t, ?_, known, flat⟩
  rw [outcome_read, run, Read.following_ok, group, folded]
  rfl

/-- The value at `r` is a fault or one size, in whose text there is no blank. -/
def IsKeptWhole (r : Reader) : Prop :=
  (∃ e s, (read order).outcome r = (.error e, s)) ∨
    ∃ z s, (read order).outcome r = (.ok (.size z), s) ∧ ' ' ∉ z.toCss.toList

/-- A dimension is kept whole exactly if its letters are a unit, or if a color could begin in them behind the longest
unit that they begin with; it is split in all other cases. -/
theorem isKeptWhole_iff (hn : IsDecimal n) (hu : IsLetters u) (hr : r.place.rest = n ++ u) :
    IsKeptWhole order r ↔ Size.IsUnit u ∨ BeginsColor (Size.behindUnit u) := by
  constructor
  · intro kept
    by_contra other
    rw [not_or] at other
    obtain ⟨v, z, s, read, -, flat⟩ := read_of_split order hn hu other.1 other.2 hr
    rcases kept with ⟨e, t, fault⟩ | ⟨y, t, size, -⟩
    · rw [read] at fault
      cases fault
    · rw [read] at size
      cases size
      cases flat
  · rintro (unit | color)
    · obtain ⟨z, s, read, known⟩ := read_of_unit order hn hu unit hr
      refine .inr ⟨z, s, read, Size.unspaced_toCss ?_⟩
      intro t ht
      rw [known] at ht
      exact List.mem_of_find?_eq_some ht
    · exact .inl (read_of_color order hn hu color hr)

/-- A unit in capitals behind a fraction, grouped by an order without blanks. -/
theorem isKeptWhole_iff_capitals :
    let n := "00.50".toList
    let u := "VMIN".toList
    let r := Reader.start (String.ofList (n ++ u)) {} 1
    IsDecimal n ∧ IsLetters u ∧ r.place.rest = n ++ u ∧
      (IsKeptWhole [.comma] r ↔ Size.IsUnit u ∨ BeginsColor (Size.behindUnit u)) := by
  intro n u r
  have zeros : ∀ c ∈ ['0', '0'], c.isDigit = true := List.all_eq_true.mp rfl
  have places : ∀ c ∈ ['5', '0'], c.isDigit = true := List.all_eq_true.mp rfl
  have decimal : IsDecimal n := .fraction (List.cons_ne_nil '0' ['0']) zeros places
  have letters : IsLetters u := ⟨by decide, List.all_eq_true.mp rfl, by decide⟩
  have start : r.place.rest = n ++ u := String.toList_ofList
  exact ⟨decimal, letters, start, isKeptWhole_iff _ decimal letters start⟩

/-- A width unit that the table has not got is cut in two. -/
theorem not_isKeptWhole_svw :
    let r := Reader.start "1svw" {} 1
    ¬ IsKeptWhole [.comma, .space, .slash] r ∧
      ((read [.comma, .space, .slash]).outcome r).1.toOption.map (Value.toCss .compact) = some "1s vw" := by
  intro r
  have cut : ((read [.comma, .space, .slash]).outcome r).1.toOption.any (fun v => v.size?.isNone) = true := by
    decide +kernel
  refine ⟨?_, by decide +kernel⟩
  rintro (⟨e, s, fault⟩ | ⟨z, s, size, -⟩)
  · rw [fault] at cut
    cases cut
  · rw [size] at cut
    cases cut

end Value

end Stylesheet
