import Stylesheet.Proofs.Dimensions

namespace Stylesheet

open Read (Takes)

theorem isAlpha_of_toLower {c : Char} (h : c.toLower.isAlpha = true) : c.isAlpha = true := by
  have code := Text.toNat_toLower c
  split at code
  · next capital => exact isAlpha_iff.mpr (.inl capital)
  · rwa [Char.toNat_inj.mp code] at h

namespace Number

/-- A decimal, or one whose zero before the point is left out. -/
inductive IsNumeral : List Char → Prop
  | decimal {d : List Char} : IsDecimal d → IsNumeral d
  | point {c : Char} {more : List Char} : (∀ e ∈ c :: more, e.isDigit = true) → IsNumeral ('.' :: c :: more)

/-- The digits without the zero before their point. -/
def withoutZero : List Char → List Char
  | '0' :: '.' :: more => '.' :: more
  | d => d

namespace IsNumeral

variable {d : List Char}

theorem digit_or_point (h : IsNumeral d) : ∀ c ∈ d, c.isDigit = true ∨ c = '.' := by
  cases h with
  | decimal decimal => exact decimal.digit_or_point
  | point digits =>
    intro c hc
    rcases List.mem_cons.mp hc with point | digit
    · exact .inr point
    · exact .inl (digits c digit)

theorem head (h : IsNumeral d) : ∃ c rest, d = c :: rest ∧ (c.isDigit = true ∨ c = '.') := by
  cases h with
  | decimal decimal =>
    obtain ⟨c, rest, hd, digit⟩ := decimal.head
    exact ⟨c, rest, hd, .inl digit⟩
  | point => exact ⟨'.', _, rfl, .inr rfl⟩

end IsNumeral

/-- A zero before the point does not count. -/
theorem Numeral.read?_zero_point {c : Char} {more : List Char} (digit : c.isDigit = true) :
    Numeral.read? ('0' :: '.' :: c :: more) = Numeral.read? ('.' :: c :: more) := by
  have whole : ('0' :: '.' :: c :: more).takeWhile Char.isDigit = ['0'] := rfl
  have rest : ('0' :: '.' :: c :: more).dropWhile Char.isDigit = '.' :: c :: more := rfl
  have whole' : ('.' :: c :: more).takeWhile Char.isDigit = [] := rfl
  have rest' : ('.' :: c :: more).dropWhile Char.isDigit = '.' :: c :: more := rfl
  have nonempty : (c :: more).takeWhile Char.isDigit ≠ [] := by
    rw [List.takeWhile_cons_of_pos digit]
    exact List.cons_ne_nil _ _
  have same (ds : List Char) : ofDigits ('0' :: ds) = ofDigits ds := rfl
  unfold Numeral.read?
  rw [whole, rest, whole', rest']
  simp [nonempty, same]

namespace Binary64

/-- Neither infinite nor `nan`. -/
def isFinite : Binary64 → Bool
  | finite .. => true
  | _ => false

/-- The minus of a negative number. -/
def sign (negative : Bool) : List Char := if negative then ['-'] else []

theorem read?_of_numeral {d : List Char} {n : Numeral} (hd : IsNumeral d) (h : Numeral.read? d = some n)
    (negative : Bool) : read? (String.ofList (sign negative ++ d)) = some (n.toBinary64 negative) := by
  obtain ⟨c, rest, rfl, first⟩ := hd.head
  have other : c ≠ '-' ∧ c ≠ '+' := by
    rcases first with digit | rfl
    · exact ⟨ne_of_isDigit digit (by decide), ne_of_isDigit digit (by decide)⟩
    · decide
  cases negative with
  | false =>
    unfold read?
    simp [sign, other, h]
  | true =>
    unfold read?
    simp [sign, h]

/-- The digits of a number with or without the zero before their point. -/
theorem magnitudeChars_cases (units : Nat) :
    withoutZero (magnitudeChars units) = magnitudeChars units ∨
      ∃ c more, magnitudeChars units = '0' :: '.' :: c :: more ∧ ∀ e ∈ c :: more, e.isDigit = true := by
  unfold magnitudeChars
  split
  · exact .inl rfl
  · rcases (shortest units).toChars_cases with ⟨-, digits⟩ | ⟨ds, more, parts, ⟨-, whole⟩, nonempty, digits⟩
    · left
      generalize (shortest units).toChars = d at digits
      unfold withoutZero
      split
      · exact absurd (digits '.' (by simp)) (by decide)
      · rfl
    · obtain ⟨c, more, rfl⟩ := List.exists_cons_of_ne_nil nonempty
      rw [parts]
      by_cases zero : ds = ['0']
      · subst zero
        exact .inr ⟨c, more, rfl, digits⟩
      · left
        unfold withoutZero
        split
        · next rest begins =>
          match ds, zero, whole, begins with
          | [_], zero, _, begins =>
            cases begins
            exact absurd rfl zero
          | _ :: _ :: _, _, whole, begins =>
            cases begins
            exact absurd (whole '.' (by simp)) (by decide)
        · rfl

theorem toText_eq (negative : Bool) (units : Nat) :
    (finite negative units).toText = String.ofList (sign negative ++ magnitudeChars units) := rfl

theorem toCss_eq (negative : Bool) (units : Nat) :
    (finite negative units).toCss = String.ofList (sign negative ++ withoutZero (magnitudeChars units)) := by
  obtain ⟨c, rest, hd, digit⟩ := (isDecimal_magnitudeChars units).head
  have minus : c ≠ '-' := ne_of_isDigit digit (by decide)
  have whole (other : ∀ more, c :: rest ≠ '0' :: '.' :: more) : withoutZero (c :: rest) = c :: rest := by
    unfold withoutZero
    split
    · next more begins => exact absurd begins (other more)
    · rfl
  rw [toCss, toText_eq, String.toList_ofList, hd]
  cases negative with
  | false =>
    split
    · next more begins =>
      cases begins
      rfl
    · next more begins =>
      cases begins
      exact absurd rfl minus
    · next other _ => rw [whole fun more begins => other more (by rw [begins]; rfl)]
  | true =>
    split
    · next more begins => cases begins
    · next more begins =>
      cases begins
      rfl
    · next _ other => rw [whole fun more begins => other more (by rw [begins]; rfl)]

variable {x : Binary64}

/-- A finite number is written as a numeral with a minus before it at most, and what is written stands for the same
number as the text that the zero was left out of. -/
theorem toCss_cases (finite : x.isFinite = true) :
    ∃ negative d, x.toCss = String.ofList (sign negative ++ d) ∧ IsNumeral d ∧ read? x.toCss = read? x.toText := by
  cases x with
  | finite negative units =>
    have decimal := isDecimal_magnitudeChars units
    obtain ⟨n, read⟩ := decimal.numeral
    rw [toCss_eq, toText_eq, read?_of_numeral (.decimal decimal) read]
    rcases magnitudeChars_cases units with same | ⟨c, more, zero, digits⟩
    · rw [same]
      exact ⟨negative, _, rfl, .decimal decimal, read?_of_numeral (.decimal decimal) read negative⟩
    · rw [zero] at read ⊢
      rw [Numeral.read?_zero_point (digits c List.mem_cons_self)] at read
      exact ⟨negative, _, rfl, .point digits, read?_of_numeral (.point digits) read negative⟩
  | infinite => cases finite
  | nan => cases finite

theorem roundEven_of_dvd {a d : Nat} (positive : 0 < d) (h : d ∣ a) : roundEven a d * d = a := by
  have exact' : a % d = 0 := Nat.mod_eq_zero_of_dvd h
  unfold roundEven
  rw [exact', if_pos (by omega)]
  exact Nat.div_mul_cancel h

theorem one_pos : 0 < one := by decide +kernel

/-- Small natural numbers have no more digits than are kept. -/
theorem spacing_dvd {n u e : Nat} (hn : n < 256) (hu : u = Nat.pow 2 e) : spacing (n * u) ∣ n * u := by
  subst hu
  have positive : 0 < Nat.pow 2 e := Nat.pow_pos Nat.zero_lt_two
  have bound : n * Nat.pow 2 e < Nat.pow 2 (8 + e) :=
    calc n * Nat.pow 2 e < 256 * Nat.pow 2 e := Nat.mul_lt_mul_of_pos_right hn positive
      _ = Nat.pow 2 (8 + e) := (Nat.pow_add 2 8 e).symm
  have digits : (n * Nat.pow 2 e).log2 + 1 - 53 ≤ e := by
    by_cases zero : n * Nat.pow 2 e = 0
    · rw [zero, Nat.log2_zero]
      omega
    · have below := (Nat.log2_lt zero).mpr bound
      omega
  exact Nat.dvd_trans (Nat.pow_dvd_pow 2 digits) (Nat.dvd_mul_left _ n)

theorem ofNat_exact {n : Nat} (hn : n < 256) : ofNat n = .finite false (n * one) := by
  have step : spacing (n * one) ∣ n * one := spacing_dvd (e := 1074) hn (by decide +kernel)
  have small : n * one < limit :=
    Nat.lt_of_lt_of_le (Nat.mul_lt_mul_of_pos_right hn one_pos) (by decide +kernel)
  have positive : 0 < spacing (n * one) := Nat.pow_pos Nat.zero_lt_two
  rw [ofNat, ofRatio]
  simp only [Nat.div_one, Nat.one_mul, roundEven_of_dvd positive step, if_pos small]

theorem toChannel_ofNat {n : Nat} (hn : n < 256) : (ofNat n).toChannel = n := by
  have rounded : (n * one + one / 2) / one = n := by
    have half : one / 2 < one := Nat.div_lt_self one_pos Nat.one_lt_two
    generalize one / 2 = m at half
    rw [Nat.mul_comm, Nat.mul_add_div one_pos, Nat.div_eq_of_lt half, Nat.add_zero]
  rw [ofNat_exact hn, toChannel, rounded]
  omega

theorem toChannel_lt (x : Binary64) : x.toChannel < 256 := by
  cases x with
  | finite negative units =>
    cases negative with
    | true => exact Nat.zero_lt_succ _
    | false => exact Nat.lt_succ_of_le (Nat.min_le_left _ _)
  | infinite negative =>
    cases negative with
    | true => decide
    | false => decide
  | nan => decide

end Binary64

end Number

/-- What may stand behind a number with its unit: nothing that goes on with either. -/
def EndsSize (l : List Char) : Prop :=
  ∀ c rest, l = c :: rest → c.isDigit = false ∧ c ≠ '.' ∧ c.isAlpha = false ∧ c ≠ '%'

/-- What belongs to no name is neither a digit nor a letter below U+0080. -/
theorem not_isAlphanum {c : Char} (h : isIdentifierChar c = false) : c.isDigit = false ∧ c.isAlpha = false := by
  have name : isNameChar c = false := by
    rw [Bool.eq_false_iff]
    intro name
    rw [isIdentifierChar_of_isNameChar name] at h
    cases h
  rw [isNameChar, Char.isAlphanum, Bool.or_eq_false_iff, Bool.or_eq_false_iff, Bool.or_eq_false_iff] at name
  exact ⟨name.1.1.2, name.1.1.1⟩

namespace Size

variable {l : List Char}

theorem numberChars_of_endsSize (hl : EndsSize l) : numberChars l = [] := by
  cases l with
  | nil => rfl
  | cons c l =>
    obtain ⟨digit, point, alpha, -⟩ := hl c l rfl
    have small : c ≠ 'e' := by
      rintro rfl
      exact absurd alpha (by decide)
    have capital : c ≠ 'E' := by
      rintro rfl
      exact absurd alpha (by decide)
    cases l with
    | nil => simp [numberChars, digit, point]
    | cons d l => simp [numberChars, digit, point, small, capital]

/-- Whether a unit begins with no digit, no point and no exponent. -/
def partsFromNumber : List Char → Bool
  | [] => false
  | [c] => !c.isDigit && c != '.' && c != 'e' && c != 'E'
  | c :: d :: _ => !c.isDigit && c != '.' && !((c = 'e' || c = 'E') && (d.isDigit || d = '+' || d = '-'))

theorem units_part : ∀ u ∈ unitsLongestFirst, partsFromNumber u.toList = true := by decide +kernel

theorem numberChars_of_unit {u : String} (hu : u ∈ unitsLongestFirst) (l : List Char) :
    numberChars (u.toList ++ l) = [] := by
  have parts := units_part u hu
  match h : u.toList, parts with
  | [c], parts =>
    simp [partsFromNumber] at parts
    cases l with
    | nil => simp [numberChars, parts]
    | cons d l => simp [numberChars, parts]
  | c :: d :: more, parts =>
    simp only [partsFromNumber, Bool.and_eq_true, Bool.not_eq_true', bne_iff_ne] at parts
    obtain ⟨⟨digit, point⟩, exponent⟩ := parts
    rw [List.cons_append, List.cons_append, numberChars, digit, exponent]
    simp [point]

theorem units_spelled : ∀ u ∈ unitsLongestFirst,
    (u.toList.map Char.toLower).all (fun e => e.isAlpha || e == '%') = true := by
  decide +kernel

theorem units_apart : ∀ u ∈ unitsLongestFirst, ∀ t ∈ unitsLongestFirst,
    u.toList.map Char.toLower = t.toList.map Char.toLower → u = t := by
  decide +kernel

theorem eq_percent_of_toLower {c : Char} (h : c.toLower = '%') : c = '%' := by
  have code := Text.toNat_toLower c
  split at code
  · next capital =>
    rw [h] at code
    have percent : '%'.toNat = 37 := rfl
    omega
  · rwa [Char.toNat_inj.mp code] at h

/-- No unit begins where a size ends, and none goes on there. -/
theorem length_of_unitAt? {w : List Char} (hl : EndsSize l) {t : String} (found : unitAt? (w ++ l) = some t) :
    t.length ≤ w.length := by
  have known := List.mem_of_find?_eq_some found
  have letters := List.find?_some found
  rw [decide_eq_true_eq] at letters
  refine Nat.le_of_not_lt fun longer => ?_
  cases l with
  | nil =>
    rw [List.append_nil, List.take_of_length_le (Nat.le_of_lt longer)] at letters
    have length := congrArg List.length letters
    rw [List.length_map, List.length_map, String.length_toList] at length
    omega
  | cons c l =>
    obtain ⟨k, hk⟩ : ∃ k, t.length - w.length = k + 1 := ⟨t.length - w.length - 1, by omega⟩
    have behind : c.toLower ∈ t.toList.map Char.toLower := by
      rw [← letters, List.take_append, hk, List.take_succ_cons, List.map_append, List.map_cons]
      exact List.mem_append_right _ List.mem_cons_self
    have ends := hl c l rfl
    have spelled := List.all_eq_true.mp (units_spelled t known) _ behind
    rw [Bool.or_eq_true, beq_iff_eq] at spelled
    rcases spelled with alpha | percent
    · have letter := isAlpha_of_toLower alpha
      rw [ends.2.2.1] at letter
      cases letter
    · exact ends.2.2.2 (eq_percent_of_toLower percent)

/-- Behind a unit of the table the same unit is found. -/
theorem unitAt?_of_unit {u : String} (hu : u ∈ unitsLongestFirst) (hl : EndsSize l) :
    unitAt? (u.toList ++ l) = some u := by
  have own : (u.toList ++ l).take u.length = u.toList := by rw [← String.length_toList, List.take_left]
  obtain ⟨t, found, longer⟩ := length_le_unitAt hu (by rw [own])
  have shorter := length_of_unitAt? hl found
  rw [String.length_toList] at shorter
  have same : t.length = u.length := Nat.le_antisymm shorter longer
  have letters := List.find?_some found
  rw [decide_eq_true_eq, same, own] at letters
  rw [found, units_apart u hu t (List.mem_of_find?_eq_some found) letters]

theorem units_some : ∀ u ∈ unitsLongestFirst, 0 < u.length := by decide +kernel

theorem unitAt?_of_endsSize (hl : EndsSize l) : unitAt? l = none := by
  cases found : unitAt? l with
  | none => rfl
  | some t =>
    have short := length_of_unitAt? (w := []) hl found
    have long := units_some t (List.mem_of_find?_eq_some found)
    exact absurd long (Nat.not_lt.mpr short)

/-- A size whose unit the table knows, if it has one. -/
def HasKnownUnit (z : Size) : Prop := ∀ u ∈ z.unit, u ∈ unitsLongestFirst

theorem numberAt_of_numeral {negative : Bool} {d : List Char} (hd : Number.IsNumeral d) (hl : numberChars l = []) :
    numberAt (Number.Binary64.sign negative ++ d ++ l) = Number.Binary64.sign negative ++ d := by
  have digits := numberChars_before hd.digit_or_point hl
  cases negative with
  | false =>
    obtain ⟨c, rest, rfl, first⟩ := hd.head
    have minus : c ≠ '-' := by
      rcases first with digit | rfl
      · exact ne_of_isDigit digit (by decide)
      · decide
    change numberAt (c :: (rest ++ l)) = c :: rest
    unfold numberAt
    split
    · next more begins =>
      cases begins
      exact absurd rfl minus
    · exact digits
  | true =>
    change '-' :: numberChars (d ++ l) = '-' :: d
    rw [digits]

/-- A finite size begins with a digit, a point or a minus. -/
theorem head_toCss {z : Size} (finite : z.magnitude.isFinite = true) :
    ∃ c rest, z.toCss.toList = c :: rest ∧ (c.isDigit = true ∨ c = '.' ∨ c = '-') := by
  obtain ⟨negative, d, text, numeral, -⟩ := Number.Binary64.toCss_cases finite
  obtain ⟨c, rest, rfl, first⟩ := numeral.head
  rw [toCss, String.toList_append, text, String.toList_ofList]
  cases negative with
  | false =>
    refine ⟨c, _, rfl, ?_⟩
    rcases first with digit | point
    · exact .inl digit
    · exact .inr (.inl point)
  | true => exact ⟨'-', _, rfl, .inr (.inr rfl)⟩

/-- A finite size is read back with its unit, if its digits stand for its number. -/
theorem takes_again {z : Size} (finite : z.magnitude.isFinite = true)
    (number : Number.Binary64.read? z.magnitude.toText = some z.magnitude) (unit : z.HasKnownUnit) (hl : EndsSize l)
    (channel : Bool) :
    Takes (z.toCss.toList ++ l) l (read channel)
      fun a => a.magnitude = z.magnitude ∧ a.unit = z.unit ∧ a.channel = channel := by
  obtain ⟨negative, d, text, numeral, read'⟩ := Number.Binary64.toCss_cases finite
  have behind : numberChars ((z.unit.getD "").toList ++ l) = [] ∧
      unitAt? ((z.unit.getD "").toList ++ l) = z.unit := by
    cases hu : z.unit with
    | none => exact ⟨numberChars_of_endsSize hl, unitAt?_of_endsSize hl⟩
    | some u => exact ⟨numberChars_of_unit (unit u hu) l, unitAt?_of_unit (unit u hu) hl⟩
  have start : z.toCss.toList ++ l = z.magnitude.toCss.toList ++ ((z.unit.getD "").toList ++ l) := by
    rw [toCss, String.toList_append, List.append_assoc]
  have digits : numberAt (z.toCss.toList ++ l) = z.magnitude.toCss.toList := by
    rw [start, text, String.toList_ofList]
    exact numberAt_of_numeral numeral behind.1
  refine Takes.here fun p hp => ?_
  rw [hp, digits, String.ofList_toList]
  have taken : Takes (z.toCss.toList ++ l) ((z.unit.getD "").toList ++ l) (Read.skip z.magnitude.toCss.length)
      fun _ => True := by
    rw [start, ← String.length_toList]
    have passed := Takes.skip (l := z.magnitude.toCss.toList ++ ((z.unit.getD "").toList ++ l))
      z.magnitude.toCss.toList.length
    rwa [List.drop_left] at passed
  refine taken.bind fun _ _ => ?_
  rw [read', number]
  refine Takes.here fun q hq => ?_
  rw [hq, behind.2]
  have unit' := Takes.skip (l := (z.unit.getD "").toList ++ l) (z.unit.getD "").length
  rw [← String.length_toList, List.drop_left] at unit'
  exact unit'.bind fun _ _ => .pure ⟨rfl, rfl, rfl⟩

end Size

end Stylesheet
