import Stylesheet.Proofs.CalculationRoundTrip
import Stylesheet.Proofs.ColorRoundTrip

namespace Stylesheet

open Read (Takes)

/-- A finite number that its digits stand for, with a unit of the table if it has one. -/
def Size.isPlain (z : Size) : Bool :=
  z.magnitude.isFinite && Number.Binary64.read? z.magnitude.toText = some z.magnitude &&
    z.unit.all (· ∈ Size.unitsLongestFirst)

/-- A name behind a dash, such as that of a custom property or one with the prefix of a vendor. -/
def isDashedName (name : String) : Bool :=
  match name.toList with
  | '-' :: c :: rest => isNameChar c && !c.isDigit && rest.all isNameChar
  | _ => false

/-- A name that is read as a word. -/
def isWordName (name : String) : Bool := isPlainWord name || isDashedName name

/-- A name that is read as a word and not taken for an address or a calculation before a parenthesis. -/
def isCallName (name : String) : Bool :=
  isWordName name && Text.lower name ≠ "url" && Text.lower name ∉ Value.calculationNames

theorem isDashedName_eq {name : String} (h : isDashedName name = true) :
    ∃ c rest, name.toList = '-' :: c :: rest ∧ c.isDigit = false ∧ c ≠ '.' ∧ name.toList.all isNameChar = true := by
  unfold isDashedName at h
  split at h
  · next c rest hn =>
    rw [Bool.and_eq_true, Bool.and_eq_true, Bool.not_eq_true'] at h
    refine ⟨c, rest, hn, h.1.2, ?_, ?_⟩
    · rintro rfl
      cases h.1.1
    · rw [hn, List.all_cons, List.all_cons, h.1.1, h.2]
      rfl
  · cases h

theorem isName_of_isWordName {name : String} (h : isWordName name = true) : IsName name := by
  rw [isWordName, Bool.or_eq_true] at h
  rcases h with plain | dashed
  · exact isName_of_isPlainName (isPlainWord_eq plain).1
  · obtain ⟨c, rest, hn, -, -, chars⟩ := isDashedName_eq dashed
    exact ⟨by rw [hn]; exact List.cons_ne_nil _ _, chars⟩

theorem head_of_isWordName {name : String} (h : isWordName name = true) :
    ∃ c rest, name.toList = c :: rest ∧ isValueStart c = true := by
  rw [isWordName, Bool.or_eq_true] at h
  rcases h with plain | dashed
  · obtain ⟨c, rest, hn, alpha, -⟩ := isPlainName_eq (isPlainWord_eq plain).1
    exact ⟨c, rest, hn, isValueStart_of_isAlpha alpha⟩
  · obtain ⟨c, rest, hn, -⟩ := isDashedName_eq dashed
    exact ⟨'-', c :: rest, hn, rfl⟩

theorem isCallName_eq {name : String} (h : isCallName name = true) :
    isWordName name = true ∧ Text.lower name ≠ "url" ∧ Text.lower name ∉ Value.calculationNames := by
  simpa only [isCallName, Bool.and_eq_true, decide_eq_true_eq, and_assoc] using h

namespace Value

/-- A channel of a color: a number, a word that begins with `none` or `var`, or a call that begins with `var`. -/
def isKnownChannel : Value → Bool
  | size z => z.unit.all (· ∈ Size.unitsLongestFirst) && z.channel
  | keyword t => isLowerName t && ((keyword t).isMissing || (keyword t).isVariable)
  | v => v.isVariable

/-- Whether the variables of a color are as its form has it: none among the channels of a color, and one at least among
the arguments of a function, which are no more than the letters of its name. -/
def hasFittingVariables : Value → Bool
  | color cs _ _ => cs.all fun c => !c.value.isVariable
  | function name args s _ => s = .comma && args.length ≤ (colorKeys name).length && args.any isVariable
  | _ => false

/-- A plain color under a name in lower case that it is known by, in a notation that admits its channels, where `hash`
colors are liked or not. -/
def isStableColor (hash : Bool) (v : Value) : Bool :=
  v.isPlainColor && isLowerName v.colorName && (beginsAnyCase v.colorName "rgb" || beginsAnyCase v.colorName "hsl") &&
    v.channelValues.all isKnownChannel && v.hasFittingVariables && decide (v.IsAdmitted { hashColors := hash })

mutual

/-- Stable for an order of separators, where `hash` colors are liked or not: the text of the value is read as one of
which the same text is written. The separators of lists are those of the order, however they are grouped. -/
def isStable (hash : Bool) : Value → List Separator → Bool
  | .keyword t, _ => isWordName t
  | .size z, _ => z.isPlain
  | .color cs classic p, _ => (Value.color cs classic p).isStableColor hash
  | .string q, _ => q.isPlain
  | .url u, _ => u.address.isPlain
  | .lineNames names _, _ => !names.isEmpty && names.all isPlainName
  | .function name args s p, _ => (Value.function name args s p).isStableColor hash ||
      (isCallName name && Separator.ofArguments.contains s && areStable hash args Separator.ofArguments)
  | .calculation name tokens _, _ => calculationNames.contains name && CalcToken.isExpression 0 false tokens &&
      areStableOperands hash tokens
  | .list vs s _, order => !vs.isEmpty && order.contains s && areStable hash vs order
termination_by structural v => v

def areStable (hash : Bool) : List Value → List Separator → Bool
  | [], _ => true
  | v :: vs, order => v.isStable hash order && areStable hash vs order
termination_by structural vs => vs

def areStableOperands (hash : Bool) : List (CalcToken Value) → Bool
  | [] => true
  | .operand v :: tokens => v.isStable hash [] && areStableOperands hash tokens
  | .operator _ :: tokens | .opening :: tokens | .closing :: tokens => areStableOperands hash tokens
termination_by structural tokens => tokens

end

variable {hash : Bool} {order order' : List Separator}

theorem areStable_iff {vs : List Value} :
    areStable hash vs order = true ↔ ∀ v ∈ vs, v.isStable hash order = true := by
  induction vs with
  | nil => simp [areStable]
  | cons v vs ih => rw [areStable, Bool.and_eq_true, ih, List.forall_mem_cons]

theorem areStableOperands_iff {tokens : List (CalcToken Value)} :
    areStableOperands hash tokens = true ↔ ∀ v, .operand v ∈ tokens → v.isStable hash [] = true := by
  induction tokens with
  | nil => simp [areStableOperands]
  | cons token tokens ih => cases token <;> simp [areStableOperands, ih]

theorem isStable_list {vs : List Value} {s : Separator} {p : Option Position} :
    (Value.list vs s p).isStable hash order = true ↔
      vs ≠ [] ∧ s ∈ order ∧ ∀ v ∈ vs, v.isStable hash order = true := by
  rw [isStable, Bool.and_eq_true, Bool.and_eq_true, Bool.not_eq_true', List.isEmpty_eq_false_iff,
    List.contains_iff_mem, areStable_iff, and_assoc]

theorem isStable_other {v : Value} (hv : v.IsWhole) (order order' : List Separator) :
    v.isStable hash order = v.isStable hash order' := by
  cases v with
  | list vs s p => exact absurd rfl (hv vs s p)
  | keyword | size | color | string | url | function | calculation | lineNames => rfl

theorem isStable_mono {v : Value} (hv : v.isStable hash order = true) (h : ∀ s ∈ order, s ∈ order') :
    v.isStable hash order' = true := by
  induction v using list_induction with
  | whole v other => exact (isStable_other other order' order).trans hv
  | list vs s p ih =>
    obtain ⟨nonempty, hs, parts⟩ := isStable_list.mp hv
    exact isStable_list.mpr ⟨nonempty, h s hs, fun u hu => ih u hu (parts u hu)⟩

/-- A stable value is written as a run of stable values that are no lists. -/
theorem flat_isStable {v : Value} (hv : v.isStable hash order = true) :
    (v.flat []).IsRun (·.isStable hash [] = true) order := by
  induction v using list_induction with
  | whole v other =>
    rw [flat_other other]
    exact ⟨(isStable_other other [] order).trans hv, fun e he => by cases he⟩
  | list vs s p ih =>
    obtain ⟨nonempty, hs, parts⟩ := isStable_list.mp hv
    exact flat_isRun nonempty hs fun u hu => ih u hu (parts u hu)

theorem isCallName_of_isPlainCall {name : String} (h : isPlainCall name = true) : isCallName name = true := by
  have word : isWordName name = true := by rw [isWordName, (isPlainCall_eq h).1, Bool.true_or]
  rw [isCallName, word, decide_eq_true (lower_of_isPlainCall h).1, decide_eq_true (lower_of_isPlainCall h).2]
  rfl

mutual

/-- A plain value is stable. -/
theorem isStable_of_isPlain : (v : Value) → {order : List Separator} → v.isPlain order = true →
    v.isStable hash order = true
  | .keyword t, _, h => by rw [isStable, isWordName, show isPlainWord t = true from h, Bool.true_or]
  | .string _, _, h => h
  | .url _, _, h => h
  | .lineNames _ _, _, h => h
  | .function name args s p, _, h => by
    rw [isPlain, Bool.and_eq_true] at h
    have arguments : s ∈ Separator.ofArguments ∧ areStable hash args Separator.ofArguments = true := by
      split at h
      · obtain ⟨-, few⟩ := h
        rw [Bool.and_eq_true, beq_iff_eq] at few
        refine ⟨few.1 ▸ by decide, areStable_iff.mpr fun v hv => ?_⟩
        exact isStable_mono (areStable_iff.mp (areStable_of_arePlain args few.2) v hv) nofun
      · obtain ⟨-, more⟩ := h
        rw [Bool.and_eq_true, List.contains_iff_mem] at more
        refine ⟨more.1, areStable_iff.mpr fun v hv => ?_⟩
        exact isStable_mono (areStable_iff.mp (areStable_of_arePlain args more.2) v hv)
          fun t ht => (List.takeWhile_sublist _).mem ht
    rw [isStable, isCallName_of_isPlainCall h.1, List.contains_iff_mem.mpr arguments.1, arguments.2, Bool.and_true,
      Bool.and_true, Bool.or_true]
  | .list vs s p, order, h => by
    rw [isPlain, Bool.and_eq_true, Bool.and_eq_true, decide_eq_true_eq, List.contains_iff_mem] at h
    obtain ⟨⟨two, hs⟩, parts⟩ := h
    have stable := areStable_iff.mp (areStable_of_arePlain vs parts)
    exact isStable_list.mpr ⟨List.ne_nil_of_length_pos (by omega), hs, fun v hv =>
      isStable_mono (stable v hv) fun t ht => (List.takeWhile_sublist _).mem ht⟩
  | .size _, _, h | .color _ _ _, _, h | .calculation _ _ _, _, h => by cases h

theorem areStable_of_arePlain : (vs : List Value) → {order : List Separator} → arePlain vs order = true →
    areStable hash vs order = true
  | [], _, _ => rfl
  | v :: vs, _, h => by
    rw [arePlain, Bool.and_eq_true] at h
    rw [areStable, isStable_of_isPlain v h.1, areStable_of_arePlain vs h.2]
    rfl

end

section Color

variable {f : Layout} {v : Value}

theorem isChannel_of_known {v : Value} (h : v.isKnownChannel = true) : IsChannel v := by
  cases v with
  | size z =>
    rw [isKnownChannel, Bool.and_eq_true, Option.all_eq_true] at h
    exact .number (fun u hu => of_decide_eq_true (h.1 u hu)) h.2
  | keyword t =>
    rw [isKnownChannel, isLowerName, Bool.and_eq_true, Bool.and_eq_true, Bool.and_eq_true, beq_iff_eq,
      Bool.or_eq_true] at h
    obtain ⟨⟨⟨-, chars⟩, lower⟩, known⟩ := h
    exact .word known (.of_name chars) (by rw [lower_name chars, lower, String.ofList_toList])
  | function name args s p => exact .call h
  | color | string | url | calculation | list | lineNames => cases h

theorem isAdmitted_of_hashColors {f g : Layout} (same : f.hashColors = g.hashColors) (h : v.IsAdmitted f) :
    v.IsAdmitted g := by
  cases v with
  | color cs classic p =>
    have written : Notation.ofChannels g cs = Notation.ofChannels f cs := by
      rw [Notation.ofChannels, Notation.ofChannels, same]
    rw [IsAdmitted, written]
    exact h
  | keyword | size | string | url | function | calculation | list | lineNames => exact h

/-- What is written of a stable color is read as a color of which the same is written. -/
theorem isReadAsColor_of_stable (hf : f.IsBlankInValues) (h : v.isStableColor f.hashColors = true) :
    IsReadAsColor (v.toCss f) fun w => w.toCss f = v.toCss f := by
  simp only [isStableColor, Bool.and_eq_true, decide_eq_true_eq] at h
  obtain ⟨⟨⟨⟨⟨plain, lower⟩, -⟩, known⟩, fits⟩, admitted⟩ := h
  rw [isLowerName, Bool.and_eq_true, Bool.and_eq_true, beq_iff_eq] at lower
  obtain ⟨⟨-, chars⟩, lower⟩ := lower
  have spelling := IsSpelling.of_name chars
  have lowered : Text.lower v.colorName = v.colorName := by rw [lower_name chars, lower, String.ofList_toList]
  have legible := isLegible_of_plain f plain
  have channels : ∀ w ∈ v.channelValues, IsChannel w := fun w hw => isChannel_of_known (List.all_eq_true.mp known w hw)
  have admits : v.IsAdmitted f := isAdmitted_of_hashColors rfl admitted
  have decided : v.IsDecided f := by
    cases v with
    | color cs classic p =>
      have words : ∀ c ∈ cs, c.value.isVariable = false := by simpa [hasFittingVariables] using fits
      exact isDecided_color hf spelling lowered
        (isChannels_of_name (fun c hc => channels c.value (List.mem_map_of_mem hc)) words) legible
    | function name args s p =>
      simp only [hasFittingVariables, Bool.and_eq_true, decide_eq_true_eq] at fits
      obtain ⟨⟨rfl, fewer⟩, varied⟩ := fits
      exact isDecided_function hf spelling lowered ⟨channels, fewer, .inr (.inl rfl), by rw [varied]; rfl⟩ legible
    | keyword | size | string | url | calculation | list | lineNames => cases fits
  exact decided.elim (fun taken => taken.2) fun other => absurd admits other.1

end Color

end Value

end Stylesheet
