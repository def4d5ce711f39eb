import Stylesheet.Proofs.LowerCase
import Stylesheet.Proofs.Tokens

namespace Stylesheet

/-- A text as identifiers keep it: what cannot stand in one by itself has a backslash before it. -/
inductive IsSpelling : List Char → Prop
  | nil : IsSpelling []
  | plain {c : Char} {t : List Char} : isIdentifierChar c = true → IsSpelling t → IsSpelling (c :: t)
  | escaped {c : Char} {t : List Char} : isIdentifierChar c = false → IsSpelling t → IsSpelling ('\\' :: c :: t)

@[simp] theorem isIdentifierChar_backslash : isIdentifierChar '\\' = false := by decide

theorem isIdentifierChar_iff {c : Char} :
    isIdentifierChar c = true ↔ c.isAlpha = true ∨ c.isDigit = true ∨ c = '-' ∨ c = '_' ∨ 0xA1 < c.toNat := by
  simp only [isIdentifierChar, Char.isAlphanum, Bool.or_eq_true, beq_iff_eq, decide_eq_true_eq, or_assoc]

/-- Lower case keeps a character that may stand in an identifier one that may. -/
theorem isIdentifierChar_of_mem_lowerChar {c d : Char} (hc : isIdentifierChar c = true) (h : d ∈ Text.lowerChar c) :
    isIdentifierChar d = true := by
  rcases Text.toNat_of_mem_lowerChar h with rfl | small | above
  · exact hc
  · exact isIdentifierChar_iff.mpr (.inl (isAlpha_iff.mpr (.inr small)))
  · exact isIdentifierChar_iff.mpr (.inr (.inr (.inr (.inr above))))

/-- What cannot stand in an identifier has no case. -/
theorem lowerFrom_cons_of_not_identifierChar {c : Char} (hc : isIdentifierChar c = false) (before t : List Char) :
    Text.lowerFrom before (c :: t) = c :: Text.lowerFrom (c :: before) t := by
  have other : ¬ (c.isAlpha = true ∨ c.isDigit = true ∨ c = '-' ∨ c = '_' ∨ 0xA1 < c.toNat) := by
    rw [← isIdentifierChar_iff, hc]
    exact Bool.false_ne_true
  have low : c.toNat ≤ 0xA1 := by omega
  have capital : ¬ (0x41 ≤ c.toNat ∧ c.toNat ≤ 0x5A) := fun h => other (.inl (isAlpha_iff.mpr (.inl h)))
  have sigma : c ≠ '\u03A3' := by
    rintro rfl
    exact absurd low (by decide)
  rw [Text.lowerFrom, if_neg sigma, Text.lowerChar_eq_self low capital]
  rfl

namespace IsSpelling

variable {t : List Char}

theorem plains {cs : List Char} (hc : ∀ c ∈ cs, isIdentifierChar c = true) (h : IsSpelling t) :
    IsSpelling (cs ++ t) := by
  induction cs with
  | nil => exact h
  | cons c cs ih =>
    have rest := ih fun d hd => hc d (List.mem_cons_of_mem c hd)
    exact .plain (hc c List.mem_cons_self) rest

theorem of_chars (hc : ∀ c ∈ t, isIdentifierChar c = true) : IsSpelling t := by
  have spelling := plains hc .nil
  rwa [List.append_nil] at spelling

theorem of_name (ht : t.all isNameChar = true) : IsSpelling t :=
  of_chars fun c hc => isIdentifierChar_of_isNameChar (List.all_eq_true.mp ht c hc)

theorem spell (piece : Piece) (h : IsSpelling t) : IsSpelling (piece.spell ++ t) := by
  cases piece with
  | joint => exact h
  | char c =>
    by_cases hc : isIdentifierChar c = true
    · rw [Piece.spell, if_pos hc]
      exact .plain hc h
    · rw [Piece.spell, if_neg hc]
      exact .escaped (Bool.eq_false_iff.mpr hc) h

/-- A spelling in lower case is a spelling. -/
theorem lowerFrom (h : IsSpelling t) (before : List Char) : IsSpelling (Text.lowerFrom before t) := by
  induction h generalizing before with
  | nil => exact .nil
  | @plain c t hc _ ih =>
    rw [Text.lowerFrom]
    refine plains ?_ (ih _)
    intro d hd
    split at hd
    · split at hd
      · rw [List.mem_singleton.mp hd]
        decide
      · rw [List.mem_singleton.mp hd]
        decide
    · exact isIdentifierChar_of_mem_lowerChar hc hd
  | @escaped c t hc _ ih =>
    rw [lowerFrom_cons_of_not_identifierChar (by decide), lowerFrom_cons_of_not_identifierChar hc]
    exact .escaped hc (ih _)

end IsSpelling

namespace Place

variable {s : Settings} {p : Place} {t : List Char}

/-- What is read as an identifier is a spelling. -/
theorem isSpelling_spelling (h : (p.spelling s).1 = .ok t) : IsSpelling t := by
  fun_induction spelling s p generalizing t with
  | case1 p goes piece q hq more r hr ih =>
    rw [hr] at ih
    cases more with
    | error e => cases h
    | ok u =>
      cases h
      exact (ih rfl).spell piece
  | case2 p goes e q hq => cases h
  | case3 p goes =>
    cases h
    exact .nil

theorem isSpelling_identifier (h : (p.identifier s).1 = .ok t) : IsSpelling t := by
  unfold identifier at h
  split at h
  · cases h
  · split at h
    · exact isSpelling_spelling h
    · cases h

theorem spelling_of_piece {piece : Piece} {q : Place} (goes : p.goesOn s = true) (one : p.piece s = (.ok piece, q)) :
    p.spelling s = ((q.spelling s).1.map (piece.spell ++ ·), (q.spelling s).2) := by
  rw [spelling_eq, if_pos goes, one]

theorem ne_backslash {c : Char} (hc : isIdentifierChar c = true) : c ≠ '\\' := by
  rintro rfl
  simp at hc

theorem goesOn_of_plain {c : Char} (hc : isIdentifierChar c = true) (hp : p.rest = c :: t) : p.goesOn s = true := by
  simp [goesOn, hp, ne_backslash hc, hc]

/-- A character that may stand in an identifier is taken as it is. -/
theorem spelling_of_plain {c : Char} (hc : isIdentifierChar c = true) (hp : p.rest = c :: t) :
    ∃ q : Place, q.rest = t ∧ p.spelling s = ((q.spelling s).1.map (c :: ·), (q.spelling s).2) := by
  obtain ⟨one, behind⟩ := piece_of_raw (s := s) (ne_backslash hc) hp
  have step := spelling_of_piece (goesOn_of_plain hc hp) (Prod.ext one rfl)
  simp only [Piece.spell, hc, if_true] at step
  exact ⟨_, behind, step⟩

/-- No hack for old browsers begins at an escaped character that cannot stand in an identifier. -/
theorem goesOn_of_escaped {c : Char} (hc : isIdentifierChar c = false) (hp : p.rest = '\\' :: c :: t) :
    p.goesOn s = true := by
  have hack (d : Char) (hd : isIdentifierChar d = true) (text : String) (ht : text.toList = ['\\', d]) :
      p.comes text = false := by
    rw [Bool.eq_false_iff]
    intro comes
    obtain ⟨-, tail, htail⟩ := comes_iff.mp comes
    rw [ht, hp] at htail
    cases htail
    simp [hc] at hd
  have zero := hack '0' (by decide) "\\0" rfl
  have nine := hack '9' (by decide) "\\9" rfl
  simp [goesOn, hp, zero, nine]

/-- Any other character that is escaped is taken with its backslash. -/
theorem spelling_of_escaped {c : Char} (hc : isIdentifierChar c = false) (whole : c ≠ '\n' ∧ c ≠ '\r')
    (hp : p.rest = '\\' :: c :: t) :
    ∃ q : Place, q.rest = t ∧ p.spelling s = ((q.spelling s).1.map ('\\' :: c :: ·), (q.spelling s).2) := by
  have other : isHexDigit c = false := by
    rw [Bool.eq_false_iff]
    intro digit
    have codes := toNat_of_isHexDigit digit
    have known : isIdentifierChar c = true := by
      rw [isIdentifierChar_iff, isAlpha_iff, isDigit_iff]
      omega
    simp [hc] at known
  obtain ⟨one, behind⟩ := piece_of_escaped (s := s) whole.1 whole.2 other hp
  have step := spelling_of_piece (goesOn_of_escaped hc hp) (Prod.ext one rfl)
  simp only [Piece.spell, hc, Bool.false_eq_true, if_false] at step
  exact ⟨_, behind, step⟩

/-- An escaped line break is not got past: its backslash is taken and stands for nothing. -/
theorem spelling_of_break {c : Char} (broken : c = '\n' ∨ c = '\r') (hp : p.rest = '\\' :: c :: t) :
    (p.spelling s).2.rest = c :: t := by
  have wild : isIdentifierChar c = false := by
    rcases broken with rfl | rfl
    · decide
    · decide
  have other : c ≠ '\\' := by
    rcases broken with rfl | rfl
    · decide
    · decide
  have behind : (p.next s.width).rest = c :: t := by rw [next_rest, hp, List.tail_cons]
  have one : p.piece s = (.ok .joint, p.next s.width) := by
    rcases broken with rfl | rfl
    · simp [piece, escape, hp]
    · simp [piece, escape, hp]
  have stop : (p.next s.width).goesOn s = false := goesOn_of_endsName (.cons wild other) behind
  rw [spelling_of_piece (goesOn_of_escaped wild hp) one, spelling_eq, stop]
  exact behind

/-- A spelling without line breaks is read as itself before anything that ends a name. -/
theorem spelling_before {l : List Char} (h : IsSpelling t) (unbroken : ∀ c ∈ t, c ≠ '\n' ∧ c ≠ '\r') (hl : EndsName l)
    (hp : p.rest = t ++ l) : (p.spelling s).1 = .ok t ∧ (p.spelling s).2.rest = l := by
  induction h generalizing p with
  | nil =>
    rw [spelling_eq, goesOn_of_endsName hl hp]
    exact ⟨rfl, hp⟩
  | @plain c t hc _ ih =>
    obtain ⟨q, hq, step⟩ := spelling_of_plain (s := s) hc hp
    obtain ⟨text, behind⟩ := ih (fun d hd => unbroken d (by simp [hd])) hq
    rw [step, text]
    exact ⟨rfl, behind⟩
  | @escaped c t hc _ ih =>
    obtain ⟨q, hq, step⟩ := spelling_of_escaped (s := s) hc (unbroken c (by simp)) hp
    obtain ⟨text, behind⟩ := ih (fun d hd => unbroken d (by simp [hd])) hq
    rw [step, text]
    exact ⟨rfl, behind⟩

theorem spelling_again (h : IsSpelling t) (unbroken : ∀ c ∈ t, c ≠ '\n' ∧ c ≠ '\r') (hp : p.rest = t) :
    (p.spelling s).1 = .ok t ∧ (p.spelling s).2.rest = [] :=
  spelling_before h unbroken (l := []) (by nofun) (by rw [hp, List.append_nil])

/-- A spelling with a line break is read up to the first one at most. -/
theorem spelling_broken (h : IsSpelling t) {c : Char} (hc : c ∈ t) (broken : c = '\n' ∨ c = '\r') (hp : p.rest = t) :
    (p.spelling s).2.rest ≠ [] := by
  induction h generalizing p with
  | nil => cases hc
  | @plain d t hd _ ih =>
    obtain ⟨q, hq, step⟩ := spelling_of_plain (s := s) hd hp
    have later : c ∈ t := by
      rcases List.mem_cons.mp hc with rfl | later
      · rcases broken with rfl | rfl
        · exact absurd hd (by decide)
        · exact absurd hd (by decide)
      · exact later
    rw [step]
    exact ih later hq
  | @escaped d t hd _ ih =>
    by_cases here : d = '\n' ∨ d = '\r'
    · rw [spelling_of_break here hp]
      exact List.cons_ne_nil d t
    · obtain ⟨q, hq, step⟩ := spelling_of_escaped (s := s) hd (not_or.mp here) hp
      have later : c ∈ t := by
        rcases List.mem_cons.mp hc with rfl | hc
        · simp at broken
        · rcases List.mem_cons.mp hc with rfl | later
          · exact absurd broken here
          · exact later
      rw [step]
      exact ih later hq

theorem goesOn_of_isSpelling {l : List Char} (h : IsSpelling t) (nonempty : t ≠ []) (hp : p.rest = t ++ l) :
    p.goesOn s = true := by
  cases h with
  | nil => exact absurd rfl nonempty
  | plain hc _ => exact goesOn_of_plain hc hp
  | escaped hc _ => exact goesOn_of_escaped hc hp

theorem identifier_of_isSpelling (h : IsSpelling t) (nonempty : t ≠ []) (hp : p.rest = t) :
    p.identifier s = p.spelling s :=
  identifier_eq_spelling (goesOn_of_isSpelling h nonempty (l := []) (by rw [hp, List.append_nil]))

end Place

namespace Read

/-- What is yielded for an identifier is a spelling, and in lower case if case does not count. -/
theorem isSpelling_of_identifier {ignoreCase : Bool} {r s : Reader} {t : String}
    (h : (identifier ignoreCase).outcome r = (.ok t, s)) :
    IsSpelling t.toList ∧ (ignoreCase = true → Text.lower t = t) := by
  rw [outcome_identifier] at h
  rcases spelled : (r.place.identifier r.settings).1 with e | w
  · rw [spelled] at h
    cases h
  · rw [spelled] at h
    cases h
    have spelling := Place.isSpelling_identifier spelled
    cases ignoreCase with
    | false => simpa using spelling
    | true =>
      simp only [if_true, Text.lower_lower, implies_true, and_true]
      rw [Text.lower, String.toList_ofList, String.toList_ofList]
      exact spelling.lowerFrom []

/-- What was read as an identifier is taken again before anything that ends a name. -/
theorem Takes.spelled {ignoreCase : Bool} {t : String} {l : List Char} (spelling : IsSpelling t.toList)
    (lowered : ignoreCase = true → Text.lower t = t) (nonempty : t ≠ "")
    (unbroken : ∀ c ∈ t.toList, c ≠ '\n' ∧ c ≠ '\r') (hl : EndsName l) :
    Takes (t.toList ++ l) l (Read.identifier ignoreCase) (· = t) := by
  intro r hr
  have nonempty : t.toList ≠ [] := by simpa using nonempty
  have goes := Place.goesOn_of_isSpelling (s := r.settings) spelling nonempty hr
  obtain ⟨text, behind⟩ := Place.spelling_before (s := r.settings) spelling unbroken hl hr
  rw [outcome_identifier, Place.identifier_eq_spelling goes, text]
  refine ⟨t, _, Prod.ext ?_ rfl, behind, rfl⟩
  cases ignoreCase with
  | false => simp [Except.map]
  | true => simp [Except.map, lowered]

/-- An identifier that was read is read again as itself, up to its end, exactly if no line break was decoded in it: each
other character that needs a backslash has kept it, and the backslash before a line break takes it out of the text. -/
theorem identifier_again_iff {ignoreCase : Bool} {r s : Reader} {t : String}
    (read : (identifier ignoreCase).outcome r = (.ok t, s)) (nonempty : t ≠ "") (line : Nat) :
    (∃ u, (identifier ignoreCase).outcome (Reader.start t r.settings line) = (.ok t, u) ∧ u.place.rest = []) ↔
      ∀ c ∈ t.toList, c ≠ '\n' ∧ c ≠ '\r' := by
  obtain ⟨spelling, lowered⟩ := isSpelling_of_identifier read
  have nonempty : t.toList ≠ [] := by simpa using nonempty
  have same := Place.identifier_of_isSpelling (s := r.settings) spelling nonempty
    (p := (Reader.start t r.settings line).place) rfl
  have setting : (Reader.start t r.settings line).settings = r.settings := rfl
  rw [outcome_identifier, setting, same]
  constructor
  · rintro ⟨u, again, whole⟩ c hc
    have place : u.place = _ := congrArg (fun o => o.2.place) again.symm
    rw [place] at whole
    rw [ne_eq, ne_eq, ← not_or]
    intro broken
    exact Place.spelling_broken spelling hc broken rfl whole
  · intro unbroken
    obtain ⟨text, whole⟩ := Place.spelling_again (s := r.settings) spelling unbroken
      (p := (Reader.start t r.settings line).place) rfl
    rw [text]
    refine ⟨_, Prod.ext ?_ rfl, whole⟩
    cases ignoreCase with
    | false => simp [Except.map]
    | true => simp [Except.map, lowered]

/-- A capital, an escaped colon, a capital given by its code, and a capital sigma at the end, in any case. -/
theorem identifier_again_of_codes :
    let r := Reader.start "A\\:\\42 \u03A3," { lenient := false } 1
    ∃ t s, (identifier true).outcome r = (.ok t, s) ∧ t ≠ "" ∧
      ((∃ u, (identifier true).outcome (Reader.start t r.settings 7) = (.ok t, u) ∧ u.place.rest = []) ↔
        ∀ c ∈ t.toList, c ≠ '\n' ∧ c ≠ '\r') := by
  intro r
  have known : ((identifier true).outcome r).1.toOption = some "a\\:b\u03C2" := by decide +kernel
  obtain ⟨s, read⟩ := ok_of_toOption known
  exact ⟨_, s, read, by decide, identifier_again_iff read (by decide) 7⟩

/-- An escaped line feed is read from its code and is not read a second time. -/
theorem identifier_broken :
    let text (written : String) := ((identifier false).outcome (Reader.start written {} 1)).1.toOption
    text "\\a " = some "\\\n" ∧ text "\\\n" = some "" := by
  intro text
  exact ⟨by decide +kernel, by decide +kernel⟩

end Read

end Stylesheet
