import Stylesheet.Proofs.Literals

namespace Stylesheet

theorem isIdentifierChar_of_isNameChar {c : Char} (h : isNameChar c = true) : isIdentifierChar c = true := by
  unfold isIdentifierChar
  unfold isNameChar at h
  rw [h, Bool.true_or]

theorem isNameChar_of_isAlpha {c : Char} (h : c.isAlpha = true) : isNameChar c = true := by
  simp [isNameChar, Char.isAlphanum, h]

theorem isAlpha_iff {c : Char} :
    c.isAlpha = true ↔ (0x41 ≤ c.toNat ∧ c.toNat ≤ 0x5A) ∨ (0x61 ≤ c.toNat ∧ c.toNat ≤ 0x7A) := by
  change (decide (0x41 ≤ c.toNat ∧ c.toNat ≤ 0x5A) || (decide (0x61 ≤ c.toNat) && decide (c.toNat ≤ 0x7A))) = true ↔ _
  simp only [Bool.or_eq_true, Bool.and_eq_true, decide_eq_true_eq]

theorem isDigit_iff {c : Char} : c.isDigit = true ↔ 0x30 ≤ c.toNat ∧ c.toNat ≤ 0x39 := Char.isDigit_iff_toNat

/-- The codes of the characters of names. -/
theorem toNat_of_isNameChar {c : Char} (h : isNameChar c = true) :
    ((0x41 ≤ c.toNat ∧ c.toNat ≤ 0x5A) ∨ (0x61 ≤ c.toNat ∧ c.toNat ≤ 0x7A)) ∨ (0x30 ≤ c.toNat ∧ c.toNat ≤ 0x39) ∨
      c.toNat = 0x2D ∨ c.toNat = 0x5F := by
  simp only [isNameChar, Char.isAlphanum, Bool.or_eq_true, beq_iff_eq] at h
  rcases h with ((h | h) | rfl) | rfl
  · exact .inl (isAlpha_iff.mp h)
  · exact .inr (.inl (isDigit_iff.mp h))
  · exact .inr (.inr (.inl rfl))
  · exact .inr (.inr (.inr rfl))

theorem toNat_lt_of_isNameChar {c : Char} (h : isNameChar c = true) : c.toNat < 0x80 := by
  have codes := toNat_of_isNameChar h
  omega

/-- No name goes on here. -/
def EndsName (l : List Char) : Prop := ∀ c rest, l = c :: rest → isIdentifierChar c = false ∧ c ≠ '\\'

theorem EndsName.cons {c : Char} {l : List Char} (h : isIdentifierChar c = false) (hc : c ≠ '\\') :
    EndsName (c :: l) := by
  intro d rest hd
  cases hd
  exact ⟨h, hc⟩

namespace Place

variable {s : Settings} {p : Place} {w l : List Char}

theorem goesOn_of_endsName (hl : EndsName l) (hp : p.rest = l) : p.goesOn s = false := by
  unfold goesOn
  rw [hp]
  cases l with
  | nil => rfl
  | cons c rest =>
    obtain ⟨hc, hb⟩ := hl c rest rfl
    dsimp only
    rw [if_neg hb, hc]

theorem goesOn_of_identifierChar {c : Char} (hc : isIdentifierChar c = true) (hp : p.rest = c :: l) :
    c ≠ '\\' ∧ p.goesOn s = true := by
  have plain : c ≠ '\\' := fun h => by
    rw [h] at hc
    exact absurd hc (by decide)
  refine ⟨plain, ?_⟩
  unfold goesOn
  rw [hp]
  dsimp only
  rw [if_neg plain, hc]

theorem spelling_of_word (hw : w.all isIdentifierChar = true) (hl : EndsName l) (hp : p.rest = w ++ l) :
    (p.spelling s).1 = .ok w ∧ (p.spelling s).2.rest = l := by
  induction w generalizing p with
  | nil =>
    rw [spelling_eq, goesOn_of_endsName hl hp]
    exact ⟨rfl, hp⟩
  | cons c w ih =>
    rw [List.all_cons, Bool.and_eq_true] at hw
    obtain ⟨plain, goes⟩ := goesOn_of_identifierChar (s := s) hw.1 hp
    have one : p.piece s = (.ok (.char c), p.next s.width) := by
      unfold piece
      rw [hp]
      exact if_neg plain
    obtain ⟨ho, hr⟩ := ih hw.2 (p := p.next s.width) (by rw [next_rest, hp]; rfl)
    rw [spelling_eq, goes, if_pos rfl, one]
    dsimp only
    rw [ho, hr]
    refine ⟨?_, rfl⟩
    simp only [Except.map, Piece.spell, hw.1, if_true, List.cons_append, List.nil_append]

theorem identifier_of_word (hw : w.all isIdentifierChar = true) (h0 : w ≠ []) (hl : EndsName l)
    (hp : p.rest = w ++ l) : (p.identifier s).1 = .ok w ∧ (p.identifier s).2.rest = l := by
  cases w with
  | nil => exact absurd rfl h0
  | cons c w =>
    have goes := (goesOn_of_identifierChar (s := s) (List.all_eq_true.mp hw c List.mem_cons_self) hp).2
    have more : p.atEnd = false := by
      rw [atEnd, hp]
      rfl
    rw [identifier, more, if_neg Bool.false_ne_true, if_pos goes]
    exact spelling_of_word hw hl hp

/-- Where no name begins, none is taken. -/
theorem identifier_of_endsName (hl : EndsName l) (h0 : l ≠ []) (hp : p.rest = l) :
    p.identifier s = (.error (.unexpectedToken "identifier" (p.peek 5 0) p.location), p) := by
  have more : p.atEnd = false := by
    rw [atEnd, hp, List.isEmpty_eq_false_iff]
    exact h0
  rw [identifier, more, if_neg Bool.false_ne_true, goesOn_of_endsName hl hp, if_neg Bool.false_ne_true]

theorem identifier_of_name (hw : w.all isNameChar = true) (h0 : w ≠ []) (hl : EndsName l) (hp : p.rest = w ++ l) :
    (p.identifier s).1 = .ok w ∧ (p.identifier s).2.rest = l :=
  identifier_of_word (List.all_eq_true.mpr fun c hc => isIdentifierChar_of_isNameChar (List.all_eq_true.mp hw c hc)) h0
    hl hp

end Place

/-- An identifier is taken as it is spelled, and in lower case if case does not count. -/
theorem Read.outcome_identifier (ignoreCase : Bool) (r : Reader) :
    (Read.identifier ignoreCase).outcome r =
      ((r.place.identifier r.settings).1.map fun text =>
          if ignoreCase then Text.lower (String.ofList text) else String.ofList text,
        { r with place := (r.place.identifier r.settings).2 }) := by
  rw [Read.identifier, outcome_bind, outcome_move]
  rcases r.place.identifier r.settings with ⟨e | text, p⟩
  · rfl
  · rfl

theorem Read.Takes.word {w l : List Char} (ignoreCase : Bool) (hw : w.all isIdentifierChar = true) (h0 : w ≠ [])
    (hl : EndsName l) : Takes (w ++ l) l (Read.identifier ignoreCase)
      (· = if ignoreCase then Text.lower (String.ofList w) else String.ofList w) := by
  refine bind (m := l) (P := (· = w)) (move fun s p hp => ?_) fun cs hcs => .pure (by rw [hcs])
  obtain ⟨ho, hr⟩ := Place.identifier_of_word (s := s) hw h0 hl hp
  exact ⟨w, ho, hr, rfl⟩

theorem Read.Takes.identifier {w l : List Char} (ignoreCase : Bool) (hw : w.all isNameChar = true) (h0 : w ≠ [])
    (hl : EndsName l) : Takes (w ++ l) l (Read.identifier ignoreCase)
      (· = String.ofList (if ignoreCase then w.map Char.toLower else w)) := by
  have chars : ∀ c ∈ w, isNameChar c = true := List.all_eq_true.mp hw
  have spelled : w.all isIdentifierChar = true :=
    List.all_eq_true.mpr fun c hc => isIdentifierChar_of_isNameChar (chars c hc)
  refine (word ignoreCase spelled h0 hl).mono fun text ht => ht.trans ?_
  cases ignoreCase with
  | false => rfl
  | true =>
    simp only [if_true, Text.lower, String.toList_ofList]
    rw [Text.lowerFrom_low fun c hc => toNat_lt_of_isNameChar (chars c hc)]

namespace Read.Takes

/-- A text without NUL reads back from between quotes. -/
theorem quoted {l : List Char} {f : Layout} {q : Quoted} (hq : f.quote = '"' ∨ f.quote = '\'')
    (h0 : '\x00' ∉ q.text.toList) : Takes ((q.toCss f).toList ++ l) l Quoted.read fun a => a.text = q.text :=
  (q.takes_written hq).mono fun _ same => same h0

end Read.Takes

namespace Place

variable {p : Place} {c : Char} {rest : List Char}

theorem comes_of_head {t : String} {d : Char} {more : List Char} (hp : p.rest = c :: rest)
    (ht : t.toList = d :: more) (h : d ≠ c) : p.comes t = false := by
  rw [Bool.eq_false_iff]
  intro hc
  obtain ⟨-, tail, htail⟩ := comes_iff.mp hc
  rw [ht, hp, List.cons_append, List.cons.injEq] at htail
  exact h htail.1

theorem comes_char {t : String} (hp : p.rest = c :: rest) (ht : t.toList = [c]) : p.comes t = true :=
  comes_iff.mpr ⟨by rw [ht]; exact List.cons_ne_nil _ _, rest, by rw [ht, hp]; rfl⟩

theorem comes_of_nil {t : String} (hp : p.rest = []) : p.comes t = false := by
  rw [Bool.eq_false_iff]
  intro hc
  obtain ⟨hne, hpre⟩ := comes_iff.mp hc
  rw [hp] at hpre
  exact hne (List.prefix_nil.mp hpre)

theorem startsWith_append (word l : List Char) : startsWith word (word ++ l) = true := by
  induction word with
  | nil => rfl
  | cons a word ih =>
    rw [List.cons_append, startsWith, ih, Text.sameLetter, beq_self_eq_true, Bool.true_and]

end Place

namespace Read.Takes

variable {l : List Char}

/-- A character that must stand here. -/
theorem char {t : String} {c : Char} (ht : t.toList = [c]) : Takes (c :: l) l (Read.literal t) fun _ => True := by
  have taken := literal (t := t) (l := l) (by rw [ht]; exact List.cons_ne_nil _ _)
  rw [ht] at taken
  exact taken

/-- Nothing stands in the gap. -/
theorem noGap (hl : Stops l) : Takes l l Read.gap fun cs => cs.map Comment.text = [] :=
  gap .nil hl

theorem urlOpens : Takes ("url(".toList ++ l) l Url.opens (· = true) := by
  refine here fun p hp => ?_
  have opens : p.comesAnyCase "url" = true := by
    unfold Place.comesAnyCase
    rw [hp]
    exact Place.startsWith_append "url".toList ('(' :: l)
  rw [if_pos opens]
  refine bind (m := '(' :: l) (skip 3) fun _ _ => (noGap (.cons rfl (by decide))).discard.bind fun _ _ => ?_
  refine here fun q hq => ?_
  rw [if_pos (Place.comes_char hq rfl)]
  exact (skip 1).bind fun _ _ => .pure rfl

/-- An address without NUL reads back. -/
theorem url {f : Layout} {u : Url} (hq : f.quote = '"' ∨ f.quote = '\'') (h0 : '\x00' ∉ u.address.text.toList) :
    Takes ((u.toCss f).toList ++ l) l Url.read fun v => v.address.text = u.address.text := by
  have start : (u.toCss f).toList ++ l = "url(".toList ++ ((u.address.toCss f).toList ++ ')' :: l) := by
    simp [Url.toCss]
  have inner : Stops ((u.address.toCss f).toList ++ ')' :: l) := by
    have head : (u.address.toCss f).toList ++ ')' :: l =
        f.quote :: (u.address.text.toList.flatMap Quoted.escape ++ f.quote :: ')' :: l) := by
      simp [Quoted.toCss]
    rw [head]
    rcases hq with h | h <;> rw [h] <;> exact .cons rfl (by decide)
  rw [start]
  refine here fun p _ => urlOpens.bind fun call hc => (noGap inner).discard.bind fun _ _ => ?_
  refine (quoted hq h0).bind fun address ha => ?_
  subst hc
  dsimp only
  rw [if_pos rfl]
  refine (noGap (.cons rfl (by decide))).discard.bind fun _ _ => (char rfl).discard.bind fun _ _ => .pure ha

end Read.Takes

/-- No comment begins where a text without one ends at a character that is none of its marks. -/
theorem Text.not_opens_append {t l : List Char} {c : Char} (hn : ¬ ['/', '*'] <:+: t) (hs : c ≠ '/' ∧ c ≠ '*') :
    ¬ ['/', '*'] <+: t ++ c :: l := by
  rintro ⟨tail, ht⟩
  match t, ht with
  | [], ht => exact hs.1 (List.cons.inj ht).1.symm
  | [a], ht => exact hs.2 (List.cons.inj (List.cons.inj ht).2).1.symm
  | a :: b :: t, ht =>
    obtain ⟨ha, ht⟩ := List.cons.inj ht
    obtain ⟨hb, -⟩ := List.cons.inj ht
    exact hn ⟨[], t, by rw [← ha, ← hb]; rfl⟩

namespace Place

variable {width : Char → Nat} {stops t l : List Char} {c : Char} {p : Place}

/-- A search passes over text without stops and comments. -/
theorem upTo_of_plain (width : Char → Nat) (ht : t.all (· ∉ stops) = true) (hc : c ∈ stops) (hs : c ≠ '/' ∧ c ≠ '*')
    (hn : ¬ ['/', '*'] <:+: t) (hp : p.rest = t ++ c :: l) :
    (p.upTo width stops).text = t ∧ (p.upTo width stops).halt = .found ∧ (p.upTo width stops).place.rest = c :: l := by
  induction t generalizing p with
  | nil =>
    have start : p.rest = c :: l := hp
    rw [upTo_of_cons start, if_pos hc]
    exact ⟨rfl, rfl, start⟩
  | cons d t ih =>
    rw [List.all_cons, Bool.and_eq_true] at ht
    have free : ¬ ['/', '*'] <:+: t := fun h => hn (List.infix_cons_iff.mpr (.inr h))
    have start : p.rest = d :: (t ++ c :: l) := hp
    have behind : (p.next width).rest = t ++ c :: l := by rw [next_rest, start, List.tail_cons]
    have absent : (p.next width).opening width = .absent :=
      opening_absent (by rw [behind]; exact Text.not_opens_append free hs)
    obtain ⟨io, ih, ir⟩ := ih ht.2 free behind
    rw [upTo_of_cons start, if_neg (by simpa using ht.1), absent]
    dsimp only
    exact ⟨congrArg (d :: ·) io, ih, ir⟩

end Place

theorem Read.Takes.upToBefore {stops t l : List Char} {c : Char} (ht : t.all (· ∉ stops) = true) (hc : c ∈ stops)
    (hs : c ≠ '/' ∧ c ≠ '*') (hn : ¬ ['/', '*'] <:+: t) (orEnd : Bool) :
    Takes (t ++ c :: l) (c :: l) (Read.upTo stops .before orEnd) (· = String.ofList t) := by
  refine move fun s p hp => ?_
  obtain ⟨ho, hf, hr⟩ := Place.upTo_of_plain s.width ht hc hs hn hp
  refine ⟨String.ofList t, ?_, ?_, rfl⟩
  · simp only [upToStop, hf, ho]
  · simp only [upToStop, hf, hr]

theorem Read.Takes.upToBehind {stops t l : List Char} {c : Char} (ht : t.all (· ∉ stops) = true) (hc : c ∈ stops)
    (hs : c ≠ '/' ∧ c ≠ '*') (hn : ¬ ['/', '*'] <:+: t) (orEnd : Bool) :
    Takes (t ++ c :: l) l (Read.upTo stops .behind orEnd) (· = String.ofList t) := by
  refine move fun s p hp => ?_
  obtain ⟨ho, hf, hr⟩ := Place.upTo_of_plain s.width ht hc hs hn hp
  refine ⟨String.ofList t, ?_, ?_, rfl⟩
  · simp only [upToStop, hf, ho]
  · simp only [upToStop, hf, Place.next_rest, hr, List.tail_cons]

end Stylesheet
