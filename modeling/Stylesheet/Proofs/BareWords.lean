import Stylesheet.Proofs.TwinCall
import Stylesheet.Proofs.ValueRoundTrip

namespace Stylesheet

/-- The text ends in a comment that never ends, and nothing but a gap stands before it. -/
def EndsInComment (l : List Char) : Prop :=
  ∃ texts g body, IsGap texts g ∧ l = g ++ '/' :: '*' :: body ∧ ¬ ['*', '/'] <:+: body

namespace Place

variable {width : Char → Nat} {p : Place}

/-- A comment never ends if no star stands before a slash. -/
theorem commentBody?_eq_none {l : List Char} (h : commentBody? l = none) : ¬ ['*', '/'] <:+: l := by
  fun_induction commentBody? l with
  | case1 => simp
  | case2 rest => cases h
  | case3 c rest hc ih =>
    have absent := ih (Option.map_eq_none_iff.mp h)
    intro found
    rcases List.infix_cons_iff.mp found with ⟨tail, here⟩ | later
    · cases here
      exact hc tail rfl rfl
    · exact absent later

/-- Skipping finds an unclosed comment only where the text ends in one. -/
theorem endsInComment_of_pastGap (h : (p.pastGap width).2.2 = true) : EndsInComment p.rest := by
  fun_induction pastGap width p with
  | case1 p absent => cases h
  | case2 p unclosed =>
    have blanks : IsGap [] (p.rest.takeWhile Text.isBlank) := .ofBlanks List.all_takeWhile
    have parts := pastBlanks_rest width p
    unfold opening at unclosed
    split at unclosed
    · next body start =>
      split at unclosed
      · next never => exact ⟨_, _, body, blanks, by rw [← start]; exact parts, commentBody?_eq_none never⟩
      · cases unclosed
    · cases unclosed
  | case3 p c q whole cs r unclosed hq ih =>
    rw [hq] at ih
    obtain ⟨texts, g, body, gap, rest, never⟩ := ih h
    have blanks : IsGap [] (p.rest.takeWhile Text.isBlank) := .ofBlanks List.all_takeWhile
    obtain ⟨k, comment, behind⟩ := opening_isGap whole
    have parts := pastBlanks_rest width p
    rw [behind, rest] at parts
    refine ⟨_, _, body, blanks.append (comment.append gap), ?_, never⟩
    simpa only [List.append_assoc] using parts

end Place

namespace Read

variable {r : Reader}

/-- A gap is skipped, unless strict reading meets a comment in it that never ends. -/
theorem gap_of_closed (h : r.settings.lenient = true ∨ ¬ EndsInComment r.place.rest) :
    ∃ cs s, gap.outcome r = (.ok cs, s) := by
  rw [outcome_gap]
  by_cases unclosed : (r.place.pastGap r.settings.width).2.2 = true
  · rcases h with lenient | closed
    · rw [if_pos unclosed, if_pos lenient]
      exact ⟨_, _, rfl⟩
    · exact absurd (Place.endsInComment_of_pastGap unclosed) closed
  · rw [if_neg unclosed]
    exact ⟨_, _, rfl⟩

end Read

namespace Value

variable (nested : List Separator → Read Value) (inner : Read Value) {name : String} {l : List Char} {r : Reader}

/-- A name before anything but a parenthesis is a word. -/
theorem outcome_readWord_of_name (hn : isPlainName name = true) (hl : EndsName l) (call : l.head? ≠ some '(')
    (hr : r.place.rest = name.toList ++ l) :
    (readWord nested inner false).outcome r =
      (.ok (.keyword name), { r with place := r.place.forward r.settings.width name.length }) := by
  obtain ⟨c, rest, hc, -, chars⟩ := isPlainName_eq hn
  have nonempty : name.toList ≠ [] := by rw [hc]; exact List.cons_ne_nil c rest
  obtain ⟨text, behind⟩ := Place.identifier_of_name (s := r.settings) chars nonempty hl hr
  have ahead := Place.ahead_identifier r.settings r.place
  have place : (r.place.identifier r.settings).2 = r.place.forward r.settings.width name.length := by
    rw [← String.length_toList]
    exact ahead.eq_forward (by rw [hr, behind])
  have word : (Read.identifier false).outcome r =
      (.ok name, { r with place := r.place.forward r.settings.width name.length }) := by
    rw [Read.outcome_identifier, text, place]
    simp [Except.map]
  have bare : (r.place.forward r.settings.width name.length).comes "(" = false := by
    rw [← place]
    cases l with
    | nil => exact Place.comes_of_nil behind
    | cons d l => exact Place.comes_of_head behind rfl fun h => call (by rw [← h]; rfl)
  rw [outcome_readWord, word]
  simp [bare]

/-- A plain word comes to the gap behind it. -/
theorem outcome_readPrimitiveWith_of_word (hn : isPlainWord name = true) (hl : BehindWord l)
    (call : l.head? ≠ some '(') (hr : r.place.rest = name.toList ++ l) :
    (readPrimitiveWith nested inner).outcome r =
      Read.following (Read.gap.outcome { r with place := r.place.forward r.settings.width name.length })
        fun _ => pure (.keyword name) := by
  have plain := (isPlainWord_eq hn).1
  obtain ⟨c, rest, hc, alpha, -⟩ := isPlainName_eq plain
  have begins : isValueStart c = true := isValueStart_of_isAlpha alpha
  have stops : Stops r.place.rest := by
    rw [hr, hc]
    exact stops_of_start begins
  have form : readForm nested inner r.settings.lenient r.place = readWordOrSign (readWord nested inner false) :=
    readForm_of_word hn hl hr _
  have word := outcome_readWord_of_name nested inner plain hl.name call hr
  rw [readPrimitiveWith_eq]
  simp only [Read.outcome_bind, Read.outcome_discard, Read.outcome_gap_of_stops stops, Read.following_ok,
    Read.outcome_pure, Read.outcome_place, Read.outcome_isLenient, form, outcome_readWordOrSign, word, Read.rescued_ok]
  rcases Read.gap.outcome { r with place := r.place.forward r.settings.width name.length } with ⟨e | cs, s⟩
  · rfl
  · rfl

/-- Blanks that cannot stand in an identifier, commas and the characters that end a value or a component end a word. -/
theorem behindWord_of_end (hl : ∀ c ∈ l.head?, Text.isSpacing c = true ∨ c ∈ [',', ';', '\x7d', '!']) :
    BehindWord l ∧ l.head? ≠ some '(' := by
  cases l with
  | nil => exact ⟨⟨nofun, nofun⟩, nofun⟩
  | cons c l =>
    have known : isIdentifierChar c = false ∧ c ≠ '\\' ∧ c ≠ ':' ∧ c ≠ '+' ∧ c ≠ '(' := by
      rcases hl c rfl with blank | mark
      · rw [Text.isSpacing, Bool.and_eq_true, Bool.not_eq_true'] at blank
        have other (d : Char) (hd : Text.isBlank d = false) : c ≠ d := by
          rintro rfl
          simp [hd] at blank
        exact ⟨blank.2, other _ (by decide), other _ (by decide), other _ (by decide), other _ (by decide)⟩
      · simp only [List.mem_cons, List.not_mem_nil, or_false] at mark
        rcases mark with rfl | rfl | rfl | rfl
        · decide
        · decide
        · decide
        · decide
    obtain ⟨wild, solid, colon, plus, call⟩ := known
    refine ⟨⟨.cons wild solid, ?_⟩, by simpa using call⟩
    intro d rest hd
    cases hd
    exact ⟨colon, plus⟩

/-- A plain word is read as a bare word, as it stands and with the gap behind it, before a blank, a comma, a character
that ends a value or the end of the text. -/
theorem readPrimitive_of_word (hn : isPlainWord name = true)
    (hl : ∀ c ∈ l.head?, Text.isSpacing c = true ∨ c ∈ [',', ';', '\x7d', '!'])
    (closed : r.settings.lenient = true ∨ ¬ EndsInComment l) (hr : r.place.rest = name.toList ++ l) :
    ∃ cs s, Read.gap.outcome { r with place := r.place.forward r.settings.width name.length } = (.ok cs, s) ∧
      readPrimitive.outcome r = (.ok (.keyword name), s) := by
  have behind := behindWord_of_end hl
  have left : (r.place.forward r.settings.width name.length).rest = l := by
    rw [Place.forward_rest, hr, ← String.length_toList, List.drop_left]
  obtain ⟨cs, s, gap⟩ := Read.gap_of_closed (r := { r with place := r.place.forward r.settings.width name.length })
    (by rwa [left])
  refine ⟨cs, s, gap, ?_⟩
  rw [readPrimitive, Read.outcome_bind, Read.outcome_left, Read.following_ok, readPrimitiveIn,
    outcome_readPrimitiveWith_of_word _ _ hn behind.1 behind.2 hr, gap]
  rfl

/-- A word before a blank above U+0080 and a comment that ends, in strict reading. -/
theorem readPrimitive_of_word_strict :
    let name := "Progid-U"
    let behind := "\u00A0/*x*/ !"
    let r := Reader.start (name ++ behind) { lenient := false } 1
    isPlainWord name = true ∧ ¬ EndsInComment behind.toList ∧
      ∃ cs s, Read.gap.outcome { r with place := r.place.forward r.settings.width name.length } = (.ok cs, s) ∧
        readPrimitive.outcome r = (.ok (.keyword name), s) := by
  intro name behind r
  have plain : isPlainWord name = true := by decide
  have closed : ¬ EndsInComment behind.toList := by
    rintro ⟨texts, g, body, -, parts, never⟩
    have here : behind.toList.drop g.length = '/' :: '*' :: body := by rw [parts, List.drop_left]
    have length : g.length < 8 := by
      have whole := congrArg List.length parts
      simp [behind] at whole
      omega
    have ends : ∀ i < 8, (behind.toList.drop i).take 2 = ['/', '*'] →
        ['*', '/'] <:+: (behind.toList.drop i).drop 2 := by decide +kernel
    have found := ends g.length length (by rw [here]; rfl)
    rw [here] at found
    exact never found
  have first : behind.toList.head? = some '\u00A0' := by decide +kernel
  have head : ∀ c ∈ behind.toList.head?, Text.isSpacing c = true ∨ c ∈ [',', ';', '\x7d', '!'] := by
    rw [first]
    rintro c ⟨⟩
    exact .inl (by decide +kernel)
  exact ⟨plain, closed, readPrimitive_of_word plain head (.inr closed) (Reader.start_append _ _ _ _)⟩

/-- A color is looked for where a word begins like the name of a color function, also if it goes on. -/
theorem begins_color (chars : name.toList.all isNameChar = true)
    (color : beginsAnyCase name "rgb" = true ∨ beginsAnyCase name "hsl" = true) {p : Place}
    (hp : p.rest = name.toList ++ l) : (p.comes "#" || p.comesAnyCase "rgb" || p.comesAnyCase "hsl") = true := by
  have found {word : String} (nonempty : word.toList ≠ []) (small : word.toList.map Char.toLower = word.toList)
      (begins : beginsAnyCase name word = true) : p.comesAnyCase word = true := by
    rw [beginsAnyCase, beq_iff_eq] at begins
    have long : word.toList.length ≤ name.toList.length := by
      have length := congrArg List.length begins
      rw [List.length_map, List.length_take] at length
      omega
    have same : p.rest.take word.toList.length = name.toList.take word.toList.length := by
      rw [hp, List.take_append_of_le_length long]
    have low : ∀ c ∈ p.rest.take word.toList.length, c.toNat < 0x80 := by
      rw [same]
      exact fun c hc => toNat_lt_of_isNameChar (List.all_eq_true.mp chars c (List.mem_of_mem_take hc))
    have starts := Place.startsWith_of_take_toLower low (by rw [same, begins]) small
    simp [Place.comesAnyCase, starts, nonempty]
  rcases color with h | h
  · simp [found (by decide) (by decide) h]
  · simp [found (by decide) (by decide) h]

/-- What the theorem about plain words leaves out: a word that begins like the name of a color function is taken for a call
of it, and so is a fault where no parenthesis stands behind the gap. -/
theorem fails_colorWord (hn : isPlainName name = true)
    (color : beginsAnyCase name "rgb" = true ∨ beginsAnyCase name "hsl" = true) {texts : List String} {g : List Char}
    (gap : IsGap texts g) (hl : Stops l) (ends : EndsName (g ++ l)) (call : l.head? ≠ some '(') :
    Read.Fails (name.toList ++ (g ++ l)) (readPrimitiveWith nested inner) := by
  obtain ⟨c, rest, hc, alpha, chars⟩ := isPlainName_eq hn
  have plainStart : isPlainStart c = true := by rw [isPlainStart, alpha]; rfl
  have start : isValueStart c = true := isValueStart_of_isAlpha alpha
  have function : Read.Fails (name.toList ++ (g ++ l)) (readColorFunction (readWord nested inner true)) := by
    have word := Read.Takes.identifier true chars (by rw [hc]; exact List.cons_ne_nil c rest) ends
    refine .here fun p hp => word.fails fun _ _ => (Read.Takes.gap gap hl).discard.fails fun _ _ => .first ?_
    refine (Read.Fails.literal ?_).discard
    rintro ⟨rest, here⟩
    apply call
    rw [← here]
    rfl
  have stops : Stops (name.toList ++ (g ++ l)) := by
    rw [hc]
    exact stops_of_start start
  rw [readPrimitiveWith_eq]
  refine (Read.Takes.noGap stops).discard.fails fun _ _ => .here fun p hp => .asking fun b => .first ?_
  have here : p.rest = c :: (rest ++ (g ++ l)) := by rw [hp, hc, List.cons_append]
  rw [readForm, begins_of_start here plainStart, if_neg Bool.false_ne_true, if_pos (begins_color chars color hp)]
  refine .here fun q hq => ?_
  have hash : q.comes "#" = false := by
    refine Place.comes_of_head (c := c) (by rw [hq, hc, List.cons_append]) rfl ?_
    rintro rfl
    exact absurd alpha (by decide)
  rw [hash, if_neg Bool.false_ne_true]
  exact function

/-- A comment that never ends is a fault in strict reading, a wide blank goes on with a word, and a word that begins
with the name of a color function is taken for one. -/
theorem readPrimitive_of_no_word :
    let keyword (strict : Bool) (text : String) :=
      (readPrimitive.outcome (Reader.start text { lenient := !strict } 1)).1.toOption.bind Value.keyword?
    keyword true "a /*" = none ∧ keyword false "a\u3000b" = some "a\u3000b" ∧ keyword false "rgbx" = none := by
  intro keyword
  exact ⟨by decide +kernel, by decide +kernel, by decide +kernel⟩

end Value

/-- The bare word `k` as it stands in a text from `p` to a place behind it: a name, a range of code points or a sign. The
first character of a range may be any. -/
inductive IsBareWord (s : Settings) (p : Place) : String → Place → Prop
  | name {text : List Char} {q : Place} : p.identifier s = (.ok text, q) → q.comes "(" = false →
    IsBareWord s p (String.ofList text) q
  | range {c : Char} {more rest : List Char} : p.rest = 'U' :: '+' :: c :: (more ++ rest) →
    (∀ d ∈ more, isHexDigit d = true ∨ d = '?' ∨ d = '-') →
    IsBareWord s p ("U+" ++ String.ofList (c :: more)) (p.forward s.width (2 + (c :: more).length))
  | sign {c : Char} {rest : List Char} : p.rest = c :: rest → c ∈ ['+', '*', '/'] →
    IsBareWord s p (String.singleton c) (p.next s.width)

/-- The call that a name with a minus before it begins is not read to its end: at `t`, behind the character `k` of it,
reading goes on. -/
def IsFailedCall (call : Read Value) (r : Reader) (k : String) (t : Reader) : Prop :=
  r.place.rest.head? = some '-' ∧
    (∃ text q, r.place.identifier r.settings = (.ok text, q) ∧ q.comes "(" = true) ∧
    ∃ expected found location u c rest, call.outcome r = (.error (.unexpectedToken expected found location), u) ∧
      u.place.rest = c :: rest ∧ k = String.singleton c ∧ t = { u with place := u.place.next u.settings.width }

namespace Place

variable {s : Settings} {p : Place} {e : Fault}

theorem isEnd_of_piece (h : (p.piece s).1 = .error e) : e.isEnd = true := by
  unfold piece at h
  split at h
  · cases h
    rfl
  · split at h
    · unfold escape at h
      dsimp only at h
      split at h
      · cases h
        rfl
      · split at h
        · cases h
        · split at h
          · cases h
          · cases h
    · cases h

theorem isEnd_of_spelling (h : (p.spelling s).1 = .error e) : e.isEnd = true := by
  fun_induction spelling s p with
  | case1 p goes piece q hq more r hr ih =>
    rw [hr] at ih
    exact ih (map_eq_error h)
  | case2 p goes d q hq =>
    cases h
    exact isEnd_of_piece (by rw [hq])
  | case3 p goes => cases h

/-- An identifier that is not there is missed where it is looked for. -/
theorem identifier_missed (h : (p.identifier s).1 = .error e) (he : e.isEnd = false) :
    (p.identifier s).2 = p ∧ p.goesOn s = false := by
  unfold identifier at h ⊢
  split
  · next ended =>
    rw [if_pos ended] at h
    cases h
    cases he
  · next more =>
    rw [if_neg more] at h
    split
    · next goes =>
      rw [if_pos goes] at h
      rw [isEnd_of_spelling h] at he
      cases he
    · next stop => exact ⟨rfl, Bool.eq_false_iff.mpr stop⟩

end Place

namespace Value

variable {nested : List Separator → Read Value} {inner : Read Value} {k : String} {r t : Reader}

/-- A range goes on over digits, question marks and dashes. -/
theorem rangeChars_cons (limit size : Nat) (c : Char) (l : List Char) :
    ∃ more rest, l = more ++ rest ∧ rangeChars limit size (c :: l) = c :: more ∧
      ∀ d ∈ more, isHexDigit d = true ∨ d = '?' ∨ d = '-' := by
  induction l generalizing limit size c with
  | nil => exact ⟨[], [], rfl, rfl, nofun⟩
  | cons d l ih =>
    rw [rangeChars]
    generalize (if c = '-' then 13 else limit) = limit
    by_cases goes : (decide (size + c.utf8Size < limit) && (isHexDigit d || d = '?' || d = '-')) = true
    · rw [if_pos goes]
      simp only [Bool.and_eq_true, Bool.or_eq_true, decide_eq_true_eq, or_assoc] at goes
      obtain ⟨more, rest, parts, taken, known⟩ := ih limit (size + c.utf8Size) d
      refine ⟨d :: more, rest, by rw [parts]; rfl, by rw [taken], ?_⟩
      exact List.forall_mem_cons.mpr ⟨goes.2, known⟩
    · rw [if_neg goes]
      exact ⟨[], d :: l, rfl, rfl, nofun⟩

theorem isBareWord_of_readRange (h : readRange.outcome r = (.ok (.keyword k), t)) :
    ∃ q, IsBareWord r.settings r.place k q ∧ t = { r with place := q } := by
  have parts : readRange = (do discard (Read.literal "U+"); readRangeChars) := rfl
  rw [parts, Read.outcome_bind, Read.outcome_discard, Read.outcome_literal] at h
  by_cases begins : r.place.comes "U+" = true
  · obtain ⟨-, tail, start⟩ := Place.comes_iff.mp begins
    have left : (r.place.forward r.settings.width 2).rest = tail := by
      rw [Place.forward_rest, ← start]
      rfl
    rw [if_pos begins, Read.following_ok, Read.outcome_pure, Read.following_ok, outcome_readRangeChars] at h
    dsimp only at h
    rw [show "U+".length = 2 from rfl, left, Place.atEnd, left] at h
    cases tail with
    | nil => cases h
    | cons c l =>
      obtain ⟨more, rest, text, taken, known⟩ := rangeChars_cons 6 0 c l
      rw [taken, if_neg (by simp), ← Place.forward_add] at h
      cases h
      have here : r.place.rest = 'U' :: '+' :: c :: (more ++ rest) := by
        rw [← start, text]
        rfl
      exact ⟨_, .range here known, rfl⟩
  · rw [if_neg begins] at h
    cases h

/-- No call is a bare word. -/
theorem readCall_marked (ignoreCase : Bool) (name : String) :
    Read.YieldsAt (readCall nested inner ignoreCase name) IsMarkedAt := by
  unfold readCall
  split
  · rw [← map_eq_pure_bind]
    exact .map (Url.read_position.mono fun _ _ place => ⟨⟨nofun, nofun⟩, place⟩)
  · split
    · exact readCalculation_marked
    · exact readFunction_marked ignoreCase

/-- A word that is put in the place of a fault is one character, taken where the fault came up. -/
theorem keyword_of_orSign {next : Option Char} {e : Fault} {u : Reader}
    (h : (orSign next e).outcome u = (.ok (.keyword k), t)) :
    next ∈ [some '+', some '-', some '*', some '/'] ∧ e.isEnd = false ∧
      (∃ expected found location, e = .unexpectedToken expected found location) ∧
      ∃ c rest, u.place.rest = c :: rest ∧ k = String.singleton c ∧
        t = { u with place := u.place.next u.settings.width } := by
  unfold orSign at h
  split at h
  · next expected found location =>
    split at h
    · next sign =>
      refine ⟨List.contains_iff_mem.mp sign, rfl, ⟨_, _, _, rfl⟩, ?_⟩
      rw [Read.outcome_map, Read.outcome_take] at h
      cases left : u.place.rest with
      | nil => simp [left] at h
      | cons c rest =>
        simp only [left, List.take_succ_cons, List.take_zero, List.length_singleton, Nat.lt_irrefl, if_false] at h
        cases h
        exact ⟨c, rest, rfl, rfl, rfl⟩
    · cases h
  · cases h

/-- The only sign that begins a name is a minus. -/
theorem head_of_identifier {s : Settings} {p q : Place} {text : List Char} (name : p.identifier s = (.ok text, q))
    (sign : p.rest.head? ∈ [some '+', some '-', some '*', some '/']) : p.rest.head? = some '-' := by
  have goes : p.goesOn s = true := Place.goesOn_of_identifier (t := text) (by rw [name])
  cases l : p.rest with
  | nil => simp [Place.goesOn, l] at goes
  | cons c rest =>
    rw [l, List.head?_cons] at sign
    simp only [List.mem_cons, List.not_mem_nil, or_false, Option.some.injEq] at sign
    rcases sign with rfl | rfl | rfl | rfl
    · simp [Place.goesOn, l, isIdentifierChar] at goes
    · rfl
    · simp [Place.goesOn, l, isIdentifierChar] at goes
    · simp [Place.goesOn, l, isIdentifierChar] at goes

theorem isBareWord_of_readWordOrSign
    (h : (readWordOrSign (readWord nested inner false)).outcome r = (.ok (.keyword k), t)) :
    (∃ q, IsBareWord r.settings r.place k q ∧ t = { r with place := q }) ∨
      IsFailedCall (readWord nested inner false) r k t := by
  rw [outcome_readWordOrSign] at h
  have word := outcome_readWord nested inner false r
  rw [Read.outcome_identifier] at word
  rcases name : r.place.identifier r.settings with ⟨e | text, q⟩
  · -- no name begins here, so that nothing was taken before the sign
    rw [name] at word
    rw [word] at h
    obtain ⟨sign, recoverable, -, c, rest, left, rfl, rfl⟩ := keyword_of_orSign h
    have missed := Place.identifier_missed (s := r.settings) (p := r.place) (e := e) (by rw [name]) recoverable
    rw [name] at missed
    obtain ⟨rfl, stop⟩ := missed
    change r.place.rest = c :: rest at left
    rw [left, List.head?_cons] at sign
    simp only [List.mem_cons, List.not_mem_nil, or_false, Option.some.injEq] at sign
    refine .inl ⟨_, .sign left ?_, rfl⟩
    rcases sign with rfl | rfl | rfl | rfl
    · simp
    · simp [Place.goesOn, left, isIdentifierChar] at stop
    · simp
    · simp
  · rw [name] at word
    by_cases call : q.comes "(" = true
    · right
      simp only [Except.map, call, Bool.not_true, Bool.false_eq_true, if_false] at word
      rcases read : (readWord nested inner false).outcome r with ⟨e | v, u⟩
      · rw [read] at h
        obtain ⟨sign, -, ⟨expected, found, location, rfl⟩, c, rest, left, text, behind⟩ := keyword_of_orSign h
        have minus := head_of_identifier name sign
        exact ⟨minus, ⟨_, q, name, call⟩, expected, found, location, u, c, rest, read, left, text, behind⟩
      · rw [read] at h
        cases h
        rw [read] at word
        exact absurd rfl ((readCall_marked _ _ _ _ _ word.symm).unworded k)
    · rw [Bool.not_eq_true] at call
      simp only [Except.map, call] at word
      rw [word] at h
      cases h
      exact .inl ⟨q, .name name call, rfl⟩

/-- What is read as a bare word stands in the text as one, between two gaps. Only where a call behind a minus is not
read to its end, the character at which its reading fails is taken for a bare word, and the fault is lost. -/
theorem keyword_of_readPrimitive {s : Reader} (h : readPrimitive.outcome r = (.ok (.keyword k), s)) :
    let call := readWord (nestedIn r.place.rest.length) (innerIn r.place.rest.length) false
    ∃ cs r₁ cs' t, Read.gap.outcome r = (.ok cs, r₁) ∧ Read.gap.outcome t = (.ok cs', s) ∧
      ((∃ q, IsBareWord r.settings r₁.place k q ∧ t = { r₁ with place := q }) ∨ IsFailedCall call r₁ k t) := by
  intro call
  rw [readPrimitive, Read.outcome_bind, Read.outcome_left, Read.following_ok, readPrimitiveIn,
    readPrimitiveWith_eq] at h
  obtain ⟨_, r₁, before, h⟩ := Read.ok_of_bind h
  obtain ⟨cs, before⟩ := Read.ok_of_discard before
  have kept : r₁.settings = r.settings := (gap_steady.kept before).settings
  rw [Read.outcome_bind, Read.outcome_place, Read.following_ok, Read.outcome_bind, Read.outcome_isLenient,
    Read.following_ok] at h
  obtain ⟨v, t, form, h⟩ := Read.ok_of_bind h
  obtain ⟨_, s', behind, h⟩ := Read.ok_of_bind h
  obtain ⟨cs', behind⟩ := Read.ok_of_discard behind
  cases h
  refine ⟨cs, r₁, cs', t, before, behind, ?_⟩
  rw [← kept]
  rcases readForm_cases _ _ _ _ with marked | range | word
  · exact absurd rfl ((marked _ _ _ form).unworded k)
  · rw [range] at form
    exact .inl (isBareWord_of_readRange form)
  · rw [word] at form
    exact isBareWord_of_readWordOrSign form

/-- A range between two gaps. -/
theorem keyword_of_readPrimitive_range :
    let r := Reader.start " U+4?/*a*/ ," {} 1
    let call := readWord (nestedIn r.place.rest.length) (innerIn r.place.rest.length) false
    ∃ s, readPrimitive.outcome r = (.ok (.keyword "U+4?"), s) ∧
      ∃ cs r₁ cs' t, Read.gap.outcome r = (.ok cs, r₁) ∧ Read.gap.outcome t = (.ok cs', s) ∧
        ((∃ q, IsBareWord r.settings r₁.place "U+4?" q ∧ t = { r₁ with place := q }) ∨
          IsFailedCall call r₁ "U+4?" t) := by
  intro r call
  have known : (readPrimitive.outcome r).1.toOption.bind keyword? = some "U+4?" := by decide +kernel
  rcases read : readPrimitive.outcome r with ⟨e | v, s⟩
  · rw [read] at known
    cases known
  · rw [read] at known
    cases v with
    | keyword k =>
      cases known
      exact ⟨s, rfl, keyword_of_readPrimitive read⟩
    | _ => cases known

/-- The fault of a calculation is lost behind a minus: what was read of it up to the fault is a bare word then. -/
theorem keyword_of_failed_calculation :
    let outcome (text : String) := readPrimitive.outcome (Reader.start text {} 1)
    (outcome "calc(1px -2px)").1.toOption.isNone = true ∧
      (outcome "-webkit-calc(1px -2px)").1.toOption.bind keyword? = some "-" ∧
      (outcome "-webkit-calc(1px -2px)").2.place.rest = "2px)".toList := by
  intro outcome
  exact ⟨by decide +kernel, by decide +kernel, by decide +kernel⟩

end Value

end Stylesheet
