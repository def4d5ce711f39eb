import Stylesheet.Proofs.BareWords
import Stylesheet.Proofs.Passage

namespace Stylesheet

open Read (AdvancesAt Advances)

/-- A gap is passed as a whole, unless it ends in a comment that takes the rest of the text. -/
theorem Read.gap_cases {r s : Reader} {cs : List Comment} (h : gap.outcome r = (.ok cs, s)) :
    (∃ texts g, IsGap texts g ∧ r.place.rest = g ++ s.place.rest) ∨ EndsInComment r.place.rest ∧ s.place.rest = [] := by
  have passed := gap_of_ok h
  rw [outcome_gap] at h
  split at h
  · next unclosed =>
    have comment := Place.endsInComment_of_pastGap unclosed
    rcases passed with ended | whole
    · exact .inr ⟨comment, ended⟩
    · exact .inl whole
  · cases h
    exact .inl ⟨_, Place.pastGap_isGap r.settings.width r.place⟩

/-- Behind a gap neither a blank nor a comment is left. -/
theorem Read.stops_of_gap {r s : Reader} {cs : List Comment} (h : gap.outcome r = (.ok cs, s)) :
    Stops s.place.rest := by
  rw [outcome_gap] at h
  split at h
  · split at h
    · cases h
      have ended (p : Place) : (p.toEnd r.settings.width).rest = [] := by simp [Place.toEnd]
      change Stops (Place.toEnd r.settings.width _).rest
      rw [ended]
      exact .nil
    · cases h
  · next closed =>
    cases h
    rw [Bool.not_eq_true] at closed
    exact Place.pastGap_stops closed

/-- No identifier begins with a bracket, and none behind a gap with a blank. -/
theorem Place.unended_of_goesOn {s : Settings} {p : Place} (goes : p.goesOn s = true) (stops : Stops p.rest) :
    ∃ c rest, p.rest = c :: rest ∧ Quoted.endsBare c = false := by
  cases left : p.rest with
  | nil => exact absurd left (rest_ne_nil_of_goesOn goes)
  | cons c rest =>
    rw [left] at stops
    have marks : "()<>[]\x7b\x7d".toList.all (fun d => !isIdentifierChar d && d ≠ '\\') = true := by decide
    have bare : ("()<>[]\x7b\x7d".toList.contains c) = false := by
      rw [Bool.eq_false_iff]
      intro mem
      have mark := List.all_eq_true.mp marks c (List.contains_iff_mem.mp mem)
      rw [Bool.and_eq_true, Bool.not_eq_true', decide_eq_true_eq] at mark
      simp [goesOn, left, mark] at goes
    refine ⟨c, rest, rfl, ?_⟩
    rw [Quoted.endsBare, stops.solid_head, bare]
    rfl

/-- A size has a number. -/
theorem Size.read_advances (channel : Bool) : Advances (Size.read channel) := by
  intro r
  apply AdvancesAt.here
  by_cases number : numberAt r.place.rest = []
  · intro a s h
    obtain ⟨-, t, -, h⟩ := Read.ok_of_bind h
    have numberless : Number.Binary64.read? (String.ofList []) = none := by decide
    rw [number, numberless] at h
    cases h
  · have positive : 0 < (String.ofList (numberAt r.place.rest)).length := by
      rw [String.length_ofList]
      exact List.length_pos_iff.mpr number
    have nonempty : r.place.rest ≠ [] := by
      intro left
      rw [left] at number
      exact number rfl
    refine .first (.skip positive nonempty) fun _ text => ?_
    split
    · exact .throw rfl
    · exact .here fun q _ => (Read.Steady.skip _).bind fun _ => .pure _

namespace Quoted

variable {r : Reader} {c : Char} {rest : List Char}

/-- A text takes its quotes, or the character it begins with. -/
theorem read_advancesAt (left : r.place.rest = c :: rest) (within : endsBare c = false) : AdvancesAt r read := by
  have nonempty : r.place.rest ≠ [] := by simp [left]
  rw [read_eq]
  apply AdvancesAt.here
  rw [left, List.head?_cons, readFrom]
  split
  · refine .first (.skip Nat.one_pos nonempty) fun _ text => (Read.Steady.move (Place.moves_textUpTo _)).bind fun t => ?_
    exact .here fun q _ => .orThrow rfl ((Read.Steady.skip 1).bind fun _ => .pure _)
  · refine .first (.of_steady (.move (Place.moves_textUpTo _)) fun t s h => ?_) fun t text => .pure _
    have less := Place.piece_rest (s := r.settings) nonempty
    rw [Read.outcome_move, Place.textUpTo_of_cons left, if_neg (by simp [within])] at h
    rcases one : r.place.piece r.settings with ⟨e | piece, q⟩
    · rw [one] at h
      cases h
    · rw [one] at h less
      obtain ⟨-, rfl⟩ := Prod.mk.inj h
      have ahead := (Place.moves_textUpTo endsBare).ahead r.settings q
      exact Nat.lt_of_le_of_lt ahead.rest_length_le less

end Quoted

namespace Url

/-- Without a call the text is looked at only. -/
theorem place_of_opens {r s : Reader} (h : opens.outcome r = (.ok false, s)) : s.place = r.place := by
  rw [outcome_opens] at h
  split at h
  · rcases word : readWord.outcome r with ⟨e | u, t⟩
    · rw [word] at h
      cases h
    · rw [word] at h
      dsimp only at h
      split at h
      · cases h
      · cases h
        rfl
  · cases h
    rfl

/-- An address takes the parenthesis that closes it, or its own first character. -/
theorem read_advancesAt {r : Reader} (goes : r.place.goesOn r.settings = true)
    (stops : Stops r.place.rest) : AdvancesAt r read := by
  obtain ⟨c, rest, left, within⟩ := Place.unended_of_goesOn goes stops
  refine .here (.behind opens_steady fun call s opened => ?_)
  cases call with
  | true =>
    refine .behind gap_steady.discard fun _ t _ => .behind Quoted.read_steady fun address u _ => ?_
    refine .behind gap_steady.discard fun _ v _ => ?_
    exact .first (Advances.literal (by decide) v).discard fun _ text => .pure _
  | false =>
    have place := place_of_opens opened
    refine .behind gap_steady.discard fun _ t skipped => ?_
    obtain ⟨cs, skipped⟩ := Read.ok_of_discard skipped
    rw [Read.outcome_gap_of_stops (by rw [place]; exact stops)] at skipped
    cases skipped
    exact .first (Quoted.read_advancesAt (by rw [place, left]) within) fun address text => .pure _

end Url

namespace Value

variable {nested : List Separator → Read Value} {inner word : Read Value} {r : Reader}

theorem readHex_advances : Advances readHex := by
  intro r
  refine .here (.first (Advances.literal (by decide) r).discard fun _ text => ?_)
  exact (Read.Steady.identifier _).bind fun digits => .orThrow rfl (.orThrow rfl (.pure _))

theorem readRange_advances : Advances readRange := by
  intro r
  refine .first (Advances.literal (by decide) r).discard fun _ text => .here fun p _ => ?_
  exact .orThrow rfl ((Read.Steady.skip _).bind fun _ => .pure _)

/-- The brackets are taken, whatever stands between them. -/
theorem readLineNames_advances : Advances readLineNames := by
  intro r
  refine .here fun v w h => ?_
  obtain ⟨_, s, opened, h⟩ := Read.ok_of_bind h
  obtain ⟨_, t, skipped, h⟩ := Read.ok_of_bind h
  rw [Read.outcome_bind, Read.outcome_left, Read.following_ok] at h
  obtain ⟨names, u, read, h⟩ := Read.ok_of_bind h
  obtain ⟨_, x, closed, h⟩ := Read.ok_of_bind h
  cases h
  have first := Reader.passes_of_literal (by decide) opened
  have second := first.reaches (gap_steady.discard.reaches skipped)
  have named : Tame t.place.text → t.place.comes "]" = false := by
    intro tame
    rw [second.ahead.text] at tame
    exact not_comes_bracket tame opened skipped
  have kept := (readNames_steadyAt t.place.rest.length rfl named).1
  rw [read] at kept
  exact (second.reaches kept.reaches).reaches (Reader.passes_of_literal (by decide) closed).toReaches

theorem readFilter_advances (hn : ∀ order text, SteadyPart text (nested order)) :
    Advances (readFilter nested) := by
  intro r
  refine .here (.behind (.upTo _ _ _) fun name s _ => .behind (hn _ _) fun v t _ => ?_)
  exact .first (Advances.literal (by decide) t).discard fun _ text => .pure _

theorem readParenthesized_advances (hn : ∀ order text, SteadyPart text (nested order)) :
    Advances (readParenthesized nested) := by
  intro r
  refine .here (.first (Advances.literal (by decide) r).discard fun _ text => ?_)
  exact (readArguments_steady fun order => hn order text).bind fun args => (Read.Steady.literal _).discard.bind fun _ => .pure _

theorem readFunction_advances (hn : ∀ order text, SteadyPart text (nested order)) (ignoreCase : Bool) :
    Advances (readFunction nested ignoreCase) := by
  intro r
  refine .here (.first (Advances.identifier _ r) fun name text => (Read.Steady.literal _).discard.bind fun _ => ?_)
  exact (readArguments_steady fun order => hn order text).bind fun args => (Read.Steady.literal _).discard.bind fun _ => .pure _

theorem readCalculation_advances (hi : ∀ text, SteadyPart text inner) : Advances (readCalculation inner) := by
  intro r
  refine .here (.first (Advances.identifier _ r) fun name text => .here fun q _ => ?_)
  refine .orThrow rfl ((Read.Steady.skip 1).bind fun _ => Read.Steady.left.bind fun n => ?_)
  refine (readTokens_steady (hi text) n 0 false).bind fun tokens => .here fun s _ => ?_
  dsimp only
  split
  · exact (Read.Steady.literal _).discard.bind fun _ => .pure _
  · exact .pure _

theorem readColorFunction_advances (hw : ∀ text, SteadyPart text word) : Advances (readColorFunction word) := by
  intro r
  refine .here (.first (Advances.identifier _ r) fun name text => gap_steady.discard.bind fun _ => ?_)
  refine (Read.Steady.literal _).discard.bind fun _ => (readChannels_steady (hw text) _ _ _ _).bind fun ⟨vs, s⟩ => ?_
  refine (Read.Steady.literal _).discard.bind fun _ => ?_
  split
  · exact .pure _
  · exact .pure _

theorem readColor_advances (hw : ∀ text, SteadyPart text word) : Advances (readColor word) := by
  intro r
  apply AdvancesAt.here
  split
  · exact readHex_advances r
  · exact readColorFunction_advances hw r

/-- A word takes its name, also where a call goes back to read it once more. -/
theorem readWord_advancesAt (hn : ∀ order text, SteadyPart text (nested order)) (hi : ∀ text, SteadyPart text inner)
    (ignoreCase : Bool) (stops : Stops r.place.rest) :
    AdvancesAt r (readWord nested inner ignoreCase) := by
  intro v t h
  rw [outcome_readWord] at h
  rcases name : (Read.identifier ignoreCase).outcome r with ⟨e | text, s⟩
  · rw [name] at h
    cases h
  · rw [name] at h
    have passed := Advances.identifier ignoreCase r text s name
    dsimp only at h
    split at h
    · cases h
      exact passed
    · have again : ({ s with place := r.place } : Reader).place = r.place := rfl
      have goes : r.place.goesOn r.settings = true := by
        rw [Read.outcome_identifier] at name
        rcases taken : (r.place.identifier r.settings).1 with e | spelled
        · rw [taken] at name
          cases name
        · exact Place.goesOn_of_identifier taken
      have call : AdvancesAt { s with place := r.place } (readCall nested inner ignoreCase text) := by
        unfold readCall
        split
        · refine .first (Url.read_advancesAt ?_ stops) fun u text => .pure _
          change r.place.goesOn s.settings = true
          rw [passed.settings]
          exact goes
        · split
          · exact readCalculation_advances hi _
          · exact readFunction_advances hn ignoreCase _
      have behind := call v t h
      refine ⟨⟨behind.settings.trans passed.settings, ?_⟩, behind.shorter⟩
      have ahead := behind.ahead
      change Place.Ahead s.settings.width _ _ at ahead
      rwa [passed.settings] at ahead

/-- A sign that stands for a word is a character of the text behind the place where the word failed. -/
theorem readWordOrSign_advancesAt (hw : AdvancesAt r word) (steady : ∀ text, SteadyPart text word) :
    AdvancesAt r (readWordOrSign word) := by
  intro v t h
  rw [outcome_readWordOrSign] at h
  rcases read : word.outcome r with ⟨e | u, s⟩
  · rw [read] at h
    have sign : AdvancesAt s (orSign r.place.rest.head? e) := by
      unfold orSign
      split
      · split
        · exact .map (Advances.take Nat.one_pos s)
        · exact .throw _
      · exact .throw _
    exact ((steady _).reaches read).passes (sign v t h)
  · rw [read] at h
    cases h
    exact hw v t read

theorem readForm_advancesAt (hn : ∀ order text, SteadyPart text (nested order)) (hi : ∀ text, SteadyPart text inner)
    (lenient : Bool) (stops : Stops r.place.rest) :
    AdvancesAt r (readForm nested inner lenient r.place) := by
  have word (ignoreCase : Bool) (text : List Char) : SteadyPart text (readWord nested inner ignoreCase) :=
    readWord_steady (fun order => hn order text) (hi text) ignoreCase
  unfold readForm
  split
  · exact .map (Size.read_advances false r)
  · split
    · exact readColor_advances (word true) r
    · split
      · next quote =>
        have marked : ∃ c rest, r.place.rest = c :: rest ∧ Quoted.endsBare c = false := by
          rw [Bool.or_eq_true] at quote
          rcases quote with single | double
          · obtain ⟨-, rest, left⟩ := Place.comes_iff.mp single
            exact ⟨_, rest, left.symm, by decide⟩
          · obtain ⟨-, rest, left⟩ := Place.comes_iff.mp double
            exact ⟨_, rest, left.symm, by decide⟩
        obtain ⟨c, rest, left, within⟩ := marked
        exact .map (Quoted.read_advancesAt left within)
      · split
        · exact readFilter_advances hn r
        · split
          · exact readLineNames_advances r
          · split
            · exact readRange_advances r
            · split
              · exact readParenthesized_advances hn r
              · exact readWordOrSign_advancesAt (readWord_advancesAt hn hi false stops) (word false)

theorem readPrimitiveWith_advances (hn : ∀ order text, SteadyPart text (nested order))
    (hi : ∀ text, SteadyPart text inner) : Advances (readPrimitiveWith nested inner) := by
  intro r
  rw [readPrimitiveWith_eq]
  refine .behind gap_steady.discard fun _ s skipped => .here (.asking (.first ?_ fun v text => ?_))
  · obtain ⟨cs, skipped⟩ := Read.ok_of_discard skipped
    exact readForm_advancesAt hn hi _ (Read.stops_of_gap skipped)
  · exact gap_steady.discard.bind fun _ => .pure v

/-- Every value that is no list takes some of the text. -/
theorem readPrimitiveIn_advances (n : Nat) : Advances (readPrimitiveIn n) := by
  rw [readPrimitiveIn]
  exact readPrimitiveWith_advances (fun order _ => nestedIn_steady n order) fun _ => innerIn_steady n

/-- A value has a first primitive. -/
theorem readWith_advances {primitive : Read Value} (steady : ∀ text, SteadyPart text primitive)
    (hp : Advances primitive) (order : List Separator) : Advances (readWith primitive order) := by
  refine .behind (fun _ => .place) fun start => .behind (fun _ => gap_steady.discard) fun _ => fun r => ?_
  refine .here (.asking (Advances.orThrow (.first hp fun first text => ?_) r))
  refine gap_steady.discard.bind fun _ => Read.Steady.left.bind fun n => (readMore_steady (steady text) order n).bind ?_
  intro more
  dsimp only
  split
  · exact .pure _
  · exact .here fun q _ => .throw rfl

theorem innerIn_advances (n : Nat) : Advances (innerIn n) :=
  fun r => .shorter (fun m _ => readPrimitiveIn_advances m r) (.here (.throw _))

end Value

end Stylesheet
