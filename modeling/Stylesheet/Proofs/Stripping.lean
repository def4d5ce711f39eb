import Mathlib.Data.List.Infix
import Stylesheet.Proofs.DocumentOrder
import Stylesheet.Proofs.Takes

namespace Stylesheet

open Segment (textOf plainTextOf commentsFrom ofChars)

/-- Every comment stands right behind a character, and behind no character a comment is opened that is never closed. -/
structure Segment.ComesApart (ss : List Segment) : Prop where
  begins : ∀ text, ss.head? ≠ some (.comment text)
  apart : ∀ text next, ¬ [.comment text, .comment next] <:+: ss
  closed : ∀ c, ¬ [.char c, .char '/', .char '*'] <:+: ss

namespace Segment.ComesApart

variable {ss : List Segment} {c : Char} {text : String}

theorem nil : ComesApart [] :=
  ⟨fun _ => nofun, fun _ _ h => (by simp at h), fun _ h => (by simp at h)⟩

theorem char_iff (plain : ∀ text more, ss ≠ .comment text :: more) (closed : ∀ more, ss ≠ .char '/' :: .char '*' :: more) :
    ComesApart (.char c :: ss) ↔ ComesApart ss := by
  constructor
  · intro h
    refine ⟨fun text hs => ?_, fun text next hi => h.apart text next (List.infix_cons_iff.mpr (.inr hi)),
      fun d hi => h.closed d (List.infix_cons_iff.mpr (.inr hi))⟩
    cases ss with
    | nil => cases hs
    | cons s more =>
      cases hs
      exact plain text more rfl
  · intro h
    refine ⟨fun text => nofun, fun text next hi => ?_, fun d hi => ?_⟩
    · rcases List.infix_cons_iff.mp hi with start | behind
      · obtain ⟨t, ht⟩ := start
        cases ht
      · exact h.apart text next behind
    · rcases List.infix_cons_iff.mp hi with start | behind
      · obtain ⟨t, ht⟩ := start
        rw [List.cons_append, List.cons.injEq] at ht
        exact closed t ht.2.symm
      · exact h.closed d behind

theorem comment_iff : ComesApart (.char c :: .comment text :: ss) ↔ ComesApart ss := by
  constructor
  · intro h
    refine ⟨fun next hs => ?_, fun first next hi => ?_, fun d hi => ?_⟩
    · cases ss with
      | nil => cases hs
      | cons s more =>
        cases hs
        exact h.apart text next ⟨[.char c], more, rfl⟩
    · exact h.apart first next (List.infix_cons_iff.mpr (.inr (List.infix_cons_iff.mpr (.inr hi))))
    · exact h.closed d (List.infix_cons_iff.mpr (.inr (List.infix_cons_iff.mpr (.inr hi))))
  · intro h
    refine ⟨fun text => nofun, fun first next hi => ?_, fun d hi => ?_⟩
    · rcases List.infix_cons_iff.mp hi with start | behind
      · obtain ⟨t, ht⟩ := start
        cases ht
      · rcases List.infix_cons_iff.mp behind with start | behind
        · obtain ⟨t, ht⟩ := start
          rw [List.cons_append, List.cons.injEq] at ht
          exact h.begins next (by rw [← ht.2]; rfl)
        · exact h.apart first next behind
    · rcases List.infix_cons_iff.mp hi with start | behind
      · obtain ⟨t, ht⟩ := start
        cases ht
      · rcases List.infix_cons_iff.mp behind with start | behind
        · obtain ⟨t, ht⟩ := start
          cases ht
        · exact h.closed d behind

end Segment.ComesApart

namespace Place

variable {width : Char → Nat} {stops : List Char} {p : Place} {ss before after : List Segment} {c stop : Char}

/-- What a search does with a character before the stop: the comment behind it is taken out, ends the search if it is never
closed, or is none. -/
theorem upTo_char_cases (width : Char → Nat) (hp : ofChars p.rest = .char c :: (ss ++ .char stop :: after))
    (other : stop ≠ '/' ∧ stop ≠ '*') (hc : c ∉ stops) :
    (∃ text more q, ss = .comment text :: more ∧ q = (p.next width).forward width (text.toList.length + 4) ∧
      ofChars q.rest = more ++ .char stop :: after ∧
      p.upTo width stops = ⟨c :: (q.upTo width stops).text,
        ⟨text, some (p.next width).position⟩ :: (q.upTo width stops).comments, (q.upTo width stops).place,
        (q.upTo width stops).halt⟩) ∨
    (∃ more, ss = .char '/' :: .char '*' :: more ∧ (p.upTo width stops).halt = .unclosed) ∨
    ((∀ text more, ss ≠ .comment text :: more) ∧ (∀ more, ss ≠ .char '/' :: .char '*' :: more) ∧
      ofChars (p.next width).rest = ss ++ .char stop :: after ∧
      p.upTo width stops = ⟨c :: ((p.next width).upTo width stops).text, ((p.next width).upTo width stops).comments,
        ((p.next width).upTo width stops).place, ((p.next width).upTo width stops).halt⟩) := by
  obtain ⟨rest, start, parts⟩ := rest_of_char hp
  have behind : ofChars (p.next width).rest = ss ++ .char stop :: after := by
    rw [next_rest, start, List.tail_cons, parts]
  rw [upTo_of_cons start, if_neg hc]
  rcases opening_cases width (p.next width) with ⟨text, opens, found⟩ | ⟨opens, more, found⟩ | ⟨opens, plain, closed⟩
  · rw [behind] at found
    cases ss with
    | nil => cases found
    | cons s more =>
      obtain ⟨rfl, rest⟩ := List.cons.inj found
      exact .inl ⟨text, more, _, rfl, rfl, rest.symm, by rw [opens]⟩
  · rw [behind] at found
    match ss, found with
    | [], found => exact absurd (Segment.char.inj (List.cons.inj found).1) other.1
    | [_], found => exact absurd (Segment.char.inj (List.cons.inj (List.cons.inj found).2).1) other.2
    | _ :: _ :: tail, found =>
      obtain ⟨slash, rest⟩ := List.cons.inj found
      obtain ⟨star, -⟩ := List.cons.inj rest
      exact .inr (.inl ⟨tail, by rw [slash, star], by rw [opens]⟩)
  · rw [behind] at plain closed
    refine .inr (.inr ⟨fun text more h => ?_, fun more h => ?_, behind, by rw [opens]⟩)
    · exact plain text (more ++ .char stop :: after) (by rw [h]; rfl)
    · exact closed (more ++ .char stop :: after) (by rw [h]; rfl)

/-- A comment that a search takes out stands behind the place where the search began. -/
theorem before_of_mem_upTo (positive : ∀ c, 0 < width c) (stops : List Char) (p : Place) :
    ∀ k ∈ (p.upTo width stops).comments, ∃ q, k.position = some q ∧ p.position.before q = true := by
  fun_induction upTo width stops p with
  | case1 | case2 | case4 =>
    intro k hk
    cases hk
  | case3 p c rest hr hc h run ih =>
    intro k hk
    obtain ⟨q, hq, later⟩ := ih k hk
    exact ⟨q, hq, Position.before_trans (before_next positive hr) later⟩
  | case5 p c rest hr hc k q h run ih =>
    have first := before_next positive hr
    intro l hl
    rcases List.mem_cons.mp hl with rfl | behind
    · have stands : l.position = some (p.next width).position := by
        rcases opening_cases width (p.next width) with ⟨text, opens, -⟩ | ⟨opens, -⟩ | ⟨opens, -⟩
        · rw [opens] at h
          cases h
          rfl
        · rw [opens] at h
          cases h
        · rw [opens] at h
          cases h
      exact ⟨_, stands, first⟩
    · obtain ⟨q', hq, later⟩ := ih l behind
      have passed := (ahead_of_opening h).before positive (opening_rest h)
      exact ⟨q', hq, Position.before_trans (Position.before_trans first passed) later⟩

/-- Where every comment comes right behind a character, a search takes out all of them and nothing else. -/
theorem upTo_of_comesApart (width : Char → Nat) (apart : Segment.ComesApart before)
    (hp : ofChars p.rest = before ++ .char stop :: after) (other : stop ≠ '/' ∧ stop ≠ '*') (hstop : stop ∈ stops)
    (first : ∀ c, .char c ∈ before → c ∉ stops) :
    p.upTo width stops =
      ⟨plainTextOf before, commentsFrom width p before, p.forward width (textOf before).length, .found⟩ := by
  induction hn : before.length using Nat.strongRecOn generalizing before p with
  | ind n ih =>
    subst hn
    match before, apart, hp, first with
    | [], _, hp, _ =>
      obtain ⟨rest, start, -⟩ := rest_of_char hp
      rw [upTo_of_cons start, if_pos hstop]
      rfl
    | .comment text :: _, apart, _, _ => exact absurd rfl (apart.begins text)
    | .char c :: ss, apart, hp, first =>
      have others : ∀ d, .char d ∈ ss → d ∉ stops := fun d hd => first d (List.mem_cons_of_mem _ hd)
      rcases upTo_char_cases width hp other (first c List.mem_cons_self) with
        ⟨text, more, q, rfl, rfl, hq, run⟩ | ⟨more, rfl, -⟩ | ⟨plain, closed, hq, run⟩
      · have inner := ih more.length (by simp only [List.length_cons]; omega)
          (Segment.ComesApart.comment_iff.mp apart) hq (fun d hd => others d (List.mem_cons_of_mem _ hd)) rfl
        have length : (textOf (.char c :: .comment text :: more)).length =
            1 + (text.toList.length + 4 + (textOf more).length) := by
          rw [Segment.textOf_cons, Segment.textOf_cons, List.length_append, List.length_append,
            Segment.length_chars_comment]
          rfl
        rw [run, inner, length, forward_add width 1, forward_add width (text.toList.length + 4)]
        rfl
      · exact absurd ⟨[], more, rfl⟩ (apart.closed c)
      · have inner := ih ss.length (by simp only [List.length_cons]; omega)
          ((Segment.ComesApart.char_iff plain closed).mp apart) hq others rfl
        rw [run, inner, Segment.textOf_cons, List.length_append, forward_add]
        rfl

/-- A search that takes out every comment before the stop finds each right behind a character. -/
theorem comesApart_of_upTo (positive : ∀ c, 0 < width c) (hp : ofChars p.rest = before ++ .char stop :: after)
    (other : stop ≠ '/' ∧ stop ≠ '*') (first : ∀ c, .char c ∈ before → c ∉ stops)
    (ends : (p.upTo width stops).halt ≠ .unclosed)
    (all : (p.upTo width stops).comments = commentsFrom width p before) : Segment.ComesApart before := by
  induction hn : before.length using Nat.strongRecOn generalizing before p with
  | ind n ih =>
    subst hn
    match before, hp, first, all with
    | [], _, _, _ => exact .nil
    | .comment text :: ss, _, _, all =>
      -- no comment that is taken out stands where the search begins
      have mem : ⟨text, some p.position⟩ ∈ (p.upTo width stops).comments := all ▸ List.mem_cons_self
      obtain ⟨q, hq, later⟩ := before_of_mem_upTo positive stops p _ mem
      cases hq
      rw [Position.before_irrefl] at later
      cases later
    | .char c :: ss, hp, first, all =>
      have others : ∀ d, .char d ∈ ss → d ∉ stops := fun d hd => first d (List.mem_cons_of_mem _ hd)
      rcases upTo_char_cases width hp other (first c List.mem_cons_self) with
        ⟨text, more, q, rfl, rfl, hq, run⟩ | ⟨more, rfl, unclosed⟩ | ⟨plain, closed, hq, run⟩
      · rw [run] at ends all
        exact Segment.ComesApart.comment_iff.mpr (ih more.length (by simp only [List.length_cons]; omega) hq
          (fun d hd => others d (List.mem_cons_of_mem _ hd)) ends (List.cons.inj all).2 rfl)
      · exact absurd unclosed ends
      · rw [run] at ends all
        exact (Segment.ComesApart.char_iff plain closed).mpr
          (ih ss.length (by simp only [List.length_cons]; omega) hq others ends all rfl)

end Place

namespace Read

/-- A gap yields its comments in their order, each with the place where it stands, and ends behind the last segment. -/
theorem gap_segments {ss : List Segment} (fits : ∀ s ∈ ss, s.InGap) {rest : List Char}
    (solid : ∀ c more, rest = c :: more → Text.isBlank c = false ∧ c ≠ '/') {r : Reader}
    (hr : r.place.rest = textOf ss ++ rest) :
    gap.outcome r = (.ok (commentsFrom r.settings.width r.place ss),
      { r with place := r.place.forward r.settings.width (textOf ss).length }) := by
  have stops : Stops rest := by
    cases rest with
    | nil => exact .nil
    | cons c more => exact .cons (solid c more rfl).1 (solid c more rfl).2
  rw [outcome_gap, Place.pastGap_of_segments fits stops hr, if_neg Bool.false_ne_true]

/-- A gap with an empty comment, a comment of a star and one of a slash, before a name. -/
theorem gap_segments_stars :
    let r := Reader.start " /**//***/\n/*/*/a" {} 1
    let ss : List Segment := [.char ' ', .comment "", .comment "*", .char '\n', .comment "/"]
    (∀ s ∈ ss, s.InGap) ∧ (∀ c more, ['a'] = c :: more → Text.isBlank c = false ∧ c ≠ '/') ∧
      r.place.rest = textOf ss ++ ['a'] ∧
      gap.outcome r = (.ok [⟨"", some ⟨1, 1⟩⟩, ⟨"*", some ⟨1, 5⟩⟩, ⟨"/", some ⟨2, 0⟩⟩],
        { r with place := r.place.forward r.settings.width 16 }) := by
  intro r ss
  have comments : ∀ text ∈ ["", "*", "/"], (Segment.comment text).InGap := by
    simp only [List.forall_mem_cons, List.not_mem_nil, false_implies, implies_true, and_true]
    exact ⟨Text.not_infix_of_hasPair (by decide), Text.not_infix_of_hasPair (by decide),
      Text.not_infix_of_hasPair (by decide)⟩
  have fits : ∀ s ∈ ss, s.InGap := by
    simp only [ss, List.forall_mem_cons, List.not_mem_nil, false_implies, implies_true, and_true]
    exact ⟨rfl, comments _ (by decide), comments _ (by decide), rfl, comments _ (by decide)⟩
  have solid : ∀ c more, ['a'] = c :: more → Text.isBlank c = false ∧ c ≠ '/' := by
    rintro c more h
    cases h
    decide
  have start : r.place.rest = textOf ss ++ ['a'] := by decide
  exact ⟨fits, solid, start, gap_segments fits solid start⟩

/-- A search for a stop yields the text before it without comments, and all comments with their places, exactly if every
comment there comes right behind a character. -/
theorem upTo_strips_iff {stops : List Char} (unslashed : '/' ∉ stops) (unstarred : '*' ∉ stops) (stopAt : StopAt)
    (orEnd : Bool) {r : Reader} {before after : List Segment} {stop : Char}
    (hr : ofChars r.place.rest = before ++ .char stop :: after) (hstop : stop ∈ stops)
    (first : ∀ c, .char c ∈ before → c ∉ stops) :
    ((upTo stops stopAt orEnd).outcome r =
        (.ok (String.ofList (plainTextOf before ++ if stopAt = .including then [stop] else [])),
          { r with place := r.place.forward r.settings.width ((textOf before).length + if stopAt = .before then 0 else 1) }) ∧
      (commentsUpTo stops).outcome r = (.ok (commentsFrom r.settings.width r.place before), r)) ↔
    Segment.ComesApart before := by
  have other : stop ≠ '/' ∧ stop ≠ '*' := ⟨fun h => unslashed (h ▸ hstop), fun h => unstarred (h ▸ hstop)⟩
  have search : (commentsUpTo stops).outcome r = (.ok (r.place.upTo r.settings.width stops).comments, r) := rfl
  rw [search, upTo, outcome_move]
  constructor
  · rintro ⟨found, all⟩
    refine Place.comesApart_of_upTo r.settings.width_pos hr other first (fun unclosed => ?_)
      (Except.ok.inj (Prod.mk.inj all).1)
    simp only [upToStop, unclosed] at found
    cases (Prod.mk.inj found).1
  · intro apart
    have run := Place.upTo_of_comesApart r.settings.width apart hr other hstop first
    refine ⟨?_, by rw [run]⟩
    have left : (r.place.forward r.settings.width (textOf before).length).rest.take 1 = [stop] := by
      have written := congrArg textOf hr
      rw [Segment.textOf_ofChars, textOf, List.flatMap_append] at written
      rw [Place.forward_rest, written, textOf, List.drop_left]
      rfl
    cases stopAt with
    | before => simp only [upToStop, run, reduceCtorEq, if_false, if_true, List.append_nil, Nat.add_zero]
    | behind =>
      simp only [upToStop, run, reduceCtorEq, if_false, List.append_nil, Place.forward_add, Place.forward]
    | including =>
      simp only [upToStop, run, left, reduceCtorEq, if_false, if_true, Place.forward_add, Place.forward]

/-- A search takes out a comment between two characters, and the brace in it is no stop. -/
theorem upTo_strips_between :
    let r := Reader.start "a/*\x7b*/c\x7bd" {} 1
    let before : List Segment := [.char 'a', .comment "\x7b", .char 'c']
    '/' ∉ ['\x7b'] ∧ '*' ∉ ['\x7b'] ∧ ofChars r.place.rest = before ++ .char '\x7b' :: [.char 'd'] ∧
      '\x7b' ∈ ['\x7b'] ∧ (∀ c, .char c ∈ before → c ∉ ['\x7b']) ∧
      (upTo ['\x7b'] .including false).outcome r =
        (.ok "ac\x7b", { r with place := r.place.forward r.settings.width 8 }) ∧
      (commentsUpTo ['\x7b']).outcome r = (.ok [⟨"\x7b", some ⟨1, 1⟩⟩], r) := by
  intro r before
  have parts : ofChars r.place.rest = before ++ .char '\x7b' :: [.char 'd'] := by decide +kernel
  have first : ∀ c, .char c ∈ before → c ∉ ['\x7b'] := by
    intro c hc
    simp only [before, List.mem_cons, Segment.char.injEq, reduceCtorEq, List.not_mem_nil, or_false, false_or] at hc
    rcases hc with rfl | rfl
    · decide
    · decide
  have apart : Segment.ComesApart before :=
    Segment.ComesApart.comment_iff.mpr
      ((Segment.ComesApart.char_iff (by simp) (by simp)).mpr .nil)
  exact ⟨by decide, by decide, parts, by decide, first,
    (upTo_strips_iff (by decide) (by decide) .including false parts (by decide) first).mpr apart⟩

/-- A comment right behind another one is taken for text, and so is one at the start; the brace in it is then a stop. -/
theorem upTo_leaves_comment :
    let behind := "a/*b*//*\x7b*/c\x7b"
    let start := "/*b*/a\x7b"
    (ofChars behind.toList = [.char 'a', .comment "b", .comment "\x7b", .char 'c', .char '\x7b'] ∧
      ((upTo ['\x7b'] .before false).outcome (Reader.start behind {} 1)).1.toOption = some "a/*" ∧
      ((commentsUpTo ['\x7b']).outcome (Reader.start behind {} 1)).1.toOption = some [⟨"b", some ⟨1, 1⟩⟩]) ∧
    (ofChars start.toList = [.comment "b", .char 'a', .char '\x7b'] ∧
      ((upTo ['\x7b'] .before false).outcome (Reader.start start {} 1)).1.toOption = some "/*b*/a" ∧
      ((commentsUpTo ['\x7b']).outcome (Reader.start start {} 1)).1.toOption = some []) := by
  decide +kernel

end Read

end Stylesheet
