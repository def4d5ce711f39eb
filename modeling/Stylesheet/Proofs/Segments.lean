import Stylesheet.Proofs.Gap

namespace Stylesheet

/-- A whole comment or one character outside of comments. -/
inductive Segment
  | char (c : Char)
  | comment (text : String)
  deriving DecidableEq

namespace Segment

/-- What is written of a segment. -/
def chars : Segment → List Char
  | char c => [c]
  | comment text => (Comment.toCss ⟨text, none⟩).toList

def char? : Segment → Option Char
  | char c => some c
  | comment _ => none

def comment? : Segment → Option String
  | char _ => none
  | comment text => some text

/-- The text of segments. -/
def textOf (ss : List Segment) : List Char := ss.flatMap chars

/-- The text without its comments. -/
def plainTextOf (ss : List Segment) : List Char := ss.filterMap char?

/-- The comments of segments that begin at `p`, each with the position of its slash. -/
def commentsFrom (width : Char → Nat) : Place → List Segment → List Comment
  | _, [] => []
  | p, char _ :: ss => commentsFrom width (p.next width) ss
  | p, comment text :: ss =>
    ⟨text, some p.position⟩ :: commentsFrom width (p.forward width (text.toList.length + 4)) ss

/-- The segments of a text. A comment that is opened and never closed is none, so its characters stand for themselves. -/
def ofChars : List Char → List Segment
  | '/' :: '*' :: rest =>
    match Place.commentBody? rest with
    | some body => comment (String.ofList body) :: ofChars (rest.drop (body.length + 2))
    | none => char '/' :: ofChars ('*' :: rest)
  | c :: rest => char c :: ofChars rest
  | [] => []
termination_by l => l.length
decreasing_by
  · simp only [List.length_drop, List.length_cons]
    omega
  · simp only [List.length_cons]
    omega
  · simp only [List.length_cons]
    omega

theorem chars_comment (text : String) : (comment text).chars = '/' :: '*' :: (text.toList ++ ['*', '/']) := by
  simp [chars, Comment.toCss]

theorem length_chars_comment (text : String) : (comment text).chars.length = text.toList.length + 4 := by
  simp [chars_comment]

theorem textOf_cons (s : Segment) (ss : List Segment) : textOf (s :: ss) = s.chars ++ textOf ss := List.flatMap_cons

/-- Nothing of a text is lost. -/
theorem textOf_ofChars (l : List Char) : textOf (ofChars l) = l := by
  fun_induction ofChars l with
  | case1 rest body hb ih =>
    obtain ⟨⟨tail, rfl⟩, -⟩ := Place.commentBody?_eq_some hb
    have behind : (body ++ '*' :: '/' :: tail).drop (body.length + 2) = tail := by
      rw [← List.drop_drop, List.drop_left]
      rfl
    rw [behind] at ih
    rw [textOf_cons, behind, ih, chars_comment, String.toList_ofList]
    simp
  | case2 rest hb ih =>
    rw [textOf_cons, ih]
    rfl
  | case3 c rest _ ih =>
    rw [textOf_cons, ih]
    rfl
  | case4 => rfl

/-- The texts of the comments are those of the segments. -/
theorem texts_commentsFrom (width : Char → Nat) (p : Place) (ss : List Segment) :
    (commentsFrom width p ss).map Comment.text = ss.filterMap comment? := by
  induction ss generalizing p with
  | nil => rfl
  | cons s ss ih =>
    cases s with
    | char c => exact ih _
    | comment text => exact congrArg (text :: ·) (ih _)

/-- A segment that may stand in a gap. -/
def InGap : Segment → Prop
  | char c => Text.isBlank c = true
  | comment text => ¬ ['*', '/'] <:+: text.toList

end Segment

open Segment (textOf commentsFrom ofChars)

/-- A gap is written of segments. -/
theorem IsGap.segments {texts : List String} {g : List Char} (h : IsGap texts g) :
    ∃ ss : List Segment, (∀ s ∈ ss, s.InGap) ∧ textOf ss = g ∧ ss.filterMap Segment.comment? = texts := by
  induction h with
  | nil => exact ⟨[], nofun, rfl, rfl⟩
  | @blank _ c _ hc _ ih =>
    obtain ⟨ss, fits, rfl, rfl⟩ := ih
    exact ⟨.char c :: ss, List.forall_mem_cons.mpr ⟨hc, fits⟩, rfl, rfl⟩
  | @comment _ body _ hb _ ih =>
    obtain ⟨ss, fits, rfl, rfl⟩ := ih
    refine ⟨.comment (String.ofList body) :: ss, List.forall_mem_cons.mpr ⟨?_, fits⟩, ?_, rfl⟩
    · rw [Segment.InGap, String.toList_ofList]
      exact hb
    · rw [Segment.textOf_cons, Segment.chars_comment, String.toList_ofList]
      simp

namespace Place

/-- A comment is looked for at a place: the segments tell what is found. -/
theorem opening_cases (width : Char → Nat) (p : Place) :
    (∃ text : String, p.opening width =
        .whole ⟨text, some p.position⟩ (p.forward width (text.toList.length + 4)) ∧
      ofChars p.rest = .comment text :: ofChars (p.forward width (text.toList.length + 4)).rest) ∨
    (p.opening width = .unclosed ∧ ∃ ss, ofChars p.rest = .char '/' :: .char '*' :: ss) ∨
    (p.opening width = .absent ∧ (∀ text ss, ofChars p.rest ≠ .comment text :: ss) ∧
      ∀ ss, ofChars p.rest ≠ .char '/' :: .char '*' :: ss) := by
  unfold opening
  split
  · next rest hr =>
    split
    · next hb =>
      refine .inr (.inl ⟨rfl, ofChars rest, ?_⟩)
      rw [hr, ofChars, hb, ofChars]
      exact nofun
    · next body hb =>
      refine .inl ⟨String.ofList body, ?_, ?_⟩
      · rw [String.toList_ofList]
      · rw [forward_rest, hr, ofChars, hb, String.toList_ofList]
        rfl
  · next hr =>
    refine .inr (.inr ⟨rfl, fun text ss h => ?_, fun ss h => ?_⟩)
    · have written := congrArg textOf h
      rw [Segment.textOf_ofChars, Segment.textOf_cons, Segment.chars_comment] at written
      exact hr _ written
    · have written := congrArg textOf h
      rw [Segment.textOf_ofChars] at written
      exact hr _ written

/-- A character that is a segment comes first. -/
theorem rest_of_char {p : Place} {c : Char} {ss : List Segment} (h : ofChars p.rest = .char c :: ss) :
    ∃ rest, p.rest = c :: rest ∧ ofChars rest = ss := by
  generalize p.rest = l at h
  rw [ofChars.eq_def] at h
  split at h
  · split at h
    · cases h
    · cases h
      exact ⟨_, rfl, rfl⟩
  · cases h
    exact ⟨_, rfl, rfl⟩
  · cases h

end Place

end Stylesheet
