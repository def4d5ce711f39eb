import Stylesheet.Selector.Basic

namespace Stylesheet.Selector

/-- Puts a character in front of the first part. -/
def push (c : Char) : List (List Char) → List (List Char)
  | [] => [[c]]
  | part :: parts => (c :: part) :: parts

/-- The parts of a text, inside a quoted text or not, at a depth of brackets. An escaped character is part of the
text whatever it is. -/
def partsFrom : Option Char → Nat → List Char → List (List Char)
  | _, _, [] => [[]]
  | quote, depth, c :: rest =>
    if c = '\\' then
      match rest with
      | [] => [[c]]
      | d :: rest => push c (push d (partsFrom quote depth rest))
    else
      match quote with
      | some q => push c (partsFrom (if c = q then none else some q) depth rest)
      | none =>
        if c = '"' || c = '\'' then push c (partsFrom (some c) depth rest)
        else if c = '(' || c = '[' then push c (partsFrom none (depth + 1) rest)
        else if c = ')' || c = ']' then push c (partsFrom none (depth - 1) rest)
        else if c = ',' && depth = 0 then [] :: partsFrom none 0 rest
        else push c (partsFrom none depth rest)

/-- The selector texts in a list, as they stand. -/
def parts (text : String) : List String := (partsFrom none 0 text.toList).map String.ofList

/-- The selectors in a list; the first one that cannot be one is the fault. -/
def parseList (text : String) (keyframe : Bool) (location : Location) : Except Fault (List Selector) :=
  (parts text).mapM fun part => parse part keyframe location

/-- A list of selectors is read if all its parts are valid; otherwise the fault names a part that is not. -/
theorem parseList_cases (text : String) (keyframe : Bool) :
    ((∀ part ∈ parts text, isValid part keyframe = true) ∧
        ∀ l, parseList text keyframe l = .ok ((parts text).map ofText)) ∨
      ∃ part ∈ parts text, isValid part keyframe = false ∧
        ∀ l, parseList text keyframe l = .error (.unexpectedToken "a valid selector" (Text.trim part) l) := by
  unfold parseList
  induction parts text with
  | nil => exact .inl ⟨by simp, fun _ => rfl⟩
  | cons part more ih =>
    have first (l : Location) : (part :: more).mapM (fun part => parse part keyframe l) =
        parse part keyframe l >>= fun s => more.mapM (fun part => parse part keyframe l) >>= fun ss =>
          pure (s :: ss) := List.mapM_cons
    by_cases valid : isValid part keyframe = true
    · have parsed (l : Location) : parse part keyframe l = .ok (ofText part) := if_pos valid
      rcases ih with ⟨all, h⟩ | ⟨other, mem, wrong, h⟩
      · refine .inl ⟨List.forall_mem_cons.mpr ⟨valid, all⟩, fun l => ?_⟩
        rw [first, parsed, h]
        rfl
      · refine .inr ⟨other, List.mem_cons_of_mem part mem, wrong, fun l => ?_⟩
        rw [first, parsed, h]
        rfl
    · refine .inr ⟨part, List.mem_cons_self, by simpa using valid, fun l => ?_⟩
      rw [first, parse, if_neg valid]
      rfl

theorem parseList_eq_ok_iff {text : String} {keyframe : Bool} {l : Location} {selectors : List Selector} :
    parseList text keyframe l = .ok selectors ↔
      (∀ part ∈ parts text, isValid part keyframe = true) ∧ selectors = (parts text).map ofText := by
  rcases parseList_cases text keyframe with ⟨valid, ok⟩ | ⟨part, mem, wrong, fails⟩
  · rw [ok]
    constructor
    · intro same
      cases same
      exact ⟨valid, rfl⟩
    · rintro ⟨-, rfl⟩
      rfl
  · rw [fails]
    constructor
    · intro same
      cases same
    · rintro ⟨valid, -⟩
      rw [valid part mem] at wrong
      cases wrong

end Stylesheet.Selector
