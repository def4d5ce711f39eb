import Mathlib.Data.List.Basic
import Stylesheet.Selector.Split

namespace Stylesheet.Selector

/-- Where a scan of selectors stands: in quotes or not, with so many brackets open, behind a backslash or not. -/
structure Nesting where
  quote : Option Char := none
  depth : Nat := 0
  escaped : Bool := false
  deriving DecidableEq

/-- One character on. Brackets do not count in quotes, and nothing counts behind a backslash. -/
def Nesting.next (n : Nesting) (c : Char) : Nesting :=
  if n.escaped then { n with escaped := false }
  else if c = '\\' then { n with escaped := true }
  else
    match n.quote with
    | some q => { n with quote := if c = q then none else some q }
    | none =>
      if c = '"' || c = '\'' then { n with quote := some c }
      else if c = '(' || c = '[' then { n with depth := n.depth + 1 }
      else if c = ')' || c = ']' then { n with depth := n.depth - 1 }
      else n

/-- Behind this text nothing is open: neither quotes nor brackets nor an escape. -/
def IsOutside (before : List Char) : Prop := before.foldl Nesting.next {} = {}

instance (before : List Char) : Decidable (IsOutside before) := inferInstanceAs (Decidable (_ = _))

/-- The parts of a text as the scan goes on from `n`. -/
def partsIn (n : Nesting) : List Char → List (List Char)
  | [] => [[]]
  | c :: rest => if n = {} ∧ c = ',' then [] :: partsIn {} rest else push c (partsIn (n.next c) rest)

/-- Puts two lists of parts together where no comma stands between them: the last part goes on with the first one. -/
def seam : List (List Char) → List (List Char) → List (List Char)
  | [], more => more
  | [part], [] => [part]
  | [part], next :: more => (part ++ next) :: more
  | part :: second :: parts, more => part :: seam (second :: parts) more

theorem push_ne_nil (c : Char) (parts : List (List Char)) : push c parts ≠ [] := by
  cases parts with
  | nil => exact List.cons_ne_nil _ _
  | cons part parts => exact List.cons_ne_nil _ _

theorem partsIn_ne_nil (n : Nesting) (cs : List Char) : partsIn n cs ≠ [] := by
  cases cs with
  | nil => exact List.cons_ne_nil _ _
  | cons c rest =>
    rw [partsIn]
    split
    · exact List.cons_ne_nil _ _
    · exact push_ne_nil _ _

/-- The parts are those that a scan from character to character finds. -/
theorem partsFrom_eq (quote : Option Char) (depth : Nat) (cs : List Char) :
    partsFrom quote depth cs = partsIn ⟨quote, depth, false⟩ cs := by
  fun_induction partsFrom quote depth cs with
  | case1 => rfl
  | case2 quote depth => simp [partsIn, push]
  | case3 quote depth d rest ih => simp [partsIn, Nesting.next, ih]
  | case4 depth c rest escape q ih => simp [partsIn, Nesting.next, escape, ih]
  | case5 depth c rest escape quote ih =>
    have mark : c ≠ ',' := by
      rintro rfl
      simp at quote
    simp [partsIn, Nesting.next, escape, quote, mark, ih]
  | case6 depth c rest escape quote opening ih =>
    have mark : c ≠ ',' := by
      rintro rfl
      simp at opening
    simp [partsIn, Nesting.next, escape, quote, opening, mark, ih]
  | case7 depth c rest escape quote opening closing ih =>
    have mark : c ≠ ',' := by
      rintro rfl
      simp at closing
    simp [partsIn, Nesting.next, escape, quote, opening, closing, mark, ih]
  | case8 depth c rest escape quote opening closing comma ih =>
    simp only [Bool.and_eq_true, decide_eq_true_eq] at comma
    simp [partsIn, comma, ih]
  | case9 depth c rest escape quote opening closing inside ih =>
    have other : ¬ (c = ',' ∧ depth = 0) := by simpa using inside
    have stay : Nesting.next ⟨none, depth, false⟩ c = ⟨none, depth, false⟩ := by
      simp [Nesting.next, escape, quote, opening, closing]
    rw [partsIn, stay, ih, if_neg]
    rintro ⟨outside, mark⟩
    exact other ⟨mark, congrArg Nesting.depth outside⟩

theorem seam_push (c : Char) {parts : List (List Char)} (nonempty : parts ≠ []) (more : List (List Char)) :
    seam (push c parts) more = push c (seam parts more) := by
  match parts, more with
  | [], _ => exact absurd rfl nonempty
  | [_], [] => rfl
  | [_], _ :: _ => rfl
  | _ :: _ :: _, _ => rfl

/-- Scanning a text and then a second one finds the parts of both, with a seam between them. -/
theorem partsIn_append (n : Nesting) (before after : List Char) :
    partsIn n (before ++ after) = seam (partsIn n before) (partsIn (before.foldl Nesting.next n) after) := by
  induction before generalizing n with
  | nil =>
    obtain ⟨part, parts, found⟩ := List.exists_cons_of_ne_nil (partsIn_ne_nil n after)
    simp [partsIn, seam, found]
  | cons c before ih =>
    rw [List.cons_append, partsIn, partsIn, List.foldl_cons]
    by_cases cut : n = {} ∧ c = ','
    · obtain ⟨rfl, rfl⟩ := cut
      have stay : Nesting.next {} ',' = {} := by decide
      obtain ⟨part, parts, found⟩ := List.exists_cons_of_ne_nil (partsIn_ne_nil {} before)
      simp only [and_self, if_true, stay, ih, found, seam]
    · rw [if_neg cut, if_neg cut, ih, seam_push c (partsIn_ne_nil _ _)]

/-- An empty part is a seam at which nothing goes on. -/
theorem seam_empty {parts : List (List Char)} (nonempty : parts ≠ []) (more : List (List Char)) :
    seam parts ([] :: more) = parts ++ more := by
  induction parts with
  | nil => exact absurd rfl nonempty
  | cons part parts ih =>
    cases parts with
    | nil => simp [seam]
    | cons second parts => simp [seam, ih]

/-- At a seam the last part is longer than it was before, unless an empty part comes next. -/
theorem seam_ne_append {parts : List (List Char)} (nonempty : parts ≠ []) {next : List Char} (hn : next ≠ [])
    (more others : List (List Char)) : seam parts (next :: more) ≠ parts ++ others := by
  induction parts with
  | nil => exact absurd rfl nonempty
  | cons part parts ih =>
    cases parts with
    | nil => simp [seam, hn]
    | cons second parts => simpa [seam] using ih (List.cons_ne_nil _ _)

/-- At a comma the text is cut exactly if nothing is open there. -/
theorem partsIn_comma (before after : List Char) :
    partsIn {} (before ++ ',' :: after) = partsIn {} before ++ partsIn {} after ↔ IsOutside before := by
  have nonempty : partsIn {} before ≠ [] := partsIn_ne_nil {} before
  rw [partsIn_append, IsOutside]
  constructor
  · intro cut
    by_contra inside
    obtain ⟨part, parts, found⟩ :=
      List.exists_cons_of_ne_nil (partsIn_ne_nil ((before.foldl Nesting.next {}).next ',') after)
    have goes : partsIn (before.foldl Nesting.next {}) (',' :: after) = (',' :: part) :: parts := by
      rw [partsIn, if_neg (fun h => inside h.1), found, push]
    rw [goes] at cut
    exact seam_ne_append nonempty (List.cons_ne_nil _ _) _ _ cut
  · intro outside
    have cut : partsIn {} (',' :: after) = [] :: partsIn {} after := by simp [partsIn]
    rw [outside, cut, seam_empty nonempty]

/-- The first part is found again by a scan from the same state, the others by one from the start. -/
theorem partsIn_part {n : Nesting} {cs part : List Char} {parts : List (List Char)}
    (h : partsIn n cs = part :: parts) : partsIn n part = [part] ∧ ∀ p ∈ parts, partsIn {} p = [p] := by
  induction cs generalizing n part parts with
  | nil =>
    cases h
    exact ⟨rfl, by simp⟩
  | cons c cs ih =>
    obtain ⟨first, others, found⟩ := List.exists_cons_of_ne_nil (partsIn_ne_nil (n.next c) cs)
    rw [partsIn] at h
    by_cases cut : n = {} ∧ c = ','
    · obtain ⟨next, more, behind⟩ := List.exists_cons_of_ne_nil (partsIn_ne_nil {} cs)
      obtain ⟨alone, rest⟩ := ih behind
      rw [if_pos cut, behind] at h
      cases h
      exact ⟨rfl, List.forall_mem_cons.mpr ⟨alone, rest⟩⟩
    · obtain ⟨alone, rest⟩ := ih found
      rw [if_neg cut, found] at h
      cases h
      refine ⟨?_, rest⟩
      rw [partsIn, if_neg cut, alone]
      rfl

theorem intercalate_push (c : Char) {parts : List (List Char)} (nonempty : parts ≠ []) :
    [','].intercalate (push c parts) = c :: [','].intercalate parts := by
  match parts with
  | [] => exact absurd rfl nonempty
  | [_] => simp [push, List.intercalate]
  | _ :: _ :: _ => simp [push, List.intercalate]

theorem intercalate_partsIn (n : Nesting) (cs : List Char) : [','].intercalate (partsIn n cs) = cs := by
  induction cs generalizing n with
  | nil => rfl
  | cons c cs ih =>
    rw [partsIn]
    split
    · next cut =>
      obtain ⟨part, parts, found⟩ := List.exists_cons_of_ne_nil (partsIn_ne_nil {} cs)
      have joined := ih {}
      rw [found] at joined ⊢
      rw [cut.2, ← joined]
      simp [List.intercalate]
    · rw [intercalate_push c (partsIn_ne_nil _ _), ih]

/-- A seam makes one part of two. -/
theorem length_seam {parts more : List (List Char)} (hp : parts ≠ []) (hm : more ≠ []) :
    (seam parts more).length + 1 = parts.length + more.length := by
  induction parts with
  | nil => exact absurd rfl hp
  | cons part parts ih =>
    cases parts with
    | nil =>
      obtain ⟨next, more, rfl⟩ := List.exists_cons_of_ne_nil hm
      simp [seam]
      omega
    | cons second parts =>
      have rest := ih (List.cons_ne_nil _ _)
      simp only [seam, List.length_cons] at rest ⊢
      omega

/-- What stands inside a text that is one part is one part. -/
theorem partsIn_single_of_append {before cs after : List Char}
    (single : (partsIn n (before ++ (cs ++ after))).length = 1) :
    partsIn (before.foldl Nesting.next n) cs = [cs] := by
  have length : (partsIn (before.foldl Nesting.next n) cs).length = 1 := by
    have left := length_seam (partsIn_ne_nil n before) (partsIn_ne_nil (before.foldl Nesting.next n) (cs ++ after))
    have right := length_seam (partsIn_ne_nil (before.foldl Nesting.next n) cs)
      (partsIn_ne_nil (cs.foldl Nesting.next (before.foldl Nesting.next n)) after)
    rw [← partsIn_append] at left right
    have nonempty := List.length_pos_of_ne_nil (partsIn_ne_nil n before)
    have others := List.length_pos_of_ne_nil
      (partsIn_ne_nil (cs.foldl Nesting.next (before.foldl Nesting.next n)) after)
    have inner := List.length_pos_of_ne_nil (partsIn_ne_nil (before.foldl Nesting.next n) cs)
    omega
  obtain ⟨part, alone⟩ := List.length_eq_one_iff.mp length
  have joined := intercalate_partsIn (before.foldl Nesting.next n) cs
  rw [alone] at joined
  simpa [alone, List.intercalate] using joined

/-- Each part is one part, and at the end of all but the last one nothing is open. -/
theorem parts_of_partsIn {cs part : List Char} {parts : List (List Char)} (h : partsIn n cs = part :: parts) :
    (parts ≠ [] → part.foldl Nesting.next n = {}) ∧ ∀ p ∈ parts.dropLast, IsOutside p := by
  induction cs generalizing n part parts with
  | nil =>
    cases h
    simp
  | cons c cs ih =>
    rw [partsIn] at h
    by_cases cut : n = {} ∧ c = ','
    · rw [if_pos cut] at h
      cases h
      obtain ⟨first, others, found⟩ := List.exists_cons_of_ne_nil (partsIn_ne_nil {} cs)
      obtain ⟨closed, rest⟩ := ih found
      refine ⟨fun _ => cut.1, ?_⟩
      rw [found]
      cases others with
      | nil => simp
      | cons second others =>
        rw [List.dropLast_cons_of_ne_nil (List.cons_ne_nil _ _)]
        exact List.forall_mem_cons.mpr ⟨closed (List.cons_ne_nil _ _), rest⟩
    · obtain ⟨first, others, found⟩ := List.exists_cons_of_ne_nil (partsIn_ne_nil (n.next c) cs)
      obtain ⟨closed, rest⟩ := ih found
      rw [if_neg cut, found] at h
      cases h
      exact ⟨closed, rest⟩

/-- Parts are found again where they were joined. -/
theorem partsIn_intercalate {parts : List (List Char)} (nonempty : parts ≠ [])
    (alone : ∀ part ∈ parts, partsIn {} part = [part]) (outside : ∀ part ∈ parts.dropLast, IsOutside part) :
    partsIn {} ([','].intercalate parts) = parts := by
  induction parts with
  | nil => exact absurd rfl nonempty
  | cons part parts ih =>
    obtain ⟨one, others⟩ := List.forall_mem_cons.mp alone
    cases parts with
    | nil => simpa [List.intercalate] using one
    | cons second parts =>
      rw [List.dropLast_cons_of_ne_nil (List.cons_ne_nil _ _)] at outside
      obtain ⟨closed, later⟩ := List.forall_mem_cons.mp outside
      have text : [','].intercalate (part :: second :: parts) = part ++ ',' :: [','].intercalate (second :: parts) := by
        simp [List.intercalate]
      rw [text, (partsIn_comma _ _).mpr closed, one, ih (List.cons_ne_nil _ _) others later]
      rfl

theorem parts_eq (text : String) : parts text = (partsIn {} text.toList).map String.ofList := by
  rw [parts, partsFrom_eq]

theorem parts_comma_iff (before after : String) :
    parts (before ++ "," ++ after) = parts before ++ parts after ↔ IsOutside before.toList := by
  have chars : (before ++ "," ++ after).toList = before.toList ++ ',' :: after.toList := by simp
  have injective : Function.Injective String.ofList := fun _ _ same => String.ofList_injective same
  rw [parts_eq, parts_eq, parts_eq, chars, ← List.map_append, ← partsIn_comma]
  exact (List.map_injective_iff.mpr injective).eq_iff

/-- Splitting a list of selectors loses nothing, and every part is a list of one: it has no comma but in quotes, in
brackets or behind a backslash. The text is cut at a comma exactly if none of these is open there, whether or not what
is open is ever closed. -/
theorem parts_exact (text : String) :
    String.intercalate "," (parts text) = text ∧
      (∀ part ∈ parts text, parts part = [part] ∧
        ∀ before after, part = before ++ "," ++ after → ¬ IsOutside before.toList) ∧
      ∀ before after, text = before ++ "," ++ after →
        (parts text = parts before ++ parts after ↔ IsOutside before.toList) := by
  have joined : String.intercalate "," (parts text) = text := by
    rw [← String.toList_inj, String.toList_intercalate, parts_eq]
    simpa [Function.comp_def] using intercalate_partsIn {} text.toList
  have alone : ∀ part ∈ parts text, parts part = [part] := by
    intro part mem
    obtain ⟨first, others, found⟩ := List.exists_cons_of_ne_nil (partsIn_ne_nil {} text.toList)
    obtain ⟨one, rest⟩ := partsIn_part found
    rw [parts_eq, found] at mem
    obtain ⟨cs, hcs, rfl⟩ := List.mem_map.mp mem
    have single : partsIn {} cs = [cs] := by
      rcases List.mem_cons.mp hcs with rfl | later
      · exact one
      · exact rest cs later
    rw [parts_eq, String.toList_ofList, single]
    rfl
  refine ⟨joined, fun part mem => ⟨alone part mem, ?_⟩, ?_⟩
  · rintro before after rfl outside
    have two := (parts_comma_iff before after).mpr outside
    have one := congrArg List.length (alone _ mem)
    have first : 0 < (parts before).length := by
      rw [parts_eq, List.length_map]
      exact List.length_pos_of_ne_nil (partsIn_ne_nil _ _)
    have second : 0 < (parts after).length := by
      rw [parts_eq, List.length_map]
      exact List.length_pos_of_ne_nil (partsIn_ne_nil _ _)
    rw [two, List.length_append, List.length_singleton] at one
    omega
  · rintro before after rfl
    exact parts_comma_iff before after

/-- An escaped comma and a bracket that was never opened, then a bracket in quotes, then a bracket that is never
closed. -/
theorem parts_exact_unclosed :
    let text := "a\\,b),:is(c,\")\"),[d,e\\"
    let part := ":is(c,\")\")"
    part ∈ parts text ∧ String.intercalate "," (parts text) = text ∧ parts part = [part] ∧
      ¬ IsOutside ":is(c".toList ∧
      (parts text = parts "a\\,b)" ++ parts ":is(c,\")\"),[d,e\\" ↔ IsOutside "a\\,b)".toList) := by
  intro text part
  have mem : part ∈ parts text := by decide +kernel
  obtain ⟨joined, atoms, cuts⟩ := parts_exact text
  obtain ⟨alone, inside⟩ := atoms part mem
  exact ⟨mem, joined, alone, inside ":is(c" "\")\")" (by decide +kernel), cuts _ _ (by decide +kernel)⟩

end Stylesheet.Selector
