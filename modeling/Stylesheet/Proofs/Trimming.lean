import Mathlib.Data.List.DropRight
import Stylesheet.Text.Blank

namespace Stylesheet.Text

theorem trimChars_eq (cs : List Char) : trimChars cs = (cs.dropWhile isBlank).rdropWhile isBlank := rfl

/-- What is taken off are the blanks at either end. -/
theorem trimChars_split (cs : List Char) :
    ∃ front back, cs = front ++ (trimChars cs ++ back) ∧ (∀ c ∈ front, isBlank c = true) ∧
      ∀ c ∈ back, isBlank c = true := by
  let rest := cs.dropWhile isBlank
  have ends : rest = trimChars cs ++ rest.rtakeWhile isBlank := by
    simp [rest, trimChars_eq]
  have starts : cs = cs.takeWhile isBlank ++ rest := by simp [rest]
  refine ⟨cs.takeWhile isBlank, rest.rtakeWhile isBlank, ?_, ?_, ?_⟩
  · rw [← ends]
    exact starts
  · intro c hc
    exact List.mem_takeWhile_imp hc
  · intro c hc
    exact List.mem_rtakeWhile_imp hc

/-- What is left does not begin with a blank. -/
theorem dropWhile_trimChars (cs : List Char) : (trimChars cs).dropWhile isBlank = trimChars cs := by
  obtain ⟨more, whole⟩ : trimChars cs <+: cs.dropWhile isBlank := by
    rw [trimChars_eq]
    exact List.rdropWhile_prefix isBlank _
  cases left : trimChars cs with
  | nil => simp
  | cons c rest =>
    rw [left] at whole
    have solid := List.dropWhile_idempotent (p := isBlank) (l := cs)
    rw [← whole, List.cons_append] at solid
    have stands : isBlank c = false := by
      by_contra blank
      have shorter := (List.dropWhile_suffix (l := rest ++ more) isBlank).length_le
      rw [List.dropWhile_cons_of_pos (by simpa using blank)] at solid
      rw [solid, List.length_cons] at shorter
      omega
    simp [stands]

@[simp] theorem trimChars_trimChars (cs : List Char) : trimChars (trimChars cs) = trimChars cs := by
  rw [trimChars_eq (trimChars cs), dropWhile_trimChars, trimChars_eq, List.rdropWhile_idempotent]

theorem trimChars_eq_nil_iff {cs : List Char} : trimChars cs = [] ↔ ∀ c ∈ cs, isBlank c = true := by
  constructor
  · intro empty
    obtain ⟨front, back, split, hf, hb⟩ := trimChars_split cs
    rw [split, empty, List.nil_append]
    intro c hc
    rcases List.mem_append.mp hc with hc | hc
    · exact hf c hc
    · exact hb c hc
  · intro blank
    rw [trimChars_eq, List.rdropWhile_eq_nil_iff]
    intro c hc
    exact blank c ((List.dropWhile_suffix isBlank).mem hc)

theorem length_trimChars_le (cs : List Char) : (trimChars cs).length ≤ cs.length := by
  obtain ⟨front, back, split, -, -⟩ := trimChars_split cs
  have lengths := congrArg List.length split
  simp only [List.length_append] at lengths
  omega

/-- Text that is as long without the blanks at its ends has none there. -/
theorem trimChars_of_length {cs : List Char} (h : (trimChars cs).length = cs.length) :
    trimChars cs = cs := by
  obtain ⟨front, back, split, -, -⟩ := trimChars_split cs
  have lengths := congrArg List.length split
  simp only [List.length_append] at lengths
  have front' : front = [] := List.eq_nil_of_length_eq_zero (by omega)
  have back' : back = [] := List.eq_nil_of_length_eq_zero (by omega)
  rw [front', back', List.nil_append, List.append_nil] at split
  exact split.symm

/-- Trimmed text does not begin with a blank. -/
theorem solid_of_trimmed {c : Char} {t : List Char} (ht : trimChars (c :: t) = c :: t) : isBlank c = false := by
  have front := dropWhile_trimChars (c :: t)
  rw [ht] at front
  have first : ¬ isBlank c = true := List.dropWhile_eq_self_iff.mp front (Nat.succ_pos _)
  simpa using first

/-- Trimming takes off the blanks around trimmed text. -/
theorem trimChars_around {b t x : List Char} (ht : trimChars t = t) (hb : ∀ c ∈ b, isBlank c = true)
    (hx : ∀ c ∈ x, isBlank c = true) : trimChars (b ++ (t ++ x)) = t := by
  cases t with
  | nil =>
    apply trimChars_eq_nil_iff.mpr
    intro c hc
    rcases List.mem_append.mp hc with hc | hc
    · exact hb c hc
    · exact hx c hc
  | cons c t =>
    have solid : ¬ isBlank c = true := by simp [solid_of_trimmed ht]
    have back : (c :: t).rdropWhile isBlank = c :: t := by
      rw [← ht, trimChars_eq, List.rdropWhile_idempotent]
    have behind : ∀ d ∈ x.reverse, isBlank d = true := fun d hd => hx d (List.mem_reverse.mp hd)
    rw [trimChars_eq, List.dropWhile_append_of_pos hb, List.cons_append, List.dropWhile_cons_of_neg solid,
      ← List.cons_append, List.rdropWhile, List.reverse_append, List.dropWhile_append_of_pos behind]
    exact back

theorem count_dropWhile {c : Char} (hc : isBlank c = false) (t : List Char) :
    (t.dropWhile isBlank).count c = t.count c := by
  induction t with
  | nil => rfl
  | cons d t ih =>
    by_cases blank : isBlank d = true
    · have other : d ≠ c := fun h => by rw [h, hc] at blank; cases blank
      rw [List.dropWhile_cons_of_pos blank, ih, List.count_cons_of_ne other]
    · rw [List.dropWhile_cons_of_neg blank]

/-- Trimming leaves what is not blank. -/
theorem count_trim {c : Char} (hc : isBlank c = false) (t : List Char) :
    (trim (String.ofList t)).toList.count c = t.count c := by
  rw [trim, String.toList_ofList, String.toList_ofList, trimChars, List.count_reverse, count_dropWhile hc,
    List.count_reverse, count_dropWhile hc]

@[simp] theorem trim_trim (text : String) : trim (trim text) = trim text := by
  simp [trim]

end Stylesheet.Text
