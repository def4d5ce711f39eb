import Stylesheet.Proofs.SourceOrder
import Stylesheet.Sheet.Edit

namespace Stylesheet.Body

variable {α : Type}

/-- The body with other contents, in three parts. -/
def ofParts (b : Body α) (before middle after : List α) : Body α := { b with contents := before ++ middle ++ after }

/-- A splice that begins behind `before` and takes out `cut`. -/
theorem splice_ofParts (b : Body α) (before cut after r : List α) :
    (b.ofParts before cut after).splice before.length (some cut.length) r = (cut, b.ofParts before r after) := by
  rw [splice, ofParts, List.append_assoc, List.take_left, List.drop_left, Option.getD_some, List.take_left,
    List.drop_left]
  rfl

/-- How many things a splice takes out: as many as it is asked for, or all that are there from its offset on. -/
def cutLength (b : Body α) (offset : Nat) (length : Option Nat) : Nat :=
  match length with
  | some n => min n (b.size - offset)
  | none => b.size - offset

/-- A splice divides a body into three parts, of which only the one in the middle is exchanged. -/
theorem exists_parts (b : Body α) (offset : Nat) (length : Option Nat) :
    ∃ before cut after, b = b.ofParts before cut after ∧ before.length = min offset b.size ∧
      cut.length = b.cutLength offset length ∧ ∀ r, b.splice offset length r = (cut, b.ofParts before r after) := by
  let n := length.getD (b.contents.drop offset).length
  refine ⟨b.contents.take offset, (b.contents.drop offset).take n, (b.contents.drop offset).drop n, ?_,
    List.length_take, ?_, fun r => rfl⟩
  · rw [ofParts, List.append_assoc, List.take_append_drop, List.take_append_drop]
  · rw [List.length_take, List.length_drop]
    cases length with
    | some n => rfl
    | none => exact (congrArg (min · _) List.length_drop).trans (Nat.min_self _)

/-- A splice back to where the first one began, over what that one put in, undoes it. -/
theorem splice_undone (b : Body α) (offset : Nat) (length : Option Nat) (r : List α) :
    (b.splice offset length r).2.splice (min offset b.size) (some r.length) (b.splice offset length r).1 = (r, b) := by
  obtain ⟨before, cut, after, parts, start, -, splices⟩ := b.exists_parts offset length
  rw [splices, ← start, splice_ofParts, ← parts]

theorem insertBefore_splice (b : Body α) (a : α) (i : Nat) : b.insertBefore a i = (b.splice i (some 0) [a]).2 := by
  unfold insertBefore
  split
  · next inside => rw [insertIdx_eq_around _ _ (Nat.le_of_lt inside)]; simp [splice]
  · next outside =>
    have whole : b.contents.length ≤ i := Nat.le_of_not_lt outside
    simp [append, splice, List.take_of_length_le whole, List.drop_of_length_le whole]

theorem prepend_splice (b : Body α) (a : α) : b.prepend a = (b.splice 0 (some 0) [a]).2 := rfl

theorem append_splice (b : Body α) (a : α) : b.append a = (b.splice b.size (some 0) [a]).2 := by
  simp [append, splice, size]

theorem remove_splice (b : Body α) (i : Nat) :
    b.remove i = ((b.splice i (some 1) []).1.head?, (b.splice i (some 1) []).2) := by
  simp [remove, splice, List.eraseIdx_eq_take_drop_succ, List.head?_take, List.head?_drop]

theorem replace_splice (b : Body α) {i : Nat} (hi : i < b.size) (r : List α) :
    b.replace i r = ((b.splice i (some 1) r).1.head?, (b.splice i (some 1) r).2) := by
  simp [replace, hi, splice, List.head?_take, List.head?_drop]

theorem remove_outside (b : Body α) {i : Nat} (hi : b.size ≤ i) : b.remove i = (none, b) := by
  rw [remove, List.getElem?_eq_none hi, List.eraseIdx_of_length_le hi]

theorem replace_outside (b : Body α) {i : Nat} (hi : b.size ≤ i) (r : List α) : b.replace i r = (none, b) :=
  if_neg (Nat.not_lt.mpr hi)

/-- A splice exchanges one part of the contents for other things and can be undone by a splice, and every other change
of the contents is a splice: it yields what that takes out and leaves the body that it leaves. Taking out and replacing
do nothing where nothing is. -/
theorem changes_are_splices (b : Body α) :
    (∀ offset length r, ∃ before after,
      b = b.ofParts before (b.splice offset length r).1 after ∧ before.length = min offset b.size ∧
        (b.splice offset length r).1.length = b.cutLength offset length ∧
        (b.splice offset length r).2 = b.ofParts before r after ∧
        (b.splice offset length r).2.splice (min offset b.size) (some r.length) (b.splice offset length r).1 = (r, b)) ∧
    (∀ a i, b.insertBefore a i = (b.splice i (some 0) [a]).2) ∧
    (∀ a, b.prepend a = (b.splice 0 (some 0) [a]).2) ∧
    (∀ a, b.append a = (b.splice b.size (some 0) [a]).2) ∧
    (∀ i, b.remove i = if i < b.size then ((b.splice i (some 1) []).1.head?, (b.splice i (some 1) []).2) else (none, b)) ∧
    ∀ i r, b.replace i r =
      if i < b.size then ((b.splice i (some 1) r).1.head?, (b.splice i (some 1) r).2) else (none, b) := by
  refine ⟨fun offset length r => ?_, b.insertBefore_splice, b.prepend_splice, b.append_splice, fun i => ?_, fun i r => ?_⟩
  · obtain ⟨before, cut, after, parts, start, count, splices⟩ := b.exists_parts offset length
    have undone := b.splice_undone offset length r
    rw [splices] at undone ⊢
    exact ⟨before, after, parts, start, count, rfl, undone⟩
  · split
    · exact b.remove_splice i
    · next outside => exact b.remove_outside (Nat.le_of_not_lt outside)
  · split
    · next inside => exact b.replace_splice inside r
    · next outside => exact b.replace_outside (Nat.le_of_not_lt outside) r

end Stylesheet.Body
