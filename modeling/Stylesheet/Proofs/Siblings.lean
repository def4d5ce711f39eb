import Mathlib.Data.List.Forall2
import Stylesheet.Proofs.SourceOrder

namespace Stylesheet

namespace Position

/-- Each position comes before all later ones. -/
def Ascending (ps : List Position) : Prop := ps.Pairwise fun p q => p.before q = true

instance (ps : List Position) : Decidable (Ascending ps) := inferInstanceAs (Decidable (ps.Pairwise _))

end Position

namespace RuleSet

open Position (Ascending)

/-- What becomes of a declaration where room is made at `anchor`: on its line, from its column on, the column grows by
one. Everything else stays. -/
def StepsAside (anchor : Position) (old new : Declaration) : Prop :=
  ∃ p, old.position = some p ∧
    ((p.line = anchor.line ∧ anchor.column ≤ p.column ∧
        new = { old with position := some ⟨p.line, p.column + 1⟩ }) ∨
      (¬ (p.line = anchor.line ∧ anchor.column ≤ p.column) ∧ new = old))

theorem stepsAside_makeRoom {anchor p : Position} {d : Declaration} (hp : d.position = some p)
    (room : p.HasRoom anchor) : StepsAside anchor d { d with position := d.position.map (makeRoom anchor) } := by
  refine ⟨p, hp, ?_⟩
  by_cases along : p.line = anchor.line ∧ anchor.column ≤ p.column
  · left
    refine ⟨along.1, along.2, ?_⟩
    simp [hp, makeRoom, along, Position.numberBehind_of_lt (room along.1 along.2)]
  · right
    refine ⟨along, ?_⟩
    have stays : d.position.map (makeRoom anchor) = d.position := by simp [hp, makeRoom, along]
    rw [stays]

variable {ps : List Position} {a p q : Position}

/-- Positions that are apart are so when room has been made. -/
theorem makeRoom_of_apart (hp : p.HasRoom a) (hq : q.HasRoom a) (h : p.before q = true) :
    (makeRoom a p).before (makeRoom a q) = true := by
  simp only [Position.before, makeRoom_line, makeRoom_column hp, makeRoom_column hq, Bool.or_eq_true,
    Bool.and_eq_true, decide_eq_true_eq, beq_iff_eq] at h ⊢
  split <;> split <;> omega

/-- What does not come before the anchor stands behind it when room has been made. -/
theorem anchor_before_makeRoom (hq : q.HasRoom a) (h : q.before a = false) : a.before (makeRoom a q) = true := by
  simp only [Position.before, makeRoom_line, makeRoom_column hq, Bool.or_eq_false_iff, Bool.and_eq_false_iff,
    decide_eq_false_iff_not, beq_eq_false_iff_ne, Bool.or_eq_true, Bool.and_eq_true, decide_eq_true_eq,
    beq_iff_eq] at h ⊢
  split <;> omega

theorem ascending_makeRoom (h : Ascending ps) (room : ∀ p ∈ ps, p.HasRoom a) : Ascending (ps.map (makeRoom a)) :=
  List.pairwise_map.mpr (h.imp_of_mem fun hp hq ordered => makeRoom_of_apart (room _ hp) (room _ hq) ordered)

/-- Taking over the place of the one at `i` keeps all apart. -/
theorem ascending_takeOver (h : Ascending ps) {i : Nat} (hi : ps[i]? = some a) (room : ∀ p ∈ ps, p.HasRoom a) :
    Ascending ((ps.map (makeRoom a)).insertIdx i a) := by
  obtain ⟨hlt, ha⟩ := List.getElem?_eq_some_iff.mp hi
  have hle : i ≤ (ps.map (makeRoom a)).length := by
    rw [List.length_map]
    exact Nat.le_of_lt hlt
  rw [insertIdx_eq_around _ _ hle]
  apply Position.pairwise_around.mpr
  rw [List.take_append_drop]
  refine ⟨ascending_makeRoom h room, ?_, ?_⟩
  · intro q hq
    rw [← List.map_take, List.mem_map] at hq
    obtain ⟨p, hp, rfl⟩ := hq
    obtain ⟨j, hj, rfl⟩ := List.mem_take_iff_getElem.mp hp
    have earlier : ps[j].before a = true := by
      rw [← ha]
      exact List.pairwise_iff_getElem.mp h j i (by omega) hlt (by omega)
    rw [makeRoom_of_before earlier]
    exact earlier
  · intro q hq
    rw [← List.map_drop, List.mem_map] at hq
    obtain ⟨p, hp, rfl⟩ := hq
    obtain ⟨j, hj, rfl⟩ := List.mem_drop_iff_getElem.mp hp
    apply anchor_before_makeRoom (room _ (List.getElem_mem _))
    rw [← ha]
    cases j with
    | zero => exact Position.before_irrefl _
    | succ j =>
      have ordered := List.pairwise_iff_getElem.mp h i (i + (j + 1)) hlt (by omega) (by omega)
      exact Position.not_before_of_before ordered

/-- Declarations with places stand at their positions. -/
theorem stand_of_placed {ds : List Declaration} (placed : ∀ d ∈ ds, d.position.isSome = true) :
    Stand ds (ds.filterMap Declaration.position) := by
  induction ds with
  | nil => rfl
  | cons d ds ih =>
    obtain ⟨here, later⟩ := List.forall_mem_cons.mp placed
    obtain ⟨p, hp⟩ := Option.isSome_iff_exists.mp here
    rw [List.filterMap_cons_some hp]
    simp only [Stand, List.map_cons, hp]
    rw [ih later]

/-- Where all declarations stand apart, one that is added before the sibling at `i` gets that index and the sibling's
place; those of the line from there on, none of which is in the last column, move one column on and nothing else changes;
and all stand apart again. -/
theorem add_sibling_ascending {r : RuleSet} (placed : ∀ d ∈ r.declarations, d.position.isSome = true)
    (ascending : Ascending r.positions) (d : Declaration) {i : Nat} (hi : i < r.declarations.length)
    (room : ∀ anchor ∈ r.declarations[i].position, ∀ p ∈ r.positions, p.HasRoom anchor) :
    ∃ anchor, r.declarations[i].position = some anchor ∧ (r.add d (some i)).1 = i ∧
      (∃ moved, (r.add d (some i)).2.declarations = moved.insertIdx i { d with position := some anchor } ∧
        List.Forall₂ (StepsAside anchor) r.declarations moved) ∧
      (∀ e ∈ (r.add d (some i)).2.declarations, e.position.isSome = true) ∧
      Ascending (r.add d (some i)).2.positions := by
  have stand := stand_of_placed placed
  have sibling := List.getElem?_eq_getElem hi
  obtain ⟨anchor, ha⟩ := Option.isSome_iff_exists.mp (placed _ (List.getElem_mem hi))
  have place : r.positions[i]? = some anchor := by
    rw [← ha]
    exact (stand.getElem? sibling).symm
  have added := (stand.move (makeRoom anchor)).insertIdx (d := { d with position := some anchor }) rfl i
  rw [add_sibling sibling ha]
  refine ⟨anchor, ha, rfl, ⟨_, rfl, ?_⟩, added.placed, ?_⟩
  · rw [List.forall₂_map_right_iff, List.forall₂_same]
    intro e he
    obtain ⟨p, hp⟩ := Option.isSome_iff_exists.mp (placed e he)
    exact stepsAside_makeRoom hp (room anchor ha p (List.mem_filterMap.mpr ⟨e, he, hp⟩))
  · show Ascending (List.filterMap Declaration.position (List.insertIdx _ _ _))
    rw [added.positions_eq]
    exact ascending_takeOver ascending place (room anchor ha)

/-- Two declarations of a line that are side by side, and one before them. -/
theorem add_sibling_ascending_line :
    let r : RuleSet := { declarations := [{ name := "a", position := some ⟨1, 2⟩ },
      { name := "b", position := some ⟨1, 10⟩ }, { name := "c", position := some ⟨1, 11⟩ }] }
    let x : Declaration := { name := "x", position := some ⟨7, 0⟩ }
    (∀ d ∈ r.declarations, d.position.isSome = true) ∧ Ascending r.positions ∧ 1 < r.declarations.length ∧
      r.HasRoomFor x (some 1) ∧
      (r.add x (some 1)).1 = 1 ∧ Ascending (r.add x (some 1)).2.positions ∧
      (r.add x (some 1)).2.positions = [⟨1, 2⟩, ⟨1, 10⟩, ⟨1, 11⟩, ⟨1, 12⟩] := by
  intro r x
  have placed : ∀ d ∈ r.declarations, d.position.isSome = true := by decide
  have ascending : Ascending r.positions := by decide
  have length : 1 < r.declarations.length := by decide
  have room : r.HasRoomFor x (some 1) := by decide
  obtain ⟨-, -, index, -, -, again⟩ := add_sibling_ascending placed ascending x length (room.1 _ rfl)
  exact ⟨placed, ascending, length, room, index, again, by decide⟩

/-- A declaration in the last column moves to the first column when another one takes over its place, and so stands before
that one. -/
theorem add_sibling_last_column :
    let r := ofChanges [.add { name := "a", position := some ⟨1, Position.lastNumber⟩ } none]
    let x : Declaration := { name := "b" }
    (∀ d ∈ r.declarations, d.position.isSome = true) ∧ Ascending r.positions ∧ 0 < r.declarations.length ∧
      (r.add x (some 0)).2.positions = [⟨1, Position.lastNumber⟩, ⟨1, 0⟩] ∧
      ¬ Ascending (r.add x (some 0)).2.positions := by
  intro r x
  exact ⟨by decide, by decide, by decide, by decide, by decide⟩

end RuleSet

end Stylesheet
