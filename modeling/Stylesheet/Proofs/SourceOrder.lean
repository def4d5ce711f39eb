import Mathlib.Data.List.Induction
import Mathlib.Data.List.InsertIdx
import Stylesheet.RuleSet.Change

namespace Stylesheet

theorem insertIdx_eq_around {α : Type} (as : List α) (a : α) {i : Nat} (hi : i ≤ as.length) :
    as.insertIdx i a = as.take i ++ a :: as.drop i := by
  induction i generalizing as with
  | zero => rfl
  | succ i ih =>
    cases as with
    | nil => cases hi
    | cons b as => rw [List.insertIdx_succ_cons, ih as (Nat.le_of_succ_le_succ hi)]; rfl

namespace Position

/-- No position comes before an earlier one. -/
def Sorted (ps : List Position) : Prop := ps.Pairwise fun p q => q.before p = false

theorem not_before_of_before {p q : Position} (h : p.before q = true) : q.before p = false := by
  rw [Bool.eq_false_iff]
  intro hq
  have := before_trans h hq
  rw [before_irrefl] at this
  cases this

/-- Not to come after is transitive. -/
theorem not_before_trans {p q r : Position} (hqp : q.before p = false) (hrq : r.before q = false) :
    r.before p = false := by
  simp only [before, Bool.or_eq_false_iff, Bool.and_eq_false_iff, decide_eq_false_iff_not,
    beq_eq_false_iff_ne] at *
  omega

/-- What stands before a position stands before those that do not come before it. -/
theorem before_of_not_before {p q r : Position} (h : p.before q = true) (hrq : r.before q = false) :
    p.before r = true := by
  simp only [before, Bool.or_eq_false_iff, Bool.and_eq_false_iff, decide_eq_false_iff_not, beq_eq_false_iff_ne,
    Bool.or_eq_true, Bool.and_eq_true, decide_eq_true_eq, beq_iff_eq] at *
  omega

theorem Sorted.snoc {ps : List Position} {p : Position} (h : Sorted ps) (hp : ∀ q ∈ ps, p.before q = false) :
    Sorted (ps ++ [p]) := by
  refine List.pairwise_append.mpr ⟨h, List.pairwise_singleton _ p, fun q hq r hr => ?_⟩
  rw [List.mem_singleton.mp hr]
  exact hp q hq

/-- Things in a relation with one more between those before it and those behind it. -/
theorem pairwise_around {α : Type} {R : α → α → Prop} {before behind : List α} {a : α} :
    (before ++ a :: behind).Pairwise R ↔
      (before ++ behind).Pairwise R ∧ (∀ b ∈ before, R b a) ∧ ∀ b ∈ behind, R a b := by
  simp only [List.pairwise_append, List.pairwise_cons, List.mem_cons, forall_eq_or_imp]
  constructor
  · rintro ⟨hb, ⟨hp, ha⟩, hx⟩
    exact ⟨⟨hb, ha, fun q hq => (hx q hq).2⟩, fun q hq => (hx q hq).1, hp⟩
  · rintro ⟨⟨hb, ha, hx⟩, hq, hp⟩
    exact ⟨hb, ⟨hp, ha⟩, fun q hq' => ⟨hq q hq', hx q hq'⟩⟩

/-- A position between those before it and those behind it. -/
theorem sorted_around {before behind : List Position} {p : Position} :
    Sorted (before ++ p :: behind) ↔
      Sorted (before ++ behind) ∧ (∀ q ∈ before, p.before q = false) ∧ ∀ q ∈ behind, q.before p = false :=
  pairwise_around

/-- Where a position is sorted in. -/
def sortedPlace (p : Position) (ps : List Position) : Nat := (ps.findIdx? p.before).getD ps.length

theorem Sorted.insert {ps : List Position} (h : Sorted ps) (p : Position) :
    Sorted (ps.insertIdx (sortedPlace p ps) p) := by
  unfold sortedPlace
  cases hf : ps.findIdx? p.before with
  | none =>
    rw [Option.getD_none, List.insertIdx_length_self]
    exact h.snoc (List.findIdx?_eq_none_iff.mp hf)
  | some i =>
    obtain ⟨hi, hp, earlier⟩ := List.findIdx?_eq_some_iff_getElem.mp hf
    rw [Option.getD_some, insertIdx_eq_around ps p (Nat.le_of_lt hi), sorted_around, List.take_append_drop]
    refine ⟨h, fun q hq => ?_, fun q hq => ?_⟩
    · obtain ⟨j, hj, rfl⟩ := List.mem_take_iff_getElem.mp hq
      simpa using earlier j (by omega)
    · -- what comes behind the first position that stands behind `p` stands behind `p` too
      obtain ⟨j, hj, rfl⟩ := List.mem_drop_iff_getElem.mp hq
      have first : ps[i].before p = false := not_before_of_before hp
      cases j with
      | zero => exact first
      | succ j => exact not_before_trans first (List.pairwise_iff_getElem.mp h i (i + (j + 1)) hi _ (by omega))

/-- A position that moves on when room is made at `anchor` is not in the last column. -/
def HasRoom (p anchor : Position) : Prop :=
  p.line = anchor.line → anchor.column ≤ p.column → p.column < lastNumber

instance (p anchor : Position) : Decidable (p.HasRoom anchor) := inferInstanceAs (Decidable (_ → _ → _))

end Position

namespace RuleSet

open Position (Sorted)

theorem makeRoom_line (a p : Position) : (makeRoom a p).line = p.line := by
  unfold makeRoom
  split
  · rfl
  · rfl

theorem makeRoom_column {a p : Position} (room : p.HasRoom a) :
    (makeRoom a p).column = p.column + if p.line = a.line ∧ a.column ≤ p.column then 1 else 0 := by
  unfold makeRoom
  split
  · next along => exact Position.numberBehind_of_lt (room along.1 along.2)
  · rfl

theorem makeRoom_of_before {a p : Position} (h : p.before a = true) : makeRoom a p = p := by
  simp only [Position.before, Bool.or_eq_true, Bool.and_eq_true, decide_eq_true_eq, beq_iff_eq] at h
  rw [makeRoom, if_neg (by omega)]

/-- Making room does not change which position comes first. -/
theorem makeRoom_before {a p q : Position} (hp : p.HasRoom a) (hq : q.HasRoom a) (h : q.before p = false) :
    (makeRoom a q).before (makeRoom a p) = false := by
  simp only [Position.before, makeRoom_line, makeRoom_column hp, makeRoom_column hq, Bool.or_eq_false_iff,
    Bool.and_eq_false_iff, decide_eq_false_iff_not, beq_eq_false_iff_ne] at h ⊢
  split <;> split <;> omega

theorem makeRoom_not_before {a q : Position} (hq : q.HasRoom a) (h : q.before a = false) :
    (makeRoom a q).before a = false := by
  simp only [Position.before, makeRoom_line, makeRoom_column hq, Bool.or_eq_false_iff, Bool.and_eq_false_iff,
    decide_eq_false_iff_not, beq_eq_false_iff_ne] at h ⊢
  split <;> omega

theorem sorted_makeRoom {a : Position} {ps : List Position} (room : ∀ p ∈ ps, p.HasRoom a) (h : Sorted ps) :
    Sorted (ps.map (makeRoom a)) :=
  List.pairwise_map.mpr (h.imp_of_mem fun hp hq ordered => makeRoom_before (room _ hp) (room _ hq) ordered)

/-- Taking over the place of the one at `i` keeps the order just where none before it stands there too. -/
theorem sorted_takeOver {ps : List Position} (h : Sorted ps) {i : Nat} {a : Position} (hi : ps[i]? = some a)
    (room : ∀ p ∈ ps, p.HasRoom a) :
    Sorted ((ps.map (makeRoom a)).insertIdx i a) ↔ ∀ j < i, ps[j]? ≠ some a := by
  obtain ⟨hlt, ha⟩ := List.getElem?_eq_some_iff.mp hi
  have split := List.take_append_drop i ps
  have hle : i ≤ (ps.map (makeRoom a)).length := by rw [List.length_map]; exact Nat.le_of_lt hlt
  rw [insertIdx_eq_around _ _ hle, Position.sorted_around, List.take_append_drop]
  constructor
  · rintro ⟨-, earlier, -⟩ j hj hsame
    obtain ⟨hjl, hja⟩ := List.getElem?_eq_some_iff.mp hsame
    have moved : makeRoom a a ∈ (ps.map (makeRoom a)).take i := by
      rw [← List.map_take, List.mem_map]
      exact ⟨a, List.mem_take_iff_getElem.mpr ⟨j, by omega, hja⟩, rfl⟩
    have := earlier _ moved
    simp [Position.before, makeRoom_line, makeRoom_column (room a (List.mem_of_getElem? hi))] at this
  · intro apart
    refine ⟨sorted_makeRoom room h, fun q hq => ?_, fun q hq => ?_⟩
    · rw [← List.map_take, List.mem_map] at hq
      obtain ⟨p, hp, rfl⟩ := hq
      obtain ⟨j, hj, rfl⟩ := List.mem_take_iff_getElem.mp hp
      have ordered : a.before ps[j] = false := by
        rw [← ha]
        exact List.pairwise_iff_getElem.mp h j i (by omega) hlt (by omega)
      have strictly : ps[j].before a = true := by
        by_contra hnot
        have same := Position.eq_of_not_before (by simpa using hnot) ordered
        exact apart j (by omega) (List.getElem?_eq_some_iff.mpr ⟨by omega, same⟩)
      rw [makeRoom_of_before strictly]
      exact ordered
    · rw [← List.map_drop, List.mem_map] at hq
      obtain ⟨p, hp, rfl⟩ := hq
      obtain ⟨j, hj, rfl⟩ := List.mem_drop_iff_getElem.mp hp
      refine makeRoom_not_before (room _ (List.getElem_mem _)) ?_
      rw [← ha]
      cases j with
      | zero => exact Position.before_irrefl _
      | succ j => exact List.pairwise_iff_getElem.mp h i (i + (j + 1)) hlt _ (by omega)

/-- The positions of the declarations in their order. -/
def positions (r : RuleSet) : List Position := r.declarations.filterMap Declaration.position

/-- The declarations stand at the positions, one at each. -/
def Stand (ds : List Declaration) (ps : List Position) : Prop := ds.map Declaration.position = ps.map some

namespace Stand

variable {ds es : List Declaration} {ps qs : List Position}

theorem positions_eq (h : Stand ds ps) : ds.filterMap Declaration.position = ps := by
  have same := congrArg (List.filterMap id) h
  rwa [List.filterMap_map, List.filterMap_map, Function.id_comp, Function.id_comp, List.filterMap_some] at same

theorem placed (h : Stand ds ps) : ∀ d ∈ ds, d.position.isSome = true := by
  intro d hd
  have : d.position ∈ ps.map some := h ▸ List.mem_map_of_mem hd
  obtain ⟨p, -, hp⟩ := List.mem_map.mp this
  rw [← hp]
  rfl

theorem getElem? (h : Stand ds ps) {i : Nat} {d : Declaration} (hd : ds[i]? = some d) : d.position = ps[i]? := by
  have same := congrArg (·[i]?) h
  simp only [List.getElem?_map, hd, Option.map_some] at same
  cases hp : ps[i]? with
  | none => rw [hp] at same; cases same
  | some p => rw [hp] at same; exact Option.some.inj same

theorem insertIdx (h : Stand ds ps) {d : Declaration} {p : Position} (hd : d.position = some p) (i : Nat) :
    Stand (ds.insertIdx i d) (ps.insertIdx i p) := by
  unfold Stand
  rw [List.map_insertIdx, List.map_insertIdx, h, hd]

theorem append (h : Stand ds ps) (k : Stand es qs) : Stand (ds ++ es) (ps ++ qs) := by
  unfold Stand
  rw [List.map_append, List.map_append, h, k]

theorem move (h : Stand ds ps) (f : Position → Position) :
    Stand (ds.map fun e => { e with position := e.position.map f }) (ps.map f) := by
  unfold Stand
  rw [List.map_map, List.map_map]
  have moved := congrArg (List.map (Option.map f)) h
  rwa [List.map_map, List.map_map] at moved

/-- What is left of the declarations stands at what is left of the positions. -/
theorem sublist (h : Stand ds ps) (k : es.Sublist ds) : ∃ qs, qs.Sublist ps ∧ Stand es qs := by
  induction k generalizing ps with
  | slnil => exact ⟨ps, .refl _, h⟩
  | cons d _ ih =>
    obtain ⟨p, ps, rfl, -, hrest⟩ := List.map_eq_cons_iff.mp h.symm
    obtain ⟨qs, hq, hes⟩ := ih hrest.symm
    exact ⟨qs, hq.cons p, hes⟩
  | cons_cons d _ ih =>
    obtain ⟨p, ps, rfl, hd, hrest⟩ := List.map_eq_cons_iff.mp h.symm
    obtain ⟨qs, hq, hes⟩ := ih hrest.symm
    exact ⟨p :: qs, hq.cons_cons p, by simp only [Stand, List.map_cons, hd]; rw [hes]⟩

theorem placeOf_eq (h : Stand ds ps) (p : Position) : placeOf p ds = p.sortedPlace ps := by
  have test : (fun d : Declaration => d.position.any p.before) = (fun o : Option Position => o.any p.before) ∘
      Declaration.position := rfl
  have length : ds.length = ps.length := by simpa using congrArg List.length h
  rw [placeOf, Position.sortedPlace, test, ← List.findIdx?_map, h, List.findIdx?_map, length]
  rfl

/-- The fresh line is below all positions. -/
theorem before_freshLine (h : Stand ds ps) {q : Position} (hq : q ∈ ps) (room : q.line < Position.lastNumber) :
    q.before (freshLine ds) = true := by
  have below : q.line < (freshLine ds).line := by
    unfold freshLine
    rw [h.positions_eq]
    cases hm : (ps.map fun p => Position.numberBehind p.line).max? with
    | none => rw [List.max?_eq_none_iff, List.map_eq_nil_iff] at hm; rw [hm] at hq; cases hq
    | some m =>
      have most := (List.max?_eq_some_iff.mp hm).2 _ (List.mem_map.mpr ⟨q, hq, rfl⟩)
      rw [Position.numberBehind_of_lt room] at most
      exact most
  simp [Position.before, below]

end Stand

/-- A change that puts no declaration at the place of a sibling where an earlier declaration stands too. -/
def Change.IsApart (r : RuleSet) : Change → Prop
  | add _ (some i) => ∀ s ∈ r.declarations[i]?, ∀ e ∈ r.declarations.take i, e.position ≠ s.position
  | _ => True

/-- What an addition counts on is not the last number: the columns of the declarations that make room for a new one, or
the lines of all declarations if it begins a line of its own. -/
def HasRoomFor (d : Declaration) (sibling : Option Nat) (r : RuleSet) : Prop :=
  let beside := sibling.bind fun i => r.declarations[i]?
  (∀ s ∈ beside, ∀ anchor ∈ s.position, ∀ p ∈ r.positions, p.HasRoom anchor) ∧
    (beside = none → d.position = none → ∀ p ∈ r.positions, p.line < Position.lastNumber)

instance (d : Declaration) (sibling : Option Nat) (r : RuleSet) : Decidable (r.HasRoomFor d sibling) :=
  inferInstanceAs (Decidable (_ ∧ _))

/-- So it is for each of some additions in turn. -/
def HasRoomForAll : List Declaration → RuleSet → Prop
  | [], _ => True
  | d :: ds, r => r.HasRoomFor d none ∧ HasRoomForAll ds (r.add d none).2

/-- A change that does not count on from the last number of a line or a column. -/
def Change.HasRoom (r : RuleSet) : Change → Prop
  | add d sibling => r.HasRoomFor d sibling
  | addAll ds => r.HasRoomForAll ds
  | _ => True

/-- A change that edits declarations may take their positions away or set them at will. -/
def Change.isEdit : Change → Bool
  | edit .. => true
  | _ => false

/-- Adding without a sibling keeps the order. -/
theorem Stand.add_alone {r : RuleSet} {ps : List Position} (h : Stand r.declarations ps) (d : Declaration) :
    ∃ qs, Stand (r.add d none).2.declarations qs ∧ (r.HasRoomFor d none → Sorted ps → Sorted qs) := by
  unfold add
  rw [Option.bind_none]
  cases hd : d.position with
  | some p =>
    refine ⟨_, h.insertIdx hd _, fun _ hs => ?_⟩
    rw [h.placeOf_eq]
    exact hs.insert p
  | none =>
    refine ⟨ps ++ [freshLine r.declarations], h.append rfl, fun room hs => hs.snoc fun q hq => ?_⟩
    have lines : ∀ p ∈ r.positions, p.line < Position.lastNumber := room.2 rfl hd
    rw [positions, h.positions_eq] at lines
    exact Position.not_before_of_before (h.before_freshLine hq (lines q hq))

/-- Adding before a sibling takes over its place, and all declarations make room. -/
theorem add_sibling {r : RuleSet} {d s : Declaration} {i : Nat} {a : Position} (hs : r.declarations[i]? = some s)
    (ha : s.position = some a) :
    r.add d (some i) =
      (i, r.withDeclarations
        ((r.declarations.map fun e => { e with position := e.position.map (makeRoom a) }).insertIdx i
          { d with position := some a })) := by
  simp only [add, Option.bind_some, hs, Option.map_some, ha]

/-- Adding before a sibling that is not there is adding without one. -/
theorem add_missing {r : RuleSet} {i : Nat} (hi : r.declarations[i]? = none) (d : Declaration) :
    r.add d (some i) = r.add d none := by
  unfold add
  rw [Option.bind_some, hi, Option.map_none, Option.bind_none]

/-- Adding before a sibling keeps the order just where the sibling's place is its own. -/
theorem Stand.add_before {r : RuleSet} {ps : List Position} (h : Stand r.declarations ps) (d : Declaration)
    (i : Nat) :
    ∃ qs, Stand (r.add d (some i)).2.declarations qs ∧
      (r.HasRoomFor d (some i) → Sorted ps → (Sorted qs ↔ (Change.add d (some i)).IsApart r)) := by
  cases hi : r.declarations[i]? with
  | none =>
    obtain ⟨qs, hq, hsorted⟩ := h.add_alone d
    rw [add_missing hi]
    refine ⟨qs, hq, fun room hs => ⟨fun _ => by simp [Change.IsApart, hi], fun _ => hsorted ?_ hs⟩⟩
    rwa [HasRoomFor, Option.bind_some, hi] at room
  | some s =>
    have hp := h.getElem? hi
    obtain ⟨a, ha⟩ := Option.isSome_iff_exists.mp (h.placed s (List.mem_of_getElem? hi))
    rw [add_sibling hi ha]
    refine ⟨_, (h.move (makeRoom a)).insertIdx rfl i, fun room hs => ?_⟩
    have columns : ∀ p ∈ ps, p.HasRoom a := by
      have columns : ∀ p ∈ r.positions, p.HasRoom a := room.1 s hi a ha
      rwa [positions, h.positions_eq] at columns
    rw [sorted_takeOver hs (hp ▸ ha) columns]
    simp only [Change.IsApart, hi, Option.mem_def, Option.some.injEq, forall_eq', ha]
    constructor
    · intro apart e he hsame
      obtain ⟨j, hj, rfl⟩ := List.mem_take_iff_getElem.mp he
      refine apart j (by omega) ?_
      rw [← h.getElem? (List.getElem?_eq_getElem (by omega)), hsame]
    · intro apart j hj hsame
      have hlt : j < r.declarations.length := by
        have := (List.getElem?_eq_some_iff.mp hi).1
        omega
      refine apart _ (List.mem_take_iff_getElem.mpr ⟨j, by omega, rfl⟩) ?_
      rw [h.getElem? (List.getElem?_eq_getElem hlt), hsame]

theorem Stand.addAll {r : RuleSet} {ps : List Position} (h : Stand r.declarations ps) (ds : List Declaration) :
    ∃ qs, Stand (r.addAll ds).declarations qs ∧ (r.HasRoomForAll ds → Sorted ps → Sorted qs) := by
  induction ds generalizing r ps with
  | nil => exact ⟨ps, h, fun _ => id⟩
  | cons d ds ih =>
    obtain ⟨qs, hq, hqs⟩ := h.add_alone d
    obtain ⟨ts, ht, hts⟩ := ih hq
    exact ⟨ts, ht, fun room hs => hts room.2 (hqs room.1 hs)⟩

/-- What is left behind a removal stands in the order in which it stood. -/
theorem Stand.removed {r s : RuleSet} {ps : List Position} (h : Stand r.declarations ps)
    (hs : s.declarations.Sublist r.declarations) :
    ∃ qs, Stand s.declarations qs ∧ (Sorted ps → Sorted qs) := by
  obtain ⟨qs, hq, hqs⟩ := h.sublist hs
  exact ⟨qs, hqs, fun sorted => sorted.sublist hq⟩

theorem removeAt_sublist (i : Nat) (r : RuleSet) : (r.removeAt i).2.declarations.Sublist r.declarations := by
  unfold removeAt
  split
  · exact List.eraseIdx_sublist ..
  · exact .refl _

/-- A change that only takes out. -/
def Change.isRemoval : Change → Bool
  | remove _ => true
  | removeAt _ => true
  | removeFitting _ => true
  | clear => true
  | _ => false

/-- What is left behind a removal was there before. -/
theorem sublist_of_isRemoval {c : Change} (hc : c.isRemoval = true) (r : RuleSet) :
    (c.apply r).declarations.Sublist r.declarations := by
  cases c with
  | add d sibling => cases hc
  | addAll ds => cases hc
  | edit change start => cases hc
  | remove d =>
    unfold Change.apply remove
    dsimp only
    split
    · exact removeAt_sublist _ r
    · exact .refl _
  | removeAt i => exact removeAt_sublist i r
  | removeFitting pattern =>
    simp only [Change.apply, removeFitting, List.partition_eq_filter_filter, withDeclarations]
    exact List.filter_sublist
  | clear => exact List.nil_sublist _

/-- Every declaration keeps a position, and the order is kept just by a change that is apart. -/
theorem Stand.apply {r : RuleSet} {ps : List Position} (h : Stand r.declarations ps) {c : Change}
    (hc : c.isEdit = false) :
    ∃ qs, Stand (c.apply r).declarations qs ∧ (c.HasRoom r → Sorted ps → (Sorted qs ↔ c.IsApart r)) := by
  have kept {s : RuleSet} {room : Prop} (hs : ∃ qs, Stand s.declarations qs ∧ (room → Sorted ps → Sorted qs)) :
      ∃ qs, Stand s.declarations qs ∧ (room → Sorted ps → (Sorted qs ↔ True)) := by
    obtain ⟨qs, hq, hqs⟩ := hs
    exact ⟨qs, hq, fun room sorted => iff_true_intro (hqs room sorted)⟩
  have left {s : RuleSet} (hs : s.declarations.Sublist r.declarations) :
      ∃ qs, Stand s.declarations qs ∧ (True → Sorted ps → (Sorted qs ↔ True)) := by
    obtain ⟨qs, hq, hqs⟩ := h.removed hs
    exact ⟨qs, hq, fun _ sorted => iff_true_intro (hqs sorted)⟩
  cases c with
  | add d sibling =>
    cases sibling with
    | none => exact kept (h.add_alone d)
    | some i => exact h.add_before d i
  | addAll ds => exact kept (h.addAll ds)
  | edit change start => cases hc
  | remove d => exact left (sublist_of_isRemoval rfl r)
  | removeAt i => exact left (sublist_of_isRemoval rfl r)
  | removeFitting pattern => exact left (sublist_of_isRemoval rfl r)
  | clear => exact left (sublist_of_isRemoval rfl r)

theorem ofChanges_snoc (cs : List Change) (c : Change) : ofChanges (cs ++ [c]) = c.apply (ofChanges cs) := by
  rw [ofChanges, List.foldl_append]
  rfl

/-- Every one of some changes is as `P` says of it and of the rule set that it changes. -/
def Throughout (P : RuleSet → Change → Prop) (cs : List Change) : Prop := ∀ run c, run ++ [c] <+: cs → P (ofChanges run) c

section Throughout

variable {P : RuleSet → Change → Prop} {cs : List Change} {c : Change}

theorem throughout_nil : Throughout P [] := by
  intro run c h
  simp at h

theorem throughout_concat : Throughout P (cs ++ [c]) ↔ Throughout P cs ∧ P (ofChanges cs) c := by
  constructor
  · intro h
    exact ⟨fun run b hrun => h run b (List.prefix_concat_iff.mpr (.inr hrun)), h cs c (List.prefix_refl _)⟩
  · rintro ⟨inner, last⟩ run b hrun
    rcases List.prefix_concat_iff.mp hrun with whole | hrun
    · obtain ⟨rfl, rfl⟩ : run = cs ∧ b = c := by simpa using whole
      exact last
    · exact inner run b hrun

end Throughout

/-- As long as no declaration is edited, each one has a position. The declarations stay in source order throughout just
where every change on the way is apart, if none of them counts on from the last number of a line or a column. -/
theorem sorted_iff_apart (cs : List Change) (unedited : ∀ c ∈ cs, c.isEdit = false) :
    (∀ d ∈ (ofChanges cs).declarations, d.position.isSome = true) ∧
      (Throughout Change.HasRoom cs →
        ((∀ run, run <+: cs → Sorted (ofChanges run).positions) ↔ Throughout Change.IsApart cs)) := by
  have stand : ∃ ps, Stand (ofChanges cs).declarations ps ∧ (Throughout Change.HasRoom cs →
      ((∀ run, run <+: cs → Sorted (ofChanges run).positions) ↔ Throughout Change.IsApart cs)) := by
    induction cs using List.reverseRecOn with
    | nil =>
      refine ⟨[], rfl, fun _ => ⟨fun _ => throughout_nil, fun _ run h => ?_⟩⟩
      rw [List.prefix_nil.mp h]
      exact List.Pairwise.nil
    | append_singleton cs c ih =>
      obtain ⟨ps, hp, hall⟩ := ih fun c hc => unedited c (List.mem_append_left _ hc)
      obtain ⟨qs, hq, hstep⟩ := hp.apply (unedited c (by simp))
      rw [← ofChanges_snoc] at hq
      refine ⟨qs, hq, fun room => ?_⟩
      obtain ⟨earlier, here⟩ := throughout_concat.mp room
      have last (sorted : Sorted (ofChanges cs).positions) :
          Sorted (ofChanges (cs ++ [c])).positions ↔ c.IsApart (ofChanges cs) := by
        rw [positions, hp.positions_eq] at sorted
        rw [positions, hq.positions_eq]
        exact hstep here sorted
      rw [throughout_concat, ← hall earlier]
      constructor
      · intro sorted
        have inner := fun run h => sorted run (List.prefix_concat_iff.mpr (.inr h))
        exact ⟨inner, (last (inner cs (List.prefix_refl _))).mp (sorted _ (List.prefix_refl _))⟩
      · rintro ⟨inner, apart⟩ run hrun
        rcases List.prefix_concat_iff.mp hrun with rfl | hrun
        · exact (last (inner cs (List.prefix_refl _))).mpr apart
        · exact inner run hrun
  obtain ⟨ps, hp, hall⟩ := stand
  exact ⟨hp.placed, hall⟩

/-- Two declarations on lines of their own, one that takes over the place of the second, and a removal. -/
theorem sorted_iff_apart_run :
    let cs : List Change := [.add { name := "a", position := some ⟨1, 0⟩ } none, .add { name := "b" } none,
      .add { name := "c" } (some 1), .removeAt 0]
    (∀ c ∈ cs, c.isEdit = false) ∧ Throughout Change.HasRoom cs ∧
      (∀ d ∈ (ofChanges cs).declarations, d.position.isSome = true) ∧
      ((∀ run, run <+: cs → Sorted (ofChanges run).positions) ↔ Throughout Change.IsApart cs) := by
  intro cs
  have unedited : ∀ c ∈ cs, c.isEdit = false := by decide
  have room : Throughout Change.HasRoom cs := by
    show Throughout Change.HasRoom ([] ++ [_] ++ [_] ++ [_] ++ [_])
    simp only [throughout_concat]
    have first : RuleSet.HasRoomFor { name := "a", position := some ⟨1, 0⟩ } none (ofChanges []) := by decide
    have second : RuleSet.HasRoomFor { name := "b" } none (ofChanges (cs.take 1)) := by decide
    have third : RuleSet.HasRoomFor { name := "c" } (some 1) (ofChanges (cs.take 2)) := by decide
    exact ⟨⟨⟨⟨throughout_nil, first⟩, second⟩, third⟩, trivial⟩
  obtain ⟨placed, order⟩ := sorted_iff_apart cs unedited
  exact ⟨unedited, room, placed, order room⟩

/-- Of two declarations at one place the first moves behind a declaration that takes over the place of the second. -/
theorem unsorted_beside_shared :
    let cs : List Change := [.add { name := "a", position := some ⟨1, 0⟩ } none,
      .add { name := "b", position := some ⟨1, 0⟩ } none, .add { name := "c" } (some 1)]
    (∀ c ∈ cs, c.isEdit = false) ∧ (ofChanges cs).positions = [⟨1, 1⟩, ⟨1, 0⟩, ⟨1, 1⟩] ∧
      ¬ Sorted (ofChanges cs).positions := by
  intro cs
  have moved : (ofChanges cs).positions = [⟨1, 1⟩, ⟨1, 0⟩, ⟨1, 1⟩] := by decide
  refine ⟨by decide, moved, ?_⟩
  rw [moved]
  unfold Sorted
  decide

end RuleSet

end Stylesheet
