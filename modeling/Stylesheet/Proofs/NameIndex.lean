import Mathlib.Data.List.Basic
import Mathlib.Data.List.Induction
import Stylesheet.RuleSet.Change
import Stylesheet.RuleSet.Lookup

namespace Stylesheet

namespace NameIndex

/-- The indices of the declarations with a name, from the first one on. -/
def indicesOf (name : String) (ds : List Declaration) : List Nat :=
  (List.range ds.length).filter fun i => ds[i]?.any fun d => d.name = name

/-- An index that has just the names of the declarations, each once, with the indices where they stand. -/
structure Exact (index : NameIndex) (ds : List Declaration) : Prop where
  nodup : (index.map Prod.fst).Nodup
  mem_names : ∀ name, name ∈ index.map Prod.fst ↔ ∃ d ∈ ds, d.name = name
  increasing : ∀ name, (index.find name).Pairwise (· < ·)
  mem_find : ∀ name i, i ∈ index.find name ↔ ∃ d, ds[i]? = some d ∧ d.name = name

theorem names_enter (name : String) (i : Nat) (index : NameIndex) :
    (index.enter name i).map Prod.fst =
      if name ∈ index.map Prod.fst then index.map Prod.fst else index.map Prod.fst ++ [name] := by
  induction index with
  | nil => simp [enter]
  | cons entry entries ih =>
    obtain ⟨n, is⟩ := entry
    by_cases hn : n = name
    · simp [enter, hn]
    · have hn' : name ≠ n := fun h => hn h.symm
      simp only [enter, if_neg hn, List.map_cons, ih, List.mem_cons, hn', false_or]
      split
      · rfl
      · rfl

theorem indicesOf_snoc (name : String) (ds : List Declaration) (d : Declaration) :
    indicesOf name (ds ++ [d]) = indicesOf name ds ++ if d.name = name then [ds.length] else [] := by
  have front : (List.range ds.length).filter (fun i => (ds ++ [d])[i]?.any fun d => d.name = name) =
      indicesOf name ds := by
    refine List.filter_congr fun i hi => ?_
    rw [List.getElem?_append_left (List.mem_range.mp hi)]
  rw [indicesOf, List.length_append, List.length_singleton, List.range_succ, List.filter_append, front]
  simp [List.filter_cons]

theorem pairwise_indicesOf (name : String) (ds : List Declaration) : (indicesOf name ds).Pairwise (· < ·) :=
  List.pairwise_lt_range.filter _

theorem mem_indicesOf {name : String} {ds : List Declaration} {i : Nat} :
    i ∈ indicesOf name ds ↔ ∃ d, ds[i]? = some d ∧ d.name = name := by
  simp only [indicesOf, List.mem_filter, List.mem_range, Option.any_eq_true, decide_eq_true_eq]
  constructor
  · exact fun h => h.2
  · rintro ⟨d, hd, hn⟩
    obtain ⟨hi, -⟩ := List.getElem?_eq_some_iff.mp hd
    exact ⟨hi, d, hd, hn⟩

/-- The names of some declarations, each once. -/
structure Names (names : List String) (ds : List Declaration) : Prop where
  nodup : names.Nodup
  mem_names : ∀ name, name ∈ names ↔ ∃ d ∈ ds, d.name = name

/-- The name of one more declaration is put behind the others, unless it is among them. -/
theorem Names.add {names : List String} {before : List Declaration} (h : Names names before) (d : Declaration) :
    Names (if d.name ∈ names then names else names ++ [d.name]) (before ++ [d]) where
  nodup := by
    split
    · exact h.nodup
    · next hn =>
      rw [List.nodup_append]
      refine ⟨h.nodup, by simp, fun a ha b hb hab => ?_⟩
      rw [List.mem_singleton.mp hb] at hab
      exact hn (hab ▸ ha)
  mem_names name := by
    have old := h.mem_names name
    have own := h.mem_names d.name
    by_cases hd : d.name = name
    · subst hd
      simp only [List.mem_append, List.mem_singleton, or_and_right, exists_or, exists_eq_left, or_true, iff_true]
      split
      · next hn => exact hn
      · simp
    · have hd' : name ≠ d.name := fun h => hd h.symm
      simp only [List.mem_append, List.mem_singleton, or_and_right, exists_or, exists_eq_left, hd, or_false, ← old]
      split
      · rfl
      · simp [hd']

/-- What entering one more declaration keeps: the names are those of the declarations entered so far, each once, and
every name has the indices of its declarations. -/
structure Enters (index : NameIndex) (before : List Declaration) : Prop where
  nodup : (index.map Prod.fst).Nodup
  mem_names : ∀ name, name ∈ index.map Prod.fst ↔ ∃ d ∈ before, d.name = name
  find_eq : ∀ name, index.find name = indicesOf name before

theorem Enters.names_enter {index : NameIndex} {before : List Declaration} (h : index.Enters before)
    (d : Declaration) : Names ((index.enter d.name before.length).map Prod.fst) (before ++ [d]) := by
  have names : Names (index.map Prod.fst) before := ⟨h.nodup, h.mem_names⟩
  rw [NameIndex.names_enter]
  exact names.add d

theorem Enters.enter {index : NameIndex} {before : List Declaration} (h : index.Enters before) (d : Declaration) :
    (index.enter d.name before.length).Enters (before ++ [d]) where
  nodup := (h.names_enter d).nodup
  mem_names := (h.names_enter d).mem_names
  find_eq name := by
    rw [find_enter, indicesOf_snoc, h.find_eq]
    by_cases hd : d.name = name
    · rw [if_pos hd.symm, if_pos hd]
    · rw [if_neg fun h => hd h.symm, if_neg hd, List.append_nil]

theorem Enters.enterAll {index : NameIndex} {before : List Declaration} (h : index.Enters before)
    (ds : List Declaration) : (enterAll ds before.length index).Enters (before ++ ds) := by
  induction ds generalizing index before with
  | nil => rwa [List.append_nil]
  | cons d ds ih =>
    have step := ih (h.enter d)
    rw [List.length_append, List.length_singleton, List.append_assoc] at step
    exact step

theorem enters_nil : Enters [] [] where
  nodup := List.nodup_nil
  mem_names := by simp
  find_eq _ := rfl

theorem enters_ofList (ds : List Declaration) : (ofList ds).Enters ds := enters_nil.enterAll ds

theorem Enters.exact {index : NameIndex} {ds : List Declaration} (h : index.Enters ds) : index.Exact ds where
  nodup := h.nodup
  mem_names := h.mem_names
  increasing name := h.find_eq name ▸ pairwise_indicesOf name ds
  mem_find name _ := h.find_eq name ▸ mem_indicesOf

/-- The declarations at the indices of a name are those that a search for the name finds. -/
theorem filterMap_indicesOf (name : String) (ds : List Declaration) :
    ((indicesOf name ds).filterMap fun i => ds[i]?) = ds.filter fun d => d.name = name := by
  induction ds using List.reverseRecOn with
  | nil => rfl
  | append_singleton before d ih =>
    have front : (indicesOf name before).filterMap (fun i => (before ++ [d])[i]?) =
        before.filter fun d => d.name = name := by
      rw [← ih]
      refine List.filterMap_congr fun i hi => ?_
      obtain ⟨e, he, -⟩ := mem_indicesOf.mp hi
      obtain ⟨hlt, -⟩ := List.getElem?_eq_some_iff.mp he
      exact List.getElem?_append_left hlt
    rw [indicesOf_snoc, List.filterMap_append, front, List.filter_append]
    by_cases hd : d.name = name
    · simp [hd]
    · simp [hd]

end NameIndex

namespace RuleSet

/-- Every change leaves the index that the declarations have. -/
theorem index_apply {r : RuleSet} (h : r.index = .ofList r.declarations) (c : Change) :
    (c.apply r).index = .ofList (c.apply r).declarations := by
  have added (r : RuleSet) (d : Declaration) (sibling : Option Nat) :
      (r.add d sibling).2.index = .ofList (r.add d sibling).2.declarations := by
    unfold add
    split
    · split
      · rfl
      · rfl
    · split
      · rfl
      · rfl
  have taken {r : RuleSet} (h : r.index = .ofList r.declarations) (i : Nat) :
      (r.removeAt i).2.index = .ofList (r.removeAt i).2.declarations := by
    unfold removeAt
    split
    · rfl
    · exact h
  cases c with
  | add d sibling => exact added r d sibling
  | addAll ds =>
    induction ds generalizing r with
    | nil => exact h
    | cons d ds ih => exact ih (added r d none)
  | edit change start => rfl
  | remove d =>
    unfold Change.apply remove
    dsimp only
    split
    · exact taken h _
    · exact h
  | removeAt i => exact taken h i
  | removeFitting pattern => rfl
  | clear => rfl

theorem index_foldl_apply {r : RuleSet} (h : r.index = .ofList r.declarations) (cs : List Change) :
    (cs.foldl Change.apply r).index = .ofList (cs.foldl Change.apply r).declarations := by
  induction cs generalizing r with
  | nil => exact h
  | cons c cs ih => exact ih (index_apply h c)

theorem index_ofChanges (cs : List Change) : (ofChanges cs).index = .ofList (ofChanges cs).declarations :=
  index_foldl_apply rfl cs

/-- A pattern without a dash at its end fits one name only. -/
theorem nameFits_name {pattern : String} (h : pattern.toList.getLast? ≠ some '-') (name : String) :
    Declaration.nameFits name pattern = decide (name = pattern) := by
  rw [Declaration.nameFits, if_neg h]

/-- With an exact index, looking up is searching. -/
theorem fitting_eq_filter {r : RuleSet} (h : r.index.Enters r.declarations) (pattern : String) :
    r.fitting (some pattern) = r.declarations.filter fun d => Declaration.nameFits d.name pattern := by
  by_cases hp : pattern.toList.getLast? = some '-'
  · rw [fitting, if_pos hp]
  · rw [fitting, if_neg hp, atIndices, h.find_eq, NameIndex.filterMap_indicesOf]
    exact List.filter_congr fun d _ => (nameFits_name hp d.name).symm

/-- Whatever changes made a rule set, its index is exact, and the declarations that fit a pattern are found in their
order, by the index or by a search. -/
theorem index_exact (cs : List Change) :
    (ofChanges cs).index.Exact (ofChanges cs).declarations ∧
      ∀ pattern, (ofChanges cs).fitting (some pattern) =
        (ofChanges cs).declarations.filter fun d => Declaration.nameFits d.name pattern := by
  have enters : (ofChanges cs).index.Enters (ofChanges cs).declarations := by
    rw [index_ofChanges]
    exact NameIndex.enters_ofList _
  exact ⟨enters.exact, fitting_eq_filter enters⟩

end RuleSet

end Stylesheet
