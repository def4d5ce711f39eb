import Stylesheet.Proofs.NameIndex

namespace Stylesheet

/-- The declaration in effect among some of one name. -/
def Declaration.inEffect? (ds : List Declaration) : Option Declaration :=
  (ds.filter Declaration.important).getLast?.or ds.getLast?

namespace RuleSet

open Declaration (inEffect?)

/-- A declaration behind all others is in effect unless only the one before is important. -/
theorem inEffect?_concat (ds : List Declaration) (d : Declaration) :
    inEffect? (ds ++ [d]) = prevail (inEffect? ds) d := by
  unfold inEffect?
  cases hd : d.important with
  | true =>
    have last : ((ds ++ [d]).filter Declaration.important).getLast? = some d := by
      rw [List.filter_append, List.filter_singleton, hd, cond_true, List.getLast?_concat]
    rw [last, Option.some_or]
    cases (ds.filter Declaration.important).getLast?.or ds.getLast? with
    | none => rfl
    | some w => rw [prevail, hd, Bool.or_true, if_pos rfl]
  | false =>
    have same : (ds ++ [d]).filter Declaration.important = ds.filter Declaration.important := by
      rw [List.filter_append, List.filter_singleton, hd, cond_false, List.append_nil]
    rw [same, List.getLast?_concat]
    cases hw : (ds.filter Declaration.important).getLast? with
    | none =>
      rw [Option.none_or, Option.none_or]
      cases hl : ds.getLast? with
      | none => rfl
      | some w =>
        have unimportant : w.important = false := by
          have absent := List.filter_eq_nil_iff.mp (List.getLast?_eq_none_iff.mp hw) w (List.mem_of_getLast? hl)
          simpa using absent
        rw [prevail, unimportant, Bool.not_false, Bool.true_or, if_pos rfl]
    | some w =>
      have important : w.important = true := (List.mem_filter.mp (List.mem_of_getLast? hw)).2
      rw [Option.some_or, Option.some_or, prevail, important, hd]
      rfl

/-- Prevailing one after the other leaves the declaration in effect. -/
theorem foldl_prevail (ds : List Declaration) : ds.foldl prevail none = inEffect? ds := by
  induction ds using List.reverseRecOn with
  | nil => rfl
  | append_singleton ds d ih => rw [List.foldl_append, List.foldl_cons, List.foldl_nil, ih, inEffect?_concat]

/-- With an exact index, asking for a name searches the declarations that have it. -/
theorem applied_eq {r : RuleSet} (h : r.index.Enters r.declarations) (name : String) :
    r.applied name = inEffect? (r.declarations.filter fun d => d.name = name) := by
  rw [applied, atIndices, h.find_eq, NameIndex.filterMap_indicesOf, foldl_prevail]

theorem prevail_some (w d : Declaration) : some ((prevail (some w) d).getD w) = prevail (some w) d := by
  unfold prevail
  dsimp only
  split <;> rfl

theorem lookup_entry (n : String) (w : Declaration) (entries : List (String × Declaration)) (name : String) :
    ((n, w) :: entries).lookup name = if name = n then some w else entries.lookup name := by
  by_cases hn : name = n
  · rw [hn, List.lookup_cons_self, if_pos rfl]
  · rw [List.lookup_cons, beq_false_of_ne hn, if_neg hn]

/-- A declaration competes with the one held under its name only. -/
theorem lookup_compete (d : Declaration) (entries : List (String × Declaration)) (name : String) :
    (compete d entries).lookup name =
      if name = d.name then prevail (entries.lookup name) d else entries.lookup name := by
  induction entries with
  | nil => exact lookup_entry d.name d [] name
  | cons entry entries ih =>
    obtain ⟨n, w⟩ := entry
    by_cases hd : n = d.name
    · rw [compete, if_pos hd, lookup_entry, lookup_entry, hd, prevail_some]
      split
      · rfl
      · rfl
    · rw [compete, if_neg hd, lookup_entry, lookup_entry, ih]
      by_cases hn : name = n
      · rw [if_pos hn, if_pos hn, if_neg fun same => hd (hn.symm.trans same)]
      · rw [if_neg hn, if_neg hn]

theorem names_compete (d : Declaration) (entries : List (String × Declaration)) :
    (compete d entries).map Prod.fst =
      if d.name ∈ entries.map Prod.fst then entries.map Prod.fst else entries.map Prod.fst ++ [d.name] := by
  induction entries with
  | nil => simp [compete]
  | cons entry entries ih =>
    obtain ⟨n, w⟩ := entry
    by_cases hd : n = d.name
    · simp [compete, hd]
    · have other : d.name ≠ n := fun h => hd h.symm
      simp only [compete, if_neg hd, List.map_cons, ih, List.mem_cons, other, false_or]
      split
      · rfl
      · rfl

/-- What one more competing declaration keeps: the names are those of the declarations so far, and under each of them
the one in effect is held. -/
structure Holds (entries : List (String × Declaration)) (before : List Declaration) : Prop where
  names : NameIndex.Names (entries.map Prod.fst) before
  lookup_eq : ∀ name, entries.lookup name = inEffect? (before.filter fun d => d.name = name)

theorem Holds.compete {entries : List (String × Declaration)} {before : List Declaration} (h : Holds entries before)
    (d : Declaration) : Holds (compete d entries) (before ++ [d]) where
  names := by
    rw [names_compete]
    exact h.names.add d
  lookup_eq name := by
    rw [lookup_compete, h.lookup_eq, List.filter_append, List.filter_singleton]
    by_cases hd : d.name = name
    · rw [if_pos hd.symm, decide_eq_true hd, cond_true, inEffect?_concat]
    · rw [if_neg fun h => hd h.symm, decide_eq_false hd, cond_false, List.append_nil]

theorem holds_foldl_compete (ds : List Declaration) :
    Holds (ds.foldl (fun entries d => RuleSet.compete d entries) []) ds := by
  induction ds using List.reverseRecOn with
  | nil => exact ⟨⟨List.nodup_nil, by simp⟩, fun _ => rfl⟩
  | append_singleton ds d ih =>
    rw [List.foldl_append]
    exact ih.compete d

/-- With distinct names, what is held under a name is what looking it up yields. -/
theorem lookup_of_mem {entries : List (String × Declaration)} {name : String} {w : Declaration}
    (distinct : (entries.map Prod.fst).Nodup) (h : (name, w) ∈ entries) : entries.lookup name = some w := by
  induction entries with
  | nil => cases h
  | cons entry entries ih =>
    obtain ⟨n, v⟩ := entry
    rw [List.map_cons, List.nodup_cons] at distinct
    rw [lookup_entry]
    rcases List.mem_cons.mp h with first | behind
    · cases first
      rw [if_pos rfl]
    · have held : name ∈ entries.map Prod.fst := List.mem_map.mpr ⟨(name, w), behind, rfl⟩
      have other : name ≠ n := fun same => distinct.1 (same ▸ held)
      rw [if_neg other]
      exact ih distinct.2 behind

/-- With an exact index, looking up is searching, with a pattern or without. -/
theorem filter_fitting {r : RuleSet} (h : r.index.Enters r.declarations) (pattern : Option String) :
    r.fitting pattern = r.declarations.filter fun d => pattern.all (Declaration.nameFits d.name) := by
  cases pattern with
  | none => exact (List.filter_eq_self.mpr fun _ _ => rfl).symm
  | some pattern => exact fitting_eq_filter h pattern

/-- Whatever changes made a rule set, the declaration in effect for a name is the last important one of that name, or the
last one if none is important. The declarations in effect under their names are those of the names that fit the pattern,
each name once. -/
theorem applied_inEffect (cs : List Change) :
    (∀ name, (ofChanges cs).applied name =
      Declaration.inEffect? ((ofChanges cs).declarations.filter fun d => d.name = name)) ∧
    ∀ pattern : Option String,
      (((ofChanges cs).appliedByName pattern).map Prod.fst).Nodup ∧
      (∀ name, name ∈ ((ofChanges cs).appliedByName pattern).map Prod.fst ↔
        pattern.all (Declaration.nameFits name) = true ∧ ∃ d ∈ (ofChanges cs).declarations, d.name = name) ∧
      ∀ name w, (name, w) ∈ (ofChanges cs).appliedByName pattern → (ofChanges cs).applied name = some w := by
  have enters : (ofChanges cs).index.Enters (ofChanges cs).declarations := by
    rw [index_ofChanges]
    exact NameIndex.enters_ofList _
  generalize ofChanges cs = r at enters
  refine ⟨applied_eq enters, fun pattern => ?_⟩
  have holds : Holds (r.appliedByName pattern) _ := holds_foldl_compete (r.fitting pattern)
  rw [filter_fitting enters] at holds
  have mem (name : String) : name ∈ (r.appliedByName pattern).map Prod.fst ↔
      pattern.all (Declaration.nameFits name) = true ∧ ∃ d ∈ r.declarations, d.name = name := by
    rw [holds.names.mem_names]
    constructor
    · rintro ⟨d, hd, rfl⟩
      obtain ⟨inside, fits⟩ := List.mem_filter.mp hd
      exact ⟨fits, d, inside, rfl⟩
    · rintro ⟨fits, d, inside, rfl⟩
      exact ⟨d, List.mem_filter.mpr ⟨inside, fits⟩, rfl⟩
  refine ⟨holds.names.nodup, mem, fun name w hw => ?_⟩
  have fits := ((mem name).mp (List.mem_map.mpr ⟨(name, w), hw, rfl⟩)).1
  rw [applied_eq enters, ← lookup_of_mem holds.names.nodup hw, holds.lookup_eq, List.filter_filter]
  refine congrArg inEffect? (List.filter_congr fun d _ => ?_)
  by_cases hd : d.name = name
  · rw [hd, fits, Bool.and_true]
  · rw [decide_eq_false hd, Bool.false_and]

end RuleSet

end Stylesheet
