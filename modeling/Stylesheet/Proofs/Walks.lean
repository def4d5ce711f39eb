import Stylesheet.Sheet.Walk

namespace Stylesheet

namespace Statement

mutual

/-- The statement with its style rules and its sets of descriptors replaced. Keyframes stay as they are. -/
def outlined (style : StyleRule → StyleRule) (descriptors : RuleSet → RuleSet) : Statement → Statement
  | .style r => .style (style r)
  | .descriptors name args rules => .descriptors name args (descriptors rules)
  | .grouping name args ⟨ss, p, cs, ts⟩ => .grouping name args ⟨outlinedAll style descriptors ss, p, cs, ts⟩
  | .keyframes name animation body => .keyframes name animation body
  | .imports url media p cs => .imports url media p cs
  | .charset encoding p cs => .charset encoding p cs
  | .naming abbreviation url p cs => .naming abbreviation url p cs
termination_by structural s => s

def outlinedAll (style : StyleRule → StyleRule) (descriptors : RuleSet → RuleSet) :
    List Statement → List Statement
  | [] => []
  | s :: ss => s.outlined style descriptors :: outlinedAll style descriptors ss
termination_by structural ss => ss

end

end Statement

/-- The style rule without its declarations. -/
def StyleRule.withoutRules (r : StyleRule) : StyleRule := { r with rules := {} }

namespace Sheet

/-- What a sheet holds beside its rule sets: selectors, names, arguments, imports, keyframes and the order of all. -/
def withoutRuleSets (b : Sheet) : Sheet :=
  { b with contents := Statement.outlinedAll StyleRule.withoutRules (fun _ => {}) b.contents }

/-- What a sheet holds beside its style rules. -/
def withoutStyleRules (b : Sheet) : Sheet :=
  { b with contents := Statement.outlinedAll (fun _ => {}) id b.contents }

end Sheet

/-- `part` gives the members of a list by their numbers, of which the first one is `i`. -/
def Enumerates {α : Type} (part : Nat → α) (i : Nat) (as : List α) : Prop :=
  ∀ j a, as[j]? = some a → part (i + j) = a

namespace Enumerates

variable {α : Type} {part : Nat → α} {i : Nat} {as bs : List α}

theorem first (h : Enumerates part i (as ++ bs)) : Enumerates part i as := by
  intro j a hj
  have inside : j < as.length := (List.getElem?_eq_some_iff.mp hj).1
  exact h j a (by rw [List.getElem?_append_left inside, hj])

theorem second (h : Enumerates part i (as ++ bs)) : Enumerates part (i + as.length) bs := by
  intro j a hj
  have there : (as ++ bs)[as.length + j]? = some a := by
    rw [List.getElem?_append_right (Nat.le_add_right _ _), Nat.add_sub_cancel_left, hj]
  rw [Nat.add_assoc]
  exact h _ a there

/-- The members of a list by their numbers, and `other` behind the last one. -/
theorem of_list (as : List α) (other : α) : Enumerates (fun j => as[j]?.getD other) 0 as := by
  intro j a hj
  rw [Nat.zero_add]
  exact congrArg (·.getD other) hj

end Enumerates

namespace Statement

mutual

theorem count_editRuleSets (edit : Nat → RuleSet → RuleSet) (i : Nat) :
    (s : Statement) → (s.editRuleSets edit i).2 = i + s.ruleSets.length
  | .style _ => rfl
  | .descriptors _ _ _ => rfl
  | .grouping _ _ ⟨ss, _, _, _⟩ => count_editRuleSetsOf edit i ss
  | .keyframes _ _ _ => rfl
  | .imports _ _ _ _ => rfl
  | .charset _ _ _ => rfl
  | .naming _ _ _ _ => rfl

/-- The changing walk counts as many rule sets as the reading walk lists. -/
theorem count_editRuleSetsOf (edit : Nat → RuleSet → RuleSet) (i : Nat) :
    (ss : List Statement) → (editRuleSetsOf edit i ss).2 = i + (ruleSetsOf ss).length
  | [] => rfl
  | s :: ss => by
    have first := count_editRuleSets edit i s
    have others := count_editRuleSetsOf edit (s.editRuleSets edit i).2 ss
    rw [editRuleSetsOf, ruleSetsOf, List.length_append, others, first]
    omega

end

mutual

theorem ruleSets_editRuleSets (edit : Nat → RuleSet → RuleSet) (i : Nat) :
    (s : Statement) → (s.editRuleSets edit i).1.ruleSets = s.ruleSets.mapIdx fun j => edit (i + j)
  | .style _ => rfl
  | .descriptors _ _ _ => rfl
  | .grouping _ _ ⟨ss, _, _, _⟩ => ruleSetsOf_editRuleSetsOf edit i ss
  | .keyframes _ _ _ => rfl
  | .imports _ _ _ _ => rfl
  | .charset _ _ _ => rfl
  | .naming _ _ _ _ => rfl

/-- Walking over changed statements meets the rule sets that the walk met before, each of them changed. -/
theorem ruleSetsOf_editRuleSetsOf (edit : Nat → RuleSet → RuleSet) (i : Nat) :
    (ss : List Statement) → ruleSetsOf (editRuleSetsOf edit i ss).1 = (ruleSetsOf ss).mapIdx fun j => edit (i + j)
  | [] => rfl
  | s :: ss => by
    have first := ruleSets_editRuleSets edit i s
    have others := ruleSetsOf_editRuleSetsOf edit (s.editRuleSets edit i).2 ss
    have numbers (j : Nat) : i + s.ruleSets.length + j = i + (j + s.ruleSets.length) := by omega
    rw [count_editRuleSets] at others
    simp only [numbers] at others
    rw [editRuleSetsOf, ruleSetsOf, ruleSetsOf, first, count_editRuleSets, others, List.mapIdx_append]

end

mutual

theorem outlined_editRuleSets (edit : Nat → RuleSet → RuleSet) (i : Nat) :
    (s : Statement) → (s.editRuleSets edit i).1.outlined .withoutRules (fun _ => {}) =
      s.outlined .withoutRules fun _ => {}
  | .style _ => rfl
  | .descriptors _ _ _ => rfl
  | .grouping _ _ ⟨ss, _, _, _⟩ => by
    have inside := outlinedAll_editRuleSetsOf edit i ss
    rw [editRuleSets, outlined, outlined, inside]
  | .keyframes _ _ _ => rfl
  | .imports _ _ _ _ => rfl
  | .charset _ _ _ => rfl
  | .naming _ _ _ _ => rfl

/-- A change of rule sets leaves all else as it is. -/
theorem outlinedAll_editRuleSetsOf (edit : Nat → RuleSet → RuleSet) (i : Nat) :
    (ss : List Statement) → outlinedAll StyleRule.withoutRules (fun _ => {}) (editRuleSetsOf edit i ss).1 =
      outlinedAll StyleRule.withoutRules (fun _ => {}) ss
  | [] => rfl
  | s :: ss => by
    have first := outlined_editRuleSets edit i s
    have others := outlinedAll_editRuleSetsOf edit (s.editRuleSets edit i).2 ss
    rw [editRuleSetsOf, outlinedAll, outlinedAll, first, others]

end

mutual

theorem editRuleSets_outlined (part : Nat → RuleSet) (i : Nat) :
    (s : Statement) → Enumerates part i s.ruleSets →
      ((s.outlined .withoutRules fun _ => {}).editRuleSets (fun j _ => part j) i).1 = s
  | .style r, h => by
    have there : part i = r.rules := h 0 r.rules rfl
    rw [outlined, editRuleSets, there]
    rfl
  | .descriptors _ _ rules, h => by
    have there : part i = rules := h 0 rules rfl
    rw [outlined, editRuleSets, there]
  | .grouping _ _ ⟨ss, _, _, _⟩, h => by
    have inside := editRuleSetsOf_outlinedAll part i ss h
    rw [outlined, editRuleSets, inside]
  | .keyframes _ _ _, _ => rfl
  | .imports _ _ _ _, _ => rfl
  | .charset _ _ _, _ => rfl
  | .naming _ _ _ _, _ => rfl

/-- The rule sets, put where they were taken out, make the statements again. -/
theorem editRuleSetsOf_outlinedAll (part : Nat → RuleSet) (i : Nat) :
    (ss : List Statement) → Enumerates part i (ruleSetsOf ss) →
      (editRuleSetsOf (fun j _ => part j) i (outlinedAll StyleRule.withoutRules (fun _ => {}) ss)).1 = ss
  | [], _ => rfl
  | s :: ss, h => by
    have first := editRuleSets_outlined part i s h.first
    have others := editRuleSetsOf_outlinedAll part (i + s.ruleSets.length) ss h.second
    have parts := ruleSets_editRuleSets (fun j _ => part j) i (s.outlined .withoutRules fun _ => {})
    have size := congrArg List.length parts
    rw [first, List.length_mapIdx] at size
    rw [outlinedAll, editRuleSetsOf, first, count_editRuleSets, ← size, others]

end

mutual

theorem count_editStyleRules (edit : Nat → StyleRule → StyleRule) (i : Nat) :
    (s : Statement) → (s.editStyleRules edit i).2 = i + s.styleRules.length
  | .style _ => rfl
  | .descriptors _ _ _ => rfl
  | .grouping _ _ ⟨ss, _, _, _⟩ => count_editStyleRulesOf edit i ss
  | .keyframes _ _ _ => rfl
  | .imports _ _ _ _ => rfl
  | .charset _ _ _ => rfl
  | .naming _ _ _ _ => rfl

/-- The changing walk counts as many style rules as the reading walk lists. -/
theorem count_editStyleRulesOf (edit : Nat → StyleRule → StyleRule) (i : Nat) :
    (ss : List Statement) → (editStyleRulesOf edit i ss).2 = i + (styleRulesOf ss).length
  | [] => rfl
  | s :: ss => by
    have first := count_editStyleRules edit i s
    have others := count_editStyleRulesOf edit (s.editStyleRules edit i).2 ss
    rw [editStyleRulesOf, styleRulesOf, List.length_append, others, first]
    omega

end

mutual

theorem styleRules_editStyleRules (edit : Nat → StyleRule → StyleRule) (i : Nat) :
    (s : Statement) → (s.editStyleRules edit i).1.styleRules = s.styleRules.mapIdx fun j => edit (i + j)
  | .style _ => rfl
  | .descriptors _ _ _ => rfl
  | .grouping _ _ ⟨ss, _, _, _⟩ => styleRulesOf_editStyleRulesOf edit i ss
  | .keyframes _ _ _ => rfl
  | .imports _ _ _ _ => rfl
  | .charset _ _ _ => rfl
  | .naming _ _ _ _ => rfl

/-- Walking over changed statements meets the style rules that the walk met before, each of them changed. -/
theorem styleRulesOf_editStyleRulesOf (edit : Nat → StyleRule → StyleRule) (i : Nat) :
    (ss : List Statement) →
      styleRulesOf (editStyleRulesOf edit i ss).1 = (styleRulesOf ss).mapIdx fun j => edit (i + j)
  | [] => rfl
  | s :: ss => by
    have first := styleRules_editStyleRules edit i s
    have others := styleRulesOf_editStyleRulesOf edit (s.editStyleRules edit i).2 ss
    have numbers (j : Nat) : i + s.styleRules.length + j = i + (j + s.styleRules.length) := by omega
    rw [count_editStyleRules] at others
    simp only [numbers] at others
    rw [editStyleRulesOf, styleRulesOf, styleRulesOf, first, count_editStyleRules, others, List.mapIdx_append]

end

mutual

theorem outlined_editStyleRules (edit : Nat → StyleRule → StyleRule) (i : Nat) :
    (s : Statement) → (s.editStyleRules edit i).1.outlined (fun _ => {}) id = s.outlined (fun _ => {}) id
  | .style _ => rfl
  | .descriptors _ _ _ => rfl
  | .grouping _ _ ⟨ss, _, _, _⟩ => by
    have inside := outlinedAll_editStyleRulesOf edit i ss
    rw [editStyleRules, outlined, outlined, inside]
  | .keyframes _ _ _ => rfl
  | .imports _ _ _ _ => rfl
  | .charset _ _ _ => rfl
  | .naming _ _ _ _ => rfl

/-- A change of style rules leaves all else as it is. -/
theorem outlinedAll_editStyleRulesOf (edit : Nat → StyleRule → StyleRule) (i : Nat) :
    (ss : List Statement) → outlinedAll (fun _ => {}) id (editStyleRulesOf edit i ss).1 =
      outlinedAll (fun _ => {}) id ss
  | [] => rfl
  | s :: ss => by
    have first := outlined_editStyleRules edit i s
    have others := outlinedAll_editStyleRulesOf edit (s.editStyleRules edit i).2 ss
    rw [editStyleRulesOf, outlinedAll, outlinedAll, first, others]

end

mutual

theorem editStyleRules_outlined (part : Nat → StyleRule) (i : Nat) :
    (s : Statement) → Enumerates part i s.styleRules →
      ((s.outlined (fun _ => {}) id).editStyleRules (fun j _ => part j) i).1 = s
  | .style r, h => by
    have there : part i = r := h 0 r rfl
    rw [outlined, editStyleRules, there]
  | .descriptors _ _ _, _ => rfl
  | .grouping _ _ ⟨ss, _, _, _⟩, h => by
    have inside := editStyleRulesOf_outlinedAll part i ss h
    rw [outlined, editStyleRules, inside]
  | .keyframes _ _ _, _ => rfl
  | .imports _ _ _ _, _ => rfl
  | .charset _ _ _, _ => rfl
  | .naming _ _ _ _, _ => rfl

/-- The style rules, put where they were taken out, make the statements again. -/
theorem editStyleRulesOf_outlinedAll (part : Nat → StyleRule) (i : Nat) :
    (ss : List Statement) → Enumerates part i (styleRulesOf ss) →
      (editStyleRulesOf (fun j _ => part j) i (outlinedAll (fun _ => {}) id ss)).1 = ss
  | [], _ => rfl
  | s :: ss, h => by
    have first := editStyleRules_outlined part i s h.first
    have others := editStyleRulesOf_outlinedAll part (i + s.styleRules.length) ss h.second
    have parts := styleRules_editStyleRules (fun j _ => part j) i (s.outlined (fun _ => {}) id)
    have size := congrArg List.length parts
    rw [first, List.length_mapIdx] at size
    rw [outlinedAll, editStyleRulesOf, first, count_editStyleRules, ← size, others]

end

mutual

theorem rules_styleRules_sublist : (s : Statement) → (s.styleRules.map StyleRule.rules).Sublist s.ruleSets
  | .style _ => .refl _
  | .descriptors _ _ _ => List.nil_sublist _
  | .grouping _ _ ⟨ss, _, _, _⟩ => rules_styleRulesOf_sublist ss
  | .keyframes _ _ _ => .refl _
  | .imports _ _ _ _ => .refl _
  | .charset _ _ _ => .refl _
  | .naming _ _ _ _ => .refl _

/-- The walk over rule sets meets those of the style rules in their order, and sets of descriptors between them. -/
theorem rules_styleRulesOf_sublist :
    (ss : List Statement) → ((styleRulesOf ss).map StyleRule.rules).Sublist (ruleSetsOf ss)
  | [] => .refl _
  | s :: ss => by
    rw [styleRulesOf, ruleSetsOf, List.map_append]
    exact (rules_styleRules_sublist s).append (rules_styleRulesOf_sublist ss)

end

end Statement

namespace Sheet

section Parts

variable {b c : Sheet}

/-- A sheet is its rule sets and what it holds beside them. -/
theorem eq_of_ruleSets (parts : b.ruleSets = c.ruleSets) (outline : b.withoutRuleSets = c.withoutRuleSets) : b = c := by
  have restored (d : Sheet) : d.withoutRuleSets.editRuleSets (fun i _ => d.ruleSets[i]?.getD {}) = d :=
    congrArg (fun ss => { d with contents := ss })
      (Statement.editRuleSetsOf_outlinedAll _ 0 d.contents (.of_list _ _))
  rw [← restored b, outline, parts, restored c]

/-- A sheet is its style rules and what it holds beside them. -/
theorem eq_of_styleRules (parts : b.styleRules = c.styleRules) (outline : b.withoutStyleRules = c.withoutStyleRules) :
    b = c := by
  have restored (d : Sheet) : d.withoutStyleRules.editStyleRules (fun i _ => d.styleRules[i]?.getD {}) = d :=
    congrArg (fun ss => { d with contents := ss })
      (Statement.editStyleRulesOf_outlinedAll _ 0 d.contents (.of_list _ _))
  rw [← restored b, outline, parts, restored c]

end Parts

section Changes

variable (b : Sheet)

theorem ruleSets_editRuleSets (edit : Nat → RuleSet → RuleSet) :
    (b.editRuleSets edit).ruleSets = b.ruleSets.mapIdx edit := by
  have changed := Statement.ruleSetsOf_editRuleSetsOf edit 0 b.contents
  simp only [Nat.zero_add] at changed
  exact changed

theorem withoutRuleSets_editRuleSets (edit : Nat → RuleSet → RuleSet) :
    (b.editRuleSets edit).withoutRuleSets = b.withoutRuleSets :=
  congrArg (fun ss => { b with contents := ss }) (Statement.outlinedAll_editRuleSetsOf edit 0 b.contents)

theorem styleRules_editStyleRules (edit : Nat → StyleRule → StyleRule) :
    (b.editStyleRules edit).styleRules = b.styleRules.mapIdx edit := by
  have changed := Statement.styleRulesOf_editStyleRulesOf edit 0 b.contents
  simp only [Nat.zero_add] at changed
  exact changed

theorem withoutStyleRules_editStyleRules (edit : Nat → StyleRule → StyleRule) :
    (b.editStyleRules edit).withoutStyleRules = b.withoutStyleRules :=
  congrArg (fun ss => { b with contents := ss }) (Statement.outlinedAll_editStyleRulesOf edit 0 b.contents)

/-- A changing walk counts as many parts as the reading walk lists. Each of them is changed by its number and nothing
else is, since a sheet is what the walk lists and what is left beside it. The rule sets of style rules are met in the
same order by both walks. -/
theorem edits_follow_walks (edit : Nat → RuleSet → RuleSet) (change : Nat → StyleRule → StyleRule) :
    ((Statement.editRuleSetsOf edit 0 b.contents).2 = b.ruleSets.length ∧
      (b.editRuleSets edit).ruleSets = b.ruleSets.mapIdx edit ∧
      (b.editRuleSets edit).withoutRuleSets = b.withoutRuleSets ∧
      ∀ c : Sheet, c = b ↔ c.ruleSets = b.ruleSets ∧ c.withoutRuleSets = b.withoutRuleSets) ∧
    ((Statement.editStyleRulesOf change 0 b.contents).2 = b.styleRules.length ∧
      (b.editStyleRules change).styleRules = b.styleRules.mapIdx change ∧
      (b.editStyleRules change).withoutStyleRules = b.withoutStyleRules ∧
      ∀ c : Sheet, c = b ↔ c.styleRules = b.styleRules ∧ c.withoutStyleRules = b.withoutStyleRules) ∧
    (b.styleRules.map StyleRule.rules).Sublist b.ruleSets := by
  have ruleSets : (Statement.editRuleSetsOf edit 0 b.contents).2 = b.ruleSets.length :=
    (Statement.count_editRuleSetsOf edit 0 b.contents).trans (Nat.zero_add _)
  have styleRules : (Statement.editStyleRulesOf change 0 b.contents).2 = b.styleRules.length :=
    (Statement.count_editStyleRulesOf change 0 b.contents).trans (Nat.zero_add _)
  refine ⟨⟨ruleSets, ruleSets_editRuleSets b edit, withoutRuleSets_editRuleSets b edit, fun c => ⟨?_, ?_⟩⟩,
    ⟨styleRules, styleRules_editStyleRules b change, withoutStyleRules_editStyleRules b change, fun c => ⟨?_, ?_⟩⟩,
    Statement.rules_styleRulesOf_sublist b.contents⟩
  · rintro rfl
    exact ⟨rfl, rfl⟩
  · rintro ⟨parts, outline⟩
    exact eq_of_ruleSets parts outline
  · rintro rfl
    exact ⟨rfl, rfl⟩
  · rintro ⟨parts, outline⟩
    exact eq_of_styleRules parts outline

end Changes

end Sheet

end Stylesheet
