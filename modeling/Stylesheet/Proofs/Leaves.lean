import Stylesheet.Proofs.Derivation
import Stylesheet.Proofs.Flattening
import Stylesheet.Proofs.NameIndex
import Stylesheet.Proofs.SourceOrder
import Stylesheet.Sheet.Walk

namespace Stylesheet

namespace Value

variable {deep : Bool}

theorem leavesOf_eq (vs : List Value) : leavesOf deep vs = vs.flatMap (leaves deep) := by
  induction vs with
  | nil => rfl
  | cons v vs ih => rw [leavesOf, ih, List.flatMap_cons]

theorem IsWhole.alone {v : Value} (hv : v.IsWhole) : ∀ u ∈ [v], u.IsWhole := by
  intro u hu
  rwa [List.mem_singleton.mp hu]

mutual

theorem leaves_whole : ∀ v : Value, ∀ u ∈ v.leaves deep, u.IsWhole
  | .list vs _ _ => leavesOf_whole vs
  | .function name args s p => by
    rw [leaves]
    split
    · exact leavesOf_whole args
    · exact IsWhole.alone nofun
  | .color cs legacy p => by
    rw [leaves]
    split
    · exact leavesOfChannels_whole cs
    · exact IsWhole.alone nofun
  | .calculation name ts p => by
    rw [leaves]
    split
    · exact leavesOfTokens_whole ts
    · exact IsWhole.alone nofun
  | .keyword _ => IsWhole.alone nofun
  | .size _ => IsWhole.alone nofun
  | .string _ => IsWhole.alone nofun
  | .url _ => IsWhole.alone nofun
  | .lineNames _ _ => IsWhole.alone nofun
termination_by structural v => v

theorem leavesOf_whole : ∀ vs : List Value, ∀ u ∈ leavesOf deep vs, u.IsWhole
  | [] => nofun
  | v :: vs => List.forall_mem_append.mpr ⟨leaves_whole v, leavesOf_whole vs⟩
termination_by structural vs => vs

theorem leavesOfChannels_whole : ∀ cs : List (Channel Value), ∀ u ∈ leavesOfChannels deep cs, u.IsWhole
  | [] => nofun
  | ⟨_, v⟩ :: cs => List.forall_mem_append.mpr ⟨leaves_whole v, leavesOfChannels_whole cs⟩
termination_by structural cs => cs

theorem leavesOfTokens_whole : ∀ ts : List (CalcToken Value), ∀ u ∈ leavesOfTokens deep ts, u.IsWhole
  | [] => nofun
  | .operand v :: ts => List.forall_mem_append.mpr ⟨leaves_whole v, leavesOfTokens_whole ts⟩
  | .operator _ :: ts => leavesOfTokens_whole ts
  | .opening :: ts => leavesOfTokens_whole ts
  | .closing :: ts => leavesOfTokens_whole ts
termination_by structural ts => ts

end

/-- What is no list is a leaf itself where calls are not opened. -/
theorem leaves_shallow {v : Value} (hv : v.IsWhole) : v.leaves false = [v] := by
  cases v with
  | list vs s p => exact absurd rfl (hv vs s p)
  | keyword | size | color | string | url | function | calculation | lineNames => rfl

/-- Opening the calls among the leaves opens all that are met on the way. -/
theorem leaves_deep (v : Value) : v.leaves true = (v.leaves false).flatMap (leaves true) := by
  induction v using list_induction with
  | whole v hv => rw [leaves_shallow hv, List.flatMap_singleton]
  | list vs s p ih =>
    rw [leaves, leaves, leavesOf_eq, leavesOf_eq, List.flatMap_assoc]
    exact List.flatMap_congr ih

end Value

namespace RuleSet

/-- Changes of an empty rule set made it. No change looks at the position or the comments of the rule set. -/
def IsBuilt (r : RuleSet) : Prop :=
  ∃ cs, r.declarations = (ofChanges cs).declarations ∧ r.index = (ofChanges cs).index

/-- Puts declarations in the place of others. -/
def exchange : List Declaration → Declaration → Declaration × List Declaration
  | [], d => (d, [])
  | e :: es, _ => (e, es)

theorem changeInTurn_exchange {ds es : List Declaration} (same : ds.length = es.length) :
    changeInTurn exchange es ds = es := by
  induction ds generalizing es with
  | nil => exact (List.length_eq_zero_iff.mp same.symm).symm
  | cons d ds ih =>
    cases es with
    | nil => cases same
    | cons e es => rw [changeInTurn, exchange, ih (Nat.succ.inj same)]

/-- A declaration without a position is put behind all others. -/
theorem length_ofChanges_adds (n : Nat) :
    (ofChanges (List.replicate n (.add { name := "" } none))).declarations.length = n := by
  induction n with
  | zero => rfl
  | succ n ih =>
    rw [List.replicate_succ', ofChanges_snoc]
    simp only [Change.apply, add, Option.bind_none, withDeclarations, List.length_append, ih, List.length_singleton]

/-- The rule sets that are built are those that have the index of their declarations. -/
theorem isBuilt_iff {r : RuleSet} : r.IsBuilt ↔ r.index = .ofList r.declarations := by
  constructor
  · rintro ⟨cs, declarations, index⟩
    rw [index, declarations, index_ofChanges]
  · -- as many declarations as there are, edited into the ones that there are
    intro index
    have built : (ofChanges (List.replicate r.declarations.length (.add { name := "" } none) ++
        [.edit exchange r.declarations])).declarations = r.declarations := by
      rw [ofChanges_snoc]
      exact changeInTurn_exchange (length_ofChanges_adds _)
    exact ⟨_, built.symm, by rw [index, index_ofChanges, built]⟩

/-- In a rule set that is built, looking up is searching. -/
theorem IsBuilt.fitting_eq {r : RuleSet} (h : r.IsBuilt) (pattern : Option String) :
    r.fitting pattern = r.declarations.filter fun d => pattern.all (Declaration.nameFits d.name) := by
  cases pattern with
  | none => exact (List.filter_eq_self.mpr fun _ _ => rfl).symm
  | some pattern =>
    have enters := NameIndex.enters_ofList r.declarations
    rw [← isBuilt_iff.mp h] at enters
    exact fitting_eq_filter enters pattern

/-- Reading builds rule sets by additions. -/
theorem Collected.isBuilt {p : Position} {r s : Reader} {rules : RuleSet} (h : Collected p r rules s) :
    rules.IsBuilt := by
  rw [isBuilt_iff]
  induction h with
  | empty moved => rfl
  | passed before moved ih => exact ih
  | added before declared last ih =>
    rw [last]
    rfl

end RuleSet

namespace Statement

mutual

theorem Taken.isBuilt {owner : Owner} {first : Bool} {r s : Reader} {st : Statement} :
    Taken owner first r st s → ∀ rules ∈ st.ruleSets, rules.IsBuilt
  | .style _ _ block => by
    intro rules hr
    obtain ⟨cs, built⟩ := block.isBuilt
    rw [List.mem_singleton.mp hr]
    exact ⟨cs, built⟩
  | .descriptors _ block => by
    intro rules hr
    obtain ⟨cs, built⟩ := block.isBuilt
    rw [List.mem_singleton.mp hr]
    exact ⟨cs, built⟩
  | .grouping _ body => body.isBuilt
  | .keyframes _ _ => nofun
  | .imports _ => nofun
  | .charset _ => nofun
  | .naming _ => nofun

theorem AllTaken.isBuilt {owner : Owner} {first : Bool} {r s : Reader} {ss : List Statement} :
    AllTaken owner first r ss s → ∀ rules ∈ ruleSetsOf ss, rules.IsBuilt
  | .nil _ => nofun
  | .cons _ head tail => List.forall_mem_append.mpr ⟨head.isBuilt, tail.isBuilt⟩

end

end Statement

namespace Sheet

variable {b : Sheet}

/-- All rule sets of a sheet that is read are built. -/
theorem isBuilt_of_parse {settings : Settings} {text : String} (h : (parse settings text).1 = .ok b) :
    ∀ r ∈ b.ruleSets, r.IsBuilt := by
  obtain ⟨s, taken⟩ := allTaken_of_parse h
  exact taken.isBuilt

/-- Searching all declarations finds what looking them up finds. -/
theorem leaves_eq (built : ∀ r ∈ b.ruleSets, r.IsBuilt) (pattern : Option String) (deep : Bool) :
    b.leaves pattern deep =
      b.ruleSets.flatMap fun r => ((r.fitting pattern).filterMap Declaration.value).flatMap (Value.leaves deep) := by
  refine List.flatMap_congr fun r hr => ?_
  rw [(built r hr).fitting_eq]
  induction r.declarations with
  | nil => rfl
  | cons d ds ih =>
    rw [List.flatMap_cons, ih, List.filter_cons]
    split
    · rw [List.filterMap_cons]
      cases d.value with
      | none => rfl
      | some v => rfl
    · rfl

theorem leaves_deep (pattern : Option String) :
    b.leaves pattern true = (b.leaves pattern false).flatMap (Value.leaves true) := by
  rw [leaves, leaves, List.flatMap_assoc]
  refine List.flatMap_congr fun r _ => ?_
  rw [List.flatMap_assoc]
  refine List.flatMap_congr fun d _ => ?_
  split
  · cases d.value with
    | none => rfl
    | some v => exact v.leaves_deep
  · rfl

theorem leaves_whole (pattern : Option String) (deep : Bool) : ∀ v ∈ b.leaves pattern deep, v.IsWhole := by
  intro v hv
  obtain ⟨r, -, hv⟩ := List.mem_flatMap.mp hv
  obtain ⟨d, -, hv⟩ := List.mem_flatMap.mp hv
  split at hv
  · cases hd : d.value with
    | none => rw [hd] at hv; cases hv
    | some u => rw [hd] at hv; exact u.leaves_whole v hv
  · cases hv

/-- The leaves of the values whose names fit are those of the declarations that are looked up in every rule set, in
order; the leaves inside of calls are found in the calls among the other ones; and none is a list. -/
theorem leaves_looked_up (built : ∀ r ∈ b.ruleSets, r.IsBuilt) (pattern : Option String) :
    (∀ deep, b.leaves pattern deep = b.ruleSets.flatMap fun r =>
      ((r.fitting pattern).filterMap Declaration.value).flatMap (Value.leaves deep)) ∧
    b.leaves pattern true = (b.leaves pattern false).flatMap (Value.leaves true) ∧
    ∀ deep, ∀ v ∈ b.leaves pattern deep, v.IsWhole :=
  ⟨leaves_eq built pattern, leaves_deep pattern, leaves_whole pattern⟩

/-- In a grouping rule, a list in a call, behind a declaration that was put before it. -/
theorem leaves_looked_up_call :
    let call := Value.function "f" [.list [.keyword "b", .keyword "c"] .space none, .keyword "d"] .comma none
    let r := RuleSet.ofChanges [.add { name := "x-y", value := some (.list [call, .keyword "e"] .space none) } none,
      .add { name := "x", value := some (.keyword "a") } (some 0), .add { name := "y", value := some (.keyword "z") } none]
    let b : Sheet := { contents := [.grouping "media" "print" { contents := [.style { rules := r }] }] }
    (∀ r ∈ b.ruleSets, r.IsBuilt) ∧
      ((b.leaves (some "x-") true).filterMap Value.keyword? = ["a", "b", "c", "d", "e"] ∧
        (b.leaves (some "x-") false).length = 3) ∧
      (∀ deep, b.leaves (some "x-") deep = b.ruleSets.flatMap fun r =>
        ((r.fitting (some "x-")).filterMap Declaration.value).flatMap (Value.leaves deep)) ∧
      b.leaves (some "x-") true = (b.leaves (some "x-") false).flatMap (Value.leaves true) ∧
      ∀ deep, ∀ v ∈ b.leaves (some "x-") deep, v.IsWhole := by
  intro call r b
  have built : ∀ r ∈ b.ruleSets, r.IsBuilt := by
    intro s hs
    obtain rfl : s = r := List.mem_singleton.mp hs
    exact ⟨_, rfl, rfl⟩
  exact ⟨built, by decide, leaves_looked_up built (some "x-")⟩

end Sheet

end Stylesheet
