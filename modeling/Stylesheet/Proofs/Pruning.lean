import Stylesheet.Sheet.Writing

namespace Stylesheet

/-- The layout with its choice to ignore faults made. -/
def Layout.ignoring (f : Layout) (b : Bool) : Layout := { f with ignoreFaults := b }

/-- Whether the statement itself is a style rule without selectors. -/
def Statement.isBareRule (s : Statement) : Bool := s.style?.any fun r => r.selectors.isEmpty

mutual

/-- The statement without the bare rules inside it. A body that is left empty stays. -/
def Statement.pruned : Statement → Statement
  | .style r => .style r
  | .descriptors name args rules => .descriptors name args rules
  | .grouping name args ⟨ss, p, cs, ts⟩ => .grouping name args ⟨Statement.prunedAll ss, p, cs, ts⟩
  | .keyframes name animation ⟨ss, p, cs, ts⟩ => .keyframes name animation ⟨Statement.prunedAll ss, p, cs, ts⟩
  | .imports url media p cs => .imports url media p cs
  | .charset encoding p cs => .charset encoding p cs
  | .naming abbreviation url p cs => .naming abbreviation url p cs
termination_by structural s => s

def Statement.prunedAll : List Statement → List Statement
  | [] => []
  | s :: ss => if s.isBareRule then Statement.prunedAll ss else s.pruned :: Statement.prunedAll ss
termination_by structural ss => ss

end

/-- The sheet with every bare rule removed from the list that holds it. -/
def Sheet.pruned (b : Sheet) : Sheet := { b with contents := Statement.prunedAll b.contents }

theorem Statement.isBareRule_iff (s : Statement) :
    s.isBareRule = true ↔ ∃ r, s = .style r ∧ r.selectors.isEmpty = true := by
  cases s <;> simp [isBareRule, style?]

namespace Layout

variable (f : Layout) (b : Bool)

@[simp] theorem ignoring_ignoreFaults : (f.ignoring b).ignoreFaults = b := rfl

@[simp] theorem ignoring_deeper : (f.ignoring b).deeper = f.deeper.ignoring b := rfl

@[simp] theorem ignoring_leading (cs : List Comment) : (f.ignoring b).leading cs = f.leading cs := rfl

@[simp] theorem ignoring_inserts : (f.ignoring b).inserts = f.inserts := rfl

@[simp] theorem ignoring_beforeBrace : (f.ignoring b).beforeBrace = f.beforeBrace := rfl

@[simp] theorem ignoring_selectorComma : (f.ignoring b).selectorComma = f.selectorComma := rfl

@[simp] theorem ignoring_afterBlocks : (f.ignoring b).afterBlocks = f.afterBlocks := rfl

@[simp] theorem ignoring_around (s : Separator) : (f.ignoring b).around s = f.around s := rfl

end Layout

namespace Value

mutual

theorem toCss_ignoring (f : Layout) (b : Bool) : (v : Value) → v.toCss (f.ignoring b) = v.toCss f
  | .keyword _ => rfl
  | .size _ => rfl
  | .color cs _ _ => by
    have texts := textsOfChannels_ignoring f b cs
    simp only [toCss, texts]
    rfl
  | .string _ => rfl
  | .url _ => rfl
  | .function _ args _ _ => by
    have texts := texts_ignoring f b args
    simp only [toCss, texts, Layout.ignoring_around]
  | .calculation _ ts _ => by
    have texts := textsOfTokens_ignoring f b ts
    simp only [toCss, texts]
  | .list vs _ _ => by
    have texts := texts_ignoring f b vs
    simp only [toCss, texts, Layout.ignoring_around]
  | .lineNames _ _ => rfl

theorem texts_ignoring (f : Layout) (b : Bool) : (vs : List Value) → texts (f.ignoring b) vs = texts f vs
  | [] => rfl
  | v :: vs => by rw [texts, texts, toCss_ignoring f b v, texts_ignoring f b vs]

theorem textsOfChannels_ignoring (f : Layout) (b : Bool) :
    (cs : List (Channel Value)) → textsOfChannels (f.ignoring b) cs = textsOfChannels f cs
  | [] => rfl
  | ⟨_, v⟩ :: cs => by
    rw [textsOfChannels, textsOfChannels, toCss_ignoring f b v, textsOfChannels_ignoring f b cs]

theorem textsOfTokens_ignoring (f : Layout) (b : Bool) :
    (ts : List (CalcToken Value)) → textsOfTokens (f.ignoring b) ts = textsOfTokens f ts
  | [] => rfl
  | .operand v :: ts => by
    rw [textsOfTokens, textsOfTokens, toCss_ignoring f b v, textsOfTokens_ignoring f b ts]
  | .operator _ :: ts => by rw [textsOfTokens, textsOfTokens, textsOfTokens_ignoring f b ts]
  | .opening :: ts => by rw [textsOfTokens, textsOfTokens, textsOfTokens_ignoring f b ts]
  | .closing :: ts => by rw [textsOfTokens, textsOfTokens, textsOfTokens_ignoring f b ts]

end

end Value

theorem RuleSet.toCss_ignoring (f : Layout) (b : Bool) (r : RuleSet) : r.toCss (f.ignoring b) = r.toCss f := by
  have text : Declaration.toCss (f.deeper.ignoring b) = Declaration.toCss f.deeper := by
    have value : Value.toCss (f.deeper.ignoring b) = Value.toCss f.deeper :=
      funext (Value.toCss_ignoring f.deeper b)
    funext d
    simp only [Declaration.toCss, Layout.ignoring_leading, value]
    rfl
  have texts : r.texts (f.ignoring b) = r.texts f := by
    simp only [RuleSet.texts, Layout.ignoring_deeper, text]
  simp only [RuleSet.toCss, texts]
  rfl

/-- What is refused for the first of the given rules, and not at all if there is none. -/
def Refused {α : Type} (rules : List StyleRule) (x : Except Fault α) : Prop :=
  match rules with
  | [] => ∃ a, x = .ok a
  | r :: _ => x = .error r.bareFault

namespace Refused

variable {α β : Type} {rules others : List StyleRule} {x : Except Fault α}

theorem ok (a : α) : Refused [] (Except.ok a : Except Fault α) := ⟨a, rfl⟩

theorem map (g : α → β) (h : Refused rules x) : Refused rules (x.map g) := by
  cases rules with
  | nil =>
    obtain ⟨a, rfl⟩ := h
    exact ok (g a)
  | cons r rs =>
    have fault : x = .error r.bareFault := h
    rw [fault]
    rfl

/-- What goes on after the first step is refused for its own rules once the first step is through. -/
theorem next {step : α → Except Fault β} (h : Refused rules x) (hs : ∀ a, x = .ok a → Refused others (step a)) :
    Refused (rules ++ others) (x >>= step) := by
  cases rules with
  | nil =>
    obtain ⟨a, rfl⟩ := h
    exact hs a rfl
  | cons r rs =>
    have fault : x = .error r.bareFault := h
    rw [fault]
    rfl

theorem eq_error_iff (h : Refused rules x) (e : Fault) :
    x = .error e ↔ ∃ r, rules.head? = some r ∧ e = r.bareFault := by
  cases rules with
  | nil =>
    obtain ⟨a, rfl⟩ := h
    simp
  | cons r rs =>
    have fault : x = .error r.bareFault := h
    rw [fault]
    simp [eq_comm]

end Refused

namespace Statement

variable (f : Layout)

/-- Where faults are not ignored, the texts of a list are those of its first statement and then of the others. -/
theorem texts_strict (s : Statement) (ss : List Statement) :
    texts (f.ignoring false) (s :: ss) =
      s.toCss (f.ignoring false) >>= fun text => (texts (f.ignoring false) ss).map (text :: ·) := by
  rw [texts]
  cases s.toCss (f.ignoring false) with
  | ok text => rfl
  | error e => simp [Bind.bind, Except.bind]

theorem refused_style (r : StyleRule) :
    Refused (bareRules (.style r)) (toCss (f.ignoring false) (.style r)) := by
  rw [toCss, StyleRule.toCss, bareRules]
  by_cases h : r.selectors.isEmpty = true
  · rw [if_pos h, if_pos h]
    simp [Refused]
  · rw [if_neg h, if_neg h]
    exact .ok _

mutual

theorem refused_toCss (f : Layout) : (s : Statement) → Refused s.bareRules (s.toCss (f.ignoring false))
  | .style r => refused_style f r
  | .descriptors _ _ _ => .ok _
  | .grouping _ _ ⟨ss, _, _, _⟩ => by
    have body := refused_texts f.deeper ss
    rw [toCss, bareRules]
    exact body.map _
  | .keyframes _ _ ⟨ss, _, _, _⟩ => by
    have body := refused_texts f.deeper ss
    rw [toCss, bareRules]
    exact body.map _
  | .imports _ _ _ _ => .ok _
  | .charset _ _ _ => .ok _
  | .naming _ _ _ _ => .ok _

theorem refused_texts (f : Layout) :
    (ss : List Statement) → Refused (bareRulesOf ss) (texts (f.ignoring false) ss)
  | [] => .ok _
  | s :: ss => by
    have first := refused_toCss f s
    have others := refused_texts f ss
    rw [texts_strict, bareRulesOf]
    exact first.next fun text _ => others.map (text :: ·)

end

theorem texts_ignoring_ok (ss : List Statement) : ∃ ts, texts (f.ignoring true) ss = .ok ts := by
  induction ss with
  | nil => exact ⟨[], rfl⟩
  | cons s ss ih =>
    obtain ⟨ts, others⟩ := ih
    rw [texts, others]
    cases s.toCss (f.ignoring true) with
    | ok text => exact ⟨text :: ts, rfl⟩
    | error e => exact ⟨ts, by simp⟩

/-- Only a bare rule itself cannot be written; what stands in a body is left out there. -/
theorem toCss_ignoring_ok (s : Statement) (h : s.isBareRule = false) : ∃ text, s.toCss (f.ignoring true) = .ok text := by
  cases s with
  | style r =>
    have selectors : r.selectors.isEmpty = false := by simpa [isBareRule, style?] using h
    simp [toCss, StyleRule.toCss, selectors]
  | grouping name args body =>
    obtain ⟨ts, inside⟩ := texts_ignoring_ok f.deeper body.contents
    simp [toCss, inside, Except.map]
  | keyframes name animation body =>
    obtain ⟨ts, inside⟩ := texts_ignoring_ok f.deeper body.contents
    simp [toCss, inside, Except.map]
  | descriptors name args rules => simp [toCss]
  | imports url media p cs => simp [toCss]
  | charset encoding p cs => simp [toCss]
  | naming abbreviation url p cs => simp [toCss]

theorem toCss_bareRule (s : Statement) (h : s.isBareRule = true) : ∃ e, s.toCss (f.ignoring true) = .error e := by
  obtain ⟨r, rfl, bare⟩ := (isBareRule_iff s).mp h
  simp [toCss, StyleRule.toCss, bare]

mutual

theorem toCss_pruned (f : Layout) : (s : Statement) → s.pruned.toCss (f.ignoring false) = s.toCss (f.ignoring true)
  | .style r => by simp [pruned, toCss, StyleRule.toCss, RuleSet.toCss_ignoring]
  | .descriptors _ _ _ => by simp [pruned, toCss, RuleSet.toCss_ignoring]
  | .grouping _ _ ⟨ss, _, _, _⟩ => by
    have inside := texts_prunedAll f.deeper ss
    simp only [pruned, toCss, Layout.ignoring_deeper, inside]
    rfl
  | .keyframes _ _ ⟨ss, _, _, _⟩ => by
    have inside := texts_prunedAll f.deeper ss
    simp only [pruned, toCss, Layout.ignoring_deeper, inside]
    rfl
  | .imports _ _ _ _ => rfl
  | .charset _ _ _ => rfl
  | .naming _ _ _ _ => by simp [pruned, toCss, Value.toCss_ignoring]

/-- Leaving out what cannot be written is writing what is left after pruning. -/
theorem texts_prunedAll (f : Layout) :
    (ss : List Statement) → texts (f.ignoring false) (prunedAll ss) = texts (f.ignoring true) ss
  | [] => rfl
  | s :: ss => by
    have first := toCss_pruned f s
    have others := texts_prunedAll f ss
    rw [prunedAll, texts]
    by_cases h : s.isBareRule = true
    · obtain ⟨e, refused⟩ := toCss_bareRule f s h
      rw [if_pos h, others, refused]
      simp
    · obtain ⟨text, written⟩ := toCss_ignoring_ok f s (by simpa using h)
      rw [if_neg h, texts_strict, first, written, others]
      rfl

end

theorem bareRules_of_isBareRule (s : Statement) (h : s.isBareRule = true) : s.bareRules ≠ [] := by
  obtain ⟨r, rfl, bare⟩ := (isBareRule_iff s).mp h
  simp [bareRules, bare]

mutual

theorem bareRules_pruned : (s : Statement) → s.isBareRule = false → s.pruned.bareRules = []
  | .style r, h => by
    have selectors : r.selectors.isEmpty = false := by simpa [isBareRule, style?] using h
    simp [pruned, bareRules, selectors]
  | .grouping _ _ ⟨ss, _, _, _⟩, _ => bareRulesOf_prunedAll ss
  | .keyframes _ _ ⟨ss, _, _, _⟩, _ => bareRulesOf_prunedAll ss
  | .descriptors _ _ _, _ => rfl
  | .imports _ _ _ _, _ => rfl
  | .charset _ _ _, _ => rfl
  | .naming _ _ _ _, _ => rfl

/-- Nothing bare is left after pruning. -/
theorem bareRulesOf_prunedAll : (ss : List Statement) → bareRulesOf (prunedAll ss) = []
  | [] => rfl
  | s :: ss => by
    have others := bareRulesOf_prunedAll ss
    rw [prunedAll]
    by_cases h : s.isBareRule = true
    · rw [if_pos h, others]
    · have first := bareRules_pruned s (by simpa using h)
      rw [if_neg h, bareRulesOf, first, others]
      rfl

end

mutual

theorem pruned_of_none : (s : Statement) → s.bareRules = [] → s.pruned = s
  | .style _, _ => rfl
  | .grouping _ _ ⟨ss, _, _, _⟩, h => by rw [pruned, prunedAll_of_none ss h]
  | .keyframes _ _ ⟨ss, _, _, _⟩, h => by rw [pruned, prunedAll_of_none ss h]
  | .descriptors _ _ _, _ => rfl
  | .imports _ _ _ _, _ => rfl
  | .charset _ _ _, _ => rfl
  | .naming _ _ _ _, _ => rfl

/-- A list without bare rules is left as it is. -/
theorem prunedAll_of_none : (ss : List Statement) → bareRulesOf ss = [] → prunedAll ss = ss
  | [], _ => rfl
  | s :: ss, h => by
    rw [bareRulesOf] at h
    obtain ⟨first, others⟩ := List.append_eq_nil_iff.mp h
    have kept : ¬ s.isBareRule = true := fun bare => bareRules_of_isBareRule s bare first
    rw [prunedAll, if_neg kept, pruned_of_none s first, prunedAll_of_none ss others]

end

end Statement

namespace Sheet

variable (f : Layout) (b : Sheet)

theorem refused_toCss : Refused (Statement.bareRulesOf b.contents) (b.toCss (f.ignoring false)) :=
  (Statement.refused_texts f b.contents).map _

theorem toCss_pruned : b.pruned.toCss (f.ignoring false) = b.toCss (f.ignoring true) := by
  have contents := Statement.texts_prunedAll f b.contents
  simp only [toCss, pruned, contents]
  rfl

/-- A pruned sheet can always be written. -/
theorem toCss_pruned_ok : ∃ text, b.pruned.toCss (f.ignoring false) = .ok text := by
  have written := refused_toCss f b.pruned
  rw [pruned, Statement.bareRulesOf_prunedAll b.contents] at written
  exact written

/-- A sheet is refused exactly if some style rule in it, at whatever depth, has no selectors, and then for the
first of these; if faults are ignored, it is written as if these rules had never been there. -/
theorem toCss_of_bare_rules :
    ((∃ e, b.toCss (f.ignoring false) = .error e) ↔ ∃ r, r ∈ Statement.bareRulesOf b.contents) ∧
    (∀ e, b.toCss (f.ignoring false) = .error e ↔
      ∃ r, (Statement.bareRulesOf b.contents).head? = some r ∧
        e = .unwritable "declaration block without selectors" (r.rules.position.map Position.line)) ∧
    ∃ text, b.toCss (f.ignoring true) = .ok text ∧ b.pruned.toCss (f.ignoring false) = .ok text := by
  have first := (refused_toCss f b).eq_error_iff
  refine ⟨?_, first, ?_⟩
  · constructor
    · rintro ⟨e, refused⟩
      obtain ⟨r, head, -⟩ := (first e).mp refused
      exact ⟨r, List.mem_of_head? head⟩
    · rintro ⟨r, bare⟩
      cases rules : Statement.bareRulesOf b.contents with
      | nil => simp [rules] at bare
      | cons r' rs =>
        have head : (Statement.bareRulesOf b.contents).head? = some r' := by simp [rules]
        exact ⟨r'.bareFault, (first _).mpr ⟨r', head, rfl⟩⟩
  · obtain ⟨text, written⟩ := toCss_pruned_ok f b
    exact ⟨text, (toCss_pruned f b).symm.trans written, written⟩

end Sheet

end Stylesheet
