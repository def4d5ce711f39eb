import Stylesheet.Proofs.Bare

namespace Stylesheet

/-- The declaration with its value as `view` shows it. -/
def Declaration.viewed (view : Value → Value) (d : Declaration) : Declaration := { d with value := d.value.map view }

/-- The rule set with the values of its declarations as `view` shows them in their layout. -/
def RuleSet.viewed (view : Layout → Value → Value) (f : Layout) (r : RuleSet) : RuleSet :=
  { r with declarations := r.declarations.map (Declaration.viewed (view f.deeper)) }

namespace Statement

mutual

def viewed (view : Layout → Value → Value) (f : Layout) : Statement → Statement
  | .style r => .style { r with rules := r.rules.viewed view f }
  | .descriptors name args rules => .descriptors name args (rules.viewed view f)
  | .grouping name args ⟨ss, p, cs, ts⟩ => .grouping name args ⟨viewedAll view f.deeper ss, p, cs, ts⟩
  | .keyframes name animation ⟨ss, p, cs, ts⟩ => .keyframes name animation ⟨viewedAll view f.deeper ss, p, cs, ts⟩
  | .imports url media p cs => .imports url media p cs
  | .charset encoding p cs => .charset encoding p cs
  | .naming abbreviation url p cs => .naming abbreviation url p cs
termination_by structural s => s

def viewedAll (view : Layout → Value → Value) (f : Layout) : List Statement → List Statement
  | [] => []
  | s :: ss => s.viewed view f :: viewedAll view f ss
termination_by structural ss => ss

end

end Statement

/-- The sheet with the values of its declarations as `view` shows them in their layouts. -/
def Sheet.viewed (view : Layout → Value → Value) (f : Layout) (b : Sheet) : Sheet :=
  { b with contents := Statement.viewedAll view f b.contents }

section Unchanged

theorem Declaration.viewed_same (d : Declaration) : d.viewed (fun v => v) = d := by
  rw [viewed, Option.map_id']

theorem RuleSet.viewed_same (f : Layout) (r : RuleSet) : r.viewed (fun _ v => v) f = r := by
  have all : r.declarations.map (Declaration.viewed fun v => v) = r.declarations := by
    rw [List.map_congr_left fun d _ => Declaration.viewed_same d, List.map_id']
  rw [viewed, all]

namespace Statement

mutual

theorem viewed_same (f : Layout) : (s : Statement) → s.viewed (fun _ v => v) f = s
  | .style r => by rw [viewed, RuleSet.viewed_same]
  | .descriptors name args rules => by rw [viewed, RuleSet.viewed_same]
  | .grouping name args ⟨ss, p, cs, ts⟩ => by rw [viewed, viewedAll_same f.deeper ss]
  | .keyframes name animation ⟨ss, p, cs, ts⟩ => by rw [viewed, viewedAll_same f.deeper ss]
  | .imports .. => rfl
  | .charset .. => rfl
  | .naming .. => rfl

theorem viewedAll_same (f : Layout) : (ss : List Statement) → viewedAll (fun _ v => v) f ss = ss
  | [] => rfl
  | s :: ss => by rw [viewedAll, viewed_same f s, viewedAll_same f ss]

end

end Statement

theorem Sheet.viewed_same (f : Layout) (b : Sheet) : b.viewed (fun _ v => v) f = b := by
  rw [viewed, Statement.viewedAll_same]

end Unchanged

section Writing

variable {view : Layout → Value → Value}

theorem Declaration.toCss_viewed {f : Layout} (h : ∀ v, (view f v).toCss f = v.toCss f) (d : Declaration) :
    (d.viewed (view f)).toCss f = d.toCss f := by
  have value : (d.value.map (view f)).map (Value.toCss f) = d.value.map (Value.toCss f) := by
    rw [Option.map_map]
    exact congrArg (d.value.map ·) (funext h)
  unfold toCss
  simp only [viewed, value]
  rfl

theorem RuleSet.toCss_viewed (h : ∀ f v, (view f v).toCss f = v.toCss f) (f : Layout) (r : RuleSet) :
    (r.viewed view f).toCss f = r.toCss f := by
  have texts : (r.viewed view f).texts f = r.texts f := by
    unfold RuleSet.texts viewed
    rw [List.map_map]
    exact List.map_congr_left fun d _ => Declaration.toCss_viewed (h f.deeper) d
  unfold toCss
  rw [texts, viewed]
  simp only [List.isEmpty_map]

namespace Statement

mutual

/-- What is written of a statement is what is written of what `view` shows, if that holds of values. -/
theorem toCss_viewed (h : ∀ f v, (view f v).toCss f = v.toCss f) (f : Layout) :
    (s : Statement) → (s.viewed view f).toCss f = s.toCss f
  | .style r => by
    rw [viewed, toCss, toCss, StyleRule.toCss, StyleRule.toCss]
    dsimp only
    rw [RuleSet.toCss_viewed h]
    rfl
  | .descriptors name args rules => by
    rw [viewed, toCss, toCss, RuleSet.toCss_viewed h]
    rfl
  | .grouping name args ⟨ss, p, cs, ts⟩ => by rw [viewed, toCss, toCss, texts_viewed h f.deeper ss]
  | .keyframes name animation ⟨ss, p, cs, ts⟩ => by rw [viewed, toCss, toCss, texts_viewed h f.deeper ss]
  | .imports .. => rfl
  | .charset .. => rfl
  | .naming .. => rfl

theorem texts_viewed (h : ∀ f v, (view f v).toCss f = v.toCss f) (f : Layout) :
    (ss : List Statement) → texts f (viewedAll view f ss) = texts f ss
  | [] => rfl
  | s :: ss => by rw [viewedAll, texts, texts, toCss_viewed h f s, texts_viewed h f ss]

end

end Statement

theorem Sheet.toCss_viewed (h : ∀ f v, (view f v).toCss f = v.toCss f) (f : Layout) (b : Sheet) :
    toCss f (b.viewed view f) = toCss f b := by
  rw [toCss, toCss, viewed, Statement.texts_viewed h]

end Writing

end Stylesheet
