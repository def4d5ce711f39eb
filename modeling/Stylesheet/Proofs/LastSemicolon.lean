import Stylesheet.Layout.Presets
import Stylesheet.RuleSet.Writing

namespace Stylesheet

/-- The text of a declaration without its last character. -/
def Declaration.unended (f : Layout) (d : Declaration) : String := String.ofList (d.toCss f).toList.dropLast

/-- The last character of a declaration is a semicolon. -/
theorem Declaration.toCss_unended (f : Layout) (d : Declaration) : d.toCss f = d.unended f ++ ";" := by
  have ends (t : String) : t ++ ";" = String.ofList (t ++ ";").toList.dropLast ++ ";" := by
    have last : (t ++ ";").toList = t.toList ++ [';'] := String.toList_append
    rw [last, List.dropLast_concat, String.ofList_toList]
  rw [unended, toCss]
  exact ends _

/-- The last semicolon is the one that no other stands behind. -/
theorem Layout.dropSemicolon_between {f : Layout} (hf : f.lastSemicolon = false) (before behind : String)
    (free : ';' ∉ behind.toList) : f.dropSemicolon (before ++ ";" ++ behind) = before ++ behind := by
  have text : before ++ ";" ++ behind = String.ofList (before.toList ++ ';' :: behind.toList) := by
    simp [← String.toList_inj]
  rw [← String.toList_inj, text, dropSemicolon_last hf free, String.toList_append]

/-- What stands at the end of the last text stands at the end of them all. -/
theorem intercalate_append (between : String) (texts : List String) (last behind : String) :
    String.intercalate between (texts ++ [last ++ behind]) = String.intercalate between (texts ++ [last]) ++ behind := by
  induction texts with
  | nil => rfl
  | cons t texts ih =>
    have more (u : String) : String.intercalate between (t :: texts ++ [u]) =
        t ++ between ++ String.intercalate between (texts ++ [u]) := by
      cases texts with
      | nil => exact String.intercalate_cons_cons
      | cons v texts => exact String.intercalate_cons_cons
    rw [more, more, ih, ← String.append_assoc]

namespace RuleSet

variable {f : Layout} {r : RuleSet} {ds : List Declaration} {d : Declaration}

/-- The texts of declarations with the spacing before and between them, which is that of the level below the rule. -/
def joined (f : Layout) (texts : List String) : String :=
  f.deeper.beforeDeclarations ++ String.intercalate f.deeper.betweenDeclarations texts

/-- The texts of declarations end with the semicolon of the last one. -/
theorem joined_concat (f : Layout) (ds : List Declaration) (d : Declaration) :
    joined f ((ds ++ [d]).map (Declaration.toCss f.deeper)) =
      joined f (ds.map (Declaration.toCss f.deeper) ++ [d.unended f.deeper]) ++ ";" := by
  rw [List.map_append, List.map_singleton, Declaration.toCss_unended, joined, joined, intercalate_append,
    String.append_assoc]

theorem toCss_concat (hr : r.declarations = ds ++ [d]) :
    r.toCss f = f.dropSemicolon (joined f ((ds ++ [d]).map (Declaration.toCss f.deeper)) ++ f.afterDeclarations) := by
  have filled : (ds ++ [d]).isEmpty = false := by simp
  rw [toCss, texts, hr, filled, if_neg Bool.false_ne_true, joined]

/-- Where the last semicolon is left out, it is the one that ends the last declaration, unless the spacing behind the
declarations holds one: then the last semicolon there is left out, and every declaration keeps its own. -/
theorem toCss_without_last (hf : f.lastSemicolon = false) (r : RuleSet) :
    (r.declarations = [] → r.toCss f = "") ∧
      ∀ ds d, r.declarations = ds ++ [d] →
        d.toCss f.deeper = d.unended f.deeper ++ ";" ∧
          (';' ∉ f.afterDeclarations.toList →
            r.toCss f =
              joined f (ds.map (Declaration.toCss f.deeper) ++ [d.unended f.deeper]) ++ f.afterDeclarations) ∧
          ∀ before behind, f.afterDeclarations = before ++ ";" ++ behind → ';' ∉ behind.toList →
            r.toCss f = joined f ((ds ++ [d]).map (Declaration.toCss f.deeper)) ++ before ++ behind := by
  refine ⟨fun empty => ?_, fun ds d hr => ⟨d.toCss_unended f.deeper, fun free => ?_, fun before behind after free => ?_⟩⟩
  · rw [toCss, empty]
    rfl
  · rw [toCss_concat hr, joined_concat, Layout.dropSemicolon_between hf _ _ free]
  · rw [toCss_concat hr, after, ← String.append_assoc, ← String.append_assoc, Layout.dropSemicolon_between hf _ _ free]

/-- Semicolons in a comment, in values and between declarations. -/
theorem toCss_without_last_pretty :
    let f : Layout := { Layout.pretty with
      lastSemicolon := false, spacing := { Layout.pretty.spacing with betweenDeclarations := ";" } }
    let d : Declaration := { name := "a", value := some (.keyword "b;"), comments := [⟨"c;", none⟩] }
    let e : Declaration := { name := "d", value := some (.string ⟨"e;", none⟩) }
    let r : RuleSet := { declarations := [d, e] }
    f.lastSemicolon = false ∧ r.declarations = [d] ++ [e] ∧ ';' ∉ f.afterDeclarations.toList ∧
      e.toCss f.deeper = e.unended f.deeper ++ ";" ∧
      r.toCss f = joined f ([d].map (Declaration.toCss f.deeper) ++ [e.unended f.deeper]) ++ f.afterDeclarations ∧
      r.toCss f = "\n\t/*c;*/\n\ta: b;;;d: \"e;\"\n" := by
  intro f d e r
  have free : ';' ∉ f.afterDeclarations.toList := by decide +kernel
  obtain ⟨ends, text, -⟩ := (toCss_without_last (f := f) rfl r).2 [d] e rfl
  exact ⟨rfl, rfl, free, ends, text free, by decide +kernel⟩

end RuleSet

end Stylesheet
