import Stylesheet.Proofs.SheetRoundTrip
import Stylesheet.Proofs.ValueStability

namespace Stylesheet

/-- Stable values are read back in blank layouts as values of which the same is written. -/
def Rereading.stable (hash : Bool) : Rereading where
  fits f := f.IsBlank ∧ f.hashColors = hash
  blank hf := hf.1
  deeper hf := ⟨hf.1.deeper, hf.2⟩
  holds property v := v.isStable hash (Separator.ofProperty property)
  view f v := .keyword (v.toCss f)
  reads := by
    rintro f ⟨hf, rfl⟩ property v hv l hl b hb
    refine (Value.takes_stable hf.inValues hv hl hb).mono fun w same => ?_
    rw [Value.bare, Value.bare, same]

section Stronger

variable {holds holds' : String → Value → Bool}

theorem Declaration.isPlainWith_mono (weaker : ∀ property v, holds property v = true → holds' property v = true)
    {d : Declaration} (hd : d.isPlainWith holds = true) :
    d.isPlainWith holds' = true := by
  simp only [isPlainWith, Bool.and_eq_true, Option.any_eq_true] at hd ⊢
  obtain ⟨⟨⟨name, v, value, hv⟩, hacks⟩, comments⟩ := hd
  exact ⟨⟨⟨name, v, value, weaker _ v hv⟩, hacks⟩, comments⟩

theorem RuleSet.isPlainWith_mono (weaker : ∀ property v, holds property v = true → holds' property v = true)
    {r : RuleSet} (hr : r.isPlainWith holds = true) : r.isPlainWith holds' = true := by
  simp only [isPlainWith, Bool.and_eq_true, List.all_eq_true] at hr ⊢
  exact ⟨fun d hd => Declaration.isPlainWith_mono weaker (hr.1 d hd), hr.2⟩

namespace Statement

mutual

theorem isPlainWith_mono (weaker : ∀ property v, holds property v = true → holds' property v = true) :
    (s : Statement) → {keyframe : Bool} → s.isPlainWith holds keyframe = true → s.isPlainWith holds' keyframe = true
  | .style r, _, h => by
    simp only [isPlainWith, StyleRule.isPlainWith, Bool.and_eq_true] at h ⊢
    exact ⟨h.1, RuleSet.isPlainWith_mono weaker h.2⟩
  | .descriptors name args rules, _, h => by
    simp only [isPlainWith, Bool.and_eq_true] at h ⊢
    exact ⟨h.1, RuleSet.isPlainWith_mono weaker h.2⟩
  | .grouping name args ⟨ss, p, cs, ts⟩, _, h => by
    simp only [isPlainWith, Bool.and_eq_true] at h ⊢
    exact ⟨h.1, arePlainWith_mono weaker ss h.2⟩
  | .keyframes name animation ⟨ss, p, cs, ts⟩, _, h => by
    simp only [isPlainWith, Bool.and_eq_true] at h ⊢
    exact ⟨h.1, arePlainWith_mono weaker ss h.2⟩
  | .imports .., _, h | .charset .., _, h | .naming .., _, h => h

theorem arePlainWith_mono (weaker : ∀ property v, holds property v = true → holds' property v = true) :
    (ss : List Statement) → {keyframe : Bool} → arePlainWith holds ss keyframe = true →
      arePlainWith holds' ss keyframe = true
  | [], _, _ => rfl
  | s :: ss, _, h => by
    rw [arePlainWith, Bool.and_eq_true] at h ⊢
    exact ⟨isPlainWith_mono weaker s h.1, arePlainWith_mono weaker ss h.2⟩

end

end Statement

theorem Sheet.isPlainWith_mono (weaker : ∀ property v, holds property v = true → holds' property v = true) {d : Sheet}
    (hd : d.isPlainWith holds = true) : d.isPlainWith holds' = true := by
  rw [isPlainWith, Bool.and_eq_true] at hd ⊢
  refine ⟨hd.1, ?_⟩
  have contents := hd.2
  split at contents
  · rw [Bool.and_eq_true] at contents ⊢
    exact ⟨contents.1, Statement.arePlainWith_mono weaker _ contents.2⟩
  · exact Statement.arePlainWith_mono weaker _ contents

end Stronger

namespace Sheet

/-- A plain sheet but for the values of its declarations, which are stable where `hash` colors are liked or not. -/
def isStable (hash : Bool) (d : Sheet) : Bool := d.isPlainWith (Rereading.stable hash).holds

theorem isStable_of_isPlain {hash : Bool} {d : Sheet} (hd : d.isPlain = true) : d.isStable hash = true :=
  isPlainWith_mono (fun _ _ hv => Value.isStable_of_isPlain _ hv) hd

/-- The text of the sheet that a text is read as. -/
def rewritten (f : Layout) (settings : Settings) (text : String) : Except Fault String :=
  (parse settings text).1.bind (toCss f)

variable {f : Layout} {settings : Settings} {text : String} {d : Sheet}

/-- What is written of a sheet is written again when it is read, if what is shown of its values is what is written of
them. -/
theorem rewritten_of_toCss {k : Rereading} (shows : ∀ f v, (k.view f v).toCss f = v.toCss f) (hf : k.fits f)
    (hd : d.isPlainWith k.holds = true) (settings : Settings) :
    ∃ once, toCss f d = .ok once ∧ rewritten f settings once = .ok once := by
  obtain ⟨once, written, d', read, same⟩ := parse_toCss_viewed hf hd settings
  have again : (toCss f d').toOption = some once := by
    have kept : f.comments = true → true = true := fun _ => rfl
    rw [← toCss_viewed shows, ← toCss_bare kept, same, toCss_bare id, toCss_viewed shows, written]
    rfl
  refine ⟨once, written, ?_⟩
  rw [rewritten, read, Except.bind]
  cases h : toCss f d' with
  | ok twice =>
    rw [h] at again
    cases again
    rfl
  | error e =>
    rw [h] at again
    cases again

/-- A text that is read as a stable sheet is written as one that stays as it is. -/
theorem rewritten_stable (hf : f.IsBlank) (read : (parse settings text).1 = .ok d)
    (hd : d.isStable f.hashColors = true) :
    ∃ once, rewritten f settings text = .ok once ∧ rewritten f settings once = .ok once := by
  have shows (f : Layout) (v : Value) : (Value.keyword (v.toCss f)).toCss f = v.toCss f := rfl
  obtain ⟨once, written, again⟩ := rewritten_of_toCss (k := .stable f.hashColors) shows ⟨hf, rfl⟩ hd settings
  refine ⟨once, ?_, again⟩
  rw [rewritten, read]
  exact written

/-- The text of rules with sizes, colors, calculations and words with the prefix of a vendor stays as it is. -/
theorem rewritten_stable_rules :
    let text := "a,b\x7bc:.50px #FFAA00;width:calc( 2*(1px + 3px) )\x7d@media d\x7be\x7bf:-moz-x(RGB(1 2 none),url(g))\x7d\x7d"
    ∃ d, (parse { lenient := false } text).1 = .ok d ∧ d.isStable Layout.compact.hashColors = true ∧
      ∃ once, rewritten .compact { lenient := false } text = .ok once ∧
        rewritten .compact { lenient := false } once = .ok once := by
  intro text
  have stable : (parse { lenient := false } text).1.toOption.any (isStable Layout.compact.hashColors) = true := by
    decide +kernel
  cases read : (parse { lenient := false } text).1 with
  | error e =>
    rw [read] at stable
    cases stable
  | ok d =>
    rw [read] at stable
    exact ⟨d, rfl, stable, rewritten_stable Layout.isBlank_compact read stable⟩

/-- The blank between a slash and an asterisk is not written, and what is written cannot be read. -/
theorem rewritten_unstable :
    (rewritten .compact { lenient := false } "a{b:c/ *d}").toOption = some "a{b:c/* d}" ∧
      (rewritten .compact { lenient := false } "a{b:c/* d}").toOption = none := by
  constructor <;> decide +kernel

end Sheet

end Stylesheet
