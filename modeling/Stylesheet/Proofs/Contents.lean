import Stylesheet.Proofs.Derivation
import Stylesheet.Proofs.Parting
import Stylesheet.Proofs.Pruning
import Stylesheet.Proofs.Trimming
import Stylesheet.Sheet.Walk

namespace Stylesheet

/-- The statement with the number `i` in the body at the end of a path. -/
def Sheet.statementAt? (path : List Nat) (i : Nat) (b : Sheet) : Option Statement :=
  (b.bodyAt? path).bind fun body => body.contents[i]?

namespace Selector

variable {text : String} {keyframe : Bool} {l : Location} {selectors : List Selector}

/-- A list of selectors that is read holds one at least, and none of them is blank. -/
theorem of_parseList (h : parseList text keyframe l = .ok selectors) :
    selectors ≠ [] ∧ ∀ s ∈ selectors, Text.trim s.text ≠ "" := by
  obtain ⟨valid, rfl⟩ := parseList_eq_ok_iff.mp h
  constructor
  · rw [parts_eq]
    simpa using partsIn_ne_nil {} text.toList
  · intro s hs
    obtain ⟨part, mem, rfl⟩ := List.mem_map.mp hs
    have solid := valid part mem
    rw [isValid, Bool.and_eq_true, Bool.not_eq_true', String.isEmpty_eq_false_iff] at solid
    simpa [ofText] using solid.1

end Selector

theorem Declaration.value_of_read {before : List Comment} {d : Declaration} {r s : Reader}
    (h : (read before).outcome r = (.ok d, s)) : d.value.isSome = true := by
  rw [read_eq] at h
  obtain ⟨_, _, _, h⟩ := Read.ok_of_bind h
  obtain ⟨_, _, _, h⟩ := Read.ok_of_bind h
  obtain ⟨_, _, _, h⟩ := Read.ok_of_bind h
  obtain ⟨_, _, _, h⟩ := Read.ok_of_bind h
  exact (of_readRest h).2

/-- All declarations that a rule set collects have values. -/
theorem RuleSet.Collected.values {p : Position} {r s : Reader} {rules : RuleSet} (h : Collected p r rules s) :
    ∀ d ∈ rules.declarations, d.value.isSome = true := by
  induction h with
  | empty moved =>
    intro d hd
    cases hd
  | passed before moved ih => exact ih
  | added before declared last ih =>
    rw [last]
    intro d hd
    rcases List.mem_append.mp hd with hd | hd
    · exact ih d hd
    · rw [List.mem_singleton.mp hd]
      exact Declaration.value_of_read declared

namespace Statement

variable {owner : Owner} {first : Bool} {r s : Reader} {st : Statement} {ss : List Statement}

/-- The declarations of a statement that holds a rule set. -/
def declarations : Statement → List Declaration
  | style r => r.rules.declarations
  | descriptors _ _ rules => rules.declarations
  | _ => []

theorem Taken.selectors {rule : StyleRule} (h : Taken owner first r (.style rule) s) :
    rule.selectors ≠ [] ∧ ∀ s ∈ rule.selectors, Text.trim s.text ≠ "" := by
  cases h with
  | style head start block => exact Selector.of_parseList head

theorem Taken.values (h : Taken owner first r st s) : ∀ d ∈ st.declarations, d.value.isSome = true := by
  cases h with
  | style head start block => exact block.values
  | descriptors start block => exact block.values
  | grouping | keyframes | imports | charset | naming =>
    intro d hd
    cases hd

/-- The naming of a charset is taken at the start of a sheet only. -/
theorem Taken.charset_first (h : Taken owner first r st s) (hs : st.encoding?.isSome = true) :
    owner = .sheet ∧ first = true := by
  cases h with
  | charset start => exact ⟨rfl, rfl⟩
  | style | descriptors | grouping | keyframes | imports | naming => cases hs

/-- The statements inside a statement were taken in the body of a rule. -/
theorem Taken.body {b : Sheet} (h : Taken owner first r st s) (hb : st.body? = some b) :
    ∃ inner u, inner ≠ .sheet ∧ AllTaken inner true u b.contents s := by
  cases h with
  | grouping start body =>
    cases hb
    exact ⟨.grouping, _, by decide, body⟩
  | keyframes start body =>
    cases hb
    exact ⟨.keyframes, _, by decide, body⟩
  | style | descriptors | imports | charset | naming => cases hb

/-- Only the statement with the number 0 is taken as the first one. -/
theorem AllTaken.get {i : Nat} (h : AllTaken owner first r ss s) (hi : ss[i]? = some st) :
    ∃ start u v, Taken owner start u st v ∧ (start = true → first = true ∧ i = 0) := by
  induction i generalizing first r ss with
  | zero =>
    cases h with
    | nil moved => cases hi
    | cons moved head tail =>
      cases hi
      exact ⟨first, _, _, head, fun start => ⟨start, rfl⟩⟩
  | succ i ih =>
    cases h with
    | nil moved => cases hi
    | cons moved head tail =>
      obtain ⟨start, u, v, taken, least⟩ := ih tail hi
      exact ⟨start, u, v, taken, fun top => absurd (least top).1 (by decide)⟩

/-- Every body inside another one was read like it; the body of the sheet is inside none. -/
theorem AllTaken.bodyAt {b body : Sheet} (h : AllTaken owner true r b.contents s) (path : List Nat)
    (hb : b.bodyAt? path = some body) :
    ∃ inner u v, AllTaken inner true u body.contents v ∧ (inner = .sheet → owner = .sheet ∧ path = []) := by
  induction path generalizing owner r s b with
  | nil =>
    cases hb
    exact ⟨owner, r, s, h, fun sheet => ⟨sheet, rfl⟩⟩
  | cons i path ih =>
    obtain ⟨next, found, rest⟩ := Option.bind_eq_some_iff.mp hb
    obtain ⟨st, hi, inside⟩ := Option.bind_eq_some_iff.mp found
    obtain ⟨start, u, v, taken, -⟩ := h.get hi
    obtain ⟨holder, w, deeper, all⟩ := taken.body inside
    obtain ⟨inner, x, y, taken, sheet⟩ := ih all rest
    exact ⟨inner, x, y, taken, fun top => absurd (sheet top).1 deeper⟩

mutual

theorem Taken.bareRules {owner : Owner} {first : Bool} {r s : Reader} {st : Statement} :
    Taken owner first r st s → st.bareRules = []
  | .style head _ _ => by
    have selectors := (Selector.of_parseList head).1
    rw [Statement.bareRules, if_neg (by simpa using selectors)]
  | .descriptors _ _ => rfl
  | .grouping _ body => body.bareRulesOf
  | .keyframes _ body => body.bareRulesOf
  | .imports _ => rfl
  | .charset _ => rfl
  | .naming _ => rfl

/-- Nothing bare is read. -/
theorem AllTaken.bareRulesOf {owner : Owner} {first : Bool} {r s : Reader} {ss : List Statement} :
    AllTaken owner first r ss s → Statement.bareRulesOf ss = []
  | .nil _ => rfl
  | .cons _ head tail => by rw [Statement.bareRulesOf, head.bareRules, tail.bareRulesOf, List.append_nil]

end

end Statement

namespace Sheet

variable {settings : Settings} {text : String} {sheet : Sheet}

/-- A sheet without bare rules is written, and the same whether faults are ignored or not. -/
theorem toCss_of_none_bare {b : Sheet} (h : Statement.bareRulesOf b.contents = []) (f : Layout) :
    ∃ css, b.toCss f = .ok css ∧ b.toCss (f.ignoring false) = .ok css := by
  have written := refused_toCss f b
  rw [h] at written
  obtain ⟨css, strict⟩ := written
  have kept : b.pruned = b := by rw [pruned, Statement.prunedAll_of_none _ h]
  have ignored : b.toCss (f.ignoring true) = .ok css := by rw [← toCss_pruned, kept, strict]
  have own : f = f.ignoring f.ignoreFaults := rfl
  cases hf : f.ignoreFaults with
  | false =>
    rw [hf] at own
    exact ⟨css, by rw [own]; exact strict, strict⟩
  | true =>
    rw [hf] at own
    exact ⟨css, by rw [own]; exact ignored, strict⟩

/-- Each statement was taken where it stands, at the start of the sheet or at another place. -/
theorem taken_of_statementAt {path : List Nat} {i : Nat} {st : Statement} (h : (parse settings text).1 = .ok sheet)
    (hs : sheet.statementAt? path i = some st) :
    ∃ owner first r s, Statement.Taken owner first r st s ∧
      (owner = .sheet ∧ first = true → path = [] ∧ i = 0) := by
  obtain ⟨s, all⟩ := allTaken_of_parse h
  obtain ⟨body, hb, hi⟩ := Option.bind_eq_some_iff.mp hs
  obtain ⟨owner, r, v, inside, root⟩ := all.bodyAt path hb
  obtain ⟨first, u, w, taken, least⟩ := inside.get hi
  exact ⟨owner, first, u, w, taken, fun start => ⟨(root start.1).2, (least start.2).2⟩⟩

/-- Whatever is read can be written: at any depth a style rule has selectors, of which none is blank, and a
declaration has a value, so that every layout writes the sheet and leaves nothing out. -/
theorem parse_writable (h : (parse settings text).1 = .ok sheet) :
    (∀ path i rule, sheet.statementAt? path i = some (.style rule) →
      rule.selectors ≠ [] ∧ ∀ s ∈ rule.selectors, Text.trim s.text ≠ "") ∧
    (∀ path i st, sheet.statementAt? path i = some st → ∀ d ∈ st.declarations, d.value.isSome = true) ∧
    ∀ f, ∃ css, sheet.toCss f = .ok css ∧ sheet.toCss (f.ignoring false) = .ok css := by
  refine ⟨fun path i rule hr => ?_, fun path i st hs => ?_, ?_⟩
  · obtain ⟨owner, first, r, s, taken, -⟩ := taken_of_statementAt h hr
    exact taken.selectors
  · obtain ⟨owner, first, r, s, taken, -⟩ := taken_of_statementAt h hs
    exact taken.values
  · obtain ⟨s, all⟩ := allTaken_of_parse h
    exact toCss_of_none_bare all.bareRulesOf

/-- Two rules and a declaration are left out here. -/
theorem parse_writable_lenient :
    ∃ sheet, (parse {} "{b:c}@media x{,d{e:f}g,h{i:;j:k}}@keyframes l{to{m:n}}").1 = .ok sheet ∧
      (∀ path i rule, sheet.statementAt? path i = some (.style rule) →
        rule.selectors ≠ [] ∧ ∀ s ∈ rule.selectors, Text.trim s.text ≠ "") ∧
      (∀ path i st, sheet.statementAt? path i = some st → ∀ d ∈ st.declarations, d.value.isSome = true) ∧
      ∀ f, ∃ css, sheet.toCss f = .ok css ∧ sheet.toCss (f.ignoring false) = .ok css := by
  have read : (parse {} "{b:c}@media x{,d{e:f}g,h{i:;j:k}}@keyframes l{to{m:n}}").1.toOption.isSome = true := by
    decide +kernel
  cases h : (parse {} "{b:c}@media x{,d{e:f}g,h{i:;j:k}}@keyframes l{to{m:n}}").1 with
  | error e =>
    rw [h] at read
    cases read
  | ok sheet => exact ⟨sheet, rfl, parse_writable h⟩

/-- The naming of a charset stands once at most, and only as the first statement of the sheet itself. -/
theorem parse_charset_first (h : (parse settings text).1 = .ok sheet) :
    (∀ path path' i i' st st', sheet.statementAt? path i = some st → sheet.statementAt? path' i' = some st' →
      st.encoding?.isSome = true → st'.encoding?.isSome = true → path = path' ∧ i = i') ∧
    ∀ path i st, sheet.statementAt? path i = some st → st.encoding?.isSome = true → path = [] ∧ i = 0 := by
  have first (path i st) (hs : sheet.statementAt? path i = some st) (named : st.encoding?.isSome = true) :
      path = [] ∧ i = 0 := by
    obtain ⟨owner, first, r, s, taken, start⟩ := taken_of_statementAt h hs
    exact start (taken.charset_first named)
  refine ⟨fun path path' i i' st st' hs hs' named named' => ?_, first⟩
  obtain ⟨rfl, rfl⟩ := first path i st hs named
  obtain ⟨rfl, rfl⟩ := first path' i' st' hs' named'
  exact ⟨rfl, rfl⟩

/-- Two charsets are left out here, one behind the first statement and one inside a rule. -/
theorem parse_charset_first_lenient :
    ∃ sheet, (parse {} "@charset \"a\";b\x7b\x7d@charset \"c\";@media d\x7b@charset \"e\";f\x7b\x7d\x7d").1 = .ok sheet ∧
      (sheet.statementAt? [] 0).any (fun st => st.encoding?.isSome) = true ∧
      (∀ path path' i i' st st', sheet.statementAt? path i = some st → sheet.statementAt? path' i' = some st' →
        st.encoding?.isSome = true → st'.encoding?.isSome = true → path = path' ∧ i = i') ∧
      ∀ path i st, sheet.statementAt? path i = some st → st.encoding?.isSome = true → path = [] ∧ i = 0 := by
  have read : (parse {} "@charset \"a\";b\x7b\x7d@charset \"c\";@media d\x7b@charset \"e\";f\x7b\x7d\x7d").1.toOption.any
      (fun sheet => (sheet.statementAt? [] 0).any fun st => st.encoding?.isSome) = true := by
    decide +kernel
  cases h : (parse {} "@charset \"a\";b\x7b\x7d@charset \"c\";@media d\x7b@charset \"e\";f\x7b\x7d\x7d").1 with
  | error e =>
    rw [h] at read
    cases read
  | ok sheet =>
    rw [h] at read
    exact ⟨sheet, rfl, read, parse_charset_first h⟩

end Sheet

end Stylesheet
