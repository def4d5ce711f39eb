import Stylesheet.Proofs.Parting
import Stylesheet.Proofs.Trimming

namespace Stylesheet.Selector

/-- One character on in a scan for validity, if the character can stand there. -/
def validNext (keyframe : Bool) (n : Nesting) (c : Char) : Option Nesting :=
  if n.escaped then some { n with escaped := false }
  else
    match n.quote with
    | some q => some { n with quote := if c = q then none else some q }
    | none =>
      if c = '\\' then some { n with escaped := true }
      else if c = '"' || c = '\'' then some { n with quote := some c }
      else if c = '(' then some { n with depth := n.depth + 1 }
      else if c = ')' then some { n with depth := n.depth - 1 }
      else if (c = ',' && 0 < n.depth) || isSelectorChar keyframe c then some n
      else none

/-- Neither quotes nor an escape wait for what ends them. -/
def Nesting.isComplete (n : Nesting) : Bool := n.quote.isNone && !n.escaped

/-- Whether the characters can go on a selector from `n` up to its end. -/
def validIn (keyframe : Bool) (n : Nesting) (cs : List Char) : Bool :=
  (cs.foldlM (validNext keyframe) n).any Nesting.isComplete

variable {keyframe : Bool} {n m : Nesting} {c q : Char} {cs before body after : List Char} {depth : Nat}

theorem validIn_nil (keyframe : Bool) (n : Nesting) : validIn keyframe n [] = n.isComplete := by
  simp [validIn, pure]

theorem validIn_append (keyframe : Bool) (n : Nesting) (before after : List Char) :
    validIn keyframe n (before ++ after) =
      (before.foldlM (validNext keyframe) n).any fun m => validIn keyframe m after := by
  simp only [validIn, List.foldlM_append]
  cases before.foldlM (validNext keyframe) n with
  | none => rfl
  | some m => rfl

theorem validIn_cons (keyframe : Bool) (n : Nesting) (c : Char) (cs : List Char) :
    validIn keyframe n (c :: cs) = (validNext keyframe n c).any fun m => validIn keyframe m cs := by
  simp only [validIn, List.foldlM_cons]
  cases validNext keyframe n c with
  | none => rfl
  | some m => rfl

/-- A text can go on a selector just if the scan passes all its characters. -/
theorem validFrom_eq (keyframe : Bool) (quote : Option Char) (depth : Nat) (cs : List Char) :
    validFrom keyframe quote depth cs = validIn keyframe ⟨quote, depth, false⟩ cs := by
  fun_induction validFrom keyframe quote depth cs with
  | case1 quote depth => simp [validIn_nil, Nesting.isComplete]
  | case2 depth c rest q ih => simp [validIn_cons, validNext, ih]
  | case3 depth => simp [validIn_cons, validIn_nil, validNext, Nesting.isComplete]
  | case4 depth d rest ih => simp [validIn_cons, validNext, ih]
  | case5 depth c rest escape quote ih => simp [validIn_cons, validNext, escape, quote, ih]
  | case6 depth rest escape quote ih => simp [validIn_cons, validNext, ih]
  | case7 depth rest escape quote opening ih => simp [validIn_cons, validNext, ih]
  | case8 depth c rest escape quote opening closing fits ih =>
    simp [validIn_cons, validNext, escape, quote, opening, closing, fits, ih]
  | case9 depth c rest escape quote opening closing fits =>
    simp [validIn_cons, validNext, escape, quote, opening, closing, fits]

/-- A character that opens a quoted text. -/
def IsQuote (q : Char) : Prop := q = '"' ∨ q = '\''

/-- What a quoted text may hold: characters other than its quote and the backslash, and any characters behind
backslashes. -/
inductive Quotable (q : Char) : List Char → Prop
  | nil : Quotable q []
  | raw {c : Char} {cs : List Char} : c ≠ q → c ≠ '\\' → Quotable q cs → Quotable q (c :: cs)
  | escaped {c : Char} {cs : List Char} : Quotable q cs → Quotable q ('\\' :: c :: cs)

/-- Text between two quotes `q` that stands for nothing: a selector around it is valid just if it is valid with nothing
between the quotes. Only text before it without quotes and backslashes is certain not to reach into it. -/
def IsInert (q : Char) (body : List Char) : Prop :=
  ∀ before after keyframe, (∀ c ∈ before, ¬ IsQuote c ∧ c ≠ '\\') →
    isValid (String.ofList (before ++ q :: (body ++ q :: after))) keyframe =
      isValid (String.ofList (before ++ q :: q :: after)) keyframe

theorem validNext_opening (hq : IsQuote q) (depth : Nat) :
    validNext keyframe ⟨none, depth, false⟩ q = some ⟨some q, depth, false⟩ := by
  rcases hq with rfl | rfl
  · simp [validNext]
  · simp [validNext]

theorem validNext_quoted (q : Char) (depth : Nat) (c : Char) :
    validNext keyframe ⟨some q, depth, false⟩ c = some ⟨if c = q then none else some q, depth, false⟩ := by
  simp [validNext]

/-- Between quotes everything is passed up to the next quote of their kind. -/
theorem validIn_quoted (free : q ∉ body) (depth : Nat) (after : List Char) :
    validIn keyframe ⟨some q, depth, false⟩ (body ++ q :: after) = validIn keyframe ⟨none, depth, false⟩ after := by
  induction body with
  | nil => simp [validIn_cons, validNext_quoted]
  | cons c body ih =>
    rw [List.mem_cons, not_or] at free
    have other : c ≠ q := fun h => free.1 h.symm
    simp [validIn_cons, validNext_quoted, other, ih free.2]

/-- Outside quotes a character other than a backslash opens a quoted text, if it is a quote, and nothing otherwise. -/
theorem validNext_unquoted (escape : c ≠ '\\') (depth : Nat) :
    validNext keyframe ⟨none, depth, false⟩ c = none ∨
      ∃ quote d, validNext keyframe ⟨none, depth, false⟩ c = some ⟨quote, d, false⟩ ∧
        ∀ e ∈ quote, e = c ∧ IsQuote c := by
  unfold validNext
  simp only [escape, if_false, Bool.false_eq_true]
  split_ifs with quote
  · exact .inr ⟨_, _, rfl, by simpa [IsQuote] using quote⟩
  · exact .inr ⟨_, _, rfl, by simp⟩
  · exact .inr ⟨_, _, rfl, by simp⟩
  · exact .inr ⟨_, _, rfl, by simp⟩
  · exact .inl rfl

/-- Without quotes and backslashes the scan opens nothing but parentheses. -/
theorem foldlM_unquoted (keyframe : Bool) (free : ∀ c ∈ before, ¬ IsQuote c ∧ c ≠ '\\') (depth : Nat) :
    before.foldlM (validNext keyframe) ⟨none, depth, false⟩ = none ∨
      ∃ d, before.foldlM (validNext keyframe) ⟨none, depth, false⟩ = some ⟨none, d, false⟩ := by
  induction before generalizing depth with
  | nil => exact .inr ⟨depth, rfl⟩
  | cons c before ih =>
    obtain ⟨here, later⟩ := List.forall_mem_cons.mp free
    rw [List.foldlM_cons]
    rcases validNext_unquoted here.2 depth with refused | ⟨quote, d, passed, opened⟩
    · left
      rw [refused]
      rfl
    · cases quote with
      | none =>
        rw [passed]
        exact ih later d
      | some e => exact absurd (opened e rfl).2 here.1

theorem isBlank_of_isQuote (hq : IsQuote q) : Text.isBlank q = false := by
  rcases hq with rfl | rfl
  · decide
  · decide

/-- A text with a quote in it is valid just if the scan passes it. -/
theorem isValid_of_mem (hq : IsQuote q) (mem : q ∈ cs) (keyframe : Bool) :
    isValid (String.ofList cs) keyframe = validIn keyframe {} cs := by
  have solid : Text.trimChars cs ≠ [] := by
    intro blank
    have all := Text.trimChars_eq_nil_iff.mp blank q mem
    rw [isBlank_of_isQuote hq] at all
    cases all
  simp [isValid, Text.trim, validFrom_eq, solid]

/-- Text without the quote is inert. -/
theorem isInert_of_not_mem (hq : IsQuote q) (free : q ∉ body) : IsInert q body := by
  intro before after keyframe plain
  rw [isValid_of_mem hq (by simp), isValid_of_mem hq (by simp), validIn_append, validIn_append]
  rcases foldlM_unquoted keyframe plain 0 with refused | ⟨depth, passed⟩
  · rw [refused]
    rfl
  · rw [passed]
    simp only [Option.any_some, validIn_cons, validNext_opening hq]
    rw [validIn_quoted free]
    exact (validIn_quoted List.not_mem_nil depth after).symm

theorem not_backslash_of_isQuote (hq : IsQuote q) : '\\' ≠ q := by
  rintro rfl
  simp [IsQuote] at hq

/-- Where the quoted text has been left, a quote at its end opens a text that nothing closes, or is part of one. -/
theorem validIn_reopened (hq : IsQuote q) (quotable : Quotable q body) {quote : Option Char}
    (other : ∀ d ∈ quote, IsQuote d ∧ d ≠ q) (depth : Nat) :
    validIn keyframe ⟨quote, depth, false⟩ (body ++ [q]) = false := by
  induction quotable generalizing quote depth with
  | nil =>
    cases quote with
    | none => simp [validIn_cons, validNext_opening hq, validIn_nil, Nesting.isComplete]
    | some d =>
      have apart : q ≠ d := (other d rfl).2.symm
      simp [validIn_cons, validNext_quoted, apart, validIn_nil, Nesting.isComplete]
  | @raw c cs differs escape _ ih =>
    rw [List.cons_append, validIn_cons]
    cases quote with
    | none =>
      rcases validNext_unquoted escape depth with refused | ⟨quote, d, passed, opened⟩
      · rw [refused]
        rfl
      · rw [passed]
        apply ih
        intro e he
        obtain ⟨rfl, isQuote⟩ := opened e he
        exact ⟨isQuote, differs⟩
    | some d =>
      rw [validNext_quoted]
      apply ih
      split
      · simp
      · exact other
  | @escaped c cs _ ih =>
    rw [List.cons_append, List.cons_append, validIn_cons]
    cases quote with
    | none =>
      have step : validNext keyframe ⟨none, depth, false⟩ '\\' = some ⟨none, depth, true⟩ := by simp [validNext]
      have behind : validNext keyframe ⟨none, depth, true⟩ c = some ⟨none, depth, false⟩ := by simp [validNext]
      rw [step, Option.any_some, validIn_cons, behind]
      exact ih other depth
    | some d =>
      rw [validNext_quoted, if_neg (not_backslash_of_isQuote (other d rfl).1), Option.any_some, validIn_cons,
        validNext_quoted]
      apply ih
      split
      · simp
      · exact other

/-- An escaped quote ends the quoted text, so that the quote at its end is left over. -/
theorem validIn_of_mem (hq : IsQuote q) (quotable : Quotable q body) (mem : q ∈ body) (depth : Nat) :
    validIn keyframe ⟨some q, depth, false⟩ (body ++ [q]) = false := by
  induction quotable with
  | nil => simp at mem
  | @raw c cs differs _ _ ih =>
    have later : q ∈ cs := by simpa [differs.symm] using mem
    rw [List.cons_append, validIn_cons, validNext_quoted, if_neg differs]
    exact ih later
  | @escaped c cs quotable ih =>
    rw [List.cons_append, List.cons_append, validIn_cons, validNext_quoted,
      if_neg (not_backslash_of_isQuote hq), Option.any_some, validIn_cons, validNext_quoted]
    by_cases ends : c = q
    · rw [if_pos ends]
      exact validIn_reopened hq quotable (by simp) depth
    · have later : q ∈ cs := by simpa [ends, (not_backslash_of_isQuote hq).symm, Ne.symm ends] using mem
      rw [if_neg ends]
      exact ih later

/-- The scan that separates a list knows of the escapes: it leaves a quoted text at its end. -/
theorem foldl_quoted (hq : IsQuote q) (quotable : Quotable q body) (depth : Nat) :
    (body ++ [q]).foldl Nesting.next ⟨some q, depth, false⟩ = ⟨none, depth, false⟩ := by
  have escape := (not_backslash_of_isQuote hq).symm
  induction quotable with
  | nil => simp [Nesting.next, escape]
  | @raw c cs differs plain _ ih =>
    have step : Nesting.next ⟨some q, depth, false⟩ c = ⟨some q, depth, false⟩ := by
      simp [Nesting.next, differs, plain]
    rw [List.cons_append, List.foldl_cons, step]
    exact ih
  | @escaped c cs _ ih =>
    have opened : Nesting.next ⟨some q, depth, false⟩ '\\' = ⟨some q, depth, true⟩ := by simp [Nesting.next]
    have behind : Nesting.next ⟨some q, depth, true⟩ c = ⟨some q, depth, false⟩ := by simp [Nesting.next]
    rw [List.cons_append, List.cons_append, List.foldl_cons, opened, List.foldl_cons, behind]
    exact ih

/-- A quoted text is inert just if its own quote is not in it. With its quote in it, behind a backslash as it must be,
no selector is valid that ends with it, although the scan that separates a list leaves it at its end. -/
theorem isInert_iff (hq : IsQuote q) (quotable : Quotable q body) :
    (IsInert q body ↔ q ∉ body) ∧
      (∀ depth, (body ++ [q]).foldl Nesting.next ⟨some q, depth, false⟩ = ⟨none, depth, false⟩) ∧
      (q ∈ body → ∀ before keyframe, (∀ c ∈ before, ¬ IsQuote c ∧ c ≠ '\\') →
        isValid (String.ofList (before ++ q :: (body ++ [q]))) keyframe = false) := by
  have refused (mem : q ∈ body) (before : List Char) (keyframe : Bool)
      (plain : ∀ c ∈ before, ¬ IsQuote c ∧ c ≠ '\\') :
      isValid (String.ofList (before ++ q :: (body ++ [q]))) keyframe = false := by
    rw [isValid_of_mem hq (by simp), validIn_append]
    rcases foldlM_unquoted keyframe plain 0 with stopped | ⟨depth, passed⟩
    · rw [stopped]
      rfl
    · rw [passed, Option.any_some, validIn_cons, validNext_opening hq]
      exact validIn_of_mem hq quotable mem depth
  refine ⟨⟨fun inert mem => ?_, isInert_of_not_mem hq⟩, foldl_quoted hq quotable, refused⟩
  have empty : isValid (String.ofList [q, q]) false = true := by
    rw [isValid_of_mem hq (by simp), validIn_cons, validNext_opening hq, Option.any_some]
    exact validIn_quoted List.not_mem_nil 0 []
  have same := inert [] [] false (by simp)
  rw [List.nil_append, List.nil_append, empty, ← List.nil_append (q :: (body ++ [q])),
    refused mem [] false (by simp)] at same
  cases same

/-- A quoted text with a brace, an escaped quote of the other kind and a backslash. -/
theorem isInert_iff_braces :
    let body := ['\x7b', '\\', '\'', '\\', '\\', '\x7d']
    IsQuote '"' ∧ Quotable '"' body ∧ IsInert '"' body := by
  intro body
  have isQuote : IsQuote '"' := .inl rfl
  have quotable : Quotable '"' body :=
    .raw (by decide) (by decide) (.escaped (.escaped (.raw (by decide) (by decide) .nil)))
  have free : '"' ∉ body := by decide
  exact ⟨isQuote, quotable, (isInert_iff isQuote quotable).1.mpr free⟩

/-- An escaped quote ends the quoted text that it is part of. -/
theorem not_isInert_quote :
    Quotable '"' ['\\', '"'] ∧ ¬ IsInert '"' ['\\', '"'] ∧ isValid "\"\\\"\"" false = false ∧
      isValid "\"\"" false = true := by
  have closed : isValid "\"\\\"\"" false = false := by decide +kernel
  have empty : isValid "\"\"" false = true := by decide +kernel
  refine ⟨.escaped .nil, fun inert => ?_, closed, empty⟩
  have same := inert [] [] false (by simp)
  have escaped : String.ofList ([] ++ '"' :: (['\\', '"'] ++ ['"'])) = "\"\\\"\"" := by decide
  have bare : String.ofList ([] ++ ['"', '"']) = "\"\"" := by decide
  rw [escaped, bare, closed, empty] at same
  cases same

end Stylesheet.Selector
