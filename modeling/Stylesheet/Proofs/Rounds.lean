import Stylesheet.Proofs.Calculations
import Stylesheet.Proofs.Descent
import Stylesheet.Proofs.Folding
import Stylesheet.Proofs.SheetProgress
import Stylesheet.Proofs.StrictSheet

namespace Stylesheet

open Read (Advances AdvancesAt Loops SameIn rounds)

namespace Value

/-- One round of taking the names of a grid line, behind those taken so far. -/
def nameRound (names : List String) : Read (List String ⊕ List String) := do
  let name ← readName?
  discard Read.gap
  if (← Read.place).comes "]" then return .inr (names ++ name.toList) else return .inl (names ++ name.toList)

/-- Takes the names of a grid line behind those taken so far, where at most `n` characters are left. -/
def collectNames (n : Nat) (names : List String) : Read (List String) := do return names ++ (← readNames n)

theorem passes_of_readName? {r s : Reader} {name : Option String} (h : readName?.outcome r = (.ok name, s)) :
    r.Passes s ∨ s.place.comes "]" = true := by
  rw [readName?_eq, Read.outcome_tryCatch, Read.outcome_map] at h
  rcases named : (Read.identifier false).outcome r with ⟨e | text, t⟩
  · rw [named, Read.following_error, Read.rescued_error, outcome_orNoName] at h
    split at h
    · next bracket =>
      cases h
      rw [Bool.and_eq_true] at bracket
      exact .inr bracket.2
    · cases h
  · rw [named] at h
    cases h
    exact .inl (Advances.identifier false r text s named)

theorem passes_of_nameRound {names names' : List String} {r s : Reader}
    (h : (nameRound names).outcome r = (.ok (.inl names'), s)) : r.Passes s := by
  obtain ⟨name, t, named, h⟩ := Read.ok_of_bind h
  obtain ⟨_, u, skipped, h⟩ := Read.ok_of_bind h
  rw [Read.outcome_bind, Read.outcome_place, Read.following_ok] at h
  split at h
  · cases h
  · next other =>
    cases h
    rcases passes_of_readName? named with passes | bracket
    · exact passes.reaches (gap_steadyWhole.discard.reaches skipped)
    · obtain ⟨cs, skipped⟩ := Read.ok_of_discard skipped
      obtain ⟨-, rest, left⟩ := Place.comes_iff.mp bracket
      rw [Read.outcome_gap_of_stops (left ▸ .cons (by decide) (by decide))] at skipped
      cases skipped
      exact absurd bracket other

theorem collectNames_eq (n : Nat) (names : List String) :
    collectNames n names = nameRound names >>= Read.bounded collectNames pure n := by
  simp only [collectNames, readNames_eq n, readNamesBehind, nameRound, bind_assoc]
  refine bind_congr fun name => bind_congr fun _ => bind_congr fun p => ?_
  split
  · simp only [pure_bind, Read.bounded]
  · simp only [readNamesOn, bind_assoc, pure_bind, Read.shorter_bind, Read.bounded, collectNames, List.append_assoc,
      List.append_nil]

/-- Each round of the names of a grid line takes a name. -/
theorem nameLoop : Loops nameRound (fun names => do collectNames (← Read.left) names) :=
  .of_bounded (fun names r => by rw [← collectNames_eq]) fun _ _ _ _ => passes_of_nameRound

section Tokens

/-- The tokens of a calculation taken so far, the parentheses open, and whether an operand came last. -/
structure Tokens where
  taken : List (CalcToken Value) := []
  depth : Nat := 0
  afterOperand : Bool := false

/-- One round of taking the tokens of a calculation. -/
def tokenRound (inner : Read Value) (c : Tokens) : Read (Tokens ⊕ List (CalcToken Value)) := do
  let p ← Read.place
  if p.comes ")" && c.depth = 0 then return .inr c.taken
  else if p.atEnd then
    if c.depth = 0 then return .inr c.taken else throw (.unexpectedEnd "`)`" p.location)
  else
    discard Read.gap
    let (token, depth, afterOperand) ← readToken inner c.depth c.afterOperand
    discard Read.gap
    return .inl ⟨c.taken ++ [token], depth, afterOperand⟩

/-- Takes the tokens of a calculation behind those taken so far, where at most `n` characters are left. -/
def collectTokens (inner : Read Value) (n : Nat) (c : Tokens) : Read (List (CalcToken Value)) := do
  return c.taken ++ (← readTokens inner n c.depth c.afterOperand)

variable {inner : Read Value} {c c' : Tokens} {r s : Reader}

theorem passes_of_tokenRound (hi : Advances inner) (h : (tokenRound inner c).outcome r = (.ok (.inl c'), s)) :
    r.Passes s := by
  rw [tokenRound, Read.outcome_bind, Read.outcome_place, Read.following_ok] at h
  split at h
  · cases h
  · split at h
    · split at h
      · cases h
      · cases h
    · obtain ⟨_, t, before, h⟩ := Read.ok_of_bind h
      obtain ⟨⟨token, depth, afterOperand⟩, u, taken, h⟩ := Read.ok_of_bind h
      obtain ⟨_, v, behind, h⟩ := Read.ok_of_bind h
      cases h
      have passes := (Calculation.taken_of_readToken taken).passes hi
      exact ((gap_steadyWhole.discard.reaches before).passes passes).reaches (gap_steadyWhole.discard.reaches behind)

theorem collectTokens_eq (inner : Read Value) (n : Nat) (c : Tokens) :
    collectTokens inner n c =
      tokenRound inner c >>= Read.bounded (collectTokens inner) (fun c => pure c.taken) n := by
  rw [collectTokens, readTokens, tokenRound]
  simp only [bind_assoc]
  refine bind_congr fun p => ?_
  split
  · simp only [pure_bind, Read.bounded, List.append_nil]
  · split
    · split
      · simp only [pure_bind, Read.bounded, List.append_nil]
      · rfl
    · simp only [bind_assoc]
      refine bind_congr fun _ => bind_congr fun next => bind_congr fun _ => ?_
      obtain ⟨token, depth, afterOperand⟩ := next
      simp only [pure_bind, Read.shorter_bind, Read.bounded, collectTokens, List.append_assoc, List.cons_append,
        List.nil_append]

/-- Each round of a calculation takes a token. -/
theorem tokenLoop (hi : Advances inner) :
    Loops (tokenRound inner) (fun c => do collectTokens inner (← Read.left) c) :=
  .of_bounded (fun c r => by rw [← collectTokens_eq]) fun _ _ _ _ => passes_of_tokenRound hi

end Tokens

section Runs

/-- Takes the first value of a run, or a separator with the value behind it. -/
def extendRun (primitive : Read Value) (order : List Separator) : Option Chain → Read Chain
  | none => do
    let v ← primitive
    discard Read.gap
    return ⟨v, []⟩
  | some c => do
    let s ← readSeparator order
    let v ← primitive
    discard Read.gap
    return ⟨c.first, c.more ++ [(s, v)]⟩

/-- One round of taking the run of a value. -/
def runRound (primitive : Read Value) (order : List Separator) (c : Option Chain) :
    Read (Option Chain ⊕ Option Chain) := do
  if endsAt (← Read.isLenient) (← Read.place) then return .inr c
  else return .inl (some (← extendRun primitive order c))

/-- Takes the run of a value behind what has been taken of it, which is nothing at first. -/
def collectRun (primitive : Read Value) (order : List Separator) (c : Option Chain) : Read (Option Chain) := do
  if endsAt (← Read.isLenient) (← Read.place) then return c
  else
    let c ← extendRun primitive order c
    return some ⟨c.first, c.more ++ (← readMore primitive order (← Read.left))⟩

/-- Takes the gap before a run and groups what `run` takes behind it. -/
def groupRun (order : List Separator) (run : Read (Option Chain)) : Read Value := do
  let start ← Read.place
  discard Read.gap
  match ← run with
  | none => throw (Read.unexpected "a value" (← Read.place))
  | some c => group order start.position c

variable {primitive : Read Value} {order : List Separator} {c c' : Option Chain} {r s : Reader}

theorem extendRun_advances (hp : Advances primitive) (order : List Separator) (c : Option Chain) :
    Advances (extendRun primitive order c) := by
  cases c with
  | none => exact .first hp fun v text => gap_steady.discard.bind fun _ => .pure _
  | some c =>
    refine .behind (fun _ => readSeparator_steady order) fun s => .first hp fun v text => ?_
    exact gap_steady.discard.bind fun _ => .pure _

theorem passes_of_runRound (hp : Advances primitive) (h : (runRound primitive order c).outcome r = (.ok (.inl c'), s)) :
    r.Passes s := by
  rw [runRound, Read.outcome_bind, Read.outcome_isLenient, Read.following_ok, Read.outcome_bind, Read.outcome_place,
    Read.following_ok] at h
  split at h
  · cases h
  · obtain ⟨_, t, extended, h⟩ := Read.ok_of_bind h
    cases h
    exact extendRun_advances hp order c r _ _ extended

/-- Behind a value the run goes on in the same way. -/
theorem outcome_collectRun_some (hp : Advances primitive) (c : Chain) (r : Reader) :
    (collectRun primitive order (some c)).outcome r =
      (do return some (Chain.mk c.first (c.more ++ (← readMore primitive order (← Read.left))))).outcome r := by
  rw [Read.outcome_left_bind, readMore, collectRun]
  simp only [bind_assoc]
  refine Read.outcome_bind_congr fun lenient r' asked => Read.outcome_bind_congr fun p r'' placed => ?_
  cases asked
  cases placed
  split
  · simp only [pure_bind, List.append_nil]
  · simp only [extendRun, bind_assoc, pure_bind]
    refine Read.outcome_bind_congr fun sep t separated => Read.outcome_bind_congr fun v u read => ?_
    refine Read.outcome_bind_congr fun _ w behind => ?_
    have moved := (readSeparator_steady order).whole.reaches separated
    have passes := (moved.passes (hp t v u read)).reaches (gap_steadyWhole.discard.reaches behind)
    rw [Read.outcome_left_bind, Read.outcome_bind, Read.outcome_bind,
      Read.outcome_shorter_of_passes (Nat.le_refl _) passes]
    simp only [List.append_assoc, List.cons_append, List.nil_append]

/-- Each round of a value takes a primitive. -/
theorem runLoop (hp : Advances primitive) (order : List Separator) :
    Loops (runRound primitive order) (collectRun primitive order) := by
  refine .of_passes (fun c r => ?_) fun _ _ _ _ => passes_of_runRound hp
  rw [collectRun, rounds, runRound]
  simp only [bind_assoc]
  refine Read.outcome_bind_congr fun lenient r' _ => Read.outcome_bind_congr fun p r'' _ => ?_
  split
  · simp only [pure_bind]
  · simp only [bind_assoc, pure_bind]
    refine Read.outcome_bind_congr fun c t _ => ?_
    rw [outcome_collectRun_some hp]

/-- A value is the run behind its first gap, grouped. -/
theorem readWith_eq_collectRun (primitive : Read Value) (order : List Separator) :
    readWith primitive order = groupRun order (collectRun primitive order none) := by
  rw [readWith_eq, groupRun]
  simp only [readRunWith, collectRun, extendRun, bind_assoc, pure_bind]
  refine Read.ext fun r => Read.outcome_bind_congr fun start _ _ => Read.outcome_bind_congr fun _ s _ => ?_
  simp only [Read.outcome_bind, Read.outcome_place, Read.outcome_isLenient, Read.following_ok]
  split
  · rfl
  · simp only [← Read.outcome_bind, bind_assoc, pure_bind, List.nil_append]

end Runs

end Value

namespace Declaration

/-- One round of taking the characters behind backslashes. -/
def hackRound (hacks : List String) : Read (List String ⊕ List String) := do
  if (← Read.place).comes "\\" then
    Read.skip 1
    let hack ← Read.take 1
    discard Read.gap
    return .inl (hacks ++ [hack])
  else return .inr hacks

/-- Takes the characters behind backslashes, behind those taken so far, where at most `n` characters are left. -/
def collectHacks (n : Nat) (hacks : List String) : Read (List String) := do return hacks ++ (← readHacks n)

theorem passes_of_hackRound {hacks hacks' : List String} {r s : Reader}
    (h : (hackRound hacks).outcome r = (.ok (.inl hacks'), s)) : r.Passes s := by
  rw [hackRound, Read.outcome_bind, Read.outcome_place, Read.following_ok] at h
  split at h
  · next backslash =>
    obtain ⟨_, t, skipped, h⟩ := Read.ok_of_bind h
    obtain ⟨hack, u, taken, h⟩ := Read.ok_of_bind h
    obtain ⟨_, v, behind, h⟩ := Read.ok_of_bind h
    cases h
    have passes := AdvancesAt.skip Nat.one_pos (Place.rest_ne_nil_of_comes backslash) _ t skipped
    exact (passes.reaches (Advances.take Nat.one_pos t hack u taken).toReaches).reaches
      (gap_steadyWhole.discard.reaches behind)
  · cases h

theorem collectHacks_eq (n : Nat) (hacks : List String) :
    collectHacks n hacks = hackRound hacks >>= Read.bounded collectHacks pure n := by
  rw [collectHacks, readHacks, hackRound]
  simp only [bind_assoc]
  refine bind_congr fun p => ?_
  split
  · simp only [bind_assoc]
    refine bind_congr fun _ => bind_congr fun hack => bind_congr fun _ => ?_
    simp only [pure_bind, Read.shorter_bind, Read.bounded, collectHacks, List.append_assoc, List.cons_append,
      List.nil_append]
  · simp only [pure_bind, Read.bounded, List.append_nil]

/-- Each round of hacks takes a backslash. -/
theorem hackLoop : Loops hackRound (fun hacks => do collectHacks (← Read.left) hacks) :=
  .of_bounded (fun hacks r => by rw [← collectHacks_eq]) fun _ _ _ _ => passes_of_hackRound

end Declaration

namespace RuleSet

/-- One round of taking declarations: one that is added or left out, or the end of the rule set. -/
def round (rules : RuleSet) : Read (RuleSet ⊕ RuleSet) := do
  let comments ← Read.gap
  if (← Read.place).comes "\x7d" then
    discard (Read.literal "\x7d")
    return .inr rules
  else
    match ← readNext rules comments with
    | some rules' => return .inl rules'
    | none => return .inr rules

theorem passes_of_round {rules rules' : RuleSet} {r s : Reader} (h : (round rules).outcome r = (.ok (.inl rules'), s)) :
    r.Passes s := by
  obtain ⟨comments, t, before, h⟩ := Read.ok_of_bind h
  rw [Read.outcome_bind, Read.outcome_place, Read.following_ok] at h
  split at h
  · obtain ⟨_, u, _, h⟩ := Read.ok_of_bind h
    cases h
  · next inside =>
    obtain ⟨next, u, read, h⟩ := Read.ok_of_bind h
    cases next with
    | none => cases h
    | some rules' =>
      cases h
      exact (gap_steadyWhole.reaches before).passes (passes_of_readNext inside read)

theorem readInto_eq_round (rules : RuleSet) (n : Nat) :
    readInto rules n = round rules >>= Read.bounded (fun m rules => readInto rules m) pure n := by
  rw [readInto_eq]
  simp only [round, bind_assoc]
  refine bind_congr fun comments => ?_
  rw [readFrom]
  refine bind_congr fun p => ?_
  split
  · simp only [bind_assoc, pure_bind, Read.bounded]
  · simp only [bind_assoc]
    refine bind_congr fun next => ?_
    cases next with
    | none => simp only [goOn, pure_bind, Read.bounded]
    | some rules' => simp only [goOn, pure_bind, Read.bounded]

/-- Each round of a rule set takes a declaration or leaves one out. -/
theorem loop : Loops round (fun rules => do readInto rules (← Read.left)) :=
  .of_bounded (fun rules r => by rw [← readInto_eq_round]) fun _ _ _ _ => passes_of_round

end RuleSet

namespace Statement

/-- One round of taking the statements of a body: behind the statements taken so far, and with the comments taken for
the next one. -/
def round (readBody : Owner → Read Sheet) (owner : Owner) (c : List Statement × List Comment) :
    Read ((List Statement × List Comment) ⊕ (List Statement × List Comment)) := do
  if (← Read.place).atEnd then
    let d ← readEnd owner c.2
    return .inr (c.1 ++ d.1, d.2)
  else
    let pending := c.2 ++ (← Read.gap)
    if (← Read.place).atEnd then
      let d ← readEnd owner pending
      return .inr (c.1 ++ d.1, d.2)
    else
      match ← readItemOrSkip readBody owner c.1.isEmpty with
      | none => return .inr (c.1, pending)
      | some .closing => return .inr (c.1, pending)
      | some .omitted => return .inl (c.1, [])
      | some (.statement s) => return .inl (c.1 ++ [s.addComments pending], [])

/-- Takes the statements of a body behind those taken so far, where at most `n` characters are left. -/
def collectIn (owner : Owner) (n : Nat) (c : List Statement × List Comment) :
    Read (List Statement × List Comment) := do
  let d ← readAllIn n owner c.1.isEmpty c.2
  return (c.1 ++ d.1, d.2)

/-- Takes the statements of a body behind those taken so far. -/
def collect (owner : Owner) (c : List Statement × List Comment) : Read (List Statement × List Comment) := do
  collectIn owner (← Read.left) c

variable {R : Region} {readBody readBody' : Owner → Read Sheet} {owner : Owner} {c c' : List Statement × List Comment}
  {r s : Reader}

theorem passes_of_round (hb : ∀ owner text, SteadyWhole text (readBody owner))
    (h : (round readBody owner c).outcome r = (.ok (.inl c'), s)) : r.Passes s := by
  rw [round, Read.outcome_bind, Read.outcome_place, Read.following_ok] at h
  split at h
  · obtain ⟨_, _, _, h⟩ := Read.ok_of_bind h
    cases h
  · obtain ⟨comments, t, before, h⟩ := Read.ok_of_bind h
    rw [Read.outcome_bind, Read.outcome_place, Read.following_ok] at h
    split at h
    · obtain ⟨_, _, _, h⟩ := Read.ok_of_bind h
      cases h
    · obtain ⟨item, u, read, h⟩ := Read.ok_of_bind h
      have progress (i : Item) (hi : item = some i) (goesOn : i ≠ .closing) : t.Passes u :=
        (passes_of_readItemOrSkip hb (hi ▸ read)).resolve_left goesOn
      have moved := gap_steadyWhole.reaches before
      split at h
      · cases h
      · cases h
      · cases h
        exact moved.passes (progress .omitted rfl (by simp))
      · next st =>
        cases h
        exact moved.passes (progress (.statement st) rfl (by simp))

theorem round_same (same : ∀ owner, SameIn R.behind (readBody owner) (readBody' owner)) (owner : Owner)
    (c : List Statement × List Comment) : SameIn R (round readBody owner c) (round readBody' owner c) := by
  refine .here fun p => .ite (.refl _) (.next (fun _ => gap_steadyWhole) fun comments => .here fun q => ?_)
  exact .ite (.refl _) (.bindLeft (readItemOrSkip_same same owner _) _)

theorem collectIn_eq (owner : Owner) (n : Nat) (c : List Statement × List Comment) :
    collectIn owner n c = round (readInside n) owner c >>= Read.bounded (collectIn owner) pure n := by
  rw [collectIn, readAllIn_eq, round]
  simp only [bind_assoc]
  refine bind_congr fun p => ?_
  split
  · simp only [bind_assoc, pure_bind, Read.bounded]
  · simp only [bind_assoc]
    refine bind_congr fun comments => bind_congr fun q => ?_
    split
    · simp only [bind_assoc, pure_bind, Read.bounded]
    · simp only [bind_assoc]
      refine bind_congr fun item => ?_
      split
      · simp only [pure_bind, Read.bounded, List.append_nil]
      · simp only [pure_bind, Read.bounded, List.append_nil]
      · simp only [readBehind, Read.shorter_bind, pure_bind, Read.bounded, collectIn, List.append_nil]
      · next st =>
        have behind : (c.1 ++ [st.addComments (c.2 ++ comments)]).isEmpty = false := by simp
        simp only [readBehind, bind_assoc, Read.shorter_bind, pure_bind, Read.bounded, collectIn, behind,
          List.append_assoc, List.cons_append, List.nil_append]

/-- The bodies inside the next statement are read as if each began anew. -/
theorem outcome_collectIn (owner : Owner) (c : List Statement × List Comment) (r : Reader) :
    (collectIn owner r.place.rest.length c).outcome r =
      (round readFresh owner c >>= Read.bounded (collectIn owner) pure r.place.rest.length).outcome r := by
  have bodies (inner : Owner) :
      SameIn (Region.ahead r).behind (readInside r.place.rest.length inner) (readFresh inner) :=
    .of_passes fun s passes => readInside_same _ inner s passes.shorter
  rw [collectIn_eq, Read.outcome_bind, round_same bodies owner c r (.refl r), Read.outcome_bind]

/-- Each round of a body takes a statement or leaves one out. -/
theorem loop (owner : Owner) : Loops (round readFresh owner) (collect owner) :=
  .of_bounded (outcome_collectIn owner) fun _ _ _ _ => passes_of_round fun owner _ => readFresh_steady owner

end Statement

end Stylesheet
