import Stylesheet.Proofs.Abreast
import Stylesheet.Proofs.TwinValue

namespace Stylesheet

open Counting (Alike)

variable {g : Counting}

namespace Size

theorem read_alike (channel : Bool) : g.Alike bare (Size.read channel) (Size.read channel) := by
  refine Alike.here fun p p' h => ?_
  rw [h.rest]
  refine (Alike.skip _).bindIgnored ?_
  split
  · exact .throw (.token h)
  · refine Alike.here fun q q' behind => ?_
    rw [behind.rest]
    exact (Alike.skip _).bindIgnored (.pure rfl)

end Size

namespace Quoted

theorem read_alike : g.Alike Quoted.text Quoted.read Quoted.read := by
  have text (ends : Char → Bool) :
      g.Alike id (Read.move fun s q => q.textUpTo s ends) (Read.move fun s q => q.textUpTo s ends) :=
    .move fun _ _ h => Counting.textUpTo_alike ends h
  rw [read_eq]
  refine Alike.here fun p p' h => ?_
  rw [h.rest]
  cases p.rest.head? with
  | none => exact .pure rfl
  | some c =>
    refine Alike.ite Iff.rfl (fun _ => ?_) fun _ => ?_
    · refine (Alike.skip 1).bindIgnored ((text _).bindSame fun t => Alike.here fun q q' behind => ?_)
      refine Alike.orThrow (by rw [behind.atEnd]) (.ending h) fun _ => ?_
      exact (Alike.skip 1).bindIgnored (.pure rfl)
    · exact (text _).bindSame fun t => .pure rfl

end Quoted

namespace Url

/-- Behind `url` a parenthesis is looked for; where there is none, both readings go back. -/
theorem opens_alike : g.Alike id opens opens := by
  refine Alike.here fun p p' h => Alike.ite (by rw [h.comesAnyCase]) (fun _ => ?_) fun _ => .pure rfl
  refine (Alike.skip 3).bindIgnored (.bindIgnored .gapIgnored (Alike.here fun q q' behind => ?_))
  refine Alike.ite (by rw [behind.comes]) (fun _ => ?_) fun _ => ?_
  · exact (Alike.skip 1).bindIgnored (.pure rfl)
  · exact (Alike.goto h).bindIgnored (.pure rfl)

theorem read_alike : g.Alike bare Url.read Url.read := by
  refine Alike.here fun p p' h => opens_alike.bindSame fun call => .bindIgnored .gapIgnored ?_
  refine Quoted.read_alike.bind fun address address' text => ?_
  have result : bare ⟨address', some p'.position⟩ = bare ⟨address, some p.position⟩ := by rw [bare, bare, text]
  refine Alike.ite Iff.rfl (fun _ => ?_) fun _ => .pure result
  exact .bindIgnored .gapIgnored (.bindIgnored (.token _) (.pure result))

end Url

namespace Value

theorem readHex_alike : g.AlikeValue readHex readHex := by
  refine Alike.here fun p p' h => .bindIgnored (.token _) ((Alike.identifier false).bindSame fun digits => ?_)
  refine Alike.orThrow Iff.rfl (.token h) fun _ => Alike.orThrow Iff.rfl (.token h) fun _ => .pure ?_
  rw [bare, bare, bareChannels_hexChannels p.position]

theorem readRange_alike : g.AlikeValue readRange readRange := by
  refine .bindIgnored (.token _) (Alike.here fun p p' h => ?_)
  refine Alike.orThrow (by rw [h.atEnd]) (.ending h) fun _ => ?_
  rw [h.rest]
  exact (Alike.skip _).bindIgnored (.pure rfl)

theorem readName?_alike : g.Alike id readName? readName? := by
  have word : g.Alike id (some <$> Read.identifier false) (some <$> Read.identifier false) :=
    (Alike.identifier false).map fun name name' h => congrArg some h
  rw [readName?_eq]
  refine word.rescue fun e e' named => Alike.asking fun b => Alike.here fun p p' h => ?_
  exact Alike.ite (by rw [named.recoverable, h.comes]) (fun _ => .pure rfl) fun _ => .throw named

theorem readNames_alike (n : Nat) : g.Alike id (readNames n) (readNames n) := by
  induction n using Nat.strongRecOn with
  | ind n ih =>
    rw [readNames_eq]
    refine readName?_alike.bindSame fun name => .bindIgnored .gapIgnored (Alike.here fun p p' h => ?_)
    refine Alike.ite (by rw [h.comes]) (fun _ => .pure rfl) fun _ => ?_
    have others : g.Alike id (Read.shorter n (fun m _ => readNames m) (pure []))
        (Read.shorter n (fun m _ => readNames m) (pure [])) := .shorter (fun m hm => ih m hm) (.pure rfl)
    exact others.bindSame fun names => .pure rfl

theorem readLineNames_alike : g.AlikeValue readLineNames readLineNames := by
  refine Alike.here fun p p' h => .bindIgnored (.token _) (.bindIgnored .gapIgnored (Alike.leftBind fun n => ?_))
  exact (readNames_alike n).bindSame fun names => .bindIgnored (.token _) (.pure rfl)

variable {nested nested' : List Separator → Read Value} {inner inner' word word' primitive primitive' : Read Value}

theorem function_bare {name : String} {a a' : List Value × Separator} {p p' : Option Position}
    (h : argumentsLook a' = argumentsLook a) : (function name a'.1 a'.2 p').bare = (function name a.1 a.2 p).bare := by
  simp only [argumentsLook, Prod.mk.injEq] at h
  rw [bare, bare, h.1, h.2]

section Calls

variable (hn : ∀ order, g.AlikeValue (nested order) (nested' order))

include hn

theorem readArguments_alike : g.Alike argumentsLook (readArguments nested) (readArguments nested') := by
  refine .bindIgnored .gapIgnored (Alike.here fun p p' h => ?_)
  refine Alike.ite (by rw [h.comes]) (fun _ => .pure rfl) fun _ => ?_
  refine (hn _).bind fun v v' same => .pure ?_
  rw [← arguments_bare, ← arguments_bare, same]

theorem readFunction_alike (ignoreCase : Bool) :
    g.AlikeValue (readFunction nested ignoreCase) (readFunction nested' ignoreCase) := by
  refine Alike.here fun p p' h => (Alike.identifier _).bindSame fun name => .bindIgnored (.token _) ?_
  exact (readArguments_alike hn).bind fun a a' same => .bindIgnored (.token _) (.pure (function_bare same))

theorem readParenthesized_alike : g.AlikeValue (readParenthesized nested) (readParenthesized nested') := by
  refine Alike.here fun p p' h => .bindIgnored (.token _) ?_
  exact (readArguments_alike hn).bind fun a a' same => .bindIgnored (.token _) (.pure (function_bare same))

theorem readFilter_alike : g.AlikeValue (readFilter nested) (readFilter nested') := by
  refine Alike.here fun p p' h => (Alike.upTo _ _ _).bindSame fun name => (hn _).bind fun v v' same => ?_
  have arguments : argumentsLook v'.arguments = argumentsLook v.arguments := by
    rw [← arguments_bare, ← arguments_bare, same]
  exact .bindIgnored (.token _) (.pure (function_bare arguments))

end Calls

section Calculations

variable (hi : g.AlikeValue inner inner')

theorem readOperator_alike : g.Alike id readOperator readOperator := by
  refine Alike.here fun p p' h => ?_
  have unexpected := Counting.Named.unexpected h "a calc operator" 5
  rw [h.rest, h.passed, h.peek]
  split
  · exact .throw unexpected
  · refine Alike.ite Iff.rfl (fun _ => .throw unexpected) fun _ => ?_
    refine Alike.ite Iff.rfl (fun _ => .throw (.token h)) fun _ => ?_
    exact (Alike.skip 1).bindIgnored (.pure rfl)

include hi

theorem readToken_alike (depth : Nat) (afterOperand : Bool) :
    g.Alike tokenLook (readToken inner depth afterOperand) (readToken inner' depth afterOperand) := by
  refine Alike.here fun p p' h => Alike.ite (by rw [h.comes]) (fun _ => ?_) fun _ => ?_
  · exact (Alike.skip 1).bindIgnored (.pure rfl)
  · refine Alike.ite (by rw [h.comes]) (fun _ => ?_) fun _ => Alike.ite Iff.rfl (fun _ => ?_) fun _ => ?_
    · exact (Alike.skip 1).bindIgnored (.pure rfl)
    · exact readOperator_alike.bindSame fun c => .pure rfl
    · refine hi.bind fun v v' same => .pure ?_
      simp only [tokenLook, bareTokens, same]

theorem readTokens_alike (n depth : Nat) (afterOperand : Bool) :
    g.Alike bareTokens (readTokens inner n depth afterOperand) (readTokens inner' n depth afterOperand) := by
  induction n using Nat.strongRecOn generalizing depth afterOperand with
  | ind n ih =>
    rw [readTokens, readTokens]
    refine Alike.here fun p p' h => Alike.ite (by rw [h.comes]) (fun _ => .pure rfl) fun _ => ?_
    refine Alike.ite (by rw [h.atEnd]) (fun _ => ?_) fun _ => ?_
    · exact Alike.ite Iff.rfl (fun _ => .pure rfl) fun _ => .throw (.ending h)
    · refine .bindIgnored .gapIgnored ((readToken_alike hi depth afterOperand).bind fun t t' same => ?_)
      obtain ⟨token, depth, afterOperand⟩ := t
      obtain ⟨token', depth', afterOperand'⟩ := t'
      simp only [tokenLook, Prod.mk.injEq] at same
      obtain ⟨first, rfl, rfl⟩ := same
      have others : g.Alike bareTokens
          (Read.shorter n (fun m _ => readTokens inner m depth' afterOperand') (pure []))
          (Read.shorter n (fun m _ => readTokens inner' m depth' afterOperand') (pure [])) :=
        .shorter (fun m hm => ih m hm depth' afterOperand') (.pure rfl)
      refine .bindIgnored .gapIgnored (others.bind fun ts ts' following => .pure ?_)
      rw [bareTokens_cons, bareTokens_cons token, following, first]

theorem readCalculation_alike : g.AlikeValue (readCalculation inner) (readCalculation inner') := by
  refine Alike.here fun p p' h => (Alike.identifier _).bindSame fun name => Alike.here fun q q' behind => ?_
  refine Alike.orThrow (by rw [behind.comes]) (.unexpected behind _ _) fun _ => ?_
  refine (Alike.skip 1).bindIgnored (Alike.leftBind fun n => (readTokens_alike hi n 0 false).bind fun ts ts' same => ?_)
  have result : g.AlikeValue (pure (.calculation name ts (some p.position)))
      (pure (.calculation name ts' (some p'.position))) := .pure (by rw [bare, bare, same])
  refine Alike.here fun s s' after => Alike.ite (by rw [after.atEnd]) (fun _ => ?_) fun _ => result
  exact .bindIgnored (.token _) result

end Calculations

section Words

variable (hn : ∀ order, g.AlikeValue (nested order) (nested' order)) (hi : g.AlikeValue inner inner')

include hn hi

/-- Where a parenthesis stands behind a word, both readings go back and take a call. -/
theorem readWord_alike (ignoreCase : Bool) :
    g.AlikeValue (readWord nested inner ignoreCase) (readWord nested' inner' ignoreCase) := by
  refine Alike.here fun p p' h => (Alike.identifier _).bindSame fun name => Alike.here fun q q' behind => ?_
  refine Alike.ite (by rw [behind.comes]) (fun _ => .pure rfl) fun _ => ?_
  refine (Alike.goto h).bindIgnored ?_
  refine Alike.ite Iff.rfl (fun _ => ?_) fun _ => Alike.ite Iff.rfl (fun _ => ?_) fun _ => ?_
  · exact Url.read_alike.bind fun u u' same => .pure (congrArg Value.url same)
  · exact readCalculation_alike hi
  · exact readFunction_alike hn ignoreCase

end Words

section Colors

variable (hw : g.AlikeValue word word')

theorem readBetween_alike (keys : List Char) (s : ColorState) :
    g.Alike id (readBetween keys s) (readBetween keys s) := by
  unfold readBetween
  refine Alike.ite Iff.rfl (fun _ => ?_) fun _ => Alike.ite Iff.rfl (fun _ => ?_) fun _ => ?_
  · exact Alike.ite Iff.rfl (fun _ => .token _) fun _ => .pure rfl
  · exact Alike.here fun p p' h => Alike.ite (by rw [h.comes]) (fun _ => .token _) fun _ => .pure rfl
  · exact Alike.ite Iff.rfl (fun _ => .token _) fun _ => .pure rfl

include hw

theorem readChannel_alike (s : ColorState) : g.Alike channelLook (readChannel word s) (readChannel word' s) := by
  refine Alike.here fun p p' h => Alike.ite (by rw [h.comesAnyCase]) (fun _ => ?_) fun _ => ?_
  · refine hw.bind fun v v' same => .pure ?_
    rw [channelLook, channelLook, same]
  · refine Alike.ite (by rw [h.comesAnyCase]) (fun _ => ?_) fun _ => ?_
    · exact (Alike.identifier true).bindSame fun name => .pure rfl
    · refine (Size.read_alike true).bind fun size size' same => .pure ?_
      exact congrArg (fun size => (Value.size size, s)) same

theorem readChannels_alike (optional first : Bool) (s : ColorState) (keys : List Char) :
    g.Alike channelsLook (readChannels word optional first s keys) (readChannels word' optional first s keys) := by
  induction keys generalizing first s with
  | nil => exact .pure rfl
  | cons key keys ih =>
    refine .bindIgnored .gapIgnored ((readChannel_alike hw s).bind fun c c' same => ?_)
    obtain ⟨v, s⟩ := c
    obtain ⟨v', s'⟩ := c'
    simp only [channelLook, Prod.mk.injEq] at same
    obtain ⟨value, rfl⟩ := same
    refine .bindIgnored .gapIgnored (Alike.here fun p p' h => ?_)
    rw [h.comes ","]
    refine Alike.ite (by rw [h.comes]) (fun _ => .pure ?_) fun _ => ?_
    · simp only [channelsLook, bareAll, value]
    · refine (readBetween_alike keys _).bindIgnored ((ih false _).bind fun c c' others => .pure ?_)
      simp only [channelsLook, Prod.mk.injEq] at others ⊢
      rw [bareAll, bareAll, value, others.1, others.2]
      exact ⟨rfl, rfl⟩

theorem readColorFunction_alike : g.AlikeValue (readColorFunction word) (readColorFunction word') := by
  refine Alike.here fun p p' h => (Alike.identifier true).bindSame fun name => .bindIgnored .gapIgnored ?_
  refine .bindIgnored (.token _) ((readChannels_alike hw _ _ _ _).bind fun c c' same => ?_)
  obtain ⟨vs, s⟩ := c
  obtain ⟨vs', s'⟩ := c'
  simp only [channelsLook, Prod.mk.injEq] at same
  obtain ⟨values, rfl⟩ := same
  refine .bindIgnored (.token _) (Alike.ite Iff.rfl (fun _ => .pure ?_) fun _ => .pure ?_)
  · rw [bare, bare, values]
  · rw [bare, bare, bareChannels_zipWith, bareChannels_zipWith, values]

theorem readColor_alike : g.AlikeValue (readColor word) (readColor word') :=
  Alike.here fun _ _ h => Alike.ite (by rw [h.comes]) (fun _ => readHex_alike) fun _ => readColorFunction_alike hw

end Colors

section Lists

variable (hp : g.AlikeValue primitive primitive')

theorem endsAt_alike {p p' : Place} (h : g.Point p p') (lenient : Bool) : endsAt lenient p' = endsAt lenient p := by
  unfold endsAt
  simp only [h.atEnd, h.comes]

theorem readSeparator_alike (order : List Separator) : g.Alike id (readSeparator order) (readSeparator order) := by
  refine Alike.here fun p p' h => ?_
  simp only [h.comes]
  split
  · exact .bindIgnored (.token _) (.bindIgnored .gapIgnored (.pure rfl))
  · exact .pure rfl

include hp

theorem readMore_alike (order : List Separator) (n : Nat) :
    g.Alike moreLook (readMore primitive order n) (readMore primitive' order n) := by
  induction n using Nat.strongRecOn with
  | ind n ih =>
    rw [readMore, readMore]
    refine Alike.asking fun lenient => Alike.here fun p p' h => ?_
    refine Alike.ite (by rw [endsAt_alike h]) (fun _ => .pure rfl) fun _ => ?_
    refine (readSeparator_alike order).bindSame fun s => hp.bind fun v v' same => .bindIgnored .gapIgnored ?_
    have others : g.Alike moreLook (Read.shorter n (fun m _ => readMore primitive order m) (pure []))
        (Read.shorter n (fun m _ => readMore primitive' order m) (pure [])) :=
      .shorter (fun m hm => ih m hm) (.pure rfl)
    refine others.bind fun more more' following => .pure ?_
    simp only [moreLook, List.map_cons, same] at following ⊢
    rw [following]

theorem readWith_alike (order : List Separator) :
    g.AlikeValue (readWith primitive order) (readWith primitive' order) := by
  refine Alike.here fun start start' _ => .bindIgnored .gapIgnored (Alike.here fun p p' h => ?_)
  refine Alike.asking fun lenient => Alike.orThrow (by rw [endsAt_alike h]) (.unexpected h _ _) fun _ => ?_
  refine hp.bind fun first first' same => .bindIgnored .gapIgnored (Alike.leftBind fun n => ?_)
  refine (readMore_alike hp order n).bind fun more more' following => ?_
  have chains : (Chain.foldAll order (some start'.position) ⟨first', more'⟩).bare =
      (Chain.foldAll order (some start.position) ⟨first, more⟩).bare := by
    unfold moreLook at following
    rw [Chain.bare_foldAll, Chain.bare_foldAll, Chain.bare, Chain.bare, same, following]
  have empty := congrArg (fun c : Chain => c.more.isEmpty) chains
  simp only [Chain.bare, List.isEmpty_map] at empty
  refine Alike.ite (by rw [empty]) (fun _ => .pure (congrArg Chain.first chains)) fun _ => ?_
  exact Alike.here fun q q' behind => .throw (.unexpected behind _ _)

end Lists

theorem orSign_alike {next : Option Char} {e e' : Fault} (h : g.Named e e') :
    g.AlikeValue (orSign next e) (orSign next e') := by
  cases h with
  | token point =>
    refine Alike.ite Iff.rfl (fun _ => ?_) fun _ => .throw (.token point)
    exact (Alike.take 1).map fun t t' same => congrArg (fun t => (keyword t).bare) same
  | ending point => exact .throw (.ending point)
  | misplaced point => exact .throw (.misplaced point)

theorem readWordOrSign_alike (hw : g.AlikeValue word word') :
    g.AlikeValue (readWordOrSign word) (readWordOrSign word') := by
  rw [readWordOrSign_eq, readWordOrSign_eq]
  refine Alike.here fun p p' h => ?_
  rw [h.rest]
  exact hw.rescue fun e e' named => orSign_alike named

section Primitives

variable (hn : ∀ order, g.AlikeValue (nested order) (nested' order)) (hi : g.AlikeValue inner inner')

include hn hi

theorem readForm_alike {p p' : Place} (h : g.Point p p') (lenient : Bool) :
    g.AlikeValue (readForm nested inner lenient p) (readForm nested' inner' lenient p') := by
  have begins : Size.begins p' = Size.begins p := by rw [Size.begins, Size.begins, h.rest]
  unfold readForm
  simp only [begins, h.comes, h.comesAnyCase]
  split
  · exact (Size.read_alike false).map fun s s' same => congrArg Value.size same
  split
  · exact readColor_alike (readWord_alike hn hi true)
  split
  · exact Quoted.read_alike.map fun t t' same => by rw [bare, bare, same]
  split
  · exact readFilter_alike hn
  split
  · exact readLineNames_alike
  split
  · exact readRange_alike
  split
  · exact readParenthesized_alike hn
  · exact readWordOrSign_alike (readWord_alike hn hi false)

theorem readPrimitiveWith_alike : g.AlikeValue (readPrimitiveWith nested inner) (readPrimitiveWith nested' inner') := by
  rw [readPrimitiveWith_eq, readPrimitiveWith_eq]
  refine .bindIgnored .gapIgnored (Alike.here fun p p' h => Alike.asking fun lenient => ?_)
  exact (readForm_alike hn hi h lenient).bind fun v v' same => .bindIgnored .gapIgnored (.pure same)

end Primitives

theorem stuck_alike : g.AlikeValue stuck stuck := Alike.here fun _ _ h => .throw (.unexpected h _ _)

theorem readPrimitiveIn_alike (n : Nat) : g.AlikeValue (readPrimitiveIn n) (readPrimitiveIn n) := by
  induction n using Nat.strongRecOn with
  | ind n ih =>
    rw [readPrimitiveIn]
    refine readPrimitiveWith_alike (fun order => ?_) ?_
    · exact .shorter (fun m hm => readWith_alike (ih m hm) order) stuck_alike
    · exact .shorter (fun m hm => ih m hm) stuck_alike

theorem readPrimitive_alike : g.AlikeValue readPrimitive readPrimitive := Alike.leftBind readPrimitiveIn_alike

/-- Every value is read the same in both readings. -/
theorem read_alike (order : List Separator) : g.AlikeValue (read order) (read order) :=
  Alike.leftBind fun n => readWith_alike (readPrimitiveIn_alike n) order

theorem nestedIn_alike (n : Nat) (order : List Separator) : g.AlikeValue (nestedIn n order) (nestedIn n order) :=
  .shorter (fun m _ => readWith_alike (readPrimitiveIn_alike m) order) stuck_alike

theorem innerIn_alike (n : Nat) : g.AlikeValue (innerIn n) (innerIn n) :=
  .shorter (fun m _ => readPrimitiveIn_alike m) stuck_alike

theorem readWordHere_alike (ignoreCase : Bool) :
    g.AlikeValue (readWordHere ignoreCase) (readWordHere ignoreCase) :=
  Alike.leftBind fun n => readWord_alike (nestedIn_alike n) (innerIn_alike n) ignoreCase

theorem readFunctionHere_alike (ignoreCase : Bool) :
    g.AlikeValue (readFunctionHere ignoreCase) (readFunctionHere ignoreCase) :=
  Alike.leftBind fun n => readFunction_alike (nestedIn_alike n) ignoreCase

theorem readCalculationHere_alike : g.AlikeValue readCalculationHere readCalculationHere :=
  Alike.leftBind fun n => readCalculation_alike (innerIn_alike n)

theorem readColorHere_alike : g.AlikeValue readColorHere readColorHere :=
  Alike.leftBind fun n => readColor_alike (readWord_alike (nestedIn_alike n) (innerIn_alike n) true)

end Value

end Stylesheet
