import Stylesheet.Proofs.TwinNames

namespace Stylesheet

open Pairing (Twin never)

/-- Twin readers of values. Among values only an early end ends strict reading for good. -/
abbrev Pairing.TwinValue (g : Pairing) (L : Prop) (x x' : Read Value) : Prop := g.Twin L False never Value.bare x x'

variable {g : Pairing} {L final : Prop}

namespace Value

variable {nested nested' : List Separator → Read Value} {inner inner' word word' : Read Value}

/-- Arguments without places, and their separator. -/
def argumentsLook (a : List Value × Separator) : List Value × Separator := (bareAll a.1, a.2)

theorem arguments_bare (v : Value) : v.bare.arguments = argumentsLook v.arguments := by
  cases v <;> rfl

theorem alike_arguments {v v' : Value} (h : g.Alike bare v v') : g.Alike argumentsLook v.arguments v'.arguments :=
  h.map arguments fun hb => by rw [← arguments_bare, ← arguments_bare, hb]

theorem alike_function (name : String) {a a' : List Value × Separator} {p p' : Option Position}
    (ha : g.Alike argumentsLook a a') (hp : g.exact = true → p' = p) :
    g.Alike bare (.function name a.1 a.2 p) (.function name a'.1 a'.2 p') := by
  refine ⟨fun he => by rw [ha.whole he, hp he], ?_⟩
  have seen := ha.seen
  simp only [argumentsLook, Prod.mk.injEq] at seen
  rw [bare, bare, seen.1, seen.2]

theorem readArguments_twin (hn : ∀ order, g.TwinValue True (nested order) (nested' order)) :
    g.Twin L False never argumentsLook (readArguments nested) (readArguments nested') := by
  refine .bindIgnored .gapIgnored (Twin.here fun M p p' hm meet => ?_)
  refine Twin.ite (fun m => by rw [meet.comes (by decide) m]) (fun _ => ?_)
    fun _ => ?_
  · exact .pure fun _ => .refl _ _
  · exact ((hn _).weaken fun _ => trivial).bind fun v v' alike => .pure fun m => alike_arguments alike

theorem readFunction_twin (hn : ∀ order, g.TwinValue True (nested order) (nested' order)) (ignoreCase : Bool) :
    g.TwinValue L (readFunction nested ignoreCase) (readFunction nested' ignoreCase) := by
  refine Twin.here fun M p p' hm meet => (Twin.identifier _).bindSame fun name => ?_
  refine .bindIgnored (.token (by decide)) ((readArguments_twin hn).bind fun a a' alike => ?_)
  refine .bindIgnored (.token (by decide)) (.pure fun m => ?_)
  exact alike_function name alike fun he => by rw [meet.position m he]

theorem readParenthesized_twin (hn : ∀ order, g.TwinValue True (nested order) (nested' order)) :
    g.TwinValue L (readParenthesized nested) (readParenthesized nested') := by
  refine Twin.here fun M p p' hm meet => .bindIgnored (.token (by decide)) ?_
  refine (readArguments_twin hn).bind fun a a' alike => .bindIgnored (.token (by decide)) (.pure fun m => ?_)
  exact alike_function "" alike fun he => by rw [meet.position m he]

theorem readFilter_twin (hn : ∀ order, g.TwinValue True (nested order) (nested' order)) :
    g.TwinValue L (readFilter nested) (readFilter nested') := by
  refine Twin.here fun M p p' hm meet => (Twin.upTo _ _ _).bindSame fun name => ?_
  refine ((hn _).weaken fun _ => trivial).bind fun v v' alike => .bindIgnored (.token (by decide)) (.pure fun m => ?_)
  exact alike_function name (alike_arguments alike) fun he => by rw [meet.position m he]

/-- Whether blanks stand on both sides of the character that is next. -/
def isSpaced (p : Place) : Bool := p.passed.head?.any Text.isBlank && (p.rest.drop 1).head?.any Text.isBlank

/-- Takes the character if it is an operator. -/
def readOperatorFrom (p : Place) (spaced : Bool) : Option Char → Read Char
  | none => throw (Read.unexpected "a calc operator" p)
  | some c =>
    if c ∉ ['+', '-', '*', '/'] then throw (Read.unexpected "a calc operator" p)
    else if (c = '+' || c = '-') && !spaced then
      throw (.unexpectedToken ("` " ++ String.singleton c ++ " `") (p.peek 3 (-1)) p.location)
    else do
      Read.skip 1
      return c

theorem readOperator_eq : readOperator = Read.place >>= fun p => readOperatorFrom p (isSpaced p) p.rest.head? := by
  refine congrArg (Read.place >>= ·) (funext fun p => ?_)
  unfold isSpaced
  cases hr : p.rest with
  | nil => rfl
  | cons c rest => rfl

theorem isSpaced_eq {p p' : Place} (h : g.Places p p') (hl : g.Live p) (hc : p.rest.head? ≠ some '\x7d') :
    isSpaced p' = isSpaced p := by
  have next : (p'.rest.drop 1).head? = (p.rest.drop 1).head? := by
    rw [h.rest]
    rcases hl with hm | hl
    · rw [hm, List.append_nil]
    · cases hr : p.rest with
      | nil => rw [hr] at hl; cases hl
      | cons c rest =>
        rw [hr] at hl hc
        have hb : '\x7d' ∈ rest := (List.mem_cons.mp hl).resolve_left fun h => hc (by rw [h]; rfl)
        cases rest with
        | nil => cases hb
        | cons d rest => rfl
  unfold isSpaced
  rw [h.blank, next]

theorem readOperator_twin : g.Twin L final never id readOperator readOperator := by
  rw [readOperator_eq]
  refine Twin.here fun M p p' hm meet => ?_
  have same (m : M) : readOperatorFrom p' (isSpaced p') p'.rest.head? =
      readOperatorFrom p' (isSpaced p) p.rest.head? := by
    rw [meet.head? m]
    by_cases hc : p.rest.head? = some '\x7d'
    · rw [hc]
      rfl
    · rw [isSpaced_eq (meet.places m) (meet.live m) hc]
  refine Twin.congr same ?_
  cases p.rest.head? with
  | none => exact .throw rfl .token
  | some c =>
    refine Twin.ite (fun _ => Iff.rfl) (fun _ => ?_) fun _ => Twin.ite (fun _ => Iff.rfl) (fun _ => ?_) fun _ => ?_
    · exact .throw rfl .token
    · exact .throw rfl .token
    · exact (Twin.skip 1).bindIgnored (.pure fun _ => .refl _ _)

/-- A token without places, and the state behind it. -/
def tokenLook (t : CalcToken Value × Nat × Bool) : List (CalcToken Value) × Nat × Bool := (bareTokens [t.1], t.2)

theorem bareTokens_cons (t : CalcToken Value) (ts : List (CalcToken Value)) :
    bareTokens (t :: ts) = bareTokens [t] ++ bareTokens ts := by
  cases t <;> rfl

theorem readToken_twin (hi : g.TwinValue True inner inner') (depth : Nat) (afterOperand : Bool) :
    g.Twin L False never tokenLook (readToken inner depth afterOperand) (readToken inner' depth afterOperand) := by
  refine Twin.here fun M p p' hm meet => ?_
  refine Twin.ite (fun m => by rw [meet.comes (by decide) m]) (fun _ => ?_)
    fun _ => ?_
  · exact (Twin.skip 1).bindIgnored (.pure fun _ => .refl _ _)
  · refine Twin.ite (fun m => by rw [meet.comes (by decide) m]) (fun _ => ?_)
      fun _ => Twin.ite (fun _ => Iff.rfl) (fun _ => ?_) fun _ => ?_
    · exact (Twin.skip 1).bindIgnored (.pure fun _ => .refl _ _)
    · exact readOperator_twin.bindSame fun c => .pure fun _ => .refl _ _
    · refine (hi.weaken fun _ => trivial).bind fun v v' alike => .pure fun m => ?_
      refine alike.map (fun v => (CalcToken.operand v, depth, true)) fun hb => ?_
      simp only [tokenLook, bareTokens, hb]

theorem readTokens_twin (hi : g.TwinValue True inner inner') (n depth : Nat) (afterOperand : Bool) :
    g.Twin L False never bareTokens (readTokens inner n depth afterOperand)
      (readTokens inner' (n + g.more.length) depth afterOperand) := by
  induction n using Nat.strongRecOn generalizing L depth afterOperand with
  | ind n ih =>
    rw [readTokens, readTokens]
    refine Twin.here fun M p p' hm meet => ?_
    refine Twin.ite (fun m => by rw [meet.comes (by decide) m])
      (fun _ => .pure fun _ => .refl _ _) fun _ => ?_
    refine Twin.ite (fun m => by rw [meet.atEnd m]) (fun _ => ?_) fun _ => ?_
    · refine Twin.ite (fun _ => Iff.rfl) (fun _ => .pure fun _ => .refl _ _) fun _ => ?_
      exact .throw rfl .ending
    · refine .bindIgnored .gapIgnored ((readToken_twin hi depth afterOperand).bind fun t t' alike => ?_)
      obtain ⟨token, depth, afterOperand⟩ := t
      obtain ⟨token', depth', afterOperand'⟩ := t'
      have seen : bareTokens [token'] = bareTokens [token] := congrArg Prod.fst alike.seen
      obtain ⟨rfl, rfl⟩ : depth = depth' ∧ afterOperand = afterOperand' :=
        Prod.mk.inj (congrArg Prod.snd alike.seen).symm
      refine .bindIgnored .gapIgnored ?_
      have others : g.Twin M False never bareTokens
          (Read.shorter n (fun m _ => readTokens inner m depth afterOperand) (pure []))
          (Read.shorter (n + g.more.length) (fun m _ => readTokens inner' m depth afterOperand) (pure [])) :=
        .shorter (fun m h => ih m h depth afterOperand) (.pure fun _ => .refl _ _)
      refine others.bind fun ts ts' following => .pure fun m => ?_
      refine ⟨fun he => ?_, ?_⟩
      · rw [following.whole he, show token' = token from congrArg Prod.fst (alike.whole he)]
      · rw [bareTokens_cons, bareTokens_cons token, following.seen, seen]

theorem readCalculation_twin (hi : g.TwinValue True inner inner') :
    g.TwinValue L (readCalculation inner) (readCalculation inner') := by
  refine Twin.here fun M p p' hm meet => (Twin.identifier _).bindSame fun name => Twin.here fun N q q' hn behind => ?_
  refine Twin.orThrow (fun n => by rw [behind.comes (by decide) n]) rfl
    .token fun _ => ?_
  refine (Twin.skip 1).bindIgnored (Twin.leftBind fun n => ?_)
  refine (readTokens_twin hi n 0 false).bind fun ts ts' alike => Twin.here fun K s s' hk after => ?_
  have result : g.TwinValue K (pure (.calculation name ts (some p.position)))
      (pure (.calculation name ts' (some p'.position))) := by
    refine .pure fun k => ⟨fun he => ?_, ?_⟩
    · rw [alike.whole he, meet.position (hn (hk k)) he]
    · rw [bare, bare, alike.seen]
  refine Twin.ite (fun k => by rw [after.atEnd k]) (fun _ => ?_) fun _ => result
  exact .bindIgnored (.token (by decide)) result

/-- Takes the call that a name begins. -/
def readCall (nested : List Separator → Read Value) (inner : Read Value) (ignoreCase : Bool) (name : String) :
    Read Value := do
  if Text.lower name = "url" then return .url (← Url.read)
  else if Text.lower name ∈ calculationNames then readCalculation inner
  else readFunction nested ignoreCase

theorem outcome_readWord (nested : List Separator → Read Value) (inner : Read Value) (ignoreCase : Bool)
    (r : Reader) :
    (readWord nested inner ignoreCase).outcome r =
      match (Read.identifier ignoreCase).outcome r with
      | (.error e, s) => (.error e, s)
      | (.ok name, s) =>
        if !s.place.comes "(" then (.ok (.keyword name), s)
        else (readCall nested inner ignoreCase name).outcome { s with place := r.place } := by
  rw [readWord, Read.outcome_bind, Read.outcome_place, Read.following_ok, Read.outcome_bind]
  rcases (Read.identifier ignoreCase).outcome r with ⟨e | name, s⟩
  · rfl
  · rw [Read.following_ok, Read.outcome_bind, Read.outcome_place, Read.following_ok]
    dsimp only
    split
    · rfl
    · rfl

theorem readCall_twin (hn : ∀ order, g.TwinValue True (nested order) (nested' order))
    (hi : g.TwinValue True inner inner') (ignoreCase : Bool) (name : String) :
    g.TwinValue L (readCall nested inner ignoreCase name) (readCall nested' inner' ignoreCase name) := by
  refine Twin.ite (fun _ => Iff.rfl) (fun _ => ?_) fun _ => Twin.ite (fun _ => Iff.rfl) (fun _ => ?_) fun _ => ?_
  · refine Url.read_twin.bind fun u u' alike => .pure fun m => ?_
    exact alike.map Value.url fun seen => congrArg Value.url seen
  · exact readCalculation_twin hi
  · exact readFunction_twin hn ignoreCase

end Value

namespace Place

/-- Without escapes an identifier ends before a brace. -/
theorem brace_mem_spelling {s : Settings} {p : Place} (h : '\\' ∉ p.rest) (hb : '\x7d' ∈ p.rest) :
    '\x7d' ∈ (p.spelling s).2.rest := by
  fun_induction spelling s p with
  | case1 p hg piece q hq more r hr ih =>
    cases hp : p.rest with
    | nil => rw [hp] at hb; cases hb
    | cons c rest =>
      rw [hp] at h hb
      have hc : c ≠ '\\' := fun hc => h (by rw [hc]; exact List.mem_cons_self)
      have name : isIdentifierChar c = true := by
        unfold goesOn at hg
        rw [hp] at hg
        simpa only [if_neg hc] using hg
      rw [piece_unescaped hp hc] at hq
      cases hq
      rw [next_rest, hp, List.tail_cons] at ih
      rw [hr] at ih
      refine ih (fun hm => h (List.mem_cons_of_mem c hm)) ((List.mem_cons.mp hb).resolve_left fun hcb => ?_)
      rw [← hcb] at name
      exact absurd name (by decide)
  | case2 p hg e q hq =>
    cases hp : p.rest with
    | nil => exact absurd hp (rest_ne_nil_of_goesOn hg)
    | cons c rest =>
      have hc : c ≠ '\\' := fun hc => h (by rw [hp, hc]; exact List.mem_cons_self)
      rw [piece_unescaped hp hc] at hq
      cases hq
  | case3 p hg => exact hb

theorem brace_mem_identifier {s : Settings} {p : Place} (h : '\\' ∉ p.rest) (hb : '\x7d' ∈ p.rest) :
    '\x7d' ∈ (p.identifier s).2.rest := by
  unfold identifier
  split
  · exact hb
  · split
    · exact brace_mem_spelling h hb
    · exact hb

end Place

namespace Value

variable {nested nested' : List Separator → Read Value} {inner inner' word word' : Read Value}

/-- An identifier leaves a closing brace where there is one. -/
theorem live_of_identifier {r s : Reader} {o : Except Fault String} {ignoreCase : Bool} (hl : g.Live r.place)
    (hr : g.Reads r) (ho : (Read.identifier ignoreCase).outcome r = (o, s)) : g.Live s.place := by
  have place : s.place = (r.place.identifier r.settings).2 := by
    simp only [Read.identifier, Read.outcome_bind, Read.outcome_move] at ho
    rcases hi : r.place.identifier r.settings with ⟨e | cs, q⟩
    · rw [hi] at ho
      cases ho
      rfl
    · rw [hi] at ho
      cases ho
      rfl
  rcases g.pair_modes with hm | hloose
  · exact .inl hm.2
  · refine hl.imp_right fun hb => ?_
    rw [place]
    refine Place.brace_mem_identifier (fun hm => hloose.2.2.unescaped ?_) hb
    exact hr.text ▸ r.place.rest_suffix_text.mem hm

theorem readWord_twin (hn : ∀ order, g.TwinValue True (nested order) (nested' order))
    (hi : g.TwinValue True inner inner') (ignoreCase : Bool) :
    g.TwinValue L (readWord nested inner ignoreCase) (readWord nested' inner' ignoreCase) where
  keeps r hr := by
    have word : g.Twin False False never id (Read.identifier ignoreCase) (Read.identifier ignoreCase) := .identifier _
    rw [outcome_readWord]
    rcases ho : (Read.identifier ignoreCase).outcome r with ⟨e | name, s⟩
    · exact (word.kept hr ho).error
    · have hk := word.kept hr ho
      dsimp only
      split
      · exact hk.result _
      · have same : s.settings = r.settings := hk.settings
        have call := (readCall_twin hn hi ignoreCase name : g.TwinValue False _ _).keeps { s with place := r.place }
          ⟨same.trans hr.settings, hr.text⟩
        exact ⟨call.settings.trans same, same ▸ call.ahead, call.located⟩
  needs _ _ _ _ _ _ hs := hs.elim
  agrees hL r r' hl hr := by
    have agree := (Twin.identifier ignoreCase : g.Twin True False never id _ _).agrees trivial r r' hl hr
    rw [outcome_readWord, outcome_readWord]
    rcases ho : (Read.identifier ignoreCase).outcome r with ⟨e | name, s⟩
    · rw [ho] at agree
      exact agree.failing fun e' s' ho' => by rw [ho']
    · have live := live_of_identifier hl hr.reads ho
      rw [ho] at agree
      obtain ⟨name', s', ho', alike, readers⟩ := agree (.inr live)
      rw [ho', alike.eq]
      dsimp only
      rw [Pairing.comes_eq readers.places live (by decide)]
      split
      · exact fun _ => ⟨_, _, rfl, .refl _ _, readers⟩
      · exact (readCall_twin hn hi ignoreCase name).agrees trivial _ _ hl ⟨readers.first, readers.second, hr.places⟩

/-- Values without places, and what is known of the color function. -/
def channelsLook (c : List Value × ColorState) : List Value × ColorState := (bareAll c.1, c.2)

/-- A channel without places, and what is known of the color function. -/
def channelLook (c : Value × ColorState) : Value × ColorState := (c.1.bare, c.2)

theorem readChannel_twin (hw : g.TwinValue True word word') (s : ColorState) :
    g.Twin L False never channelLook (readChannel word s) (readChannel word' s) := by
  refine Twin.here fun M p p' hm meet => ?_
  refine Twin.ite (fun m => by rw [meet.comesAnyCase (by decide) m]) (fun _ => ?_)
    fun _ => ?_
  · refine (hw.weaken fun _ => trivial).bind fun v v' alike => .pure fun m => ?_
    refine alike.map (fun v => (v, { s with hasVariable := true })) fun hb => ?_
    rw [channelLook, channelLook, hb]
  · refine Twin.ite (fun m => by rw [meet.comesAnyCase (by decide) m])
      (fun _ => ?_) fun _ => ?_
    · exact (Twin.identifier true).bindSame fun name => .pure fun _ => .refl _ _
    · refine (Size.read_twin true).bind fun size size' alike => .pure fun m => ?_
      refine alike.map (fun size => (Value.size size, s)) fun hb => ?_
      exact congrArg (fun size => (Value.size size, s)) hb

theorem readBetween_twin (keys : List Char) (s : ColorState) :
    g.Twin L final never id (readBetween keys s) (readBetween keys s) := by
  unfold readBetween
  refine Twin.ite (fun _ => Iff.rfl) (fun _ => ?_) fun _ => Twin.ite (fun _ => Iff.rfl) (fun _ => ?_) fun _ => ?_
  · exact Twin.ite (fun _ => Iff.rfl) (fun _ => .token (by decide)) fun _ => .pure fun _ => .refl _ _
  · refine Twin.here fun M p p' hm meet => ?_
    refine Twin.ite (fun m => by rw [meet.comes (by decide) m]) (fun _ => ?_)
      fun _ => .pure fun _ => .refl _ _
    exact .token (by decide)
  · exact Twin.ite (fun _ => Iff.rfl) (fun _ => .token (by decide)) fun _ => .pure fun _ => .refl _ _

theorem readChannels_twin (hw : g.TwinValue True word word') (optional first : Bool) (s : ColorState)
    (keys : List Char) :
    g.Twin L False never channelsLook (readChannels word optional first s keys)
      (readChannels word' optional first s keys) := by
  induction keys generalizing L first s with
  | nil => exact .pure fun _ => .refl _ _
  | cons key keys ih =>
    refine .bindIgnored .gapIgnored ((readChannel_twin hw s).bind fun c c' alike => ?_)
    obtain ⟨v, s⟩ := c
    obtain ⟨v', s'⟩ := c'
    obtain rfl : s = s' := (congrArg Prod.snd alike.seen).symm
    have value : g.Alike bare v v' :=
      ⟨fun he => congrArg Prod.fst (alike.whole he), congrArg Prod.fst alike.seen⟩
    refine .bindIgnored .gapIgnored ?_
    refine Twin.here fun M p p' hm meet => ?_
    have comma (m : M) : p'.comes "," = p.comes "," := meet.comes (by decide) m
    refine Twin.ite (fun m => by rw [meet.comes (by decide) m]) (fun _ => ?_)
      fun _ => ?_
    · exact .pure fun m => value.map (fun v => ([v], s)) fun hb => by rw [channelsLook, bareAll, hb]; rfl
    · refine .congr (fun m => by rw [comma m]) ?_
      refine (readBetween_twin keys _).bindIgnored ((ih false _).bind fun c c' following => .pure fun m => ?_)
      refine ⟨fun he => ?_, ?_⟩
      · rw [following.whole he, value.whole he]
      · have others := following.seen
        simp only [channelsLook, Prod.mk.injEq] at others ⊢
        rw [bareAll, bareAll, value.seen, others.1, others.2]
        exact ⟨rfl, rfl⟩

/-- Channels without places are channels of values without places. -/
theorem bareChannels_zipWith (keys : List Char) (vs : List Value) :
    bareChannels (List.zipWith Channel.mk keys vs) = List.zipWith Channel.mk keys (bareAll vs) := by
  induction keys generalizing vs with
  | nil => rfl
  | cons key keys ih =>
    cases vs with
    | nil => rfl
    | cons v vs => rw [List.zipWith_cons_cons, bareChannels, ih, bareAll, List.zipWith_cons_cons]

theorem readColorFunction_twin (hw : g.TwinValue True word word') :
    g.TwinValue L (readColorFunction word) (readColorFunction word') := by
  refine Twin.here fun M p p' hm meet => (Twin.identifier true).bindSame fun name => .bindIgnored .gapIgnored ?_
  refine .bindIgnored (.token (by decide)) ((readChannels_twin hw _ _ _ _).bind fun c c' alike => ?_)
  obtain ⟨vs, s⟩ := c
  obtain ⟨vs', s'⟩ := c'
  obtain rfl : s = s' := (congrArg Prod.snd alike.seen).symm
  refine .bindIgnored (.token (by decide)) ?_
  have values : bareAll vs' = bareAll vs := congrArg Prod.fst alike.seen
  have whole (he : g.exact = true) : vs' = vs := congrArg Prod.fst (alike.whole he)
  have position (m : M) (he : g.exact = true) : p'.position = p.position := meet.position m he
  refine Twin.ite (fun _ => Iff.rfl) (fun _ => ?_) fun _ => ?_
  · exact .pure fun m => ⟨fun he => by rw [whole he, position m he], by rw [bare, bare, values]⟩
  · refine .pure fun m => ⟨fun he => by rw [whole he, position m he], ?_⟩
    rw [bare, bare, bareChannels_zipWith, bareChannels_zipWith, values]

theorem readColor_twin (hw : g.TwinValue True word word') : g.TwinValue L (readColor word) (readColor word') := by
  refine Twin.here fun M p p' hm meet => ?_
  refine Twin.ite (fun m => by rw [meet.comes (by decide) m])
    (fun _ => readHex_twin) fun _ => readColorFunction_twin hw

end Value

end Stylesheet
