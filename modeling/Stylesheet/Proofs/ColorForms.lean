import Stylesheet.Proofs.Respelling
import Stylesheet.Proofs.SizeRoundTrip

namespace Stylesheet

open Read (Yields)

namespace Place

variable {s : Settings} {p : Place}

/-- Characters that may stand in an identifier are taken as they are. -/
theorem spelling_of_plains {w l : List Char} (hw : ∀ c ∈ w, isIdentifierChar c = true) (hp : p.rest = w ++ l) :
    ∃ q : Place, p.spelling s = ((q.spelling s).1.map (w ++ ·), (q.spelling s).2) := by
  induction w generalizing p with
  | nil =>
    refine ⟨p, Prod.ext ?_ rfl⟩
    cases (p.spelling s).1 with
    | error e => rfl
    | ok t => rfl
  | cons c w ih =>
    obtain ⟨q, hq, first⟩ := spelling_of_plain (s := s) (hw c List.mem_cons_self) hp
    obtain ⟨q', rest⟩ := ih (fun d hd => hw d (List.mem_cons_of_mem c hd)) hq
    refine ⟨q', ?_⟩
    rw [first, rest]
    refine Prod.ext ?_ rfl
    cases (q'.spelling s).1 with
    | error e => rfl
    | ok t => rfl

end Place

/-- A name in lower case begins with the letters that stand where it is read. -/
theorem Read.begins_of_identifier {word : String} (plain : Text.isPlainWord word.toList = true)
    (alpha : word.toList.all Char.isAlpha = true) {r s : Reader} {t : String}
    (h : (identifier true).outcome r = (.ok t, s)) (comes : r.place.comesAnyCase word = true) :
    word.toList <+: t.toList := by
  have letters := Place.take_toLower_of_comesAnyCase plain comes
  have start : r.place.rest = r.place.rest.take word.toList.length ++ r.place.rest.drop word.toList.length :=
    (List.take_append_drop _ _).symm
  generalize r.place.rest.take word.toList.length = w at letters start
  have alphas : ∀ c ∈ w, c.isAlpha = true := by
    intro c hc
    apply isAlpha_of_toLower
    apply List.all_eq_true.mp alpha
    rw [← letters]
    exact List.mem_map_of_mem hc
  have low : ∀ c ∈ w, c.toNat < 0x80 := fun c hc => toNat_lt_of_isNameChar (isNameChar_of_isAlpha (alphas c hc))
  obtain ⟨q, taken⟩ := Place.spelling_of_plains (s := r.settings)
    (fun c hc => isIdentifierChar_of_isNameChar (isNameChar_of_isAlpha (alphas c hc))) start
  rw [outcome_identifier] at h
  rcases spelled : (r.place.identifier r.settings).1 with e | u
  · rw [spelled] at h
    cases h
  · rw [spelled] at h
    cases h
    rw [Place.identifier_eq_spelling (Place.goesOn_of_identifier spelled), taken] at spelled
    cases more : (q.spelling r.settings).1 with
    | error e =>
      rw [more] at spelled
      cases spelled
    | ok m =>
      rw [more] at spelled
      cases spelled
      simp only [if_true, Text.lower, String.toList_ofList]
      rw [Text.lowerFrom_append_low low, letters]
      exact List.prefix_append _ _

namespace Value

/-- A word that begins with `none`, which stands for a channel that is missing. -/
def isMissing : Value → Bool
  | keyword t => "none".toList.isPrefixOf t.toList
  | _ => false

/-- A word or a call that begins with `var`. -/
def isVariable : Value → Bool
  | keyword t | function t _ _ _ => "var".toList.isPrefixOf t.toList
  | _ => false

/-- What is read for a channel of a color: a number, a word that begins with `none` or `var`, or a call that begins with
`var`. -/
inductive IsChannel : Value → Prop
  | number {z : Size} : z.HasKnownUnit → z.channel = true → IsChannel (.size z)
  | word {t : String} : (keyword t).isMissing = true ∨ (keyword t).isVariable = true → IsSpelling t.toList →
    Text.lower t = t → IsChannel (.keyword t)
  | call {name : String} {args : List Value} {s : Separator} {p : Option Position} :
    (function name args s p).isVariable = true → IsChannel (.function name args s p)

theorem not_variable_of_missing {v : Value} (h : v.isMissing = true) : v.isVariable = false := by
  rw [Bool.eq_false_iff]
  intro variable'
  cases v with
  | keyword t =>
    obtain ⟨l, word⟩ := List.isPrefixOf_iff_prefix.mp h
    obtain ⟨m, var⟩ := List.isPrefixOf_iff_prefix.mp variable'
    rw [← word] at var
    cases var
  | _ => cases h

variable {nested : List Separator → Read Value} {inner : Read Value} {r t : Reader} {v : Value}

theorem readSize_known (channel : Bool) :
    Yields (Size.read channel) fun z => z.HasKnownUnit ∧ z.channel = channel := by
  refine .behind fun p => .behind fun _ => ?_
  split
  · exact .throw _
  · refine .behind fun q => .behind fun _ => .pure ⟨?_, rfl⟩
    intro u hu
    have found : Size.unitAt? q.rest = some u := hu
    exact List.mem_of_find?_eq_some found

theorem function_of_readFunction {ignoreCase : Bool} (h : (readFunction nested ignoreCase).outcome r = (.ok v, t)) :
    ∃ name args s p, ((Read.identifier ignoreCase).outcome r).1 = .ok name ∧ v = .function name args s p := by
  rw [readFunction, Read.outcome_bind, Read.outcome_place, Read.following_ok] at h
  obtain ⟨name, s, named, h⟩ := Read.ok_of_bind h
  obtain ⟨_, _, -, h⟩ := Read.ok_of_bind h
  obtain ⟨⟨args, sep⟩, _, -, h⟩ := Read.ok_of_bind h
  obtain ⟨_, _, -, h⟩ := Read.ok_of_bind h
  cases h
  exact ⟨name, args, sep, _, by rw [named], rfl⟩

/-- A word or a call that is read where `var` stands begins with it. -/
theorem variable_of_readWord (h : (readWord nested inner true).outcome r = (.ok v, t))
    (comes : r.place.comesAnyCase "var" = true) : IsChannel v ∧ v.isVariable = true := by
  rw [outcome_readWord] at h
  rcases named : (Read.identifier true).outcome r with ⟨e | name, s⟩
  · rw [named] at h
    cases h
  · rw [named] at h
    have begins := Read.begins_of_identifier (by decide) (by decide) named comes
    obtain ⟨spelling, lower⟩ := Read.isSpelling_of_identifier named
    have lowered := lower rfl
    have prefixed : "var".toList.isPrefixOf name.toList = true := List.isPrefixOf_iff_prefix.mpr begins
    have other (word : String) (hw : "var".toList.isPrefixOf word.toList = false) : name ≠ word := by
      rintro rfl
      rw [prefixed] at hw
      cases hw
    dsimp only at h
    split at h
    · cases h
      exact ⟨.word (.inr prefixed) spelling lowered, prefixed⟩
    · have back : ({ s with place := r.place } : Reader) = r := by
        rw [Read.outcome_identifier] at named
        obtain ⟨-, rfl⟩ := Prod.mk.inj named
        rfl
      have call : readCall nested inner true name = readFunction nested true := by
        unfold readCall
        rw [lowered, if_neg (other "url" (by decide)), if_neg]
        intro known
        have apart : ∀ word ∈ calculationNames, "var".toList.isPrefixOf word.toList = false := by decide
        exact other name (apart name known) rfl
      rw [back, call] at h
      obtain ⟨name', args, sep, p, named', rfl⟩ := function_of_readFunction h
      rw [named] at named'
      cases named'
      exact ⟨.call prefixed, prefixed⟩

/-- What is known of a color behind a channel. -/
def stepChannel (s : ColorState) (v : Value) : ColorState :=
  if v.isVariable then { s with hasVariable := true }
  else if v.isMissing then { s with hasNone := true }
  else s

theorem channel_of_readChannel {s s' : ColorState}
    (h : (readChannel (readWord nested inner true) s).outcome r = (.ok (v, s'), t)) :
    IsChannel v ∧ s' = stepChannel s v := by
  rw [readChannel, Read.outcome_bind, Read.outcome_place, Read.following_ok] at h
  split at h
  · next comes =>
    obtain ⟨w, _, read, h⟩ := Read.ok_of_bind h
    cases h
    obtain ⟨channel, known⟩ := variable_of_readWord read comes
    exact ⟨channel, by rw [stepChannel, if_pos known]⟩
  · split at h
    · next comes =>
      rw [Bool.and_eq_true] at comes
      obtain ⟨word, _, read, h⟩ := Read.ok_of_bind h
      cases h
      have begins := Read.begins_of_identifier (by decide) (by decide) read comes.2
      obtain ⟨spelling, lowered⟩ := Read.isSpelling_of_identifier read
      have missing : (keyword word).isMissing = true := List.isPrefixOf_iff_prefix.mpr begins
      refine ⟨.word (.inl missing) spelling (lowered rfl), ?_⟩
      rw [stepChannel, not_variable_of_missing missing, if_neg Bool.false_ne_true, if_pos missing]
    · obtain ⟨z, _, read, h⟩ := Read.ok_of_bind h
      cases h
      obtain ⟨unit, channel⟩ := readSize_known true _ z _ read
      exact ⟨.number unit channel, rfl⟩

/-- What is read under the keys. All of them have a channel, unless the opacity is left out where it may be, or a
variable stands for what is missing. -/
structure IsChannels (optional : Bool) (keys : List Char) (before after : Bool) (vs : List Value) : Prop where
  channels : ∀ v ∈ vs, IsChannel v
  fewer : vs.length ≤ keys.length
  enough : vs.length = keys.length ∨ after = true ∨ (optional = true ∧ keys.length ≤ vs.length + 1)
  known : after = (before || vs.any isVariable)

theorem hasVariable_stepChannel (s : ColorState) (v : Value) :
    (stepChannel s v).hasVariable = (s.hasVariable || v.isVariable) := by
  unfold stepChannel
  split
  · next h => simp [h]
  · next h =>
    split
    · simp [h]
    · simp [h]

/-- What is done behind a channel. -/
def readOthers (word : Read Value) (optional first : Bool) (keys : List Char) (v : Value) (s : ColorState) :
    Read (List Value × ColorState) := do
  let p ← Read.place
  if (s.hasVariable || (optional && keys.length ≤ 1)) && p.comes ")" then return ([v], s)
  else
    let s := if first && !s.hasNone then { s with classic := p.comes "," } else s
    readBetween keys s
    let (vs, s) ← readChannels word optional false s keys
    return (v :: vs, s)

theorem readChannels_cons (word : Read Value) (optional first : Bool) (s : ColorState) (key : Char)
    (keys : List Char) : readChannels word optional first s (key :: keys) = (do
      discard Read.gap
      let (v, s) ← readChannel word s
      discard Read.gap
      readOthers word optional first keys v s) := rfl

theorem channels_of_readChannels {optional first : Bool} {s s' : ColorState} {keys : List Char} {vs : List Value}
    (h : (readChannels (readWord nested inner true) optional first s keys).outcome r = (.ok (vs, s'), t)) :
    IsChannels optional keys s.hasVariable s'.hasVariable vs := by
  induction keys generalizing first s r vs s' with
  | nil =>
    cases h
    exact ⟨nofun, Nat.le_refl _, .inl rfl, by simp⟩
  | cons key keys ih =>
    rw [readChannels_cons] at h
    obtain ⟨_, _, -, h⟩ := Read.ok_of_bind h
    obtain ⟨⟨v, s₁⟩, _, read, h⟩ := Read.ok_of_bind h
    obtain ⟨_, _, -, h⟩ := Read.ok_of_bind h
    obtain ⟨channel, rfl⟩ := channel_of_readChannel read
    rw [readOthers, Read.outcome_bind, Read.outcome_place, Read.following_ok] at h
    split at h
    · next closed =>
      cases h
      rw [Bool.and_eq_true, Bool.or_eq_true, Bool.and_eq_true, decide_eq_true_eq] at closed
      refine ⟨by simpa using channel, by simp, ?_, by simp [hasVariable_stepChannel]⟩
      rcases closed.1 with variable' | ⟨opt, last⟩
      · exact .inr (.inl variable')
      · exact .inr (.inr ⟨opt, by simpa using last⟩)
    · obtain ⟨_, _, -, h⟩ := Read.ok_of_bind h
      obtain ⟨⟨more, s₂⟩, _, again, h⟩ := Read.ok_of_bind h
      cases h
      have rest := ih again
      have kept : ∀ (b : Bool) (s : ColorState) (classic : Bool),
          (if b then { s with classic } else s).hasVariable = s.hasVariable := by
        intro b s classic
        split
        · rfl
        · rfl
      rw [kept, hasVariable_stepChannel] at rest
      have fewer := rest.fewer
      refine ⟨List.forall_mem_cons.mpr ⟨channel, rest.channels⟩, by simpa using fewer, ?_, ?_⟩
      · rcases rest.enough with all | variable' | ⟨opt, last⟩
        · exact .inl (by simpa using all)
        · exact .inr (.inl variable')
        · exact .inr (.inr ⟨opt, by simpa using last⟩)
      · rw [rest.known, List.any_cons, Bool.or_assoc]

/-- The names of the color functions whose opacity may be left out. -/
def isOptional (name : String) : Bool := name = "rgb" || name = "hsl"

/-- The letters of the channels that the name of a color function stands for. -/
def colorKeys (name : String) : List Char := if isOptional name then name.toList ++ ['a'] else name.toList

/-- What is read of a color function: its channels under the letters of its name, or a function if there is a variable
among them. -/
theorem color_of_readColorFunction (h : (readColorFunction (readWord nested inner true)).outcome r = (.ok v, t)) :
    ∃ name vs, IsSpelling name.toList ∧ Text.lower name = name ∧
      ((IsChannels (isOptional name) (colorKeys name) false true vs ∧
          v = .function name vs .comma (some r.place.position)) ∨
        ∃ classic, IsChannels (isOptional name) (colorKeys name) false false vs ∧
          v = .color (List.zipWith Channel.mk (colorKeys name) vs) classic (some r.place.position)) := by
  rw [readColorFunction, Read.outcome_bind, Read.outcome_place, Read.following_ok] at h
  obtain ⟨name, _, named, h⟩ := Read.ok_of_bind h
  obtain ⟨spelling, lowered⟩ := Read.isSpelling_of_identifier named
  obtain ⟨_, _, -, h⟩ := Read.ok_of_bind h
  obtain ⟨_, _, -, h⟩ := Read.ok_of_bind h
  obtain ⟨⟨vs, s⟩, _, read, h⟩ := Read.ok_of_bind h
  obtain ⟨_, _, -, h⟩ := Read.ok_of_bind h
  have channels : IsChannels (isOptional name) (colorKeys name) false s.hasVariable vs := channels_of_readChannels read
  refine ⟨name, vs, spelling, lowered rfl, ?_⟩
  split at h
  · next variable' =>
    rw [variable'] at channels
    cases h
    exact .inl ⟨channels, rfl⟩
  · next constant =>
    rw [Bool.not_eq_true] at constant
    rw [constant] at channels
    cases h
    exact .inr ⟨_, channels, rfl⟩

/-- What is read of hexadecimal digits. -/
theorem readHex_color :
    Yields readHex fun v => ∃ p digits, (digits.length = 6 ∨ digits.length = 8) ∧
      v = .color (hexChannels p digits) true (some p) := by
  refine .behind fun p => .behind fun _ => .behind fun digits => .orThrow ?_
  dsimp only
  generalize (if digits.toList.length = 3 || digits.toList.length = 4 then digits.toList.flatMap fun d => [d, d]
    else digits.toList) = pairs
  split
  · exact .bind (P := fun _ => False) (.throw _) nofun
  · next length => exact .pure ⟨p.position, pairs, by simpa [or_iff_not_imp_left] using length, rfl⟩

section IsColor

variable {vs : List Value} {name : String}

/-- A color as it is read: its name can be read again, and its channels are what the name stands for. -/
inductive IsColor : Value → Prop
  | function {name : String} {vs : List Value} {p : Option Position} : IsSpelling name.toList → Text.lower name = name →
    IsChannels (isOptional name) (colorKeys name) false true vs → IsColor (.function name vs .comma p)
  | color {cs : List (Channel Value)} {classic : Bool} {p : Option Position} : IsSpelling (Channel.name cs).toList →
    Text.lower (Channel.name cs) = Channel.name cs →
    IsChannels (isOptional (Channel.name cs)) (colorKeys (Channel.name cs)) false false (cs.map Channel.value) →
    IsColor (.color cs classic p)

theorem toList_name (cs : List (Channel Value)) : (Channel.name cs).toList = cs.map Channel.key := by
  rw [Channel.name, String.toList_ofList]

theorem keys_of_name (cs : List (Channel Value)) : cs.map Channel.key <+: colorKeys (Channel.name cs) := by
  unfold colorKeys
  rw [toList_name]
  split
  · exact List.prefix_append _ _
  · exact List.prefix_rfl

/-- Channels without a variable are those that the letters of their keys stand for. -/
theorem isChannels_of_name {cs : List (Channel Value)} (channels : ∀ c ∈ cs, IsChannel c.value)
    (words : ∀ c ∈ cs, c.value.isVariable = false) :
    IsChannels (isOptional (Channel.name cs)) (colorKeys (Channel.name cs)) false false (cs.map Channel.value) := by
  have constant : (cs.map Channel.value).any isVariable = false := by
    rw [List.any_map, List.any_eq_false]
    exact fun c hc => by rw [Function.comp_apply, words c hc]; exact Bool.false_ne_true
  refine ⟨by simpa using channels, ?_, ?_, by rw [constant, Bool.or_false]⟩
  · unfold colorKeys
    split
    · simp [toList_name]
    · simp [toList_name]
  · unfold colorKeys
    split
    · next optional => exact .inr (.inr ⟨optional, by simp [toList_name]⟩)
    · simp [toList_name]

theorem lower_known {t : String} (known : t ∈ ["rgb", "hsl", "rgba", "hsla"]) :
    IsSpelling t.toList ∧ Text.lower t = t := by
  have plain : t.toList.all isNameChar = true ∧ t.toList.map Char.toLower = t.toList := by
    simp only [List.mem_cons, List.not_mem_nil, or_false] at known
    rcases known with rfl | rfl | rfl | rfl
    · decide
    · decide
    · decide
    · decide
  exact ⟨.of_name plain.1, by rw [lower_name plain.1, plain.2, String.ofList_toList]⟩

theorem keys_zipWith (keys : List Char) (vs : List Value) (fewer : vs.length ≤ keys.length) :
    (List.zipWith Channel.mk keys vs).map Channel.key = keys.take vs.length ∧
      (List.zipWith Channel.mk keys vs).map Channel.value = vs := by
  induction keys generalizing vs with
  | nil =>
    rw [List.length_nil, Nat.le_zero, List.length_eq_zero_iff] at fewer
    subst fewer
    exact ⟨rfl, rfl⟩
  | cons key keys ih =>
    cases vs with
    | nil => exact ⟨rfl, rfl⟩
    | cons v vs =>
      obtain ⟨under, values⟩ := ih vs (by simpa using fewer)
      exact ⟨congrArg (key :: ·) under, congrArg (v :: ·) values⟩

theorem IsChannels.not_variable {optional : Bool} {keys : List Char} {before : Bool}
    (h : IsChannels optional keys before false vs) {v : Value} (hv : v ∈ vs) : v.isVariable = false := by
  have known := h.known
  rw [eq_comm, Bool.or_eq_false_iff, List.any_eq_false] at known
  exact Bool.eq_false_iff.mpr (known.2 v hv)

/-- The channels of a color function are read under a name that can be read again. -/
theorem isColor_zipWith (spelling : IsSpelling name.toList) (lowered : Text.lower name = name)
    (channels : IsChannels (isOptional name) (colorKeys name) false false vs) (classic : Bool) (p : Option Position) :
    IsColor (.color (List.zipWith Channel.mk (colorKeys name) vs) classic p) := by
  obtain ⟨under, values⟩ := keys_zipWith (colorKeys name) vs channels.fewer
  generalize List.zipWith Channel.mk (colorKeys name) vs = cs at under values
  have mem {c : Channel Value} (hc : c ∈ cs) : c.value ∈ vs := by
    rw [← values]
    exact List.mem_map_of_mem hc
  have again : IsSpelling (Channel.name cs).toList ∧ Text.lower (Channel.name cs) = Channel.name cs := by
    have same : Channel.name cs = String.ofList ((colorKeys name).take vs.length) := by rw [Channel.name, under]
    by_cases optional : isOptional name = true
    · refine lower_known ?_
      have fewer := channels.fewer
      have enough := channels.enough
      rw [same]
      have known : name = "rgb" ∨ name = "hsl" := by simpa [isOptional] using optional
      have length : vs.length = 3 ∨ vs.length = 4 := by
        have four : (colorKeys name).length = 4 := by rcases known with rfl | rfl <;> rfl
        rw [four] at fewer enough
        rcases enough with all | variable' | ⟨-, last⟩
        · exact .inr all
        · cases variable'
        · omega
      rcases known with rfl | rfl
      · rcases length with length | length
        · rw [length]
          decide
        · rw [length]
          decide
      · rcases length with length | length
        · rw [length]
          decide
        · rw [length]
          decide
    · have keys : colorKeys name = name.toList := by rw [colorKeys, if_neg optional]
      have enough := channels.enough
      have length : vs.length = (colorKeys name).length := by
        rcases enough with all | variable' | ⟨opt, -⟩
        · exact all
        · cases variable'
        · exact absurd opt optional
      rw [same, length, List.take_length, keys, String.ofList_toList]
      exact ⟨spelling, lowered⟩
  exact .color again.1 again.2 (isChannels_of_name (fun c hc => channels.channels c.value (mem hc))
    fun c hc => channels.not_variable (mem hc))

theorem isColor_hexChannels {digits : List Char} (length : digits.length = 6 ∨ digits.length = 8) (p : Position) :
    IsColor (.color (hexChannels p digits) true (some p)) := by
  have channel (key : Char) (x : Number.Binary64) : IsChannel (hexChannel p key x).value :=
    .number (fun u hu => by cases hu) rfl
  have built (name : String) (known : name ∈ ["rgb", "hsl", "rgba", "hsla"]) (cs : List (Channel Value))
      (under : Channel.name cs = name) (channels : ∀ c ∈ cs, IsChannel c.value)
      (words : ∀ c ∈ cs, c.value.isVariable = false) : IsColor (.color cs true (some p)) := by
    have again := lower_known known
    rw [← under] at again
    exact .color again.1 again.2 (isChannels_of_name channels words)
  rcases length with six | eight
  · match digits, six with
    | [r, r', g, g', b, b'], _ =>
      refine built "rgb" (by decide) _ rfl ?_ ?_
      · simp only [hexChannels, List.forall_mem_cons]
        exact ⟨channel _ _, channel _ _, channel _ _, nofun⟩
      · simp [hexChannels, hexChannel, isVariable]
  · match digits, eight with
    | [r, r', g, g', b, b', a, a'], _ =>
      refine built "rgba" (by decide) _ rfl ?_ ?_
      · simp only [hexChannels, List.forall_mem_cons]
        exact ⟨channel _ _, channel _ _, channel _ _, channel _ _, nofun⟩
      · simp [hexChannels, hexChannel, isVariable]

theorem isColor_of_readColorHere {r s : Reader} (read : readColorHere.outcome r = (.ok v, s)) : IsColor v := by
  obtain ⟨n, _, -, read⟩ := Read.ok_of_bind read
  rw [readColor, Read.outcome_bind, Read.outcome_place, Read.following_ok] at read
  split at read
  · obtain ⟨p, digits, length, rfl⟩ := readHex_color _ v _ read
    exact isColor_hexChannels length p
  · obtain ⟨name, vs, spelling, lowered, ⟨channels, rfl⟩ | ⟨classic, channels, rfl⟩⟩ := color_of_readColorFunction read
    · exact .function spelling lowered channels
    · exact isColor_zipWith spelling lowered channels classic _

end IsColor

end Value

end Stylesheet
