import Mathlib.Data.List.DropRight
import Mathlib.Data.List.Find
import Stylesheet.Proofs.Leniency
import Stylesheet.Proofs.TwinSteps

namespace Stylesheet

open Pairing (Twin never)

variable {g : Pairing} {L final : Prop}

namespace Size

/-- A size without its place. -/
def bare (s : Size) : Size := { s with position := none }

theorem numberChars_brace (rest : List Char) : numberChars ('\x7d' :: rest) = [] := by
  cases rest <;> rfl

/-- What a number is made of is told before a brace. -/
theorem numberChars_append (more : List Char) :
    (rest : List Char) → '\x7d' ∈ rest → numberChars (rest ++ more) = numberChars rest
  | [c], h => by
    rw [← List.mem_singleton.mp h]
    exact (numberChars_brace more).trans (numberChars_brace []).symm
  | c :: d :: rest, h => by
    by_cases hc : c = '\x7d'
    · rw [hc, List.cons_append, numberChars_brace, numberChars_brace]
    · have hd : '\x7d' ∈ d :: rest := (List.mem_cons.mp h).resolve_left (Ne.symm hc)
      have next := numberChars_append more (d :: rest) hd
      rw [List.cons_append] at next
      rw [List.cons_append, List.cons_append, numberChars, numberChars, next]
      split
      · rfl
      · split
        · next he =>
          have hb : d ≠ '\x7d' := fun hb => by rw [hb] at he; simp at he
          rw [numberChars_append more rest ((List.mem_cons.mp hd).resolve_left (Ne.symm hb))]
        · rfl

theorem numberAt_append {rest : List Char} (more : List Char) (h : '\x7d' ∈ rest) :
    numberAt (rest ++ more) = numberAt rest := by
  unfold numberAt
  cases rest with
  | nil => cases h
  | cons c rest =>
    by_cases hc : c = '-'
    · subst hc
      have hr : '\x7d' ∈ rest := (List.mem_cons.mp h).resolve_left (by decide)
      exact congrArg ('-' :: ·) (numberChars_append more rest hr)
    · have whole := numberChars_append more (c :: rest) h
      split
      · next hm => cases hm; exact absurd rfl hc
      · split
        · next hm => cases hm; exact absurd rfl hc
        · exact whole

/-- A word that has no such character is not found across it. -/
theorem take_lower_append {c : Char} {word rest : List Char} (more : List Char) (hc : c ∈ rest)
    (hw : c.toLower ∉ word) (n : Nat) :
    ((rest ++ more).take n).map Char.toLower = word ↔ (rest.take n).map Char.toLower = word := by
  by_cases hle : n ≤ rest.length
  · rw [List.take_append_of_le_length hle]
  · have never {l : List Char} (hl : c ∈ l) (h : l.map Char.toLower = word) : False :=
      hw (h ▸ List.mem_map_of_mem hl)
    have short : c ∈ rest.take n := by rwa [List.take_of_length_le (by omega)]
    have long : c ∈ (rest ++ more).take n := by
      rw [List.take_append]
      exact List.mem_append_left _ short
    exact ⟨fun h => (never long h).elim, fun h => (never short h).elim⟩

theorem unitAt?_append {rest : List Char} (more : List Char) (h : '\x7d' ∈ rest) :
    unitAt? (rest ++ more) = unitAt? rest := by
  have clear : ∀ u ∈ unitsLongestFirst, '\x7d'.toLower ∉ u.toList.map Char.toLower := by decide
  refine List.find?_congr fun u hu => ?_
  rw [decide_eq_decide]
  exact take_lower_append more h (clear u hu) u.length

theorem numberAt_eq {p p' : Place} (h : g.Places p p') (hl : g.Live p) : numberAt p'.rest = numberAt p.rest := by
  rw [h.rest]
  rcases hl with hm | hl
  · rw [hm, List.append_nil]
  · exact numberAt_append _ hl

theorem unitAt?_eq {p p' : Place} (h : g.Places p p') (hl : g.Live p) : unitAt? p'.rest = unitAt? p.rest := by
  rw [h.rest]
  rcases hl with hm | hl
  · rw [hm, List.append_nil]
  · exact unitAt?_append _ hl

/-- Whether a number begins is told by three characters, or before a brace. -/
theorem begins_eq {p p' : Place} (h : g.Places p p') (hl : g.Live p) : begins p' = begins p := by
  unfold begins
  rw [h.rest]
  rcases hl with hm | hl
  · rw [hm, List.append_nil]
  · match hr : p.rest with
    | [] => rw [hr] at hl; cases hl
    | [c] =>
      rw [hr, List.mem_singleton] at hl
      rw [← hl]
      rfl
    | [c, d] =>
      rw [hr] at hl
      by_cases hc : c = '\x7d'
      · rw [hc]
        rfl
      · have hd : d = '\x7d' := by simpa [Ne.symm hc, eq_comm] using hl
        rw [hd]
        by_cases hm : c = '-'
        · rw [hm]; rfl
        · by_cases hp : c = '.'
          · rw [hp]; rfl
          · simp [hm, hp]
    | c :: d :: e :: rest =>
      by_cases hm : c = '-'
      · rw [hm]
        by_cases hd : d = '.'
        · rw [hd]; rfl
        · simp [hd]
      · by_cases hp : c = '.'
        · rw [hp]; rfl
        · simp [hm, hp]

theorem read_twin (channel : Bool) : g.Twin L final never bare (Size.read channel) (Size.read channel) := by
  refine Twin.here fun M p p' hm meet => ?_
  refine Twin.congr (fun m => by rw [numberAt_eq (meet.places m) (meet.live m)]) ?_
  refine (Twin.skip _).bindIgnored ?_
  split
  · exact .throw rfl .token
  · refine Twin.here fun N q q' hn behind => ?_
    refine Twin.congr (fun n => by rw [unitAt?_eq (behind.places n) (behind.live n)]) ?_
    refine (Twin.skip _).bindIgnored ?_
    exact .pure fun n => ⟨fun he => by rw [meet.position (hn n) he], rfl⟩

end Size

namespace Quoted

/-- Takes a text that begins with the character, if there is one. -/
def readFrom (p : Place) : Option Char → Read Quoted
  | some c =>
    if c = '"' || c = '\'' then do
      Read.skip 1
      let text ← Read.move fun s q => q.textUpTo s (· = c)
      if (← Read.place).atEnd then
        throw (.unexpectedEnd ("closing `" ++ String.singleton c ++ "`") p.location)
      Read.skip 1
      return ⟨String.ofList text, some p.position⟩
    else do
      let text ← Read.move fun s q => q.textUpTo s endsBare
      return ⟨String.ofList text, some p.position⟩
  | none => return ⟨"", some p.position⟩

theorem read_eq : Quoted.read = Read.place >>= fun p => readFrom p p.rest.head? := by
  refine congrArg (Read.place >>= ·) (funext fun p => ?_)
  cases hr : p.rest with
  | nil => rfl
  | cons c rest => rfl

theorem read_twin : g.Twin L final never Quoted.text Quoted.read Quoted.read := by
  have text (M : Prop) (ends : Char → Bool) : g.Twin M final never id
      (Read.move fun s q => q.textUpTo s ends) (Read.move fun s q => q.textUpTo s ends) :=
    .move (Place.moves_textUpTo ends).ahead (Place.moves_textUpTo ends).located
      fun _ _ _ h hl => Pairing.textUpTo_paired ends h hl
  rw [read_eq]
  refine Twin.here fun M p p' hm meet => ?_
  refine Twin.congr (fun m => by rw [meet.head? m]) ?_
  have position (m : M) (he : g.exact = true) : p'.position = p.position := meet.position m he
  cases p.rest.head? with
  | none => exact .pure fun m => ⟨fun he => by rw [position m he], rfl⟩
  | some c =>
    refine Twin.ite (fun _ => Iff.rfl) (fun _ => ?_) fun _ => ?_
    · refine (Twin.skip 1).bindIgnored ((text M _).bindSame fun t => Twin.here fun N q q' hn behind => ?_)
      refine Twin.orThrow (fun n => by rw [behind.atEnd n]) rfl
        .ending fun _ => ?_
      exact (Twin.skip 1).bindIgnored (.pure fun n => ⟨fun he => by rw [position (hn n) he], rfl⟩)
    · exact (text M _).bindSame fun t => .pure fun m => ⟨fun he => by rw [position m he], rfl⟩

end Quoted

namespace Place

theorem pastGap_stops {width : Char → Nat} {p : Place} (h : (p.pastGap width).2.2 = false) :
    Stops (p.pastGap width).2.1.rest := by
  fun_induction pastGap width p with
  | case1 p ho =>
    refine ⟨?_, fun hc => ?_⟩
    · rw [pastBlanks_dropWhile]
      exact List.dropWhile_idempotent _ _
    · obtain ⟨tail, ht⟩ := hc
      rw [opening_of_slash ht.symm] at ho
      split at ho <;> cases ho
  | case2 p ho => cases h
  | case3 p c q ho cs r unclosed hq ih =>
    rw [hq] at ih
    exact ih h

end Place

theorem Stops.append {c : Char} {rest : List Char} (h : Stops (c :: rest)) (more : List Char)
    (hc : rest = [] → c ≠ '/') : Stops (c :: rest ++ more) := by
  refine ⟨pastBlank_cons h.solid_head, fun hp => ?_⟩
  obtain ⟨tail, ht⟩ := hp
  cases rest with
  | nil => exact hc rfl (List.cons.inj ht).1.symm
  | cons d rest =>
    simp only [List.cons_append, List.nil_append, List.cons.injEq] at ht
    exact h.uncommented ⟨rest, by rw [← ht.1, ← ht.2.1]; rfl⟩

namespace Url

/-- Takes `url` and what may stand before the parenthesis. -/
def readWord : Read Unit := do
  Read.skip 3
  discard Read.gap

theorem outcome_opens (r : Reader) :
    opens.outcome r =
      if r.place.comesAnyCase "url" then
        match readWord.outcome r with
        | (.error e, s) => (.error e, s)
        | (.ok _, s) =>
          if s.place.comes "(" then (Read.skip 1 >>= fun _ => pure true).outcome s
          else (.ok false, { s with place := r.place })
      else (.ok false, r) := by
  rw [opens, readWord, Read.outcome_bind, Read.outcome_place, Read.following_ok]
  split
  · simp only [Read.outcome_bind]
    rcases (Read.skip 3).outcome r with ⟨e | u, t⟩
    · rfl
    · simp only [Read.following_ok, Read.outcome_bind]
      rcases (discard Read.gap).outcome t with ⟨e | u, s⟩
      · rfl
      · simp only [Read.following_ok, Read.outcome_bind, Read.outcome_place]
        split
        · rw [Read.outcome_bind]
        · rfl
  · rfl

theorem readWord_twin : g.Twin L final never id readWord readWord := (Twin.skip 3).bindIgnored .gapIgnored

/-- What a strict reading passes behind `url`. -/
theorem outcome_readWord_strict {r s : Reader} {u : Unit} (hl : r.settings.lenient = false)
    (ho : readWord.outcome r = (.ok u, s)) :
    ((r.place.forward r.settings.width 3).pastGap r.settings.width).2.2 = false ∧
      s.place = ((r.place.forward r.settings.width 3).pastGap r.settings.width).2.1 ∧ s.settings = r.settings := by
  rw [readWord, Read.outcome_bind, Read.skip, Read.outcome_move, Read.following_ok] at ho
  obtain ⟨cs, ho⟩ := Read.ok_of_discard ho
  rw [Read.outcome_gap] at ho
  dsimp only at ho
  split at ho
  · rw [hl, if_neg Bool.false_ne_true] at ho
    cases ho
  · next hu =>
    cases ho
    exact ⟨by simpa using hu, rfl, rfl⟩

theorem outcome_readWord_of_isGap {r : Reader} {texts : List String} {gap l : List Char} (hg : IsGap texts gap)
    (hl : Stops l) (hr : r.place.rest.drop 3 = gap ++ l) :
    ∃ s, readWord.outcome r = (.ok (), s) ∧ s.settings = r.settings ∧ s.place.rest = l := by
  have behind : (r.place.forward r.settings.width 3).rest = gap ++ l := by rw [Place.forward_rest, hr]
  obtain ⟨-, rest, flag⟩ := Place.pastGap_of_isGap hg hl behind
  rw [readWord, Read.outcome_bind, Read.skip, Read.outcome_move, Read.following_ok, Read.outcome_discard,
    Read.outcome_gap]
  dsimp only
  rw [flag, if_neg Bool.false_ne_true]
  exact ⟨_, rfl, rfl, rest⟩

/-- Lenient reading passes a gap behind `url`, or all that is left where a comment in it never ends. -/
theorem outcome_readWord_lenient {r : Reader} (hl : r.settings.lenient = true) :
    ∃ s, readWord.outcome r = (.ok (), s) ∧ s.settings = r.settings ∧
      (s.place.rest = [] ∨ ∃ texts gap, IsGap texts gap ∧ r.place.rest.drop 3 = gap ++ s.place.rest) := by
  obtain ⟨cs, s, ho⟩ := Read.gap_succeeds (r := { r with place := r.place.forward r.settings.width 3 }) hl
  have behind := Read.gap_of_ok ho
  rw [Place.forward_rest] at behind
  refine ⟨s, ?_, (gap_steadyWhole.kept ho).settings, behind⟩
  rw [readWord, Read.outcome_bind, Read.skip, Read.outcome_move, Read.following_ok, Read.outcome_discard, ho]
  rfl

/-- Where a strict reading finds no parenthesis behind `url`, none stands there in a longer text. -/
theorem outcome_readWord_loose {r r' s : Reader} {u : Unit} (hl : g.Loose) (hr : g.Readers r r')
    (hu : r.place.comesAnyCase "url" = true) (ho : readWord.outcome r = (.ok u, s))
    (hs : s.place.comes "(" = false) :
    ∃ s', readWord.outcome r' = (.ok (), s') ∧ s'.settings = r'.settings ∧ s'.place.comes "(" = false := by
  obtain ⟨flag, place, -⟩ := outcome_readWord_strict (hr.first ▸ hl.1) ho
  obtain ⟨gap, hg, hrest⟩ := Place.pastGap_isGap r.settings.width (r.place.forward r.settings.width 3)
  have stops := Place.pastGap_stops flag
  rw [← place] at hrest stops
  rw [Place.forward_rest] at hrest
  have word : (r.place.rest.take 3).map Char.toLower = "url".toList := Place.take_toLower_of_comesAnyCase (by decide) hu
  have three : 3 ≤ r.place.rest.length := by
    have length : (r.place.rest.take 3).length = 3 := by simpa using congrArg List.length word
    rw [List.length_take] at length
    omega
  have whole : r.place.rest.take 3 ++ (gap ++ s.place.rest) <:+ g.text := by
    rw [← hrest, List.take_append_drop, ← hr.places.text]
    exact r.place.rest_suffix_text
  have behind : r'.place.rest.drop 3 = gap ++ (s.place.rest ++ g.more) := by
    rw [hr.places.rest, List.drop_append_of_le_length three, hrest, List.append_assoc]
  cases hsr : s.place.rest with
  | nil =>
    rw [hsr, List.append_nil] at whole
    rw [hsr, List.nil_append] at behind
    obtain ⟨s', ho', settings, passed⟩ := outcome_readWord_lenient (hr.second ▸ hl.2.1)
    refine ⟨s', ho', settings, ?_⟩
    rw [Bool.eq_false_iff]
    intro call
    obtain ⟨-, rest, hrest'⟩ := Place.comes_iff.mp call
    rcases passed with ended | ⟨texts, gap', hg', hr'⟩
    · rw [ended] at hrest'
      cases hrest'
    · rw [behind, ← hrest'] at hr'
      obtain ⟨texts', more, isGap, parts⟩ := hg.goes_on hg' (c := '(') (by decide) (by decide) hr'
      exact hl.2.2.unaddressed _ _ _ _ _ _ word hg whole isGap parts
  | cons c rest =>
    rw [hsr] at stops whole
    have longer := stops.append g.more fun hnil hc => by
      rw [hnil, hc, ← List.append_assoc] at whole
      exact hl.2.2.uncommented _ _ _ word hg whole
    rw [hsr] at behind
    obtain ⟨s', ho', settings, hs'⟩ := outcome_readWord_of_isGap hg longer behind
    refine ⟨s', ho', settings, ?_⟩
    unfold Place.comes at hs ⊢
    rw [hsr] at hs
    rw [hs']
    exact hs

theorem opens_twin : g.Twin L final never id opens opens where
  keeps r _ := (opens_steady r rfl).1
  needs _ _ _ _ _ _ hs := hs.elim
  agrees hL r r' hl hr := by
    have agree := (readWord_twin : g.Twin True final never id readWord readWord).agrees trivial r r' hl hr
    have call (M : Prop) : g.Twin M final never id (Read.skip 1 >>= fun _ => pure true)
        (Read.skip 1 >>= fun _ => pure true) := (Twin.skip 1).bindIgnored (.pure fun _ => .refl _ _)
    have same := Pairing.comesAnyCase_eq hr.places hl (l := "url") (by decide)
    rw [outcome_opens, outcome_opens, same]
    split
    · next hu =>
      rcases ho : readWord.outcome r with ⟨e | u, s⟩
      · rw [ho] at agree
        exact agree.failing fun e' s' ho' => by rw [ho']
      · rw [ho] at agree
        have reads := (readWord_twin : g.Twin True final never id readWord readWord).reads hr.reads ho
        dsimp only
        by_cases hs : g.Live s.place
        · obtain ⟨u', s', ho', -, readers⟩ := agree (.inr hs)
          rw [ho']
          dsimp only
          rw [Pairing.comes_eq readers.places hs (by decide)]
          split
          · exact (call True).agrees trivial s s' hs readers
          · exact fun _ => ⟨_, _, rfl, .refl _ _, readers.first, readers.second, hr.places⟩
        · split
          · exact (call True).agree_of_not_live reads hs
          · next hc =>
            obtain ⟨s', ho', settings, hc'⟩ :=
              outcome_readWord_loose (Pairing.loose_of_not_live hs) hr hu ho (by simpa using hc)
            rw [ho']
            dsimp only
            rw [hc']
            exact fun _ => ⟨_, _, rfl, .refl _ _, reads.settings, settings.trans hr.second, hr.places⟩
    · exact fun _ => ⟨_, _, rfl, .refl _ _, hr⟩

/-- An address without its places. -/
def bare (u : Url) : Url := ⟨⟨u.address.text, none⟩, none⟩

theorem read_twin : g.Twin L final never bare Url.read Url.read := by
  refine Twin.here fun M p p' hm meet => opens_twin.bindSame fun call => .bindIgnored .gapIgnored ?_
  refine Quoted.read_twin.bind fun address address' alike => ?_
  have result (m : M) : g.Alike bare ⟨address, some p.position⟩ ⟨address', some p'.position⟩ :=
    ⟨fun he => by rw [alike.whole he, meet.position m he], by rw [bare, bare, alike.seen]⟩
  dsimp only
  refine Twin.ite (fun _ => Iff.rfl) (fun _ => ?_) fun _ => .pure result
  exact .bindIgnored .gapIgnored (.bindIgnored (.token (by decide)) (.pure result))

end Url

namespace Value

theorem bareChannels_hexChannels (p q : Position) (ds : List Char) :
    bareChannels (hexChannels q ds) = bareChannels (hexChannels p ds) := by
  unfold hexChannels
  split
  · rfl
  · rfl
  · rfl

theorem readHex_twin : g.Twin L final never Value.bare readHex readHex := by
  refine Twin.here fun M p p' hm meet => .bindIgnored (.token (by decide)) ?_
  refine (Twin.identifier false).bindSame fun digits => ?_
  refine Twin.orThrow (fun _ => Iff.rfl) rfl .token fun _ => ?_
  refine Twin.orThrow (fun _ => Iff.rfl) rfl .token fun _ => ?_
  refine .pure fun m => ⟨fun he => by rw [meet.position m he], ?_⟩
  rw [bare, bare, bareChannels_hexChannels p.position]

/-- A range that leaves a brace to come is not changed by what stands behind. -/
theorem rangeChars_append {rest : List Char} (more : List Char) (limit size : Nat)
    (h : '\x7d' ∈ rest.drop (rangeChars limit size rest).length) :
    rangeChars limit size (rest ++ more) = rangeChars limit size rest := by
  induction rest generalizing limit size with
  | nil => cases h
  | cons c rest ih =>
    cases rest with
    | nil =>
      simp only [rangeChars] at h
      cases h
    | cons d rest =>
      simp only [List.cons_append] at ih ⊢
      rw [rangeChars] at h
      rw [rangeChars, rangeChars]
      generalize (if c = '-' then 13 else limit) = limit at h ⊢
      by_cases hd : (decide (size + c.utf8Size < limit) &&
          (isHexDigit d || decide (d = '?') || decide (d = '-'))) = true
      · rw [if_pos hd] at h
        rw [if_pos hd, if_pos hd, ih _ _ h]
      · rw [if_neg hd, if_neg hd]

/-- Takes the characters of a range. -/
def readRangeChars : Read Value := do
  let p ← Read.place
  if p.atEnd then throw (.unexpectedEnd "1 characters" p.location)
  let range := rangeChars 6 0 p.rest
  Read.skip range.length
  return .keyword ("U+" ++ String.ofList range)

theorem outcome_readRangeChars (r : Reader) :
    readRangeChars.outcome r =
      if r.place.atEnd then (.error (.unexpectedEnd "1 characters" r.place.location), r)
      else (.ok (.keyword ("U+" ++ String.ofList (rangeChars 6 0 r.place.rest))),
        { r with place := r.place.forward r.settings.width (rangeChars 6 0 r.place.rest).length }) := by
  rw [readRangeChars, Read.outcome_bind, Read.outcome_place, Read.following_ok]
  split
  · rfl
  · rw [Read.outcome_bind, Read.skip, Read.outcome_move]
    rfl

theorem readRangeChars_twin : g.Twin L final never Value.bare readRangeChars readRangeChars where
  keeps r _ := by
    have steady : SteadyPart r.place.text readRangeChars :=
      Read.Steady.here fun p _ => Read.Steady.orThrow rfl ((Read.Steady.skip _).bind fun _ => .pure _)
    exact (steady r rfl).1
  needs _ _ _ _ _ _ hs := hs.elim
  agrees _ r r' hl hr := by
    rw [outcome_readRangeChars, outcome_readRangeChars, Pairing.atEnd_eq hr.places hl]
    split
    · exact .inr fun _ => ⟨_, _, rfl, .ending, hr⟩
    · intro hq
      have live := hq.resolve_left id
      have same : rangeChars 6 0 r'.place.rest = rangeChars 6 0 r.place.rest := by
        rw [hr.places.rest]
        rcases live with hm | hm
        · rw [hm, List.append_nil]
        · rw [Place.forward_rest] at hm
          exact rangeChars_append _ 6 0 hm
      refine ⟨_, _, rfl, .of_eq _ (by rw [same]), hr.first, hr.second, ?_⟩
      rw [same, hr.first, hr.second]
      rw [hr.first] at live
      exact hr.places.forward live.of_forward

theorem readRange_twin : g.Twin L final never Value.bare readRange readRange :=
  .bindIgnored (.token (by decide)) readRangeChars_twin

end Value

end Stylesheet
