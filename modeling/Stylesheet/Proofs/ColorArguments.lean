import Stylesheet.Proofs.ChannelRoundTrip
import Stylesheet.Proofs.Spacing

namespace Stylesheet

open Read (Takes Fails)

namespace Value

/-- The color state behind the first channel, which settles whether commas part the channels. -/
def ColorState.settle (s : ColorState) (first comma : Bool) : ColorState :=
  if first && !s.hasNone then { s with classic := comma } else s

theorem ColorState.hasVariable_settle (s : ColorState) (first comma : Bool) :
    (s.settle first comma).hasVariable = s.hasVariable := by
  unfold settle
  split
  · rfl
  · rfl

variable {f : Layout} {n : Nat} {v w : Value} {vs : List Value} {l m : List Char} {s : ColorState} {keys : List Char}

section Between

theorem takes_comma (classic : s.classic = true) (more : keys ≠ []) :
    Takes (',' :: l) l (readBetween keys s) fun _ => True := by
  unfold readBetween
  rw [if_pos classic, if_pos (by simpa using more)]
  exact (Takes.char rfl).discard

theorem takes_slash (modern : s.classic = false) (variableless : s.hasVariable = false) (opacity : keys.head? = some 'a') :
    Takes ('/' :: l) l (readBetween keys s) fun _ => True := by
  unfold readBetween
  rw [modern, variableless, if_neg Bool.false_ne_true, if_neg Bool.false_ne_true, if_pos opacity]
  exact (Takes.char rfl).discard

/-- Nothing is asked for before other channels in modern notation, and nothing behind the last one. -/
theorem takes_nothing (modern : s.classic = true → keys = []) (variableless : s.hasVariable = false)
    (solid : keys.head? ≠ some 'a') : Takes l l (readBetween keys s) fun _ => True := by
  unfold readBetween
  rw [variableless, if_neg Bool.false_ne_true, if_neg solid]
  split
  · next classic =>
    rw [modern classic]
    exact .pure trivial
  · exact .pure trivial

/-- The opacity is behind a slash in modern notation. -/
theorem fails_slash {c : Char} (hc : c ≠ '/') (modern : s.classic = false) (variableless : s.hasVariable = false)
    (opacity : keys.head? = some 'a') : Fails (c :: l) (readBetween keys s) := by
  unfold readBetween
  rw [modern, variableless, if_neg Bool.false_ne_true, if_neg Bool.false_ne_true, if_pos opacity]
  refine Fails.discard fun r hr => ?_
  rw [Read.outcome_literal, Place.comes_of_head hr rfl (Ne.symm hc)]
  exact ⟨_, _, rfl⟩

end Between

variable {word : Read Value} {optional first : Bool} {good : List Value × ColorState → Prop}

/-- Where the color is not closed, more channels are read behind what stands between them. -/
theorem outcome_readOthers {c : Char} {rest : List Char} {r : Reader} (hr : r.place.rest = c :: rest) (hc : c ≠ ')') :
    (readOthers word optional first keys v s).outcome r = (do
      readBetween keys (s.settle first (c == ','))
      let (vs, t) ← readChannels word optional false (s.settle first (c == ',')) keys
      return (v :: vs, t)).outcome r := by
  have unclosed : r.place.comes ")" = false := Place.comes_of_head hr rfl (Ne.symm hc)
  have comma : r.place.comes "," = (c == ',') := by
    by_cases same : c = ','
    · subst same
      exact Place.comes_char hr rfl
    · rw [Place.comes_of_head hr rfl (Ne.symm same), beq_eq_false_iff_ne.mpr same]
  rw [readOthers, Read.outcome_bind, Read.outcome_place, Read.following_ok, unclosed, comma, Bool.and_false,
    if_neg Bool.false_ne_true]
  rfl

theorem takes_others {c : Char} {rest k : List Char} (hc : c ≠ ')')
    (between : Takes (c :: rest) m (readBetween keys (s.settle first (c == ','))) fun _ => True)
    (more : Takes m k (readChannels word optional false (s.settle first (c == ',')) keys) good) :
    Takes (c :: rest) k (readOthers word optional first keys v s) fun a => ∃ vs, a.1 = v :: vs ∧ good (vs, a.2) := by
  intro r hr
  rw [outcome_readOthers hr hc]
  exact (between.bind fun _ _ => more.bind fun a ha => .pure ⟨a.1, rfl, ha⟩) r hr

theorem fails_others {c : Char} {rest : List Char} (hc : c ≠ ')')
    (fails : Fails (c :: rest) (do
      readBetween keys (s.settle first (c == ','))
      let (vs, t) ← readChannels word optional false (s.settle first (c == ',')) keys
      return (v :: vs, t))) : Fails (c :: rest) (readOthers word optional first keys v s) := by
  intro r hr
  rw [outcome_readOthers hr hc]
  exact fails r hr

/-- Where nothing has to follow, the color is closed. -/
theorem takes_last {after : Bool} (enough : IsChannels optional keys s.hasVariable after []) :
    Takes (')' :: l) (')' :: l) (readOthers word optional first keys v s)
      fun a => a.1 = [v] ∧ a.2.hasVariable = s.hasVariable := by
  refine Takes.here fun p hp => ?_
  rw [Place.comes_char (t := ")") hp rfl, Bool.and_true]
  split
  · exact .pure ⟨rfl, rfl⟩
  · next lacking =>
    rw [Bool.or_eq_true, Bool.and_eq_true, decide_eq_true_eq, not_or] at lacking
    have all : keys = [] := by
      rcases enough.enough with all | varies | last
      · exact List.length_eq_zero_iff.mp all.symm
      · rw [enough.known, List.any_nil, Bool.or_false] at varies
        exact absurd varies lacking.1
      · exact absurd last lacking.2
    subst all
    refine (takes_nothing (fun _ => rfl) ?_ (by simp)).bind fun _ _ => ?_
    · have settled := ColorState.hasVariable_settle s first (p.comes ",")
      unfold ColorState.settle at settled
      exact settled.trans (Bool.eq_false_iff.mpr lacking.1)
    · exact .pure ⟨rfl, ColorState.hasVariable_settle s first (p.comes ",")⟩

theorem IsChannels.tail {key : Char} {before after : Bool}
    (h : IsChannels optional (key :: keys) before after (v :: vs)) :
    IsChannels optional keys (before || v.isVariable) after vs := by
  have fewer := h.fewer
  have enough := h.enough
  rw [List.length_cons, List.length_cons] at fewer enough
  refine ⟨fun u hu => h.channels u (List.mem_cons_of_mem v hu), by omega, ?_, ?_⟩
  · rcases enough with all | variable' | ⟨opt, last⟩
    · exact .inl (by omega)
    · exact .inr (.inl variable')
    · exact .inr (.inr ⟨opt, by omega⟩)
  · rw [h.known, List.any_cons, Bool.or_assoc]

/-- A channel is taken again, and what stands behind it up to the parenthesis. -/
theorem takes_channels {b tail : List Char} {key : Char} (hb : b.all Text.isBlank = true) (h : IsLasting f v)
    (hs : v.isMissing = true → s.classic = false) (ends : EndsChannel tail) (stops : Stops (pastBlank tail))
    (length : ((v.toCss f).toList ++ tail).length ≤ n)
    (others : ∀ w, SameChannel f v w →
      Takes (pastBlank tail) m (readOthers (wordIn n) optional first keys w (stepChannel s v)) good) :
    Takes (b ++ ((v.toCss f).toList ++ tail)) m (readChannels (wordIn n) optional first s (key :: keys)) good := by
  rw [readChannels_cons]
  refine (Takes.gap (.ofBlanks hb) (h.stops tail)).discard.bind fun _ _ => (takes_channel h hs ends length).bind fun a ha => ?_
  obtain ⟨w, t⟩ := a
  obtain ⟨same, rfl⟩ := ha
  exact (Takes.blanks stops).discard.bind fun _ _ => others w same

theorem fails_channels {b tail : List Char} {key : Char} (hb : b.all Text.isBlank = true) (h : IsLasting f v)
    (hs : v.isMissing = true → s.classic = false) (ends : EndsChannel tail) (stops : Stops (pastBlank tail))
    (length : ((v.toCss f).toList ++ tail).length ≤ n)
    (others : ∀ w, Fails (pastBlank tail) (readOthers (wordIn n) optional first keys w (stepChannel s v))) :
    Fails (b ++ ((v.toCss f).toList ++ tail)) (readChannels (wordIn n) optional first s (key :: keys)) := by
  rw [readChannels_cons]
  refine (Takes.gap (.ofBlanks hb) (h.stops tail)).discard.fails fun _ _ => (takes_channel h hs ends length).fails fun a ha => ?_
  obtain ⟨w, t⟩ := a
  obtain ⟨-, rfl⟩ := ha
  exact (Takes.blanks stops).discard.fails fun _ _ => others w

/-- Channels behind commas, up to the parenthesis that closes them. -/
def classicTail (f : Layout) (l : List Char) : List Value → List Char
  | [] => ')' :: l
  | v :: vs => (f.around .comma).toList ++ ((v.toCss f).toList ++ classicTail f l vs)

/-- Values with commas between them. -/
theorem text_classic (f : Layout) (v : Value) (vs : List Value) :
    (String.intercalate (f.around .comma) (texts f (v :: vs))).toList ++ ')' :: l =
      (v.toCss f).toList ++ classicTail f l vs := by
  have tail : (texts f vs).flatMap (fun t => (f.around .comma).toList ++ t.toList) ++ ')' :: l = classicTail f l vs := by
    induction vs with
    | nil => rfl
    | cons v vs ih => rw [texts, List.flatMap_cons, List.append_assoc, ih, classicTail, List.append_assoc]
  rw [texts, toList_intercalate_cons, List.append_assoc, tail]

theorem endsChannel_classicTail (hf : f.IsBlankInValues) (vs : List Value) : EndsChannel (classicTail f l vs) := by
  intro c rest hc
  cases vs with
  | nil =>
    cases hc
    exact .inr (.inr rfl)
  | cons v vs =>
    obtain ⟨b, d, text, hb, -⟩ := Layout.around_eq hf .comma
    rw [classicTail, text] at hc
    cases b with
    | nil =>
      cases hc
      exact .inr (.inl rfl)
    | cons e b =>
      cases hc
      exact .inl (List.all_eq_true.mp hb c List.mem_cons_self)

/-- Behind the blanks stands a comma, with blanks and the next channel behind it. -/
theorem pastBlank_classicTail (hf : f.IsBlankInValues) (v : Value) (vs : List Value) :
    ∃ d, d.all Text.isBlank = true ∧
      pastBlank (classicTail f l (v :: vs)) = ',' :: (d ++ ((v.toCss f).toList ++ classicTail f l vs)) := by
  obtain ⟨b, d, text, hb, hd⟩ := Layout.around_eq hf .comma
  refine ⟨d, all_isBlank hd, ?_⟩
  rw [classicTail, text, List.append_assoc, pastBlank_append (all_isBlank hb), List.append_assoc]
  exact pastBlank_cons rfl

theorem stops_classicTail (hf : f.IsBlankInValues) (vs : List Value) : Stops (pastBlank (classicTail f l vs)) := by
  cases vs with
  | nil => exact .cons rfl (by decide)
  | cons v vs =>
    obtain ⟨d, -, text⟩ := pastBlank_classicTail hf v vs
    rw [text]
    exact .cons rfl (by decide)

theorem length_classicTail (f : Layout) (v : Value) (vs : List Value) :
    ((v.toCss f).toList ++ classicTail f l vs).length ≤ (classicTail f l (v :: vs)).length := by
  rw [classicTail, List.length_append, List.length_append, List.length_append]
  omega

theorem classic_stepChannel (s : ColorState) (v : Value) : (stepChannel s v).classic = s.classic := by
  unfold stepChannel
  split
  · rfl
  · split
    · rfl
    · rfl

/-- Channels of which none is missing are taken again behind commas. -/
theorem takes_classicTail (hf : f.IsBlankInValues) {after : Bool}
    (channels : IsChannels optional keys s.hasVariable after vs) (lasting : ∀ v ∈ vs, IsLasting f v)
    (present : ∀ v ∈ vs, v.isMissing = false) (classic : vs ≠ [] → (s.settle first true).classic = true)
    (length : (classicTail f l vs).length ≤ n) :
    Takes (pastBlank (classicTail f l vs)) (')' :: l) (readOthers (wordIn n) optional first keys w s) fun a =>
      ∃ ws, a.1 = w :: ws ∧ List.Forall₂ (SameChannel f) vs ws ∧ a.2.hasVariable = after := by
  induction vs generalizing keys s first w with
  | nil =>
    refine (takes_last channels).mono fun a ha => ⟨[], ha.1, .nil, ?_⟩
    rw [ha.2, channels.known, List.any_nil, Bool.or_false]
  | cons v vs ih =>
    cases keys with
    | nil => exact absurd channels.fewer (by simp)
    | cons key keys =>
      have settled := classic (List.cons_ne_nil v vs)
      have solid : v.isMissing = true → (s.settle first true).classic = false := by
        rw [present v List.mem_cons_self]
        nofun
      have fits := (length_classicTail f v vs).trans length
      have others (u : Value) (same : SameChannel f v u) :
          Takes (pastBlank (classicTail f l vs)) (')' :: l)
            (readOthers (wordIn n) optional false keys u (stepChannel (s.settle first true) v))
            fun a => List.Forall₂ (SameChannel f) (v :: vs) a.1 ∧ a.2.hasVariable = after := by
        have rest := channels.tail
        rw [← ColorState.hasVariable_settle s first true, ← hasVariable_stepChannel] at rest
        have classic' : ((stepChannel (s.settle first true) v).settle false true).classic = true :=
          (classic_stepChannel _ v).trans settled
        refine (ih rest (fun w hw => lasting w (List.mem_cons_of_mem v hw))
          (fun w hw => present w (List.mem_cons_of_mem v hw)) (fun _ => classic') ?_).mono ?_
        · rw [List.length_append] at fits
          omega
        · rintro ⟨us, t⟩ ⟨ws, rfl, all, variable'⟩
          exact ⟨.cons same all, variable'⟩
      obtain ⟨d, hd, text⟩ := pastBlank_classicTail hf v vs
      rw [text]
      refine (takes_others (by decide) (takes_comma settled (List.cons_ne_nil key keys))
        (takes_channels hd (lasting v List.mem_cons_self) solid (endsChannel_classicTail hf vs)
          (stops_classicTail hf vs) fits others)).mono ?_
      rintro ⟨us, t⟩ ⟨ws, rfl, all, variable'⟩
      exact ⟨ws, rfl, all, variable'⟩

/-- Behind a comma no missing channel is taken. -/
theorem fails_classicTail (hf : f.IsBlankInValues) (fewer : vs.length ≤ keys.length)
    (lasting : ∀ v ∈ vs, IsLasting f v) (missing : ∃ v ∈ vs, v.isMissing = true)
    (classic : (s.settle first true).classic = true) (length : (classicTail f l vs).length ≤ n) :
    Fails (pastBlank (classicTail f l vs)) (readOthers (wordIn n) optional first keys w s) := by
  induction vs generalizing keys s first w with
  | nil => exact absurd missing (by simp)
  | cons v vs ih =>
    cases keys with
    | nil => exact absurd fewer (by simp)
    | cons key keys =>
      obtain ⟨d, hd, text⟩ := pastBlank_classicTail hf v vs
      rw [text]
      refine fails_others (by decide) ((takes_comma classic (List.cons_ne_nil key keys)).fails fun _ _ => .first ?_)
      have last := lasting v List.mem_cons_self
      by_cases here : v.isMissing = true
      · have begins := last.stops (classicTail f l vs)
        rw [readChannels_cons]
        exact (Takes.gap (.ofBlanks hd) begins).discard.fails fun _ _ => (fails_missing here classic _).first
      · have fits := (length_classicTail f v vs).trans length
        have settled : ((stepChannel (s.settle first true) v).settle false true).classic = true :=
          (classic_stepChannel _ v).trans classic
        have behind : ∃ v ∈ vs, v.isMissing = true := by
          obtain ⟨u, hu, missing⟩ := missing
          rcases List.mem_cons.mp hu with rfl | hu
          · exact absurd missing here
          · exact ⟨u, hu, missing⟩
        refine fails_channels hd last (fun missing => absurd missing here) (endsChannel_classicTail hf vs)
          (stops_classicTail hf vs) fits fun u => ?_
        refine ih (by simpa using fewer) (fun w hw => lasting w (List.mem_cons_of_mem v hw)) behind settled ?_
        rw [List.length_append] at fits
        omega

/-- Channels with commas between them are taken again, unless one is missing beside another. -/
theorem takes_classic (hf : f.IsBlankInValues) {after : Bool} {key : Char}
    (channels : IsChannels optional (key :: keys) false after (v :: vs)) (lasting : ∀ w ∈ v :: vs, IsLasting f w)
    (fits : vs = [] ∨ ∀ w ∈ v :: vs, w.isMissing = false)
    (length : ((v.toCss f).toList ++ classicTail f l vs).length ≤ n) :
    Takes ((v.toCss f).toList ++ classicTail f l vs) (')' :: l) (readChannels (wordIn n) optional true {} (key :: keys))
      fun a => List.Forall₂ (SameChannel f) (v :: vs) a.1 ∧ a.2.hasVariable = after := by
  refine takes_channels (b := []) rfl (lasting v List.mem_cons_self) (fun _ => rfl) (endsChannel_classicTail hf vs)
    (stops_classicTail hf vs) length fun u same => ?_
  have rest : IsChannels optional keys (stepChannel {} v).hasVariable after vs := by
    rw [hasVariable_stepChannel]
    exact channels.tail
  have present : ∀ w ∈ vs, w.isMissing = false := by
    rcases fits with rfl | present
    · simp
    · exact fun w hw => present w (List.mem_cons_of_mem v hw)
  have classic : vs ≠ [] → ((stepChannel {} v).settle true true).classic = true := by
    intro nonempty
    have here : v.isMissing = false := by
      rcases fits with empty | present
      · exact absurd empty nonempty
      · exact present v List.mem_cons_self
    unfold stepChannel
    rw [here]
    split
    · rfl
    · rfl
  refine (takes_classicTail hf rest (fun w hw => lasting w (List.mem_cons_of_mem v hw)) present classic ?_).mono ?_
  · rw [List.length_append] at length
    omega
  · rintro ⟨us, t⟩ ⟨ws, rfl, all, variable'⟩
    exact ⟨.cons same all, variable'⟩

theorem fails_classic (hf : f.IsBlankInValues) {key : Char} (fewer : vs.length ≤ keys.length)
    (lasting : ∀ w ∈ v :: vs, IsLasting f w) (more : vs ≠ []) (missing : ∃ w ∈ v :: vs, w.isMissing = true)
    (length : ((v.toCss f).toList ++ classicTail f l vs).length ≤ n) :
    Fails ((v.toCss f).toList ++ classicTail f l vs) (readChannels (wordIn n) optional true {} (key :: keys)) := by
  refine fails_channels (b := []) rfl (lasting v List.mem_cons_self) (fun _ => rfl) (endsChannel_classicTail hf vs)
    (stops_classicTail hf vs) length fun u => ?_
  by_cases here : v.isMissing = true
  · -- Behind a missing channel no comma is looked for, and no channel begins with one.
    obtain ⟨w, vs, rfl⟩ := List.exists_cons_of_ne_nil more
    obtain ⟨key', keys, rfl⟩ := List.exists_cons_of_length_pos (Nat.lt_of_lt_of_le (Nat.succ_pos _) fewer)
    obtain ⟨d, -, text⟩ := pastBlank_classicTail hf w vs
    have step : stepChannel {} v = { hasNone := true } := by
      rw [stepChannel, not_variable_of_missing here, if_neg Bool.false_ne_true, if_pos here]
    rw [text, step]
    refine fails_others (by decide) ?_
    by_cases opacity : (key' :: keys).head? = some 'a'
    · exact (fails_slash (by decide) rfl rfl opacity).first
    · refine (takes_nothing (fun classic => absurd classic (by decide)) rfl opacity).fails fun _ _ => .first ?_
      rw [readChannels_cons]
      exact (Takes.noGap (.cons rfl (by decide))).discard.fails fun _ _ => (fails_channel (by decide) _).first
  · have behind : ∃ w ∈ vs, w.isMissing = true := by
      obtain ⟨w, hw, missing⟩ := missing
      rcases List.mem_cons.mp hw with rfl | hw
      · exact absurd missing here
      · exact ⟨w, hw, missing⟩
    have settled : ((stepChannel {} v).settle true true).classic = true := by
      rw [Bool.not_eq_true] at here
      unfold stepChannel
      rw [here]
      split
      · rfl
      · rfl
    refine fails_classicTail hf fewer (fun w hw => lasting w (List.mem_cons_of_mem v hw)) behind settled ?_
    rw [List.length_append] at length
    omega

section Modern

variable {c : Channel Value} {cs : List (Channel Value)}

/-- Channels behind blanks, the opacity behind a slash if it comes last, up to the parenthesis. -/
def modernTail (f : Layout) (l : List Char) : List (Channel Value) → List Char
  | [] => ')' :: l
  | c :: cs =>
    (if c.key = 'a' && cs.isEmpty then " / ".toList else [' ']) ++ ((c.value.toCss f).toList ++ modernTail f l cs)

theorem endsChannel_modernTail (f : Layout) (cs : List (Channel Value)) : EndsChannel (modernTail f l cs) := by
  intro d rest hd
  cases cs with
  | nil =>
    cases hd
    exact .inr (.inr rfl)
  | cons c cs =>
    rw [modernTail] at hd
    split at hd
    · cases hd
      exact .inl rfl
    · cases hd
      exact .inl rfl

theorem pastBlank_modernTail (h : IsLasting f c.value) (cs : List (Channel Value)) :
    pastBlank (modernTail f l (c :: cs)) =
      (if c.key = 'a' && cs.isEmpty then ['/', ' '] else []) ++ ((c.value.toCss f).toList ++ modernTail f l cs) := by
  rw [modernTail]
  split
  · exact pastBlank_append (b := [' ']) rfl
  · rw [pastBlank_append rfl]
    exact (h.stops _).solid

theorem stops_modernTail (h : ∀ c ∈ cs, IsLasting f c.value) : Stops (pastBlank (modernTail f l cs)) := by
  cases cs with
  | nil => exact .cons rfl (by decide)
  | cons c cs =>
    rw [pastBlank_modernTail (h c List.mem_cons_self)]
    split
    · exact ⟨rfl, by simp⟩
    · exact (h c List.mem_cons_self).stops _

theorem length_modernTail (f : Layout) (c : Channel Value) (cs : List (Channel Value)) :
    ((c.value.toCss f).toList ++ modernTail f l cs).length ≤ (modernTail f l (c :: cs)).length := by
  rw [modernTail, List.length_append, List.length_append, List.length_append]
  omega

theorem modern_settle {d : Char} (first : Bool) (modern : s.classic = false) (hd : d ≠ ',') :
    (s.settle first (d == ',')).classic = false := by
  unfold ColorState.settle
  split
  · exact beq_eq_false_iff_ne.mpr hd
  · exact modern

/-- What stands before a channel in modern notation is taken, if a channel that stands for the opacity is the last
one. -/
theorem takes_modernBetween (first : Bool) (keys : List Char) (h : IsLasting f c.value)
    (solid : c.key = 'a' → cs = []) (modern : s.classic = false) (variableless : s.hasVariable = false) :
    ∃ d rest b, pastBlank (modernTail f l (c :: cs)) = d :: rest ∧ d ≠ ')' ∧ b.all Text.isBlank = true ∧
      (s.settle first (d == ',')).classic = false ∧
      Takes (d :: rest) (b ++ ((c.value.toCss f).toList ++ modernTail f l cs))
        (readBetween (c.key :: keys) (s.settle first (d == ','))) fun _ => True := by
  have unknown (comma : Bool) : (s.settle first comma).hasVariable = false :=
    (ColorState.hasVariable_settle s first comma).trans variableless
  rw [pastBlank_modernTail h]
  by_cases opacity : c.key = 'a'
  · rw [solid opacity, opacity]
    have settled : (s.settle first ('/' == ',')).classic = false := modern_settle first modern (by decide)
    exact ⟨'/', _, [' '], rfl, by decide, rfl, settled, takes_slash settled (unknown _) rfl⟩
  · obtain ⟨d, rest, text, start⟩ := h.head
    have comma : d ≠ ',' := ne_of_isChannelStart start (by decide)
    have settled := modern_settle first modern comma
    refine ⟨d, rest ++ modernTail f l cs, [], ?_, ne_of_isChannelStart start (by decide), rfl, settled, ?_⟩
    · simp [opacity, text]
    · rw [text]
      exact takes_nothing (fun classic => absurd classic (Bool.eq_false_iff.mp settled)) (unknown _) (by simpa using opacity)

/-- Channels without a variable, of which none but the last one stands for the opacity, are taken again behind
blanks. -/
theorem takes_modernTail (under : cs.map Channel.key <+: keys)
    (channels : IsChannels optional keys s.hasVariable false (cs.map Channel.value))
    (lasting : ∀ c ∈ cs, IsLasting f c.value) (solid : 'a' ∉ (cs.map Channel.key).dropLast)
    (modern : s.classic = false) (length : (modernTail f l cs).length ≤ n) :
    Takes (pastBlank (modernTail f l cs)) (')' :: l) (readOthers (wordIn n) optional first keys w s) fun a =>
      ∃ ws, a.1 = w :: ws ∧ List.Forall₂ (SameChannel f) (cs.map Channel.value) ws ∧ a.2.hasVariable = false := by
  induction cs generalizing keys s first w with
  | nil =>
    refine (takes_last channels).mono fun a ha => ⟨[], ha.1, .nil, ?_⟩
    rw [ha.2, channels.known, List.map_nil, List.any_nil, Bool.or_false]
  | cons c cs ih =>
    obtain ⟨keys, rfl⟩ := under
    have variableless : s.hasVariable = false := by
      have known := channels.known
      rw [eq_comm, Bool.or_eq_false_iff] at known
      exact known.1
    have last : c.key = 'a' → cs = [] := by
      intro opacity
      by_contra more
      refine solid ?_
      rw [List.map_cons, List.dropLast_cons_of_ne_nil (by simpa using more), opacity]
      exact List.mem_cons_self
    obtain ⟨d, rest, b, text, close, hb, settled, between⟩ :=
      takes_modernBetween first (cs.map Channel.key ++ keys) (lasting c List.mem_cons_self) last modern variableless
    have behind : ∀ c ∈ cs, IsLasting f c.value := fun e he => lasting e (List.mem_cons_of_mem c he)
    have fits := (length_modernTail f c cs).trans length
    have others (u : Value) (same : SameChannel f c.value u) :
        Takes (pastBlank (modernTail f l cs)) (')' :: l)
          (readOthers (wordIn n) optional false (cs.map Channel.key ++ keys) u
            (stepChannel (s.settle first (d == ',')) c.value))
          fun a => List.Forall₂ (SameChannel f) ((c :: cs).map Channel.value) a.1 ∧ a.2.hasVariable = false := by
      have more := channels.tail
      rw [← ColorState.hasVariable_settle s first (d == ','), ← hasVariable_stepChannel] at more
      refine (ih (List.prefix_append _ _) more behind ?_ ((classic_stepChannel _ c.value).trans settled) ?_).mono ?_
      · intro opacity
        refine solid ?_
        rw [List.map_cons, List.dropLast_cons_of_ne_nil (List.ne_nil_of_mem ((List.dropLast_sublist _).mem opacity))]
        exact List.mem_cons_of_mem _ opacity
      · rw [List.length_append] at fits
        omega
      · rintro ⟨us, t⟩ ⟨ws, rfl, all, variable'⟩
        exact ⟨.cons same all, variable'⟩
    rw [text]
    refine (takes_others close between (takes_channels hb (lasting c List.mem_cons_self) (fun _ => settled)
      (endsChannel_modernTail f cs) (stops_modernTail behind) fits others)).mono ?_
    rintro ⟨us, t⟩ ⟨ws, rfl, all, variable'⟩
    exact ⟨ws, rfl, all, variable'⟩

/-- Before a channel behind it the opacity is not taken. -/
theorem fails_modernTail (under : cs.map Channel.key <+: keys) (variableless : s.hasVariable = false)
    (words : ∀ c ∈ cs, c.value.isVariable = false) (lasting : ∀ c ∈ cs, IsLasting f c.value)
    (opacity : 'a' ∈ (cs.map Channel.key).dropLast) (modern : s.classic = false)
    (length : (modernTail f l cs).length ≤ n) :
    Fails (pastBlank (modernTail f l cs)) (readOthers (wordIn n) optional first keys w s) := by
  induction cs generalizing keys s first w with
  | nil => cases opacity
  | cons c cs ih =>
    obtain ⟨keys, rfl⟩ := under
    have more : cs.map Channel.key ≠ [] := by
      intro solid
      rw [List.map_cons, solid] at opacity
      cases opacity
    have unlast : cs.isEmpty = false := by simpa using more
    rw [List.map_cons, List.dropLast_cons_of_ne_nil more, List.mem_cons] at opacity
    obtain ⟨d, rest, text, start⟩ := (lasting c List.mem_cons_self).head
    have written : pastBlank (modernTail f l (c :: cs)) = d :: (rest ++ modernTail f l cs) := by
      rw [pastBlank_modernTail (lasting c List.mem_cons_self), unlast, Bool.and_false, text]
      rfl
    have unknown : (s.settle first (d == ',')).hasVariable = false :=
      (ColorState.hasVariable_settle s first (d == ',')).trans variableless
    have settled := modern_settle first modern (ne_of_isChannelStart start (show isChannelStart ',' = false by decide))
    rw [written]
    refine fails_others (ne_of_isChannelStart start (by decide)) ?_
    by_cases here : c.key = 'a'
    · have slash : d ≠ '/' := ne_of_isChannelStart start (by decide)
      exact (fails_slash slash settled unknown (by rw [List.map_cons, here]; rfl)).first
    · have behind := opacity.resolve_left fun same => here same.symm
      have fits := (length_modernTail f c cs).trans length
      have variableless' : (stepChannel (s.settle first (d == ',')) c.value).hasVariable = false := by
        rw [hasVariable_stepChannel, unknown, words c List.mem_cons_self]
        rfl
      have tail : ∀ e ∈ cs, IsLasting f e.value := fun e he => lasting e (List.mem_cons_of_mem c he)
      refine (takes_nothing (fun classic => absurd classic (Bool.eq_false_iff.mp settled)) unknown
        (by simpa using here)).fails fun _ _ => .first ?_
      rw [← List.cons_append, ← text]
      refine fails_channels (b := []) rfl (lasting c List.mem_cons_self) (fun _ => settled)
        (endsChannel_modernTail f cs) (stops_modernTail tail) fits fun u => ?_
      refine ih (List.prefix_append _ _) variableless' (fun e he => words e (List.mem_cons_of_mem c he)) tail behind
        ((classic_stepChannel _ c.value).trans settled) ?_
      rw [List.length_append] at fits
      omega

/-- The arguments in modern notation, up to the parenthesis. -/
def modernArguments (f : Layout) (l : List Char) (c : Channel Value) (cs : List (Channel Value)) : List Char :=
  (if c.key = 'a' && cs.isEmpty then " / ".toList else []) ++ ((c.value.toCss f).toList ++ modernTail f l cs)

theorem modernTail_concat (f : Layout) (cs : List (Channel Value)) (d : Channel Value) :
    modernTail f l (cs ++ [d]) = cs.flatMap (fun c => ' ' :: (c.value.toCss f).toList) ++
      ((if d.key = 'a' then " / ".toList else [' ']) ++ ((d.value.toCss f).toList ++ ')' :: l)) := by
  induction cs with
  | nil => simp [modernTail]
  | cons c cs ih => simp [modernTail, ih]

theorem textsOfChannels_eq_map (f : Layout) (cs : List (Channel Value)) :
    textsOfChannels f cs = cs.map fun c => c.value.toCss f := by
  induction cs with
  | nil => rfl
  | cons c cs ih => rw [textsOfChannels, ih, List.map_cons]

/-- Channels with blanks between them, and the opacity behind a slash. -/
theorem text_modern (f : Layout) (c : Channel Value) (cs : List (Channel Value)) :
    (Notation.modernText (c :: cs) (textsOfChannels f (c :: cs))).toList ++ ')' :: l = modernArguments f l c cs := by
  rw [textsOfChannels_eq_map]
  rcases List.eq_nil_or_concat cs with rfl | ⟨init, d, rfl⟩
  · by_cases opacity : c.key = 'a'
    · have last : [c].getLast? = some ⟨'a', c.value⟩ := by rw [← opacity]; rfl
      rw [Notation.modernText_of_opacity last rfl]
      simp [modernArguments, modernTail, opacity]
    · have other : ¬ ∃ v, [c].getLast? = some ⟨'a', v⟩ := by
        rintro ⟨v, last⟩
        cases last
        exact opacity rfl
      rw [Notation.modernText_of_not_opacity other, List.map_singleton, String.intercalate_singleton]
      simp [modernArguments, modernTail, opacity]
  · have last : (c :: (init ++ [d])).getLast? = some d := by
      rw [← List.cons_append, List.getLast?_concat]
    have plain : modernArguments f l c (init ++ [d]) = (c.value.toCss f).toList ++ modernTail f l (init ++ [d]) := by
      simp [modernArguments]
    have texts' : (c :: (init ++ [d])).map (fun e => e.value.toCss f) =
        (c.value.toCss f :: init.map fun e => e.value.toCss f) ++ [d.value.toCss f] := by simp
    rw [List.concat_eq_append, plain, modernTail_concat, texts']
    by_cases opacity : d.key = 'a'
    · have last' : (c :: (init ++ [d])).getLast? = some ⟨'a', d.value⟩ := by rw [last, ← opacity]
      rw [Notation.modernText_of_opacity last' List.getLast?_concat, List.dropLast_concat, if_pos opacity,
        String.toList_append, String.toList_append, toList_intercalate_cons, List.flatMap_map]
      simp
    · have other : ¬ ∃ v, (c :: (init ++ [d])).getLast? = some ⟨'a', v⟩ := by
        rintro ⟨v, last'⟩
        rw [last, Option.some.injEq] at last'
        exact opacity (by rw [last'])
      rw [Notation.modernText_of_not_opacity other, List.cons_append, toList_intercalate_cons, List.flatMap_append,
        List.flatMap_map, if_neg opacity]
      simp

/-- Channels in modern notation are taken again, if only one behind others stands for the opacity, and as the last
one. -/
theorem takes_modern {key : Char} (under : (c :: cs).map Channel.key <+: key :: keys)
    (channels : IsChannels optional (key :: keys) false false ((c :: cs).map Channel.value))
    (lasting : ∀ e ∈ c :: cs, IsLasting f e.value) (solid : 'a' ∉ (cs.map Channel.key).dropLast)
    (more : c.key = 'a' → cs ≠ []) (length : (modernArguments f l c cs).length ≤ n) :
    Takes (modernArguments f l c cs) (')' :: l) (readChannels (wordIn n) optional true {} (key :: keys))
      fun a => List.Forall₂ (SameChannel f) ((c :: cs).map Channel.value) a.1 ∧ a.2.hasVariable = false := by
  have plain : modernArguments f l c cs = (c.value.toCss f).toList ++ modernTail f l cs := by
    rw [modernArguments, if_neg]
    · rfl
    · rw [Bool.and_eq_true, decide_eq_true_eq, List.isEmpty_iff]
      exact fun alone => more alone.1 alone.2
  rw [plain] at length ⊢
  have behind : ∀ e ∈ cs, IsLasting f e.value := fun e he => lasting e (List.mem_cons_of_mem c he)
  refine takes_channels (b := []) rfl (lasting c List.mem_cons_self) (fun _ => rfl) (endsChannel_modernTail f cs)
    (stops_modernTail behind) length fun u same => ?_
  have rest : IsChannels optional keys (stepChannel {} c.value).hasVariable false (cs.map Channel.value) := by
    rw [hasVariable_stepChannel]
    exact channels.tail
  refine (takes_modernTail (List.cons_prefix_cons.mp under).2 rest behind solid (classic_stepChannel {} c.value) ?_).mono ?_
  · rw [List.length_append] at length
    omega
  · rintro ⟨us, t⟩ ⟨ws, rfl, all, variable'⟩
    exact ⟨.cons same all, variable'⟩

theorem fails_modern {key : Char} (under : (c :: cs).map Channel.key <+: key :: keys)
    (words : ∀ e ∈ c :: cs, e.value.isVariable = false) (lasting : ∀ e ∈ c :: cs, IsLasting f e.value)
    (opacity : 'a' ∈ (cs.map Channel.key).dropLast ∨ (c.key = 'a' ∧ cs = []))
    (length : (modernArguments f l c cs).length ≤ n) :
    Fails (modernArguments f l c cs) (readChannels (wordIn n) optional true {} (key :: keys)) := by
  rcases opacity with opacity | ⟨opacity, rfl⟩
  · have unlast : cs.isEmpty = false := by
      cases cs with
      | nil => cases opacity
      | cons => rfl
    have plain : modernArguments f l c cs = (c.value.toCss f).toList ++ modernTail f l cs := by
      rw [modernArguments, unlast, Bool.and_false]
      rfl
    rw [plain] at length ⊢
    have behind : ∀ e ∈ cs, IsLasting f e.value := fun e he => lasting e (List.mem_cons_of_mem c he)
    have variableless : (stepChannel {} c.value).hasVariable = false := by
      rw [hasVariable_stepChannel, words c List.mem_cons_self]
      rfl
    refine fails_channels (b := []) rfl (lasting c List.mem_cons_self) (fun _ => rfl) (endsChannel_modernTail f cs)
      (stops_modernTail behind) length fun u => ?_
    refine fails_modernTail (List.cons_prefix_cons.mp under).2 variableless
      (fun e he => words e (List.mem_cons_of_mem c he)) behind opacity (classic_stepChannel {} c.value) ?_
    rw [List.length_append] at length
    omega
  · have slash : modernArguments f l c [] = [' '] ++ '/' :: (' ' :: ((c.value.toCss f).toList ++ modernTail f l [])) := by
      rw [modernArguments, opacity]
      rfl
    rw [slash, readChannels_cons]
    exact (Takes.gap (.ofBlanks rfl) ⟨rfl, by simp⟩).discard.fails fun _ _ => (fails_channel (by decide) _).first

end Modern

end Value

end Stylesheet
