import Stylesheet.Proofs.ColorArguments

namespace Stylesheet

open Read (Takes Fails)

namespace Notation

theorem isHexDigit_hexDigit : ∀ n < 16, isHexDigit (hexDigit n) = true ∧ isNameChar (hexDigit n) = true := by decide

theorem ofHexDigits_hexDigit : ∀ n < 256, ofHexDigits [hexDigit (n / 16), hexDigit (n % 16)] = n := by decide +kernel

variable {r g b : Nat}

/-- Three channels are written with one digit each or with two. -/
theorem hashText_cases (r g b : Nat) :
    (hashText [r, g, b] = String.ofList ['#', hexDigit (r / 16), hexDigit (g / 16), hexDigit (b / 16)] ∧
        r / 16 = r % 16 ∧ g / 16 = g % 16 ∧ b / 16 = b % 16) ∨
      hashText [r, g, b] = String.ofList ['#', hexDigit (r / 16), hexDigit (r % 16), hexDigit (g / 16),
        hexDigit (g % 16), hexDigit (b / 16), hexDigit (b % 16)] := by
  unfold hashText
  split
  · next short =>
    simp only [List.all_cons, List.all_nil, Bool.and_true, Bool.and_eq_true, decide_eq_true_eq] at short
    exact .inl ⟨rfl, short⟩
  · exact .inr rfl

/-- Hexadecimal digits stand for the channels that they were written for. -/
theorem takes_hashText (hr : r < 256) (hg : g < 256) (hb : b < 256) {l : List Char} (hl : EndsName l) :
    Takes ((hashText [r, g, b]).toList ++ l) l Value.readHex fun v => ∃ p,
      v = .color [Value.hexChannel p 'r' (.ofNat r), Value.hexChannel p 'g' (.ofNat g),
        Value.hexChannel p 'b' (.ofNat b)] true (some p) := by
  obtain ⟨digits, text, hex, nonempty, pairs⟩ : ∃ digits, (hashText [r, g, b]).toList = '#' :: digits ∧
      (∀ d ∈ digits, isHexDigit d = true ∧ isNameChar d = true) ∧ digits ≠ [] ∧
      (if digits.length = 3 || digits.length = 4 then digits.flatMap fun d => [d, d] else digits) =
        [hexDigit (r / 16), hexDigit (r % 16), hexDigit (g / 16), hexDigit (g % 16), hexDigit (b / 16),
          hexDigit (b % 16)] := by
    have high (n : Nat) (hn : n < 256) := isHexDigit_hexDigit (n / 16) (by omega)
    have low (n : Nat) (hn : n < 256) := isHexDigit_hexDigit (n % 16) (by omega)
    rcases hashText_cases r g b with ⟨short, sameR, sameG, sameB⟩ | long
    · refine ⟨_, by rw [short, String.toList_ofList], ?_, List.cons_ne_nil _ _, ?_⟩
      · simp only [List.forall_mem_cons, List.not_mem_nil, false_implies, implies_true, and_true]
        exact ⟨high r hr, high g hg, high b hb⟩
      · rw [← sameR, ← sameG, ← sameB]
        rfl
    · refine ⟨_, by rw [long, String.toList_ofList], ?_, List.cons_ne_nil _ _, rfl⟩
      simp only [List.forall_mem_cons, List.not_mem_nil, false_implies, implies_true, and_true]
      exact ⟨high r hr, low r hr, high g hg, low g hg, high b hb, low b hb⟩
  rw [text]
  refine Takes.here fun p _ => (Takes.char rfl).discard.bind fun _ _ => ?_
  have name : digits.all isNameChar = true := List.all_eq_true.mpr fun d hd => (hex d hd).2
  refine (Takes.identifier false name nonempty hl).bind fun t ht => ?_
  have known : t.toList = digits := by rw [ht, if_neg Bool.false_ne_true, String.toList_ofList]
  have all : digits.all isHexDigit = true := List.all_eq_true.mpr fun d hd => (hex d hd).1
  dsimp only
  rw [known, all, pairs]
  refine Takes.passing (by simp) (Takes.passing (by simp) (.pure ⟨p.position, ?_⟩))
  simp only [Value.hexChannels, ofHexDigits_hexDigit r hr, ofHexDigits_hexDigit g hg, ofHexDigits_hexDigit b hb]

end Notation

namespace Value

variable {f : Layout} {v : Value} {name : String} {args : List Char} {good : List Value × ColorState → Prop}

/-- The text of a color is read as a whole, whatever ends it. -/
def IsReadAsColor (text : String) (good : Value → Prop) : Prop :=
  ∀ n l, EndsName l → (text.toList ++ l).length ≤ n → Takes (text.toList ++ l) l (readColor (wordIn n)) good

theorem IsReadAsColor.mono {text : String} {good good' : Value → Prop} (h : IsReadAsColor text good)
    (weaker : ∀ v, good v → good' v) : IsReadAsColor text good' :=
  fun n l hl length => (h n l hl length).mono weaker

theorem IsReadAsColor.takes {text : String} {good : Value → Prop} (h : IsReadAsColor text good) :
    Takes text.toList [] readColorHere good := by
  refine Takes.left.bind fun n hn => ?_
  have taken := h n [] nofun (by rw [List.append_nil, hn])
  rwa [List.append_nil] at taken

/-- A name is not taken for hexadecimal digits. -/
theorem not_hash_of_isSpelling {p : Place} {l : List Char} (spelling : IsSpelling name.toList) (nonempty : name ≠ "")
    (hp : p.rest = name.toList ++ l) : p.comes "#" = false := by
  obtain ⟨c, t, first⟩ := List.exists_cons_of_ne_nil (show name.toList ≠ [] by simpa using nonempty)
  have other : '#' ≠ c := by
    rintro rfl
    rw [first] at spelling
    cases spelling with
    | plain char => cases char
  exact Place.comes_of_head (hp.trans (by rw [first]; rfl)) rfl other

/-- A color function is taken, if its arguments are. -/
theorem takes_colorFunction (spelling : IsSpelling name.toList) (lowered : Text.lower name = name)
    (nonempty : name ≠ "") (unbroken : Unbroken name) {n : Nat} {l : List Char} (arguments : Takes args (')' :: l)
      (readChannels (wordIn n) (isOptional name) true {} (colorKeys name)) good) :
    Takes (name.toList ++ '(' :: args) l (readColor (wordIn n)) fun w => ∃ vs t, good (vs, t) ∧ ∃ p,
      w = if t.hasVariable then .function name vs .comma p
        else .color (List.zipWith Channel.mk (colorKeys name) vs) t.classic p := by
  refine Takes.here fun p hp => ?_
  rw [not_hash_of_isSpelling spelling nonempty hp, if_neg Bool.false_ne_true]
  refine Takes.here fun q _ => ?_
  refine (Takes.spelled spelling (fun _ => lowered) nonempty unbroken (.cons rfl (by decide))).bind fun t same => ?_
  refine (Takes.noGap (.cons rfl (by decide))).discard.bind fun _ _ => (Takes.char rfl).discard.bind fun _ _ => ?_
  subst same
  refine arguments.bind fun a ha => (Takes.char rfl).discard.bind fun _ _ => ?_
  obtain ⟨vs, s⟩ := a
  dsimp only
  split
  · next variable' => exact .pure ⟨vs, s, ha, _, by rw [if_pos variable']⟩
  · next constant =>
    refine .pure ⟨vs, s, ha, some q.position, ?_⟩
    rw [if_neg constant]
    rfl

theorem fails_colorFunction (spelling : IsSpelling name.toList) (lowered : Text.lower name = name)
    (nonempty : name ≠ "") (unbroken : Unbroken name)
    (arguments : Fails args
      (readChannels (wordIn (name.toList ++ '(' :: args).length) (isOptional name) true {} (colorKeys name))) :
    Fails (name.toList ++ '(' :: args) readColorHere := by
  refine Takes.left.fails fun n hn => Fails.here fun p hp => ?_
  rw [not_hash_of_isSpelling spelling nonempty hp, if_neg Bool.false_ne_true]
  refine Fails.here fun q _ => ?_
  refine (Takes.spelled spelling (fun _ => lowered) nonempty unbroken (.cons rfl (by decide))).fails fun t same => ?_
  refine (Takes.noGap (.cons rfl (by decide))).discard.fails fun _ _ => (Takes.char rfl).discard.fails fun _ _ => ?_
  subst hn same
  exact arguments.first

theorem length_arguments : args.length ≤ (name.toList ++ '(' :: args).length := by
  rw [List.length_append, List.length_cons]
  omega

theorem texts_of_same {vs ws : List Value} (same : List.Forall₂ (SameChannel f) vs ws) : texts f ws = texts f vs := by
  induction same with
  | nil => rfl
  | cons first _ ih => rw [texts, texts, first.text, ih]

/-- Channels under the same keys that are the same but for places are written as the same color. -/
theorem toCss_of_same {cs : List (Channel Value)} {ws : List Value} {keys : List Char}
    (under : cs.map Channel.key <+: keys) (words : ∀ c ∈ cs, c.value.isVariable = false)
    (same : List.Forall₂ (SameChannel f) (cs.map Channel.value) ws) (classic classic' : Bool) (p q : Option Position) :
    (Value.color (List.zipWith Channel.mk keys ws) classic p).toCss f = (Value.color cs classic' q).toCss f := by
  have bare : bareChannels (List.zipWith Channel.mk keys ws) = bareChannels cs := by
    induction cs generalizing keys ws with
    | nil =>
      cases same
      rw [List.zipWith_nil_right]
    | cons c cs ih =>
      obtain ⟨keys, rfl⟩ := under
      cases same with
      | cons first rest =>
        rw [List.map_cons, List.cons_append, List.zipWith_cons_cons, bareChannels, bareChannels,
          first.bare (words c List.mem_cons_self),
          ih (List.prefix_append _ _) (fun e he => words e (List.mem_cons_of_mem c he)) rest]
  rw [toCss, toCss, ← textsOfChannels_bare, ← Notation.colorText_bare, bare, textsOfChannels_bare,
    Notation.colorText_bare]

end Value

/-- Whether the text of a color in a notation is read in that notation: between commas no channel is missing beside
another, and without them the opacity is the last channel, behind others, or the first one, before others. -/
def Notation.Admits (channels : List (Channel Value)) : Notation → Prop
  | hash => True
  | modern => 'a' ∉ (channels.map Channel.key).tail.dropLast ∧ channels.map Channel.key ≠ ['a']
  | classic => channels.length ≤ 1 ∨ ∀ c ∈ channels, c.value.isMissing = false

instance (channels : List (Channel Value)) (n : Notation) : Decidable (n.Admits channels) :=
  match n with
  | .hash => .isTrue trivial
  | .modern => inferInstanceAs (Decidable (_ ∧ _))
  | .classic => inferInstanceAs (Decidable (_ ∨ _))

namespace Value

variable {f : Layout} {v : Value}

/-- Whether the notation that a color is written in admits its channels. With a variable among them commas are
written. -/
def IsAdmitted (f : Layout) : Value → Prop
  | color cs _ _ => (Notation.ofChannels f cs).Admits cs
  | function _ args _ _ => ∀ v ∈ args, v.isMissing = false
  | _ => True

instance (f : Layout) (v : Value) : Decidable (v.IsAdmitted f) :=
  match v with
  | color cs _ _ => inferInstanceAs (Decidable ((Notation.ofChannels f cs).Admits cs))
  | function _ args _ _ => inferInstanceAs (Decidable (∀ v ∈ args, v.isMissing = false))
  | keyword _ | size _ | string _ | url _ | calculation .. | list .. | lineNames .. => .isTrue trivial

/-- The name that a color is written under. -/
def colorName : Value → String
  | color cs _ _ => Channel.name cs
  | function name _ _ _ => name
  | _ => ""

/-- The channels of a color without their keys. -/
def channelValues : Value → List Value
  | color cs _ _ => cs.map Channel.value
  | function _ args _ _ => args
  | _ => []

/-- What each part of a color needs to be read again by itself: line breaks end words, numbers are finite and what their
digits stand for, and of a call the same is written again. -/
structure IsLegible (f : Layout) (v : Value) : Prop where
  named : v.colorName ≠ ""
  name : Unbroken v.colorName
  number : ∀ z, .size z ∈ v.channelValues → z.magnitude.isFinite = true ∧
    Number.Binary64.read? z.magnitude.toText = some z.magnitude
  word : ∀ t, .keyword t ∈ v.channelValues → Unbroken t
  call : ∀ name args s p, .function name args s p ∈ v.channelValues → ReadsAgain f (.function name args s p)

theorem IsLegible.lasting (h : v.IsLegible f) {w : Value} (mem : w ∈ v.channelValues) (channel : IsChannel w) :
    IsLasting f w := by
  refine ⟨channel, fun z hz => h.number z (hz ▸ mem), fun t ht => h.word t (ht ▸ mem), fun name args s p hw => ?_⟩
  subst hw
  exact h.call name args s p mem

/-- What is written of a color is read as a color of which the same is written, or it is not read, as its notation
admits its channels or not. -/
def IsDecided (f : Layout) (v : Value) : Prop :=
  (v.IsAdmitted f ∧ IsReadAsColor (v.toCss f) fun w => w.toCss f = v.toCss f) ∨
    (¬ v.IsAdmitted f ∧ Fails (v.toCss f).toList readColorHere)

/-- Channels with commas between them, read as a color function. -/
theorem takes_or_fails_classic (hf : f.IsBlankInValues) {name : String} {vs : List Value} {after : Bool}
    (spelling : IsSpelling name.toList) (lowered : Text.lower name = name) (nonempty : name ≠ "")
    (unbroken : Unbroken name) (channels : IsChannels (isOptional name) (colorKeys name) false after (v :: vs))
    (lasting : ∀ w ∈ v :: vs, IsLasting f w) {text : String}
    (ht : text = name ++ "(" ++ String.intercalate (f.around .comma) (texts f (v :: vs)) ++ ")") :
    ((vs = [] ∨ ∀ w ∈ v :: vs, w.isMissing = false) ∧ IsReadAsColor text fun w => ∃ ws,
        List.Forall₂ (SameChannel f) (v :: vs) ws ∧ ∃ classic p, w = if after then .function name ws .comma p
          else .color (List.zipWith Channel.mk (colorKeys name) ws) classic p) ∨
      (¬ (vs = [] ∨ ∀ w ∈ v :: vs, w.isMissing = false) ∧ Fails text.toList readColorHere) := by
  have written (l : List Char) :
      text.toList ++ l = name.toList ++ '(' :: ((v.toCss f).toList ++ classicTail f l vs) := by
    rw [ht, ← text_classic]
    simp
  obtain ⟨key, keys, under⟩ := List.exists_cons_of_length_pos (Nat.lt_of_lt_of_le (Nat.succ_pos _) channels.fewer)
  by_cases fits : vs = [] ∨ ∀ w ∈ v :: vs, w.isMissing = false
  · refine .inl ⟨fits, fun n l _ length => ?_⟩
    have same : IsChannels (isOptional name) (key :: keys) false after (v :: vs) := under ▸ channels
    rw [written] at length ⊢
    have arguments := takes_classic hf same lasting fits (length_arguments.trans length)
    rw [← under] at arguments
    refine (takes_colorFunction spelling lowered nonempty unbroken arguments).mono ?_
    rintro w ⟨ws, t, ⟨same, known⟩, p, rfl⟩
    exact ⟨ws, same, t.classic, p, by rw [known]⟩
  · have whole := written []
    rw [List.append_nil] at whole
    rw [whole]
    refine .inr ⟨fits, fails_colorFunction spelling lowered nonempty unbroken ?_⟩
    rw [not_or] at fits
    have fewer := channels.fewer
    rw [under] at fewer ⊢
    exact fails_classic hf (by simpa using fewer) lasting fits.1
      (by simpa only [not_forall, exists_prop, Bool.not_eq_false] using fits.2) length_arguments

theorem isDecided_function (hf : f.IsBlankInValues) {name : String} {vs : List Value} {p : Option Position}
    (spelling : IsSpelling name.toList) (lowered : Text.lower name = name)
    (channels : IsChannels (isOptional name) (colorKeys name) false true vs)
    (legible : (function name vs .comma p).IsLegible f) : (function name vs .comma p).IsDecided f := by
  have variable' : ∃ w ∈ vs, w.isVariable = true := by
    have known := channels.known
    rwa [eq_comm, Bool.false_or, List.any_eq_true] at known
  obtain ⟨v, vs, rfl⟩ := List.exists_cons_of_ne_nil (List.ne_nil_of_mem variable'.choose_spec.1)
  have alone : (vs = [] ∨ ∀ w ∈ v :: vs, w.isMissing = false) ↔ ∀ w ∈ v :: vs, w.isMissing = false := by
    refine or_iff_right_of_imp fun empty => ?_
    subst empty
    obtain ⟨w, mem, var⟩ := variable'
    intro u hu
    rw [List.mem_singleton.mp hu, ← List.mem_singleton.mp mem, Bool.eq_false_iff]
    intro missing
    rw [not_variable_of_missing missing] at var
    cases var
  have written : (function name (v :: vs) .comma p).toCss f =
      name ++ "(" ++ String.intercalate (f.around .comma) (texts f (v :: vs)) ++ ")" := by rw [toCss]
  have parted := takes_or_fails_classic hf spelling lowered legible.named legible.name channels
    (fun w hw => legible.lasting hw (channels.channels w hw)) written
  rw [alone] at parted
  refine parted.imp (fun ⟨fits, taken⟩ => ⟨fits, taken.mono ?_⟩) id
  rintro w ⟨ws, same, classic, q, rfl⟩
  rw [if_pos rfl, toCss, toCss, texts_of_same same]

/-- Channels in modern notation, read as a color function. -/
theorem takes_or_fails_modern {c : Channel Value} {cs : List (Channel Value)}
    (spelling : IsSpelling (Channel.name (c :: cs)).toList)
    (lowered : Text.lower (Channel.name (c :: cs)) = Channel.name (c :: cs))
    (unbroken : Unbroken (Channel.name (c :: cs))) (channels : IsChannels (isOptional (Channel.name (c :: cs)))
      (colorKeys (Channel.name (c :: cs))) false false ((c :: cs).map Channel.value))
    (lasting : ∀ e ∈ c :: cs, IsLasting f e.value) {text : String} (ht : text =
      Channel.name (c :: cs) ++ "(" ++ Notation.modernText (c :: cs) (textsOfChannels f (c :: cs)) ++ ")") :
    (Notation.modern.Admits (c :: cs) ∧ IsReadAsColor text fun w => ∃ ws,
        List.Forall₂ (SameChannel f) ((c :: cs).map Channel.value) ws ∧ ∃ classic p,
          w = .color (List.zipWith Channel.mk (colorKeys (Channel.name (c :: cs))) ws) classic p) ∨
      (¬ Notation.modern.Admits (c :: cs) ∧ Fails text.toList readColorHere) := by
  have nonempty : Channel.name (c :: cs) ≠ "" := by
    intro empty
    have letters := congrArg String.toList empty
    rw [toList_name] at letters
    cases letters
  have starts := keys_of_name (c :: cs)
  generalize Channel.name (c :: cs) = name at *
  have written (l : List Char) : text.toList ++ l = name.toList ++ '(' :: modernArguments f l c cs := by
    rw [ht, ← text_modern]
    simp
  have words : ∀ e ∈ c :: cs, e.value.isVariable = false := fun e he =>
    channels.not_variable (List.mem_map_of_mem he)
  obtain ⟨key, keys, under⟩ := List.exists_cons_of_length_pos (Nat.lt_of_lt_of_le (Nat.succ_pos _) starts.length_le)
  by_cases fits : Notation.modern.Admits (c :: cs)
  · have more : c.key = 'a' → cs ≠ [] := by
      rintro opacity rfl
      exact fits.2 (by rw [List.map_singleton, opacity])
    have same : IsChannels (isOptional name) (key :: keys) false false ((c :: cs).map Channel.value) := under ▸ channels
    refine .inl ⟨fits, fun n l _ length => ?_⟩
    rw [written] at length ⊢
    have arguments := takes_modern (under ▸ starts) same lasting fits.1 more (length_arguments.trans length)
    rw [← under] at arguments
    refine (takes_colorFunction spelling lowered nonempty unbroken arguments).mono ?_
    rintro w ⟨ws, t, ⟨same, known⟩, p, rfl⟩
    exact ⟨ws, same, t.classic, p, by rw [known, if_neg Bool.false_ne_true]⟩
  · have opacity : 'a' ∈ (cs.map Channel.key).dropLast ∨ (c.key = 'a' ∧ cs = []) := by
      by_contra neither
      rw [not_or] at neither
      refine fits ⟨neither.1, fun alone => neither.2 ?_⟩
      rw [List.map_cons, List.cons.injEq, List.map_eq_nil_iff] at alone
      exact alone
    have whole := written []
    rw [List.append_nil] at whole
    rw [whole]
    refine .inr ⟨fits, fails_colorFunction spelling lowered nonempty unbroken ?_⟩
    rw [under] at starts ⊢
    exact fails_modern starts words lasting opacity length_arguments

/-- What is written in hexadecimal digits are three plain numbers for red, green and blue. -/
theorem hash_cases {cs : List (Channel Value)} (h : Notation.ofChannels f cs = .hash) :
    f.hashColors = true ∧ ∃ r g b : Size, cs = [⟨'r', .size r⟩, ⟨'g', .size g⟩, ⟨'b', .size b⟩] := by
  unfold Notation.ofChannels at h
  split at h
  · next known =>
    rw [Bool.and_eq_true, Bool.and_eq_true, decide_eq_true_eq, List.all_eq_true] at known
    obtain ⟨⟨liked, name⟩, plain⟩ := known
    have keys := toList_name cs
    rw [name] at keys
    have size (v : Value) (hv : v.isPlainNumber = true) : ∃ z, v = .size z := by
      cases v with
      | size z => exact ⟨z, rfl⟩
      | _ => cases hv
    match cs, keys, plain with
    | [⟨kr, r⟩, ⟨kg, g⟩, ⟨kb, b⟩], keys, plain =>
      obtain ⟨r, rfl⟩ := size r (plain ⟨kr, r⟩ (by simp))
      obtain ⟨g, rfl⟩ := size g (plain ⟨kg, g⟩ (by simp))
      obtain ⟨b, rfl⟩ := size b (plain ⟨kb, b⟩ (by simp))
      cases keys
      exact ⟨liked, r, g, b, rfl⟩
  · split at h
    · cases h
    · cases h

theorem toCss_of_hash {cs : List (Channel Value)} (h : Notation.ofChannels f cs = .hash) (classic : Bool)
    (p : Option Position) : (color cs classic p).toCss f =
      Notation.hashText (cs.filterMap fun c => c.value.size?.map fun z => z.magnitude.toChannel) := by
  rw [toCss, Notation.colorText, h]

theorem ofChannels_hexChannels (liked : f.hashColors = true) (p : Position) (r g b : Number.Binary64) :
    Notation.ofChannels f [hexChannel p 'r' r, hexChannel p 'g' g, hexChannel p 'b' b] = .hash := by
  have name : Channel.name [hexChannel p 'r' r, hexChannel p 'g' g, hexChannel p 'b' b] = "rgb" := rfl
  unfold Notation.ofChannels
  rw [liked, name]
  rfl

/-- A color in hexadecimal digits is read as the same digits. -/
theorem takes_hash {cs : List (Channel Value)} (h : Notation.ofChannels f cs = .hash) (classic : Bool)
    (p : Option Position) : IsReadAsColor ((color cs classic p).toCss f) fun w =>
      w.toCss f = (color cs classic p).toCss f := by
  rw [toCss_of_hash h]
  obtain ⟨liked, r, g, b, rfl⟩ := hash_cases h
  change IsReadAsColor (Notation.hashText [r.magnitude.toChannel, g.magnitude.toChannel, b.magnitude.toChannel])
    fun w => w.toCss f = Notation.hashText [r.magnitude.toChannel, g.magnitude.toChannel, b.magnitude.toChannel]
  intro n l hl _
  have digits :=
    Notation.takes_hashText r.magnitude.toChannel_lt g.magnitude.toChannel_lt b.magnitude.toChannel_lt hl
  refine Takes.here fun q hq => ?_
  have hash : q.comes "#" = true := by
    rcases Notation.hashText_cases r.magnitude.toChannel g.magnitude.toChannel b.magnitude.toChannel with short | long
    · rw [short.1, String.toList_ofList] at hq
      exact Place.comes_char hq rfl
    · rw [long, String.toList_ofList] at hq
      exact Place.comes_char hq rfl
  rw [if_pos hash]
  refine digits.mono ?_
  rintro w ⟨p', rfl⟩
  rw [toCss_of_hash (ofChannels_hexChannels liked p' _ _ _)]
  simp only [hexChannel, size?, List.filterMap_cons, List.filterMap_nil, Option.map_some,
    Number.Binary64.toChannel_ofNat (Number.Binary64.toChannel_lt _)]

theorem isDecided_color (hf : f.IsBlankInValues) {cs : List (Channel Value)} {classic : Bool} {p : Option Position}
    (spelling : IsSpelling (Channel.name cs).toList) (lowered : Text.lower (Channel.name cs) = Channel.name cs)
    (channels : IsChannels (isOptional (Channel.name cs)) (colorKeys (Channel.name cs)) false false
      (cs.map Channel.value))
    (legible : (color cs classic p).IsLegible f) : (color cs classic p).IsDecided f := by
  have lasting : ∀ w ∈ cs.map Channel.value, IsLasting f w := fun w hw => legible.lasting hw (channels.channels w hw)
  have words : ∀ e ∈ cs, e.value.isVariable = false := fun e he => channels.not_variable (List.mem_map_of_mem he)
  have admitted : IsAdmitted f (color cs classic p) ↔ (Notation.ofChannels f cs).Admits cs := Iff.rfl
  rw [IsDecided, admitted]
  cases chosen : Notation.ofChannels f cs with
  | hash => exact .inl ⟨trivial, takes_hash chosen classic p⟩
  | modern =>
    have written : (color cs classic p).toCss f =
        Channel.name cs ++ "(" ++ Notation.modernText cs (textsOfChannels f cs) ++ ")" := by
      rw [toCss, Notation.colorText, chosen]
    cases cs with
    | nil => exact absurd rfl legible.named
    | cons c cs =>
      have parted := takes_or_fails_modern spelling lowered legible.name channels
        (fun e he => lasting e.value (List.mem_map_of_mem he)) written
      refine parted.imp (fun ⟨fits, taken⟩ => ⟨fits, taken.mono ?_⟩) id
      rintro w ⟨ws, same, classic', q, rfl⟩
      exact toCss_of_same (keys_of_name _) words same classic' classic q p
  | classic =>
    have written : (color cs classic p).toCss f = Channel.name cs ++ "(" ++
        String.intercalate (f.around .comma) (texts f (cs.map Channel.value)) ++ ")" := by
      rw [toCss, Notation.colorText, chosen, textsOfChannels_eq_map, texts_eq_map, List.map_map]
      rfl
    cases cs with
    | nil => exact absurd rfl legible.named
    | cons c cs =>
      have alone : Notation.classic.Admits (c :: cs) ↔ (cs.map Channel.value = [] ∨
          ∀ w ∈ (c :: cs).map Channel.value, w.isMissing = false) := by
        simp [Notation.Admits]
      rw [alone]
      have parted := takes_or_fails_classic hf spelling lowered legible.named legible.name channels lasting written
      refine parted.imp (fun ⟨fits, taken⟩ => ⟨fits, taken.mono ?_⟩) id
      rintro w ⟨ws, same, classic', q, rfl⟩
      exact toCss_of_same (keys_of_name _) words same classic' classic q p

/-- A number that its digits stand for, a word without a line break, or a reference to a custom property. -/
def isPlainChannel : Value → Bool
  | size z => z.magnitude.isFinite && Number.Binary64.read? z.magnitude.toText = some z.magnitude
  | keyword t => t.toList.all fun c => c ≠ '\n' && c ≠ '\r'
  | function name [keyword t] _ _ => name = "var" && "--".toList.isPrefixOf t.toList && t.toList.all isIdentifierChar
  | _ => false

theorem unbroken_of_identifierChars {t : String} (h : t.toList.all isIdentifierChar = true) : Unbroken t := by
  intro c hc
  have char := List.all_eq_true.mp h c hc
  refine ⟨?_, ?_⟩
  · rintro rfl
    cases char
  · rintro rfl
    cases char

/-- A color of plain channels under a name without escapes. -/
def isPlainColor (v : Value) : Bool :=
  v.colorName ≠ "" && v.colorName.toList.all isIdentifierChar && v.channelValues.all isPlainChannel

/-- A plain color can be read again part by part. -/
theorem isLegible_of_plain {v : Value} (f : Layout) (h : v.isPlainColor = true) : v.IsLegible f := by
  rw [isPlainColor, Bool.and_eq_true, Bool.and_eq_true, decide_eq_true_eq, List.all_eq_true (p := isPlainChannel)] at h
  obtain ⟨⟨named, name⟩, plain⟩ := h
  refine ⟨named, unbroken_of_identifierChars name, fun z hz => ?_, fun t ht => ?_, fun name args s p hw => ?_⟩
  · have known := plain _ hz
    rwa [isPlainChannel, Bool.and_eq_true, decide_eq_true_eq] at known
  · have known := plain _ ht
    rw [isPlainChannel, List.all_eq_true] at known
    intro c hc
    simpa using known c hc
  · have known := plain _ hw
    unfold isPlainChannel at known
    split at known
    · next other => cases other
    · next other => cases other
    · next t _ _ same =>
      cases same
      rw [Bool.and_eq_true, Bool.and_eq_true, decide_eq_true_eq, List.isPrefixOf_iff_prefix] at known
      obtain ⟨⟨rfl, rest, dashes⟩, chars⟩ := known
      have spelling := IsSpelling.of_chars (List.all_eq_true.mp chars)
      exact readsAgain_reference dashes.symm spelling (unbroken_of_identifierChars chars) s p
    · cases known

/-- What is written of a color that was read is read as a whole, as a color of which the same is written, exactly if its
notation admits its channels, whatever blanks the layout puts around commas. -/
theorem readColor_again_iff (hf : f.IsBlankInValues) {r s : Reader} (read : readColorHere.outcome r = (.ok v, s))
    (legible : v.IsLegible f) (settings : Settings) (line : Nat) :
    (∃ w t, readColorHere.outcome (Reader.start (v.toCss f) settings line) = (.ok w, t) ∧ t.place.rest = [] ∧
      w.toCss f = v.toCss f) ↔ v.IsAdmitted f := by
  have decided : v.IsDecided f := by
    cases isColor_of_readColorHere read with
    | function spelling lowered channels => exact isDecided_function hf spelling lowered channels legible
    | color spelling lowered channels => exact isDecided_color hf spelling lowered channels legible
  rcases decided with ⟨admitted, takes⟩ | ⟨other, fails⟩
  · refine iff_of_true ?_ admitted
    obtain ⟨w, t, again, whole, same⟩ := takes.takes (Reader.start (v.toCss f) settings line) rfl
    exact ⟨w, t, again, whole, same⟩
  · refine iff_of_false ?_ other
    rintro ⟨w, t, again, -, -⟩
    obtain ⟨e, t', failed⟩ := fails (Reader.start (v.toCss f) settings line) rfl
    rw [failed] at again
    cases again

/-- A variable in classic notation, and a percentage beside a number and a missing channel in modern notation. -/
theorem readColor_again_of_forms :
    let r := Reader.start "HSL(120, var(--shade), 50%)" {} 1
    let r' := Reader.start "rgb(50% 20 none / .5)" {} 1
    (∃ v s, readColorHere.outcome r = (.ok v, s) ∧ v.IsLegible Layout.plain ∧
      ((∃ w t, readColorHere.outcome (Reader.start (v.toCss Layout.plain) {} 7) = (.ok w, t) ∧ t.place.rest = [] ∧
        w.toCss Layout.plain = v.toCss Layout.plain) ↔ v.IsAdmitted Layout.plain)) ∧
      ∃ v s, readColorHere.outcome r' = (.ok v, s) ∧ v.IsLegible Layout.pretty ∧
        ((∃ w t, readColorHere.outcome (Reader.start (v.toCss Layout.pretty) {} 7) = (.ok w, t) ∧ t.place.rest = [] ∧
          w.toCss Layout.pretty = v.toCss Layout.pretty) ↔ v.IsAdmitted Layout.pretty) := by
  intro r r'
  have known : (readColorHere.outcome r).1.toOption.any isPlainColor = true := by decide +kernel
  have known' : (readColorHere.outcome r').1.toOption.any isPlainColor = true := by decide +kernel
  obtain ⟨v, s, read, plain⟩ := Read.ok_of_any known
  obtain ⟨v', s', read', plain'⟩ := Read.ok_of_any known'
  have legible := isLegible_of_plain Layout.plain plain
  have legible' := isLegible_of_plain Layout.pretty plain'
  exact ⟨⟨v, s, read, legible, readColor_again_iff Layout.isBlank_plain.inValues read legible {} 7⟩,
    v', s', read', legible', readColor_again_iff Layout.isBlank_pretty.inValues read' legible' {} 7⟩

/-- A variable beside `none`, a word that only begins with `none`, and an opacity that is not the last channel: what is
written of them is not read again. -/
theorem color_not_read_again :
    let written (text : String) :=
      (readColorHere.outcome (Reader.start text {} 1)).1.toOption.map (toCss Layout.plain)
    written "rgb(none var(--g) 0)" = some "rgb(none,var(--g),0)" ∧ written "rgb(none,var(--g),0)" = none ∧
      written "rgb(nonesuch 1 2)" = some "rgb(nonesuch,1,2)" ∧ written "rgb(nonesuch,1,2)" = none ∧
      written "lab(none / 2 3)" = some "lab(none 2 3)" ∧ written "lab(none 2 3)" = none := by
  intro written
  exact ⟨by decide +kernel, by decide +kernel, by decide +kernel, by decide +kernel, by decide +kernel,
    by decide +kernel⟩

end Value

end Stylesheet
