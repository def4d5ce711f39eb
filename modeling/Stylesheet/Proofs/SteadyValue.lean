import Stylesheet.Proofs.Lowering
import Stylesheet.Proofs.Steady
import Stylesheet.Proofs.ValueForms

namespace Stylesheet

namespace Place

variable {p q : Place}

theorem rest_suffix_text (p : Place) : p.rest <:+ p.text := List.suffix_append _ _

theorem rest_unescaped (h : Tame p.text) : '\\' ∉ p.rest :=
  fun hm => h.unescaped (p.rest_suffix_text.mem hm)

theorem comes_backslash (h : '\\' ∉ p.rest) {t : String} {more : List Char}
    (ht : t.toList = '\\' :: more) : p.comes t = false := by
  unfold comes
  rw [ht]
  cases hr : p.rest with
  | nil => rfl
  | cons c rest =>
    have hc : '\\' ≠ c := fun hc => h (by rw [hr, hc]; exact List.mem_cons_self)
    simp [List.isPrefixOf, hc]

theorem goesOn_mode (h : '\\' ∉ p.rest) (s : Settings) (b : Bool) :
    p.goesOn { s with lenient := b } = p.goesOn s := by
  unfold goesOn
  cases hr : p.rest with
  | nil => rfl
  | cons c rest =>
    have hc : c ≠ '\\' := fun hc => h (by rw [hr, hc]; exact List.mem_cons_self)
    simp only [if_neg hc]

theorem spelling_mode (h : '\\' ∉ p.rest) (s : Settings) (b : Bool) :
    p.spelling { s with lenient := b } = p.spelling s := by
  fun_induction spelling s p with
  | case1 p hg piece q hq more r hr ih =>
    have hp : Ahead s.width p q := by
      have hp := ahead_piece s p
      rwa [hq] at hp
    rw [spelling_eq, goesOn_mode h, if_pos hg, piece_mode, hq]
    dsimp only
    rw [ih fun hm => h (hp.rest_suffix.mem hm), hr]
  | case2 p hg e q hq => rw [spelling_eq, goesOn_mode h, if_pos hg, piece_mode, hq]
  | case3 p hg => rw [spelling_eq, goesOn_mode h, if_neg hg]

theorem identifier_mode (h : '\\' ∉ p.rest) (s : Settings) (b : Bool) :
    p.identifier { s with lenient := b } = p.identifier s := by
  unfold identifier
  rw [goesOn_mode h, spelling_mode h]

theorem piece_unescaped {c : Char} {rest : List Char} (h : p.rest = c :: rest) (hc : c ≠ '\\') (s : Settings) :
    p.piece s = (.ok (.char c), p.next s.width) := by
  unfold piece
  rw [h]
  exact if_neg hc

/-- Without escapes only the first character of an identifier can be at fault, and it is not taken. -/
theorem identifier_error (h : '\\' ∉ p.rest) {s : Settings} {e : Fault} (he : (p.identifier s).1 = .error e) :
    (p.identifier s).2 = p := by
  have never (q : Place) (hq : '\\' ∉ q.rest) : (q.spelling s).1 ≠ .error e := by
    fun_induction spelling s q with
    | case1 q hg piece q' hp more r hr ih =>
      have hp' : Ahead s.width q q' := by
        have := ahead_piece s q
        rwa [hp] at this
      rw [hr] at ih
      exact fun hm => ih (fun hm => hq (hp'.rest_suffix.mem hm)) (map_eq_error hm)
    | case2 q hg d q' hp =>
      cases hr : q.rest with
      | nil => exact absurd hr (rest_ne_nil_of_goesOn hg)
      | cons c rest =>
        have hc : c ≠ '\\' := fun hc => hq (by rw [hr, hc]; exact List.mem_cons_self)
        rw [piece_unescaped hr hc] at hp
        cases hp
    | case3 q hg => exact fun hm => by cases hm
  unfold identifier at he ⊢
  split
  · rfl
  · next hend =>
    rw [if_neg hend] at he
    split
    · next hg =>
      rw [if_pos hg] at he
      exact absurd he (never p h)
    · rfl

end Place

open Read (Steady)

variable {text : List Char}

namespace Read.Steady

variable {α : Type} {final : Fault → Bool}

theorem identifier (ignoreCase : Bool) : Steady final text (Read.identifier ignoreCase) := by
  refine bind (moveTame Place.ahead_identifier (fun _ _ _ h => Place.located_identifier h) ?_) fun cs => .pure _
  exact fun s p ht => Place.identifier_mode (Place.rest_unescaped ht) s true

end Read.Steady

/-- Steady inside a value, where strict reading never recovers from an early end. -/
abbrev SteadyPart {α : Type} (text : List Char) (x : Read α) : Prop := Steady Fault.isEnd text x

theorem gap_steady : SteadyPart text Read.gap := Steady.gap fun _ h => h

namespace Size

theorem read_steady (channel : Bool) : SteadyPart text (Size.read channel) := by
  refine Steady.here fun p _ => (Steady.skip _).bind fun _ => ?_
  split
  · exact .throw rfl
  · exact Steady.here fun q _ => (Steady.skip _).bind fun _ => .pure _

end Size

namespace Quoted

theorem read_steady : SteadyPart text Quoted.read := by
  refine Steady.here fun p _ => ?_
  split
  · split
    · refine (Steady.skip 1).bind fun _ => (Steady.move (Place.moves_textUpTo _)).bind fun t => ?_
      refine Steady.here fun q _ => ?_
      split
      · exact .throw rfl
      · exact (Steady.skip 1).bind fun _ => .pure _
    · exact (Steady.move (Place.moves_textUpTo _)).bind fun t => .pure _
  · exact .pure _

end Quoted

namespace Url

theorem opens_steady : SteadyPart text opens := by
  refine Steady.anchored fun p hp => ?_
  split
  · refine .bind hp ((Steady.skip 3).from p) fun _ => .bind hp (gap_steady.discard.from p) fun _ => ?_
    refine .bind hp (Steady.place.from p) fun q => ?_
    split
    · exact Steady.from ((Steady.skip 1).bind fun _ => .pure _) p
    · exact .bind hp (.back p) fun _ => Steady.from (.pure _) p
  · exact Steady.from (.pure _) p

theorem read_steady : SteadyPart text Url.read := by
  refine Steady.here fun p _ => opens_steady.bind fun call => gap_steady.discard.bind fun _ => ?_
  refine Quoted.read_steady.bind fun address => ?_
  dsimp only
  split
  · exact gap_steady.discard.bind fun _ => (Steady.literal _).discard.bind fun _ => .pure _
  · exact .pure _

end Url

namespace Value

theorem readHex_steady : SteadyPart text readHex := by
  refine Steady.here fun p _ => (Steady.literal _).discard.bind fun _ => (Steady.identifier _).bind fun digits => ?_
  exact Steady.orThrow rfl (Steady.orThrow rfl (.pure _))

theorem readRange_steady : SteadyPart text readRange := by
  refine (Steady.literal _).discard.bind fun _ => Steady.here fun p _ => ?_
  exact Steady.orThrow rfl ((Steady.skip _).bind fun _ => .pure _)

/-- Where a name is at fault in tame text, nothing of it has been taken. -/
theorem place_of_name_error {r s : Reader} {e : Fault} (h : '\\' ∉ r.place.rest)
    (ho : (some <$> Read.identifier false).outcome r = (.error e, s)) : s.place = r.place := by
  have stay := fun d => Place.identifier_error (e := d) h (s := r.settings)
  simp only [Read.identifier, Read.outcome_map, Read.outcome_bind, Read.outcome_move] at ho
  rcases hi : r.place.identifier r.settings with ⟨d | cs, q⟩
  · rw [hi] at ho stay
    cases ho
    exact stay e rfl
  · rw [hi] at ho
    cases ho

theorem readName?_steadyAt {r : Reader} (hr : r.place.text = text)
    (hb : Tame text → r.place.comes "]" = false) : Read.SteadyAt Fault.isEnd text r.place r readName? := by
  have hid : SteadyPart text (some <$> Read.identifier false) := (Steady.identifier false).map
  obtain ⟨hk, ha⟩ := hid r hr
  unfold Read.SteadyAt readName?
  rw [← map_eq_pure_bind, Read.outcome_tryCatch, Read.outcome_tryCatch]
  rcases ho : (some <$> Read.identifier false).outcome r with ⟨e | name, s⟩
  · rw [ho] at hk ha
    simp only [Read.rescued_error, Read.outcome_bind, Read.outcome_isLenient, Read.outcome_place, Read.following_ok]
    constructor
    · split
      · exact hk.result _
      · exact hk
    · intro ht hl
      have hrest : '\\' ∉ r.place.rest := Place.rest_unescaped (hr.symm ▸ ht)
      have hs : s.place.comes "]" = false := by rw [place_of_name_error hrest ho]; exact hb ht
      rw [hs, if_neg (by simp)]
      rcases ha ht hl with he | heq
      · exact .inl he
      · rw [heq]
        simp only [Read.rescued_error, Read.outcome_bind, Read.outcome_isLenient, Read.outcome_place,
          Read.following_ok, Reader.relaxed_place, hs]
        rw [if_neg (by simp)]
        exact .inr rfl
  · rw [ho] at hk ha
    refine ⟨hk, fun ht hl => ?_⟩
    have heq : (some <$> Read.identifier false).outcome r.relaxed = (.ok name, s.relaxed) := ha ht hl
    rw [heq]
    rfl

/-- Names are read the same in both modes where one must stand. -/
theorem readNames_steadyAt (n : Nat) {r : Reader} (hr : r.place.text = text)
    (hb : Tame text → r.place.comes "]" = false) : Read.SteadyAt Fault.isEnd text r.place r (readNames n) := by
  induction n using Nat.strongRecOn generalizing r with
  | ind n ih =>
    rw [readNames]
    refine (readName?_steadyAt hr hb).bind hr fun name s _ hs hp => ?_
    refine Steady.from (gap_steady.discard.bind fun _ => ?_) r.place s hs hp
    intro u hu
    change Read.SteadyAt Fault.isEnd text u.place u (if u.place.comes "]" then _ else _)
    split
    · exact Steady.pure _ u hu
    · next hc =>
      refine Read.SteadyAt.bind hu ?_ fun names v _ hv hp => Steady.from (Steady.pure _) u.place v hv hp
      exact .shorter (fun m hm => ih m hm hu fun _ => by simpa using hc) (Steady.pure _ u hu)

/-- In tame text no closing bracket follows an opening one. -/
theorem not_comes_bracket {r s t : Reader} {u v : Unit} (tame : Tame r.place.text)
    (opened : (discard (Read.literal "[")).outcome r = (.ok u, s))
    (skipped : (discard Read.gap).outcome s = (.ok v, t)) : t.place.comes "]" = false := by
  obtain ⟨_, opened⟩ := Read.ok_of_discard opened
  obtain ⟨_, skipped⟩ := Read.ok_of_discard skipped
  rw [Bool.eq_false_iff]
  intro hclose
  obtain ⟨-, behind, hb⟩ := Place.comes_iff.mp hclose
  rcases Read.gap_of_ok skipped with hnil | ⟨texts, g, gap, hg⟩
  · rw [hnil] at hb
    cases hb
  · refine tame.named texts g behind gap ?_
    have whole : r.place.rest = '[' :: g ++ ']' :: behind := by
      rw [Read.rest_of_literal opened, hg, ← hb]
      rfl
    rw [← whole]
    exact r.place.rest_suffix_text

/-- Names in brackets. On tame text at least one name stands there. -/
theorem readLineNames_steady : SteadyPart text readLineNames := by
  intro r hr
  refine Read.SteadyAt.bind hr (Steady.place r hr) fun p q hp _ _ => ?_
  cases hp
  refine Read.SteadyAt.bind hr ((Steady.literal "[").discard r hr) fun _ s hs hst hsp => ?_
  refine Read.SteadyAt.bind hr (gap_steady.discard.from r.place s hst hsp) fun _ t ht htt htp => ?_
  have named : Tame text → t.place.comes "]" = false := fun tame => not_comes_bracket (hr ▸ tame) hs ht
  refine Read.SteadyAt.bind hr (Steady.left.from r.place t htt htp) fun n u hn _ _ => ?_
  cases hn
  refine Read.SteadyAt.bind hr ((readNames_steadyAt _ htt named).before htp) fun names v _ hv hvp => ?_
  exact Steady.from ((Steady.literal "]").discard.bind fun _ => .pure _) r.place v hv hvp

variable {nested : List Separator → Read Value} {inner word : Read Value}

theorem readArguments_steady (hn : ∀ order, SteadyPart text (nested order)) :
    SteadyPart text (readArguments nested) := by
  refine gap_steady.discard.bind fun _ => Steady.here fun p _ => ?_
  split
  · exact .pure _
  · exact (hn _).bind fun v => .pure _

theorem readFunction_steady (hn : ∀ order, SteadyPart text (nested order)) (ignoreCase : Bool) :
    SteadyPart text (readFunction nested ignoreCase) := by
  refine Steady.here fun p _ => (Steady.identifier _).bind fun name => (Steady.literal _).discard.bind fun _ => ?_
  exact (readArguments_steady hn).bind fun args => (Steady.literal _).discard.bind fun _ => .pure _

theorem readParenthesized_steady (hn : ∀ order, SteadyPart text (nested order)) :
    SteadyPart text (readParenthesized nested) := by
  refine Steady.here fun p _ => (Steady.literal _).discard.bind fun _ => ?_
  exact (readArguments_steady hn).bind fun args => (Steady.literal _).discard.bind fun _ => .pure _

theorem readFilter_steady (hn : ∀ order, SteadyPart text (nested order)) :
    SteadyPart text (readFilter nested) := by
  refine Steady.here fun p _ => (Steady.upTo _ _ _).bind fun name => (hn _).bind fun v => ?_
  exact (Steady.literal _).discard.bind fun _ => .pure _

theorem readOperator_steady : SteadyPart text readOperator := by
  refine Steady.here fun p _ => ?_
  split
  · exact .throw rfl
  · split
    · exact .throw rfl
    · split
      · exact .throw rfl
      · exact (Steady.skip 1).bind fun _ => .pure _

theorem readToken_steady (hi : SteadyPart text inner) (depth : Nat) (afterOperand : Bool) :
    SteadyPart text (readToken inner depth afterOperand) := by
  refine Steady.here fun p _ => ?_
  split
  · exact (Steady.skip 1).bind fun _ => .pure _
  · split
    · exact (Steady.skip 1).bind fun _ => .pure _
    · split
      · exact readOperator_steady.bind fun c => .pure _
      · exact hi.bind fun v => .pure _

theorem readTokens_steady (hi : SteadyPart text inner) (n depth : Nat) (afterOperand : Bool) :
    SteadyPart text (readTokens inner n depth afterOperand) := by
  induction n using Nat.strongRecOn generalizing depth afterOperand with
  | ind n ih =>
    rw [readTokens]
    refine Steady.here fun p _ => ?_
    split
    · exact .pure _
    · split
      · split
        · exact .pure _
        · exact .throw rfl
      · refine gap_steady.discard.bind fun _ => (readToken_steady hi depth afterOperand).bind fun ⟨token, d, b⟩ => ?_
        refine gap_steady.discard.bind fun _ => ?_
        exact (Steady.shorter (fun m hm => ih m hm d b) (.pure _)).bind fun tokens => .pure _

theorem readCalculation_steady (hi : SteadyPart text inner) : SteadyPart text (readCalculation inner) := by
  refine Steady.here fun p _ => (Steady.identifier _).bind fun name => Steady.here fun q _ => ?_
  refine Steady.orThrow rfl ((Steady.skip 1).bind fun _ => Steady.left.bind fun n => ?_)
  refine (readTokens_steady hi n 0 false).bind fun tokens => Steady.here fun s _ => ?_
  dsimp only
  split
  · exact (Steady.literal _).discard.bind fun _ => .pure _
  · exact .pure _

theorem readWord_steady (hn : ∀ order, SteadyPart text (nested order)) (hi : SteadyPart text inner)
    (ignoreCase : Bool) : SteadyPart text (readWord nested inner ignoreCase) := by
  refine Steady.anchored fun p hp => .bind hp ((Steady.identifier _).from p) fun name => ?_
  refine .bind hp (Steady.place.from p) fun q => ?_
  split
  · exact Steady.from (.pure _) p
  · refine .bind hp (.back p) fun _ => ?_
    split
    · exact Steady.from (Url.read_steady.bind fun u => .pure _) p
    · split
      · exact (readCalculation_steady hi).from p
      · exact (readFunction_steady hn ignoreCase).from p

theorem readChannel_steady (hw : SteadyPart text word) (s : ColorState) : SteadyPart text (readChannel word s) := by
  refine Steady.here fun p _ => ?_
  split
  · exact hw.bind fun v => .pure _
  · split
    · exact (Steady.identifier _).bind fun name => .pure _
    · exact (Size.read_steady true).bind fun size => .pure _

theorem readBetween_steady (keys : List Char) (s : ColorState) : SteadyPart text (readBetween keys s) := by
  unfold readBetween
  split
  · split
    · exact (Steady.literal _).discard
    · exact .pure _
  · split
    · refine Steady.here fun p _ => ?_
      split
      · exact (Steady.literal _).discard
      · exact .pure _
    · split
      · exact (Steady.literal _).discard
      · exact .pure _

theorem readChannels_steady (hw : SteadyPart text word) (optional first : Bool) (s : ColorState)
    (keys : List Char) : SteadyPart text (readChannels word optional first s keys) := by
  induction keys generalizing first s with
  | nil => exact .pure _
  | cons key keys ih =>
    refine gap_steady.discard.bind fun _ => (readChannel_steady hw s).bind fun ⟨v, s⟩ => ?_
    refine gap_steady.discard.bind fun _ => Steady.here fun p _ => ?_
    split
    · exact .pure _
    · exact (readBetween_steady keys _).bind fun _ => (ih false _).bind fun vs => .pure _

theorem readColorFunction_steady (hw : SteadyPart text word) : SteadyPart text (readColorFunction word) := by
  refine Steady.here fun p _ => (Steady.identifier _).bind fun name => gap_steady.discard.bind fun _ => ?_
  refine (Steady.literal _).discard.bind fun _ => (readChannels_steady hw _ _ _ _).bind fun ⟨vs, s⟩ => ?_
  refine (Steady.literal _).discard.bind fun _ => ?_
  split
  · exact .pure _
  · exact .pure _

theorem readColor_steady (hw : SteadyPart text word) : SteadyPart text (readColor word) := by
  refine Steady.here fun p _ => ?_
  split
  · exact readHex_steady
  · exact readColorFunction_steady hw

theorem readSeparator_steady (order : List Separator) : SteadyPart text (readSeparator order) := by
  refine Steady.here fun p _ => ?_
  split
  · exact (Steady.literal _).discard.bind fun _ => gap_steady.discard.bind fun _ => .pure _
  · exact .pure _

/-- What a value ends at is the same in both modes where nothing is escaped. -/
theorem endsAt_mode {p : Place} (h : '\\' ∉ p.rest) (b : Bool) : endsAt b p = endsAt false p := by
  unfold endsAt
  rw [Place.comes_backslash h (t := "\\9") rfl, Place.comes_backslash h (t := "\\0") rfl]
  simp only [Bool.or_false, Bool.and_false]

variable {primitive : Read Value}

theorem readMore_steady (hp : SteadyPart text primitive) (order : List Separator) (n : Nat) :
    SteadyPart text (readMore primitive order n) := by
  induction n using Nat.strongRecOn with
  | ind n ih =>
    rw [readMore]
    refine Steady.asking (fun b => Steady.here fun p _ => ?_) fun tame r hr => ?_
    · split
      · exact .pure _
      · refine (readSeparator_steady order).bind fun s => hp.bind fun v => gap_steady.discard.bind fun _ => ?_
        exact (Steady.shorter (fun m hm => ih m hm) (.pure _)).bind fun more => .pure _
    · simp only [Read.outcome_bind, Read.outcome_place, Read.following_ok]
      rw [endsAt_mode (Place.rest_unescaped (hr ▸ tame))]

theorem readWith_steady (hp : SteadyPart text primitive) (order : List Separator) :
    SteadyPart text (readWith primitive order) := by
  refine Steady.here fun start _ => gap_steady.discard.bind fun _ => Steady.here fun p hpt => ?_
  refine Steady.asking (fun b => ?_) fun tame _ _ => ?_
  · refine Steady.orThrow rfl (hp.bind fun first => gap_steady.discard.bind fun _ => Steady.left.bind fun n => ?_)
    refine (readMore_steady hp order n).bind fun more => ?_
    dsimp only
    split
    · exact .pure _
    · exact Steady.here fun q _ => .throw rfl
  · rw [endsAt_mode (Place.rest_unescaped (hpt ▸ tame))]

theorem orSign_steady (next : Option Char) {e : Fault} (he : e.located = true) :
    SteadyPart text (orSign next e) := by
  unfold orSign
  split
  · split
    · exact (Steady.take 1).map
    · exact .throw rfl
  · exact .throw he

theorem readWordOrSign_steady (hw : SteadyPart text word) : SteadyPart text (readWordOrSign word) := by
  intro r hr
  refine .rescue hr (outcome_readWordOrSign word r) (outcome_readWordOrSign word r.relaxed) (hw r hr) ?_ ?_
  · exact fun e he s hs => orSign_steady _ he s hs
  · intro e s he _
    refine ⟨e, s, he, ?_⟩
    cases e with
    | unexpectedEnd => rfl
    | unexpectedToken | misplaced | unwritable => cases he

/-- No filter begins in tame text. -/
theorem comes_filter {p : Place} (h : Tame p.text) : p.comesAnyCase "progid:" = false := by
  rw [Bool.eq_false_iff]
  intro hf
  have plain : Text.isPlainWord "progid:".toList = true := by decide
  have letters := Place.take_toLower_of_comesAnyCase plain hf
  exact h.unfiltered p.rest p.rest_suffix_text letters

theorem readPrimitiveWith_steady (hn : ∀ order, SteadyPart text (nested order)) (hi : SteadyPart text inner) :
    SteadyPart text (readPrimitiveWith nested inner) := by
  rw [readPrimitiveWith_eq]
  refine gap_steady.discard.bind fun _ => Steady.here fun p hp => Steady.asking (fun b => ?_) fun tame _ _ => ?_
  · refine Steady.bind ?_ fun v => gap_steady.discard.bind fun _ => .pure v
    unfold readForm
    split
    · exact (Size.read_steady false).map
    · split
      · exact readColor_steady (readWord_steady hn hi true)
      · split
        · exact Quoted.read_steady.map
        · split
          · exact readFilter_steady hn
          · split
            · exact readLineNames_steady
            · split
              · exact readRange_steady
              · split
                · exact readParenthesized_steady hn
                · exact readWordOrSign_steady (readWord_steady hn hi false)
  · unfold readForm
    rw [comes_filter (hp ▸ tame), Bool.and_false, Bool.and_false]

theorem stuck_steady : SteadyPart text stuck := Steady.here fun _ _ => .throw rfl

theorem readPrimitiveIn_steady (n : Nat) : SteadyPart text (readPrimitiveIn n) := by
  induction n using Nat.strongRecOn with
  | ind n ih =>
    rw [readPrimitiveIn]
    refine readPrimitiveWith_steady (fun order => ?_) ?_
    · exact .shorter (fun m hm => readWith_steady (ih m hm) order) stuck_steady
    · exact .shorter (fun m hm => ih m hm) stuck_steady

theorem nestedIn_steady (n : Nat) (order : List Separator) : SteadyPart text (nestedIn n order) :=
  .shorter (fun m _ => readWith_steady (readPrimitiveIn_steady m) order) stuck_steady

theorem innerIn_steady (n : Nat) : SteadyPart text (innerIn n) :=
  .shorter (fun m _ => readPrimitiveIn_steady m) stuck_steady

theorem readPrimitive_steady : SteadyPart text readPrimitive := Steady.left.bind fun n => readPrimitiveIn_steady n

/-- Every value is read the same in both modes from tame text. -/
theorem read_steady (order : List Separator) : SteadyPart text (read order) :=
  Steady.left.bind fun n => readWith_steady (readPrimitiveIn_steady n) order

end Value
end Stylesheet
