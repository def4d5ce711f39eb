import Stylesheet.Proofs.Bare
import Stylesheet.Proofs.Lowering
import Stylesheet.Proofs.SteadyValue

namespace Stylesheet

/-- Faults of one kind, whatever they say. -/
inductive Fault.Akin : Fault → Fault → Prop
  | token {a a' b b' : String} {l l' : Location} : Akin (.unexpectedToken a b l) (.unexpectedToken a' b' l')
  | ending {a a' : String} {l l' : Location} : Akin (.unexpectedEnd a l) (.unexpectedEnd a' l')
  | misplaced {a a' : String} {l l' : Location} : Akin (.misplaced a l) (.misplaced a' l')

namespace Fault.Akin

variable {e e' : Fault}

theorem refl (he : e.located = true) : Akin e e := by
  cases e with
  | unexpectedToken => exact .token
  | unexpectedEnd => exact .ending
  | misplaced => exact .misplaced
  | unwritable => cases he

theorem isEnd (h : Akin e e') : e'.isEnd = e.isEnd := by
  cases h <;> rfl

theorem recoverable (h : Akin e e') : e'.recoverable = e.recoverable := by
  cases h <;> rfl

end Fault.Akin

/-- Text that does not end with the word of an address and a gap, or behind which `more` does not go on with a gap and
the parenthesis of the address. -/
def Unaddressed (text more : List Char) : Prop :=
  ∀ word texts gap texts' gap' rest, word.map Char.toLower = "url".toList → IsGap texts gap → word ++ gap <:+ text →
    IsGap texts' gap' → more ≠ gap' ++ '(' :: rest

/-- Tame text with `more` behind it that does not go on the gap behind the word of an address up to a parenthesis, nor a
sign before a comment in that gap. -/
structure Settled (text more : List Char) : Prop extends Tame text where
  unaddressed : Unaddressed text more
  uncommented : ∀ word texts gap, word.map Char.toLower = "url".toList → IsGap texts gap →
    ¬ word ++ gap ++ ['/'] <:+ text

/-- Two readings. The first one is of `text`, the second one of a text that has `more` behind it and `shift` characters
before it. They count columns the same if positions are compared exactly. Either both are in one mode and
nothing stands behind, or the first one is strict and the second one lenient. -/
structure Pairing where
  first : Settings
  second : Settings
  text : List Char
  more : List Char
  shift : Nat
  exact : Bool
  width_eq : exact = true → second.width = first.width
  modes : (second.lenient = first.lenient ∧ more = []) ∨
    (first.lenient = false ∧ second.lenient = true ∧ Settled text more)

namespace Pairing

variable {g : Pairing}

/-- The first reading is strict and the second one lenient. -/
def Loose (g : Pairing) : Prop := g.first.lenient = false ∧ g.second.lenient = true ∧ Settled g.text g.more

/-- A closing brace is still to come in the first reading, or nothing stands behind its text. -/
def Live (g : Pairing) (p : Place) : Prop := g.more = [] ∨ '\x7d' ∈ p.rest

theorem Live.before {width : Char → Nat} {p q : Place} (h : g.Live q) (ha : Place.Ahead width p q) : g.Live p :=
  h.imp_right fun hq => ha.rest_suffix.mem hq

theorem loose_of_not_live {p : Place} (h : ¬ g.Live p) : g.Loose :=
  g.modes.resolve_left fun hm => h (.inl hm.2)

theorem more_of_lenient (h : g.first.lenient = true) : g.more = [] := by
  rcases g.modes with hm | hm
  · exact hm.2
  · exact absurd (h.symm.trans hm.1) (by decide)

/-- The two readings are at corresponding places. -/
structure Places (g : Pairing) (p p' : Place) : Prop where
  text : p.text = g.text
  rest : p'.rest = p.rest ++ g.more
  offset : p'.offset = p.offset + g.shift
  blank : p'.passed.head?.any Text.isBlank = p.passed.head?.any Text.isBlank
  position : g.exact = true → p'.position = p.position

/-- Equal, if positions are compared exactly, and in any case equal in what is looked at. -/
structure Alike {α β : Type} (g : Pairing) (look : α → β) (a a' : α) : Prop where
  whole : g.exact = true → a' = a
  seen : look a' = look a

namespace Alike

variable {α β γ δ : Type} {look : α → β} {a a' : α}

theorem refl (look : α → β) (a : α) : g.Alike look a a := ⟨fun _ => rfl, rfl⟩

theorem of_eq (look : α → β) (h : a' = a) : g.Alike look a a' := ⟨fun _ => h, congrArg look h⟩

theorem eq (h : g.Alike id a a') : a' = a := h.seen

/-- What is made of things that are alike is alike, if it shows no more of them. -/
theorem map {view : γ → δ} (h : g.Alike look a a') (f : α → γ) (hf : look a' = look a → view (f a') = view (f a)) :
    g.Alike view (f a) (f a') :=
  ⟨fun he => congrArg f (h.whole he), hf h.seen⟩

end Alike

namespace Places

variable {p p' : Place}

theorem next (h : g.Places p p') (hp : g.more = [] ∨ p.rest ≠ []) :
    g.Places (p.next g.first.width) (p'.next g.second.width) := by
  cases hr : p.rest with
  | nil =>
    have hm : g.more = [] := hp.resolve_right fun hne => hne hr
    have hr' : p'.rest = [] := by rw [h.rest, hr, hm]; rfl
    rwa [Place.next_of_rest_nil hr, Place.next_of_rest_nil hr']
  | cons c rest =>
    have hr' : p'.rest = c :: (rest ++ g.more) := by rw [h.rest, hr]; rfl
    have passed (width : Char → Nat) {q : Place} {tail : List Char} (hq : q.rest = c :: tail) :
        (q.next width).passed = c :: q.passed := by
      unfold Place.next
      rw [hq]
      dsimp only
      split
      · rfl
      · rfl
    refine ⟨(Place.next_text _ p).trans h.text, ?_, ?_, ?_, fun he => ?_⟩
    · rw [Place.next_rest, Place.next_rest, hr, hr']
      rfl
    · rw [Place.offset_next_of_cons hr, Place.offset_next_of_cons hr', h.offset]
      omega
    · rw [passed _ hr, passed _ hr']
      rfl
    · have same : p'.line = p.line ∧ p'.column = p.column := by
        have := h.position he
        simpa [Place.position] using this
      unfold Place.next
      rw [hr, hr', g.width_eq he]
      dsimp only
      split
      · simp [Place.position, same.1]
      · simp [Place.position, same.1, same.2]

theorem forward (h : g.Places p p') {n : Nat} (hn : g.more = [] ∨ n ≤ p.rest.length) :
    g.Places (p.forward g.first.width n) (p'.forward g.second.width n) := by
  induction n generalizing p p' with
  | zero => exact h
  | succ n ih =>
    refine ih (h.next (hn.imp_right fun hle hr => ?_)) (hn.imp_right fun hle => ?_)
    · rw [hr] at hle
      exact absurd hle (Nat.not_succ_le_zero n)
    · rw [Place.next_rest, List.length_tail]
      omega

theorem length (h : g.Places p p') : p'.rest.length = p.rest.length + g.more.length := by
  rw [h.rest, List.length_append]

/-- In a loose pairing nothing is escaped. -/
theorem unescaped (h : g.Places p p') (hl : g.Loose) : '\\' ∉ p.rest :=
  fun hm => hl.2.2.unescaped (h.text ▸ p.rest_suffix_text.mem hm)

end Places

/-- A lively place is not behind where a move of so many characters began to fail. -/
theorem Live.of_forward {width : Char → Nat} {p : Place} {n : Nat} (h : g.Live (p.forward width n)) :
    g.more = [] ∨ n ≤ p.rest.length := by
  refine h.imp_right fun hm => ?_
  rw [Place.forward_rest] at hm
  rcases Nat.lt_or_ge p.rest.length n with hn | hn
  · rw [List.drop_eq_nil_of_le (Nat.le_of_lt hn)] at hm
    cases hm
  · exact hn

/-- Corresponding places, of which the first one is alive, as far as `M` tells that the readings got there together. -/
structure Meet (g : Pairing) (M : Prop) (p p' : Place) : Prop where
  live : M → g.Live p
  places : M → g.Places p p'

end Pairing

namespace Place

/-- A character that the prefix does not have decides before what stands behind is looked at. -/
theorem isPrefixOf_append {c : Char} {l rest : List Char} (more : List Char) (hc : c ∈ rest)
    (hl : c ∉ l.dropLast) : l.isPrefixOf (rest ++ more) = l.isPrefixOf rest := by
  induction l generalizing rest with
  | nil => rw [List.isPrefixOf, List.isPrefixOf]
  | cons a l ih =>
    cases rest with
    | nil => cases hc
    | cons d rest =>
      cases l with
      | nil => simp [List.isPrefixOf]
      | cons b l =>
        rw [List.dropLast_cons_of_ne_nil (by simp), List.mem_cons, not_or] at hl
        rw [List.cons_append, List.isPrefixOf, List.isPrefixOf]
        rcases List.mem_cons.mp hc with rfl | hc
        · rw [beq_false_of_ne (Ne.symm hl.1), Bool.false_and, Bool.false_and]
        · rw [ih hc hl.2]

theorem startsWith_append_of_mem {c : Char} {word rest : List Char} (more : List Char) (hc : c ∈ rest)
    (hw : word.any (Text.sameLetter c) = false) :
    startsWith word (rest ++ more) = startsWith word rest := by
  induction word generalizing rest with
  | nil => rw [startsWith, startsWith]
  | cons a word ih =>
    cases rest with
    | nil => cases hc
    | cons d rest =>
      rw [List.any_cons, Bool.or_eq_false_iff] at hw
      rw [List.cons_append, startsWith, startsWith]
      rcases List.mem_cons.mp hc with rfl | hc
      · rw [hw.1, Bool.false_and, Bool.false_and]
      · rw [ih hc hw.2]

end Place

namespace Pairing

variable {g : Pairing} {M : Prop} {p p' : Place}

theorem comes_eq (h : g.Places p p') (hp : g.Live p) {l : String} (hl : '\x7d' ∉ l.toList.dropLast) :
    p'.comes l = p.comes l := by
  unfold Place.comes
  rw [h.rest]
  rcases hp with hm | hp
  · rw [hm, List.append_nil]
  · rw [Place.isPrefixOf_append _ hp hl]

theorem comesAnyCase_eq (h : g.Places p p') (hp : g.Live p) {l : String}
    (hl : l.toList.any (Text.sameLetter '\x7d') = false) : p'.comesAnyCase l = p.comesAnyCase l := by
  unfold Place.comesAnyCase
  rw [h.rest]
  rcases hp with hm | hp
  · rw [hm, List.append_nil]
  · rw [Place.startsWith_append_of_mem _ hp hl]

theorem head?_eq (h : g.Places p p') (hp : g.Live p) : p'.rest.head? = p.rest.head? := by
  rw [h.rest]
  rcases hp with hm | hp
  · rw [hm, List.append_nil]
  · cases hr : p.rest with
    | nil => rw [hr] at hp; cases hp
    | cons c rest => rfl

theorem atEnd_eq (h : g.Places p p') (hp : g.Live p) : p'.atEnd = p.atEnd := by
  have same := head?_eq h hp
  unfold Place.atEnd
  cases hr : p.rest <;> cases hr' : p'.rest <;> rw [hr, hr'] at same <;> first | rfl | cases same

namespace Meet

variable (meet : g.Meet M p p')

include meet

theorem comes {l : String} (hl : '\x7d' ∉ l.toList.dropLast) (m : M) : p'.comes l = p.comes l :=
  comes_eq (meet.places m) (meet.live m) hl

theorem comesAnyCase {l : String} (hl : l.toList.any (Text.sameLetter '\x7d') = false) (m : M) :
    p'.comesAnyCase l = p.comesAnyCase l :=
  comesAnyCase_eq (meet.places m) (meet.live m) hl

theorem head? (m : M) : p'.rest.head? = p.rest.head? := head?_eq (meet.places m) (meet.live m)

theorem atEnd (m : M) : p'.atEnd = p.atEnd := atEnd_eq (meet.places m) (meet.live m)

theorem position (m : M) (he : g.exact = true) : p'.position = p.position := (meet.places m).position he

end Meet

end Pairing

end Stylesheet
