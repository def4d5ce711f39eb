import Stylesheet.Proofs.Outcome
import Stylesheet.Proofs.Segments
import Stylesheet.Source.Identifier

namespace Stylesheet

namespace Read

variable {α β : Type} {l m k : List Char} {x : Read α} {f : α → Read β} {P : α → Prop} {Q : β → Prop}

/-- Where `l` is left, the step leaves `m` and yields something that `P` holds of. -/
def Takes (l m : List Char) (x : Read α) (P : α → Prop) : Prop :=
  ∀ r, r.place.rest = l → ∃ a s, x.outcome r = (.ok a, s) ∧ s.place.rest = m ∧ P a

namespace Takes

theorem mono {Q : α → Prop} (hx : Takes l m x P) (h : ∀ a, P a → Q a) : Takes l m x Q := by
  intro r hr
  obtain ⟨a, s, hs, hm, ha⟩ := hx r hr
  exact ⟨a, s, hs, hm, h a ha⟩

/-- What is yielded wherever the step succeeds. -/
theorem yielding {Q : α → Prop} (hx : Takes l m x P) (hy : Yields x Q) : Takes l m x fun a => P a ∧ Q a := by
  intro r hr
  obtain ⟨a, s, hs, hm, ha⟩ := hx r hr
  exact ⟨a, s, hs, hm, ha, hy r a s hs⟩

theorem pure {a : α} (ha : P a) : Takes l l (Pure.pure a) P :=
  fun r hr => ⟨a, r, rfl, hr, ha⟩

theorem bind (hx : Takes l m x P) (hf : ∀ a, P a → Takes m k (f a) Q) : Takes l k (x >>= f) Q := by
  intro r hr
  obtain ⟨a, s, hs, hm, ha⟩ := hx r hr
  obtain ⟨b, t, ht, hk, hb⟩ := hf a ha s hm
  refine ⟨b, t, ?_, hk, hb⟩
  rw [outcome_bind, hs, following_ok, ht]

theorem map {f : α → β} (hx : Takes l m x P) (hf : ∀ a, P a → Q (f a)) : Takes l m (f <$> x) Q := by
  rw [map_eq_pure_bind]
  exact hx.bind fun a ha => .pure (hf a ha)

theorem discard (hx : Takes l m x P) : Takes l m (discard x) fun _ => True :=
  hx.map fun _ _ => trivial

/-- A step that looks at the place it is at. -/
theorem here {f : Place → Read β} (hf : ∀ p, p.rest = l → Takes l m (f p) Q) : Takes l m (place >>= f) Q := by
  intro r hr
  exact hf r.place hr r hr

/-- A step that asks for the mode. -/
theorem asking {f : Bool → Read β} (hf : ∀ b, Takes l m (f b) Q) : Takes l m (isLenient >>= f) Q := by
  intro r hr
  exact hf r.settings.lenient r hr

theorem left : Takes l l Read.left (· = l.length) := by
  intro r hr
  exact ⟨_, r, rfl, hr, congrArg List.length hr⟩

theorem goto (p : Place) : Takes l p.rest (Read.goto p) fun _ => True :=
  fun r _ => ⟨(), { r with place := p }, rfl, rfl, trivial⟩

theorem note (level : Level) (t : String) : Takes l l (Read.note level t) fun _ => True :=
  fun r hr => ⟨(), r.note level t, rfl, hr, trivial⟩

theorem move {f : Settings → Place → Except Fault α × Place}
    (hf : ∀ s p, p.rest = l → ∃ a, (f s p).1 = .ok a ∧ (f s p).2.rest = m ∧ P a) :
    Takes l m (Read.move f) P := by
  intro r hr
  obtain ⟨a, ha, hm, hg⟩ := hf r.settings r.place hr
  refine ⟨a, { r with place := (f r.settings r.place).2 }, ?_, hm, hg⟩
  rw [outcome_move, ha]

theorem skip (n : Nat) : Takes l (l.drop n) (Read.skip n) fun _ => True := by
  refine move fun s p hp => ⟨(), rfl, ?_, trivial⟩
  rw [Place.forward_rest, hp]

theorem literal {t : String} (ht : t.toList ≠ []) : Takes (t.toList ++ l) l (Read.literal t) fun _ => True := by
  intro r hr
  have comes : r.place.comes t = true := Place.comes_iff.mpr ⟨ht, by rw [hr]; exact List.prefix_append _ _⟩
  refine ⟨t, { r with place := r.place.forward r.settings.width t.length }, ?_, ?_, trivial⟩
  · rw [outcome_literal, if_pos comes]
  · rw [Place.forward_rest, hr, ← String.length_toList, List.drop_left]

theorem shorter {n : Nat} {again : (m : Nat) → m < n → Read α} {otherwise : Read α} (hn : l.length < n)
    (ha : ∀ h, Takes l m (again l.length h) P) : Takes l m (Read.shorter n again otherwise) P := by
  intro r hr
  subst hr
  rw [outcome_shorter, dif_pos hn]
  exact ha hn r rfl

/-- A step that succeeds leaves nothing to handle. -/
theorem caught {h : Fault → Read α} (hx : Takes l m x P) : Takes l m (tryCatch x h) P := by
  intro r hr
  obtain ⟨a, s, hs, hm, ha⟩ := hx r hr
  refine ⟨a, s, ?_, hm, ha⟩
  rw [outcome_tryCatch, hs, rescued_ok]

/-- A test that does not fail. -/
theorem passing {c : Prop} [Decidable c] {e : Fault} {f : PUnit → Read α} (hc : ¬ c)
    (hf : Takes l m (f ⟨⟩) P) : Takes l m (if c then MonadExcept.throw e >>= f else f ⟨⟩) P := by
  rw [if_neg hc]
  exact hf

end Takes

/-- Where `l` is left, the step fails. -/
def Fails (l : List Char) (x : Read α) : Prop := ∀ r, r.place.rest = l → ∃ e s, x.outcome r = (.error e, s)

theorem Fails.first (hx : Fails l x) : Fails l (x >>= f) := by
  intro r hr
  obtain ⟨e, s, hs⟩ := hx r hr
  exact ⟨e, s, by rw [outcome_bind, hs, following_error]⟩

/-- A step and one that fails behind it. -/
theorem Takes.fails (hx : Takes l m x P) (hf : ∀ a, P a → Fails m (f a)) : Fails l (x >>= f) := by
  intro r hr
  obtain ⟨a, s, hs, hm, ha⟩ := hx r hr
  obtain ⟨e, t, ht⟩ := hf a ha s hm
  exact ⟨e, t, by rw [outcome_bind, hs, following_ok, ht]⟩

namespace Fails

theorem here {f : Place → Read β} (hf : ∀ p, p.rest = l → Fails l (f p)) : Fails l (place >>= f) := by
  intro r hr
  exact hf r.place hr r hr

theorem asking {f : Bool → Read β} (hf : ∀ b, Fails l (f b)) : Fails l (isLenient >>= f) := by
  intro r hr
  exact hf r.settings.lenient r hr

theorem discard (hx : Fails l x) : Fails l (discard x) := by
  intro r hr
  obtain ⟨e, s, hs⟩ := hx r hr
  exact ⟨e, s, by rw [outcome_discard, hs, following_error]⟩

/-- A literal that does not stand here is missed. -/
theorem literal {t : String} (absent : ¬ t.toList <+: l) : Fails l (Read.literal t) := by
  intro r hr
  have missing : r.place.comes t = false := by
    rw [Bool.eq_false_iff]
    intro comes
    rw [← hr] at absent
    exact absent (Place.comes_iff.mp comes).2
  rw [outcome_literal, missing]
  exact ⟨_, _, rfl⟩

end Fails

end Read

/-- The characters from the first one on that is not blank. -/
def pastBlank (l : List Char) : List Char := l.dropWhile Text.isBlank

/-- Neither a blank nor a comment begins here. -/
structure Stops (l : List Char) : Prop where
  solid : pastBlank l = l
  uncommented : ¬ ['/', '*'] <+: l

theorem pastBlank_append {b l : List Char} (hb : b.all Text.isBlank = true) : pastBlank (b ++ l) = pastBlank l := by
  induction b with
  | nil => rfl
  | cons c b ih =>
    rw [List.all_cons, Bool.and_eq_true] at hb
    rw [List.cons_append, pastBlank, List.dropWhile_cons_of_pos hb.1]
    exact ih hb.2

theorem pastBlank_cons {c : Char} {l : List Char} (hc : Text.isBlank c = false) : pastBlank (c :: l) = c :: l := by
  rw [pastBlank, List.dropWhile_cons_of_neg]
  simp [hc]

/-- What stops a gap is no blank. -/
theorem Stops.solid_head {c : Char} {rest : List Char} (h : Stops (c :: rest)) : Text.isBlank c = false := by
  rw [Bool.eq_false_iff]
  intro blank
  have solid := h.solid
  rw [pastBlank, List.dropWhile_cons_of_pos blank] at solid
  have shorter := (List.dropWhile_suffix Text.isBlank (l := rest)).length_le
  rw [solid, List.length_cons] at shorter
  omega

theorem Stops.nil : Stops [] := ⟨rfl, by simp⟩

theorem Stops.cons {c : Char} {l : List Char} (hb : Text.isBlank c = false) (hc : c ≠ '/') : Stops (c :: l) := by
  refine ⟨pastBlank_cons hb, fun h => ?_⟩
  obtain ⟨t, ht⟩ := h
  rw [List.cons_append, List.cons.injEq] at ht
  exact hc ht.1.symm

namespace Place

theorem opening_absent {width : Char → Nat} {p : Place} (h : ¬ ['/', '*'] <+: p.rest) :
    p.opening width = .absent := by
  unfold opening
  split
  · next rest hr => exact absurd ⟨rest, by rw [hr]; rfl⟩ h
  · rfl

theorem commentBody?_append {body rest : List Char} (h : ¬ ['*', '/'] <:+: body) :
    commentBody? (body ++ '*' :: '/' :: rest) = some body := by
  induction body with
  | nil => rfl
  | cons c body ih =>
    have inner : ¬ ['*', '/'] <:+: body := fun hi => h (List.infix_cons_iff.mpr (.inr hi))
    rw [List.cons_append, commentBody?]
    · rw [ih inner]
      rfl
    · intro tail hc ht
      subst hc
      cases body with
      | nil => cases ht
      | cons d body =>
        rw [List.cons_append, List.cons.injEq] at ht
        refine h (List.infix_cons_iff.mpr (.inl ⟨body, ?_⟩))
        rw [ht.1]
        rfl

end Place

/-- Of two gaps that stand at the start of one text, the second before a character that begins no gap, the second goes on
where the first one ends. -/
theorem IsGap.goes_on {texts us : List String} {g k l m : List Char} {c : Char} (hg : IsGap texts g) (hk : IsGap us k)
    (solid : Text.isBlank c = false) (other : c ≠ '/') (h : g ++ l = k ++ c :: m) :
    ∃ vs j, IsGap vs j ∧ l = j ++ c :: m := by
  induction hg generalizing us k with
  | nil => exact ⟨us, k, hk, h⟩
  | @blank _ d _ blank _ ih =>
    cases hk with
    | nil =>
      cases h
      rw [solid] at blank
      cases blank
    | blank _ hk => exact ih hk (List.cons.inj h).2
    | comment =>
      rw [(List.cons.inj h).1] at blank
      exact absurd blank (by decide)
  | @comment _ body rest closed _ ih =>
    cases hk with
    | nil => exact absurd (List.cons.inj h).1.symm other
    | blank blank _ =>
      rw [← (List.cons.inj h).1] at blank
      exact absurd blank (by decide)
    | @comment _ body' rest' closed' hk =>
      have inner : body ++ '*' :: '/' :: (rest ++ l) = body' ++ '*' :: '/' :: (rest' ++ c :: m) := by simpa using h
      have same : body = body' := by
        have first : Place.commentBody? (body ++ '*' :: '/' :: (rest ++ l)) = some body := Place.commentBody?_append closed
        rw [inner, Place.commentBody?_append closed'] at first
        exact (Option.some.inj first).symm
      subst same
      exact ih hk (by simpa using inner)

namespace Place

theorem pastBlanks_next {width : Char → Nat} {p : Place} {c : Char} {rest : List Char}
    (hp : p.rest = c :: rest) (hc : Text.isBlank c = true) : p.pastBlanks width = (p.next width).pastBlanks width := by
  rw [pastBlanks, pastBlanks, next_rest, hp, List.takeWhile_cons_of_pos hc]
  rfl

theorem pastBlanks_stay {width : Char → Nat} {p : Place} (hp : pastBlank p.rest = p.rest) :
    p.pastBlanks width = p := by
  have noBlank : p.rest.takeWhile Text.isBlank = [] := by
    have parts : p.rest.takeWhile Text.isBlank ++ pastBlank p.rest = p.rest := List.takeWhile_append_dropWhile
    rw [hp] at parts
    exact List.append_left_eq_self.mp parts
  rw [pastBlanks, noBlank]
  rfl

/-- Where neither a blank nor a comment stands, nothing is passed. -/
theorem pastGap_of_stops {width : Char → Nat} {p : Place} (h : Stops p.rest) : p.pastGap width = ([], p, false) := by
  rw [pastGap_eq, pastBlanks_stay h.solid, opening_absent h.uncommented]

/-- A comment that does not end before its end is found as a whole. -/
theorem opening_comment {width : Char → Nat} {p : Place} {text : String} {l : List Char}
    (hp : p.rest = (Segment.comment text).chars ++ l) (ht : ¬ ['*', '/'] <:+: text.toList) :
    p.opening width = .whole ⟨text, some p.position⟩ (p.forward width (text.toList.length + 4)) := by
  have start : p.rest = '/' :: '*' :: (text.toList ++ '*' :: '/' :: l) := by
    rw [hp, Segment.chars_comment]
    simp
  rw [opening, start]
  simp only [commentBody?_append ht, String.ofList_toList]

/-- Skipping blanks and comments passes a gap as a whole where it stops, and finds each comment where it stands. -/
theorem pastGap_of_segments {width : Char → Nat} {ss : List Segment} {l : List Char} {p : Place}
    (hs : ∀ s ∈ ss, s.InGap) (hl : Stops l) (hp : p.rest = Segment.textOf ss ++ l) :
    p.pastGap width =
      (Segment.commentsFrom width p ss, p.forward width (Segment.textOf ss).length, false) := by
  induction ss generalizing p with
  | nil =>
    have rest : p.rest = l := hp
    exact pastGap_of_stops (rest ▸ hl)
  | cons s ss ih =>
    obtain ⟨first, others⟩ := List.forall_mem_cons.mp hs
    rw [Segment.textOf_cons, List.append_assoc] at hp
    rw [Segment.textOf_cons]
    cases s with
    | char c =>
      rw [pastGap_eq, pastBlanks_next hp first, ← pastGap_eq, ih others (by rw [next_rest, hp]; rfl)]
      rfl
    | comment text =>
      have stay : pastBlank p.rest = p.rest := by rw [hp, Segment.chars_comment]; exact pastBlank_cons rfl
      have behind : (p.forward width (text.toList.length + 4)).rest = Segment.textOf ss ++ l := by
        rw [forward_rest, hp, ← Segment.length_chars_comment, List.drop_left]
      rw [pastGap_eq, pastBlanks_stay stay, opening_comment hp first]
      dsimp only
      rw [ih others behind, List.length_append, Segment.length_chars_comment,
        forward_add width (text.toList.length + 4), Segment.commentsFrom]

theorem pastGap_of_isGap {width : Char → Nat} {texts : List String} {g l : List Char} {p : Place}
    (hg : IsGap texts g) (hl : Stops l) (hp : p.rest = g ++ l) :
    (p.pastGap width).1.map Comment.text = texts ∧ (p.pastGap width).2.1.rest = l ∧
      (p.pastGap width).2.2 = false := by
  obtain ⟨ss, fits, rfl, rfl⟩ := hg.segments
  rw [pastGap_of_segments fits hl hp]
  exact ⟨Segment.texts_commentsFrom width p ss, by rw [forward_rest, hp, List.drop_left], rfl⟩

end Place

/-- Where neither a blank nor a comment stands, nothing is skipped. -/
theorem Read.outcome_gap_of_stops {r : Reader} (h : Stops r.place.rest) : gap.outcome r = (.ok [], r) := by
  rw [outcome_gap, Place.pastGap_of_stops h]
  rfl

namespace Read.Takes

variable {l : List Char}

theorem gap {texts : List String} {g : List Char} (hg : IsGap texts g) (hl : Stops l) :
    Takes (g ++ l) l Read.gap fun cs => cs.map Comment.text = texts := by
  intro r hr
  obtain ⟨hcs, hrest, hu⟩ := Place.pastGap_of_isGap hg hl hr
  refine ⟨(r.place.pastGap r.settings.width).1, { r with place := (r.place.pastGap r.settings.width).2.1 }, ?_, hrest,
    hcs⟩
  rw [Read.gap, outcome_bind, outcome_get, following_ok]
  rcases hp : r.place.pastGap r.settings.width with ⟨cs, p, unclosed⟩
  rw [hp] at hu
  cases hu
  simp only [hp]
  rfl

/-- Blanks only, where what follows them is no comment. -/
theorem blanks (hl : Stops (pastBlank l)) : Takes l (pastBlank l) Read.gap fun cs => cs.map Comment.text = [] := by
  have parts : l.takeWhile Text.isBlank ++ pastBlank l = l := List.takeWhile_append_dropWhile
  have blank : (l.takeWhile Text.isBlank).all Text.isBlank = true := List.all_takeWhile
  have passed := gap (.ofBlanks blank) hl
  rwa [parts] at passed

end Read.Takes

end Stylesheet
