import Stylesheet.Proofs.Gap

namespace Stylesheet

theorem Reader.start_append (text more : String) (settings : Settings) (line : Nat) :
    (Reader.start (text ++ more) settings line).place.rest = text.toList ++ more.toList := String.toList_append

namespace Read

variable {α β : Type}

/-- What a step yields from a state, and the state that it leaves. -/
def outcome (x : Read α) (r : Reader) : Except Fault α × Reader := x.run.run r

/-- The outcome of a step that goes on behind another one. -/
def following (o : Except Fault α × Reader) (f : α → Read β) : Except Fault β × Reader :=
  match o with
  | (.ok a, r) => (f a).outcome r
  | (.error e, r) => (.error e, r)

/-- The outcome of a step whose fault is handled. -/
def rescued (o : Except Fault α × Reader) (h : Fault → Read α) : Except Fault α × Reader :=
  match o with
  | (.ok a, r) => (.ok a, r)
  | (.error e, r) => (h e).outcome r

@[simp] theorem following_ok (a : α) (r : Reader) (f : α → Read β) :
    following (.ok a, r) f = (f a).outcome r := rfl

@[simp] theorem following_error (e : Fault) (r : Reader) (f : α → Read β) :
    following (.error e, r) f = (.error e, r) := rfl

@[simp] theorem rescued_ok (a : α) (r : Reader) (h : Fault → Read α) :
    rescued (.ok a, r) h = (.ok a, r) := rfl

@[simp] theorem rescued_error (e : Fault) (r : Reader) (h : Fault → Read α) :
    rescued (.error e, r) h = (h e).outcome r := rfl

@[simp] theorem outcome_pure (a : α) (r : Reader) : (pure a : Read α).outcome r = (.ok a, r) := rfl

@[simp] theorem outcome_throw (e : Fault) (r : Reader) : (throw e : Read α).outcome r = (.error e, r) := rfl

@[simp] theorem outcome_bind (x : Read α) (f : α → Read β) (r : Reader) :
    (x >>= f).outcome r = following (x.outcome r) f := by
  unfold outcome following
  simp only [ExceptT.run_bind, StateT.run_bind]
  rcases StateT.run (ExceptT.run x) r with ⟨_ | _, _⟩ <;> rfl

@[simp] theorem outcome_tryCatch (x : Read α) (h : Fault → Read α) (r : Reader) :
    (tryCatch x h).outcome r = rescued (x.outcome r) h := by
  change StateT.run (ExceptT.run (ExceptT.tryCatch x h)) r = _
  unfold outcome rescued
  simp only [ExceptT.tryCatch, ExceptT.run_mk, StateT.run_bind]
  rcases h : StateT.run (ExceptT.run x) r with ⟨_ | _, _⟩
  · simp only [ExceptT.run] at h
    rw [h]
    rfl
  · simp only [ExceptT.run] at h
    rw [h]
    rfl

@[simp] theorem outcome_map (f : α → β) (x : Read α) (r : Reader) :
    (f <$> x).outcome r = following (x.outcome r) fun a => pure (f a) := by
  rw [map_eq_pure_bind, outcome_bind]

@[simp] theorem outcome_discard (x : Read α) (r : Reader) :
    (discard x).outcome r = following (x.outcome r) fun _ => pure () := by
  simp only [discard, Functor.discard, Functor.mapConst, Function.comp]
  exact outcome_map _ x r

@[simp] theorem outcome_get (r : Reader) : (get : Read Reader).outcome r = (.ok r, r) := rfl

@[simp] theorem outcome_modify (f : Reader → Reader) (r : Reader) :
    (modify f : Read Unit).outcome r = (.ok (), f r) := rfl

@[simp] theorem outcome_place (r : Reader) : place.outcome r = (.ok r.place, r) := rfl

@[simp] theorem outcome_left (r : Reader) : left.outcome r = (.ok r.place.rest.length, r) := rfl

@[simp] theorem outcome_isLenient (r : Reader) : isLenient.outcome r = (.ok r.settings.lenient, r) := rfl

@[simp] theorem outcome_goto (p : Place) (r : Reader) :
    (goto p).outcome r = (.ok (), { r with place := p }) := rfl

@[simp] theorem outcome_note (level : Level) (text : String) (r : Reader) :
    (note level text).outcome r = (.ok (), r.note level text) := rfl

@[simp] theorem outcome_move (f : Settings → Place → Except Fault α × Place) (r : Reader) :
    (move f).outcome r = ((f r.settings r.place).1, { r with place := (f r.settings r.place).2 }) := by
  simp only [move, outcome_bind, outcome_get, following_ok, outcome_goto]
  rcases f r.settings r.place with ⟨_ | _, _⟩ <;> rfl

/-- What a step and its continuation come to is what the continuation comes to. -/
theorem ok_of_bind {x : Read α} {f : α → Read β} {r t : Reader} {b : β} (h : (x >>= f).outcome r = (.ok b, t)) :
    ∃ a s, x.outcome r = (.ok a, s) ∧ (f a).outcome s = (.ok b, t) := by
  rw [outcome_bind] at h
  rcases hx : x.outcome r with ⟨e | a, s⟩
  · rw [hx] at h
    cases h
  · rw [hx] at h
    exact ⟨a, s, rfl, h⟩

theorem ok_of_toOption {x : Read α} {r : Reader} {a : α} (h : (x.outcome r).1.toOption = some a) :
    ∃ s, x.outcome r = (.ok a, s) := by
  rcases hx : x.outcome r with ⟨e | b, s⟩
  · rw [hx] at h
    cases h
  · rw [hx] at h
    cases h
    exact ⟨s, rfl⟩

theorem ok_of_any {x : Read α} {r : Reader} {p : α → Bool} (h : (x.outcome r).1.toOption.any p = true) :
    ∃ a s, x.outcome r = (.ok a, s) ∧ p a = true := by
  rcases hx : x.outcome r with ⟨e | a, s⟩
  · rw [hx] at h
    cases h
  · rw [hx] at h
    exact ⟨a, s, rfl, h⟩

theorem ok_of_discard {x : Read α} {r s : Reader} {u : Unit} (h : (discard x).outcome r = (.ok u, s)) :
    ∃ a, x.outcome r = (.ok a, s) := by
  rw [outcome_discard] at h
  rcases hx : x.outcome r with ⟨e | a, s'⟩
  · rw [hx] at h
    cases h
  · rw [hx] at h
    cases h
    exact ⟨a, rfl⟩

theorem outcome_take (n : Nat) (r : Reader) :
    (take n).outcome r =
      if (r.place.rest.take n).length < n then
        (.error (.unexpectedEnd (toString n ++ " characters") r.place.location), r)
      else (.ok (String.ofList (r.place.rest.take n)), { r with place := r.place.forward r.settings.width n }) := by
  rw [take, outcome_move]
  dsimp only
  split <;> rfl

/-- A literal is taken where it stands, and only there. -/
theorem outcome_literal (l : String) (r : Reader) :
    (literal l).outcome r =
      if r.place.comes l then (.ok l, { r with place := r.place.forward r.settings.width l.length })
      else (.error (unexpected ("`" ++ l ++ "`") r.place (max l.length 5)), r) := by
  rw [literal, outcome_bind, outcome_place, following_ok]
  split
  · next h =>
    obtain ⟨-, tail, ht⟩ := Place.comes_iff.mp h
    have taken : r.place.rest.take l.length = l.toList := by
      rw [← ht, ← String.length_toList, List.take_left]
    rw [outcome_take, taken, String.length_toList, if_neg (Nat.lt_irrefl _), String.ofList_toList]
  · rfl

theorem rest_of_literal {l a : String} {r s : Reader} (h : (literal l).outcome r = (.ok a, s)) :
    r.place.rest = l.toList ++ s.place.rest := by
  rw [outcome_literal] at h
  split at h
  · next hc =>
    cases h
    obtain ⟨-, tail, ht⟩ := Place.comes_iff.mp hc
    rw [Place.forward_rest, ← ht, ← String.length_toList, List.drop_left]
  · cases h

/-- What skipping a gap comes to. -/
theorem outcome_gap (r : Reader) :
    gap.outcome r =
      if (r.place.pastGap r.settings.width).2.2 then
        if r.settings.lenient then
          (.ok (r.place.pastGap r.settings.width).1,
            Reader.note .warn "Unterminated comment running to end of input"
              { r with place := (r.place.pastGap r.settings.width).2.1.toEnd r.settings.width })
        else
          (.error (.unexpectedEnd "1 character"
              ((r.place.pastGap r.settings.width).2.1.toEnd r.settings.width).location),
            { r with place := (r.place.pastGap r.settings.width).2.1.toEnd r.settings.width })
      else
        (.ok (r.place.pastGap r.settings.width).1, { r with place := (r.place.pastGap r.settings.width).2.1 }) := by
  rw [gap, outcome_bind, outcome_get, following_ok]
  dsimp only
  split
  · rw [outcome_bind, outcome_goto, following_ok]
    split
    · rfl
    · rfl
  · rfl

/-- Skipping a gap leaves what stands behind the gap. Lenient reading leaves nothing where a comment is never closed. -/
theorem lenient_or_gap_of_ok {r s : Reader} {cs : List Comment} (h : gap.outcome r = (.ok cs, s)) :
    (r.settings.lenient = true ∧ s.place.rest = []) ∨ ∃ texts g, IsGap texts g ∧ r.place.rest = g ++ s.place.rest := by
  have passed := Place.pastGap_isGap r.settings.width r.place
  rw [outcome_gap] at h
  split at h
  · split at h
    · next lenient =>
      cases h
      exact .inl ⟨lenient, by simp [Reader.note, Place.toEnd]⟩
    · cases h
  · cases h
    exact .inr ⟨_, passed⟩

/-- Skipping a gap leaves nothing, or what stands behind the gap. -/
theorem gap_of_ok {r s : Reader} {cs : List Comment} (h : gap.outcome r = (.ok cs, s)) :
    s.place.rest = [] ∨ ∃ texts g, IsGap texts g ∧ r.place.rest = g ++ s.place.rest :=
  (lenient_or_gap_of_ok h).imp_left And.right

/-- In strict reading only the text can end behind a gap, not a comment. -/
theorem gap_of_strict {r s : Reader} {cs : List Comment} (hl : r.settings.lenient = false)
    (h : gap.outcome r = (.ok cs, s)) : ∃ texts g, IsGap texts g ∧ r.place.rest = g ++ s.place.rest :=
  (lenient_or_gap_of_ok h).resolve_left fun unclosed => Bool.false_ne_true (hl.symm.trans unclosed.1)

/-- A loop's next round, where the characters left decide whether there is one. -/
theorem outcome_shorter (n : Nat) (again : (m : Nat) → m < n → Read α) (otherwise : Read α) (r : Reader) :
    (shorter n again otherwise).outcome r =
      if h : r.place.rest.length < n then (again r.place.rest.length h).outcome r else otherwise.outcome r := by
  simp only [shorter, outcome_bind, outcome_left, following_ok]
  split <;> rfl

/-- Whatever the step yields, `P` holds of it. -/
def Yields (x : Read α) (P : α → Prop) : Prop := ∀ r a s, x.outcome r = (.ok a, s) → P a

namespace Yields

variable {x : Read α} {f : α → Read β} {P : α → Prop} {Q : β → Prop}

theorem pure {a : α} (ha : P a) : Yields (Pure.pure a) P := by
  intro r b s h
  cases h
  exact ha

theorem throw (e : Fault) : Yields (MonadExcept.throw e : Read α) P := nofun

theorem bind (hx : Yields x P) (hf : ∀ a, P a → Yields (f a) Q) : Yields (x >>= f) Q := by
  intro r b t h
  obtain ⟨a, s, hs, h⟩ := ok_of_bind h
  exact hf a (hx r a s hs) s b t h

/-- What the first step yields does not matter. -/
theorem behind (hf : ∀ a, Yields (f a) Q) : Yields (x >>= f) Q :=
  bind (P := fun _ => True) (fun _ _ _ _ => trivial) fun a _ => hf a

theorem map {g : α → β} (h : ∀ a, Q (g a)) : Yields (g <$> x) Q := by
  rw [map_eq_pure_bind]
  exact behind fun a => pure (h a)

/-- A test that may fail. -/
theorem orThrow {c : Prop} [Decidable c] {e : Fault} {g : PUnit → Read α} (hg : Yields (g ⟨⟩) P) :
    Yields (if c then MonadExcept.throw e >>= g else g ⟨⟩) P := by
  split
  · exact bind (P := fun _ => False) (throw e) nofun
  · exact hg

theorem caught {h : Fault → Read α} (hx : Yields x P) (hh : ∀ e, Yields (h e) P) : Yields (tryCatch x h) P := by
  intro r a s hs
  rw [outcome_tryCatch] at hs
  rcases ho : x.outcome r with ⟨e | b, t⟩
  · rw [ho] at hs
    exact hh e t a s hs
  · rw [ho] at hs
    cases hs
    exact hx r a s ho

theorem shorter {n : Nat} {again : (m : Nat) → m < n → Read α} {otherwise : Read α}
    (ha : ∀ m h, Yields (again m h) P) (ho : Yields otherwise P) : Yields (Read.shorter n again otherwise) P := by
  intro r a s h
  rw [outcome_shorter] at h
  split at h
  · exact ha _ _ r a s h
  · exact ho r a s h

end Yields

/-- Whatever the step yields, `P` holds of it and of the position where the step began. -/
def YieldsAt (x : Read α) (P : Position → α → Prop) : Prop :=
  ∀ r a s, x.outcome r = (.ok a, s) → P r.place.position a

namespace YieldsAt

variable {x : Read α} {P : Position → α → Prop}

theorem here {f : Place → Read α} (hf : ∀ p, Yields (f p) (P p.position)) : YieldsAt (place >>= f) P :=
  fun r a s h => hf r.place r a s h

theorem mono {Q : Position → α → Prop} (hx : YieldsAt x P) (h : ∀ p a, P p a → Q p a) : YieldsAt x Q :=
  fun r a s hs => h _ a (hx r a s hs)

theorem yields {Q : α → Prop} (hx : YieldsAt x P) (h : ∀ p a, P p a → Q a) : Yields x Q :=
  fun r a s hs => h _ a (hx r a s hs)

theorem map {g : β → α} {y : Read β} (hy : YieldsAt y fun p b => P p (g b)) : YieldsAt (g <$> y) P := by
  intro r a s h
  rw [map_eq_pure_bind] at h
  obtain ⟨b, t, read, h⟩ := ok_of_bind h
  cases h
  exact hy r b s read

end YieldsAt

end Read

end Stylesheet
