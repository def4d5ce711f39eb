import Stylesheet.Proofs.Passage
import Stylesheet.Proofs.SteadySheet

namespace Stylesheet

open Read (Advances)

/-- The offset and the characters left make up the whole text. -/
theorem Place.offset_add_length (p : Place) : p.offset + p.rest.length = p.text.length := by
  rw [offset, text, List.length_append, List.length_reverse]

theorem Reader.Reaches.offset_le {r s : Reader} (h : r.Reaches s) : r.place.offset ≤ s.place.offset := by
  have before := r.place.offset_add_length
  have behind := s.place.offset_add_length
  rw [h.ahead.text] at behind
  have less := h.ahead.rest_length_le
  omega

theorem Reader.Passes.offset_lt {r s : Reader} (h : r.Passes s) : r.place.offset < s.place.offset := by
  have before := r.place.offset_add_length
  have behind := s.place.offset_add_length
  rw [h.ahead.text] at behind
  have less := h.shorter
  omega

/-- Where the offset has changed, some of the text has been taken. -/
theorem Reader.Reaches.passes_of_offset {r s : Reader} (h : r.Reaches s) (moved : s.place.offset ≠ r.place.offset) :
    r.Passes s := by
  refine ⟨h, ?_⟩
  have before := r.place.offset_add_length
  have behind := s.place.offset_add_length
  rw [h.ahead.text] at behind
  have le := h.offset_le
  omega

/-- States that a reading does not leave once it has come to one of them. -/
structure Region where
  holds : Reader → Prop
  lasts : ∀ r s, holds r → r.Reaches s → holds s

namespace Region

/-- The states that a reading from `r` may come to. -/
def ahead (r : Reader) : Region where
  holds := r.Reaches
  lasts _ _ := .trans

/-- The states that a reading comes to when it takes some of the text. -/
def behind (R : Region) : Region where
  holds s := ∃ r, R.holds r ∧ r.Passes s
  lasts := fun _ _ ⟨r, hr, passes⟩ reaches => ⟨r, hr, passes.reaches reaches⟩

variable {R : Region} {r s : Reader}

theorem holds_of_behind (h : R.behind.holds s) : R.holds s := by
  obtain ⟨r, hr, passes⟩ := h
  exact R.lasts r s hr passes.toReaches

theorem passes_of_behind (h : (ahead r).behind.holds s) : r.Passes s := by
  obtain ⟨q, hq, passes⟩ := h
  exact hq.passes passes

end Region

namespace Read

variable {α β : Type} {R : Region} {x x' : Read α} {f f' : α → Read β}

/-- The two steps have the same outcome in every state of the region. -/
def SameIn (R : Region) (x x' : Read α) : Prop := ∀ r, R.holds r → x.outcome r = x'.outcome r

namespace SameIn

theorem refl (x : Read α) : SameIn R x x := fun _ _ => rfl

/-- What is the same in a region is the same behind it. -/
theorem behind (h : SameIn R x x') : SameIn R.behind x x' := fun r hr => h r (Region.holds_of_behind hr)

theorem of_passes {r : Reader} (h : ∀ s, r.Passes s → x.outcome s = x'.outcome s) :
    SameIn (Region.ahead r).behind x x' := fun s hs => h s (Region.passes_of_behind hs)

theorem bind (hx : SameIn R x x') (steady : ∀ text, SteadyWhole text x) (hf : ∀ a, SameIn R (f a) (f' a)) :
    SameIn R (x >>= f) (x' >>= f') := by
  intro r hr
  rw [outcome_bind, outcome_bind, ← hx r hr]
  rcases hs : x.outcome r with ⟨e | a, s⟩
  · rfl
  · exact hf a s (R.lasts r s hr ((steady _).reaches hs))

/-- One step, and two continuations of it. -/
theorem next (steady : ∀ text, SteadyWhole text x) (hf : ∀ a, SameIn R (f a) (f' a)) :
    SameIn R (x >>= f) (x >>= f') := bind (.refl x) steady hf

/-- Behind a step that takes some of the text the continuations have to be the same only there. -/
theorem first (hx : Advances x) (hf : ∀ a, SameIn R.behind (f a) (f' a)) : SameIn R (x >>= f) (x >>= f') := by
  intro r hr
  rw [outcome_bind, outcome_bind]
  rcases hs : x.outcome r with ⟨e | a, s⟩
  · rfl
  · exact hf a s ⟨r, hr, hx r a s hs⟩

theorem bindLeft (hx : SameIn R x x') (f : α → Read β) : SameIn R (x >>= f) (x' >>= f) := by
  intro r hr
  rw [outcome_bind, outcome_bind, hx r hr]

theorem map (f : α → β) (hx : SameIn R x x') : SameIn R (f <$> x) (f <$> x') := by
  intro r hr
  rw [outcome_map, outcome_map, hx r hr]

theorem here {f f' : Place → Read β} (hf : ∀ p, SameIn R (f p) (f' p)) : SameIn R (place >>= f) (place >>= f') :=
  next (fun _ => .place) hf

theorem asking {f f' : Bool → Read β} (hf : ∀ b, SameIn R (f b) (f' b)) :
    SameIn R (isLenient >>= f) (isLenient >>= f') := fun r hr => hf r.settings.lenient r hr

/-- Nothing follows a fault. -/
theorem throwBind {e : Fault} : SameIn R (MonadExcept.throw e >>= f) (MonadExcept.throw e >>= f') := fun _ _ => rfl

theorem ite {c : Prop} [Decidable c] {y y' : Read α} (hx : SameIn R x x') (hy : SameIn R y y') :
    SameIn R (if c then x else y) (if c then x' else y') := by
  split
  · exact hx
  · exact hy

/-- The next round of a loop. -/
theorem shorter {n : Nat} {again again' : (m : Nat) → m < n → Read α} {otherwise : Read α}
    (h : ∀ m hm, SameIn R (again m hm) (again' m hm)) :
    SameIn R (Read.shorter n again otherwise) (Read.shorter n again' otherwise) := by
  intro r hr
  rw [outcome_shorter, outcome_shorter]
  split
  · exact h _ _ r hr
  · rfl

end SameIn

end Read

end Stylesheet
