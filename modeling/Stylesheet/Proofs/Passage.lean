import Stylesheet.Proofs.SteadyValue

namespace Stylesheet

open Read (Steady)

/-- A state that the same reading may come to. -/
structure Reader.Reaches (r s : Reader) : Prop where
  settings : s.settings = r.settings
  ahead : Place.Ahead r.settings.width r.place s.place

/-- A state that the same reading may come to when it takes some of the text. -/
structure Reader.Passes (r s : Reader) : Prop extends r.Reaches s where
  shorter : s.place.rest.length < r.place.rest.length

namespace Reader

variable {r s t : Reader}

theorem Reaches.refl (r : Reader) : r.Reaches r := ⟨rfl, .refl _ _⟩

theorem Reaches.trans (h : r.Reaches s) (k : s.Reaches t) : r.Reaches t := by
  have ahead := k.ahead
  rw [h.settings] at ahead
  exact ⟨k.settings.trans h.settings, h.ahead.trans ahead⟩

theorem Passes.reaches (h : r.Passes s) (k : s.Reaches t) : r.Passes t :=
  ⟨h.toReaches.trans k, Nat.lt_of_le_of_lt k.ahead.rest_length_le h.shorter⟩

theorem Reaches.passes (h : r.Reaches s) (k : s.Passes t) : r.Passes t :=
  ⟨h.trans k.toReaches, Nat.lt_of_lt_of_le k.shorter h.ahead.rest_length_le⟩

end Reader

theorem Read.Kept.reaches {α : Type} {r s : Reader} {x : Except Fault α} (h : Read.Kept r (x, s)) : r.Reaches s :=
  ⟨h.settings, h.ahead⟩

theorem Read.Steady.reaches {α : Type} {final : Fault → Bool} {r s : Reader} {x : Read α} {o : Except Fault α}
    (hx : Steady final r.place.text x) (h : x.outcome r = (o, s)) : r.Reaches s :=
  (hx.kept h).reaches

namespace Place

variable {s : Settings} {p : Place} {t : List Char}

theorem identifier_rest (h : (p.identifier s).1 = .ok t) : (p.identifier s).2.rest.length < p.rest.length := by
  have goes := goesOn_of_identifier h
  have less := piece_rest (s := s) (rest_ne_nil_of_goesOn goes)
  rw [identifier_eq_spelling goes, spelling_eq, if_pos goes]
  rcases one : p.piece s with ⟨e | piece, q⟩
  · rw [one] at less
    exact less
  · rw [one] at less
    exact Nat.lt_of_le_of_lt (ahead_spelling s q).rest_length_le less

/-- A search that finds a stop ends before it. -/
theorem rest_of_found {width : Char → Nat} {stops : List Char} {p : Place} (h : (p.upTo width stops).halt = .found) :
    ∃ c rest, (p.upTo width stops).place.rest = c :: rest ∧ c ∈ stops := by
  fun_induction upTo width stops p with
  | case1 p hr => cases h
  | case2 p c rest hr hc => exact ⟨c, rest, hr, hc⟩
  | case3 p c rest hr hc ho run ih => exact ih h
  | case4 p c rest hr hc ho => cases h
  | case5 p c rest hr hc k q ho run ih => exact ih h

/-- A search without a stop ends with the text. -/
theorem rest_of_exhausted {width : Char → Nat} {stops : List Char} {p : Place}
    (h : (p.upTo width stops).halt = .exhausted) : (p.upTo width stops).place.rest = [] := by
  fun_induction upTo width stops p with
  | case1 p hr => exact hr
  | case2 p c rest hr hc => cases h
  | case3 p c rest hr hc ho run ih => exact ih h
  | case4 p c rest hr hc ho => cases h
  | case5 p c rest hr hc k q ho run ih => exact ih h

end Place

namespace Read

variable {α β : Type} {r : Reader} {x : Read α} {f : α → Read β}

/-- A search that must find a stop, and stays before it. -/
theorem rest_of_upToBefore {stops : List Char} {s : Reader} {t : String}
    (h : (upTo stops .before false).outcome r = (.ok t, s)) : ∃ c rest, s.place.rest = c :: rest ∧ c ∈ stops := by
  rw [upTo, outcome_move, upToStop] at h
  split at h
  · next found =>
    cases h
    exact Place.rest_of_found found
  · cases h
  · cases h

/-- A search that goes behind its stop takes the stop, or the rest of the text. -/
theorem rest_of_upToBehind {stops : List Char} {orEnd : Bool} {s : Reader} {t : String}
    (h : (upTo stops .behind orEnd).outcome r = (.ok t, s)) :
    s.place.rest.length < r.place.rest.length ∨ orEnd = true ∧ s.place.rest = [] := by
  have ahead := (Place.ahead_upTo r.settings.width stops r.place).rest_length_le
  rw [upTo, outcome_move, upToStop] at h
  split at h
  · next found =>
    cases h
    obtain ⟨c, rest, stop, -⟩ := Place.rest_of_found found
    rw [stop, List.length_cons] at ahead
    left
    rw [Place.next_rest, stop, List.tail_cons]
    exact ahead
  · next exhausted =>
    split at h
    · next toEnd =>
      cases h
      exact .inr ⟨toEnd, Place.rest_of_exhausted exhausted⟩
    · cases h
  · cases h

/-- Whatever the step yields in the state `r`, it takes some of the text. -/
def AdvancesAt (r : Reader) (x : Read α) : Prop := ∀ a s, x.outcome r = (.ok a, s) → r.Passes s

/-- Whatever the step yields, it takes some of the text. -/
def Advances (x : Read α) : Prop := ∀ r, AdvancesAt r x

namespace AdvancesAt

theorem of_steady (hx : SteadyPart r.place.text x)
    (shorter : ∀ a s, x.outcome r = (.ok a, s) → s.place.rest.length < r.place.rest.length) : AdvancesAt r x := by
  intro a s h
  exact ⟨hx.reaches h, shorter a s h⟩

theorem throw (e : Fault) : AdvancesAt r (MonadExcept.throw e : Read α) := nofun

/-- The first step takes something, and nothing is given back. -/
theorem first (hx : AdvancesAt r x) (hf : ∀ a text, SteadyPart text (f a)) : AdvancesAt r (x >>= f) := by
  intro b t h
  obtain ⟨a, s, hs, ht⟩ := ok_of_bind h
  exact (hx a s hs).reaches ((hf a _).reaches ht)

/-- A later step takes something. -/
theorem behind (hx : SteadyPart r.place.text x) (hf : ∀ a s, x.outcome r = (.ok a, s) → AdvancesAt s (f a)) :
    AdvancesAt r (x >>= f) := by
  intro b t h
  obtain ⟨a, s, hs, ht⟩ := ok_of_bind h
  exact (hx.reaches hs).passes (hf a s hs b t ht)

theorem here {f : Place → Read β} (hf : AdvancesAt r (f r.place)) : AdvancesAt r (place >>= f) := hf

theorem asking {f : Bool → Read β} (hf : AdvancesAt r (f r.settings.lenient)) : AdvancesAt r (isLenient >>= f) := hf

theorem map {g : α → β} (hx : AdvancesAt r x) : AdvancesAt r (g <$> x) := by
  rw [map_eq_pure_bind]
  exact hx.first fun a text => .pure (g a)

theorem discard (hx : AdvancesAt r x) : AdvancesAt r (Functor.discard x) := hx.map

theorem skip {n : Nat} (hn : 0 < n) (nonempty : r.place.rest ≠ []) : AdvancesAt r (Read.skip n) := by
  refine of_steady (.skip n) fun u s h => ?_
  cases h
  have length := List.length_pos_iff.mpr nonempty
  rw [Place.forward_rest, List.length_drop]
  omega

/-- Where something is left, a search that may go up to the end takes some of it. -/
theorem upToEnd (stops : List Char) (nonempty : r.place.rest ≠ []) : AdvancesAt r (Read.upTo stops .behind true) := by
  refine of_steady (.upTo _ _ _) fun t s h => ?_
  rcases rest_of_upToBehind h with shorter | ⟨-, ended⟩
  · exact shorter
  · rw [ended]
    exact List.length_pos_iff.mpr nonempty

theorem shorter {n : Nat} {again : (m : Nat) → m < n → Read α} {otherwise : Read α}
    (ha : ∀ m h, AdvancesAt r (again m h)) (ho : AdvancesAt r otherwise) :
    AdvancesAt r (Read.shorter n again otherwise) := by
  intro a s h
  rw [outcome_shorter] at h
  split at h
  · exact ha _ _ a s h
  · exact ho a s h

end AdvancesAt

namespace Advances

theorem first (hx : Advances x) (hf : ∀ a text, SteadyPart text (f a)) : Advances (x >>= f) :=
  fun r => (hx r).first hf

theorem behind (hx : ∀ text, SteadyPart text x) (hf : ∀ a, Advances (f a)) : Advances (x >>= f) :=
  fun _ => .behind (hx _) fun a s _ => hf a s

theorem discard (hx : Advances x) : Advances (Functor.discard x) := fun r => (hx r).discard

theorem orThrow {c : Prop} [Decidable c] {e : Fault} {g : PUnit → Read α} (hg : Advances (g ⟨⟩)) :
    Advances (if c then MonadExcept.throw e >>= g else g ⟨⟩) := by
  split
  · exact fun _ => nofun
  · exact hg

/-- A literal is taken as a whole. -/
theorem literal {l : String} (hl : l.toList ≠ []) : Advances (Read.literal l) := by
  intro r
  refine .of_steady (.literal l) fun a s h => ?_
  have length := congrArg List.length (rest_of_literal h)
  have positive := List.length_pos_iff.mpr hl
  rw [List.length_append] at length
  omega

/-- So many characters are taken as are asked for. -/
theorem take {n : Nat} (hn : 0 < n) : Advances (Read.take n) := by
  intro r
  refine .of_steady (.take n) fun t s h => ?_
  rw [outcome_take] at h
  split at h
  · cases h
  · next enough =>
    cases h
    rw [List.length_take] at enough
    simp only [Place.forward_rest, List.length_drop]
    omega

/-- A search that goes behind a stop takes the stop. -/
theorem upToBehind (stops : List Char) : Advances (Read.upTo stops .behind false) := by
  intro r
  refine .of_steady (.upTo _ _ _) fun t s h => ?_
  rcases rest_of_upToBehind h with shorter | ⟨toEnd, -⟩
  · exact shorter
  · cases toEnd

/-- An identifier has a character. -/
theorem identifier (ignoreCase : Bool) : Advances (Read.identifier ignoreCase) := by
  intro r
  refine .of_steady (.identifier ignoreCase) fun a s h => ?_
  obtain ⟨cs, t, moved, h⟩ := ok_of_bind h
  rw [outcome_move] at moved
  obtain ⟨taken, rfl⟩ := Prod.mk.inj moved
  cases h
  exact Place.identifier_rest taken

end Advances

end Read

/-- Behind a literal less of the text is left. -/
theorem Reader.passes_of_literal {l : String} (hl : l.toList ≠ []) {r s : Reader} {u : Unit}
    (h : (discard (Read.literal l)).outcome r = (.ok u, s)) : r.Passes s :=
  (Read.Advances.literal hl).discard r u s h

end Stylesheet
