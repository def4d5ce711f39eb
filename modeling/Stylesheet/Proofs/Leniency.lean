import Stylesheet.Proofs.SteadySheet

namespace Stylesheet

open Read (Steady)

namespace Read

variable {α β : Type}

/-- The step yields something. -/
def Succeeds (x : Read α) (r : Reader) : Prop := ∃ a s, x.outcome r = (.ok a, s)

theorem Succeeds.pure (a : α) (r : Reader) : Succeeds (Pure.pure a) r := ⟨a, r, rfl⟩

theorem Succeeds.bind {x : Read α} {f : α → Read β} {r : Reader} (hx : Succeeds x r)
    (hf : ∀ a s, x.outcome r = (.ok a, s) → Succeeds (f a) s) : Succeeds (x >>= f) r := by
  obtain ⟨a, s, h⟩ := hx
  obtain ⟨b, t, k⟩ := hf a s h
  refine ⟨b, t, ?_⟩
  rw [outcome_bind, h, following_ok, k]

theorem Steady.settings {final : Fault → Bool} {x : Read α} {r s : Reader} {o : Except Fault α}
    (hx : Steady final r.place.text x) (h : x.outcome r = (o, s)) : s.settings = r.settings :=
  (hx.kept h).settings

/-- A comment that never ends does not stop lenient reading. -/
theorem gap_succeeds {r : Reader} (hl : r.settings.lenient = true) : Succeeds gap r := by
  unfold Succeeds
  rw [gap, outcome_bind, outcome_get, following_ok]
  rcases hp : r.place.pastGap r.settings.width with ⟨cs, p, unclosed⟩
  simp only [hp]
  cases unclosed with
  | false => exact ⟨_, _, rfl⟩
  | true =>
    simp only [if_true, outcome_bind, outcome_goto, following_ok, hl]
    exact ⟨_, _, rfl⟩

end Read

namespace Statement

open Read (Succeeds)

theorem readEnd_succeeds (owner : Owner) (pending : List Comment) {r : Reader} (hl : r.settings.lenient = true) :
    Succeeds (readEnd owner pending) r := by
  unfold Succeeds
  rw [readEnd, Read.outcome_bind, Read.outcome_isLenient, Read.following_ok, hl, Bool.not_true, Bool.and_false]
  exact ⟨_, _, rfl⟩

/-- A located fault is handled, if the item began at a character that can be left out. -/
theorem skipItem_succeeds {r s : Reader} {e : Fault} (he : e.located = true) (hl : s.settings.lenient = true)
    (ahead : Place.Ahead r.settings.width r.place s.place) (hr : r.place.rest ≠ []) :
    Succeeds (skipItem r.place e) s := by
  unfold Succeeds
  rw [skipItem, Read.outcome_bind, Read.outcome_isLenient, Read.following_ok, hl]
  cases hend : e.isEnd with
  | true => exact ⟨_, _, rfl⟩
  | false =>
    have recoverable : e.recoverable = true := by simpa [hend] using e.isEnd_or_recoverable he
    simp only [Bool.and_false, Bool.false_eq_true, if_false, Read.outcome_bind, Read.outcome_isLenient,
      Read.following_ok, hl, recoverable, Bool.and_true, if_true, Read.outcome_note, Read.outcome_place]
    split
    · next same =>
      have place : s.place = r.place := ahead.eq_of_offset same
      have one : ¬ (s.place.rest.take 1).length < 1 := by
        rw [place]
        cases h : r.place.rest with
        | nil => exact absurd h hr
        | cons c rest => simp
      rw [Read.outcome_bind, Read.outcome_discard, Read.outcome_take]
      rw [if_neg (by exact one)]
      exact ⟨_, _, rfl⟩
    · exact ⟨_, _, rfl⟩

theorem readItemOrSkip_succeeds {readBody : Owner → Read Sheet} {r : Reader}
    (hb : ∀ owner, SteadyWhole r.place.text (readBody owner)) (owner : Owner) (first : Bool)
    (hl : r.settings.lenient = true) (hr : r.place.rest ≠ []) :
    Succeeds (readItemOrSkip readBody owner first) r := by
  have kept := ((readItem_steady hb owner first).map (f := some) r rfl).1
  unfold Succeeds
  rw [outcome_readItemOrSkip]
  rcases h : (some <$> readItem readBody owner first).outcome r with ⟨e | item, s⟩
  · rw [h] at kept
    have same : s.settings = r.settings := kept.settings
    exact skipItem_succeeds (kept.located e rfl) (same ▸ hl) kept.ahead hr
  · exact ⟨item, s, rfl⟩

/-- Lenient reading of statements always succeeds. The induction is on the characters left behind a statement; of
the bodies inside nothing is needed but that their faults have a location. -/
theorem readAllIn_succeeds (n : Nat) (owner : Owner) (first : Bool) (pending : List Comment) {r : Reader}
    (hl : r.settings.lenient = true) : Succeeds (readAllIn n owner first pending) r := by
  induction n using Nat.strongRecOn generalizing owner first pending r with
  | ind n ih =>
    have behind (first : Bool) {s : Reader} (hs : s.settings.lenient = true) :
        Succeeds (readBehind n owner first) s := by
      unfold Succeeds readBehind
      rw [Read.outcome_shorter]
      split
      · next h => exact ih _ h owner first [] hs
      · exact ⟨_, s, rfl⟩
    rw [readAllIn_eq]
    refine .bind ⟨_, _, Read.outcome_place r⟩ fun p r' h => ?_
    cases h
    split
    · exact readEnd_succeeds owner pending hl
    · refine .bind (Read.gap_succeeds hl) fun comments s h => ?_
      have hs : s.settings.lenient = true := (gap_steady.settings h) ▸ hl
      refine .bind ⟨_, _, Read.outcome_place s⟩ fun q s' h => ?_
      cases h
      dsimp only
      split
      · exact readEnd_succeeds owner _ hs
      · next hend =>
        have rest : s.place.rest ≠ [] := fun h => hend (by rw [Place.atEnd, h]; rfl)
        refine .bind (readItemOrSkip_succeeds (readInside_steady n) owner first hs rest) fun item t h => ?_
        have ht : t.settings.lenient = true :=
          ((readItemOrSkip_steady (readInside_steady n) owner first).settings h) ▸ hs
        split
        · exact .pure _ t
        · exact .pure _ t
        · exact behind first ht
        · exact .bind (behind false ht) fun _ u _ => .pure _ u

end Statement

namespace Sheet

theorem read_succeeds {r : Reader} (hl : r.settings.lenient = true) : Read.Succeeds read r :=
  .bind ⟨_, _, Read.outcome_left r⟩ fun n r' h => by
    cases h
    exact .bind (Statement.readAllIn_succeeds _ .sheet true [] hl) fun _ s _ =>
      .bind ⟨_, _, rfl⟩ fun _ t _ => .pure _ t

/-- Lenient reading makes a sheet of every text, whatever the other settings are. -/
theorem parse_lenient_total (settings : Settings) (text : String) :
    ∃ sheet, (parse { settings with lenient := true } text).1 = .ok sheet := by
  have reading : (Reader.start (withoutMark text) { settings with lenient := true } 1).settings.lenient = true := rfl
  obtain ⟨sheet, r, h⟩ := read_succeeds reading
  rw [parse_eq, h]
  exact ⟨sheet, rfl⟩

theorem withoutMark_suffix (text : String) : (withoutMark text).toList <:+ text.toList := by
  unfold withoutMark
  split
  · next rest h =>
    rw [h, String.toList_ofList]
    exact List.suffix_cons _ rest
  · exact List.suffix_refl _

/-- Lenient reading makes of tame text what strict reading makes of it. -/
theorem parse_lenient_of_strict {settings : Settings} {text : String} {sheet : Sheet} (tame : Tame text.toList)
    (strict : (parse { settings with lenient := false } text).1 = .ok sheet) :
    (parse { settings with lenient := true } text).1 = .ok sheet := by
  have marked := tame.suffix (withoutMark_suffix text)
  have steady := (read_steady (Reader.start (withoutMark text) { settings with lenient := false } 1) rfl).2 marked rfl
  rw [parse_eq] at strict ⊢
  rcases h : read.outcome (Reader.start (withoutMark text) { settings with lenient := false } 1) with ⟨o, r⟩
  rw [h] at steady strict
  cases strict
  have same : read.outcome (Reader.start (withoutMark text) { settings with lenient := true } 1) =
    (.ok sheet, r.relaxed) := steady
  rw [same]

/-- A rule with a comment inside is read the same in both modes. -/
theorem parse_lenient_of_strict_rule :
    ∃ sheet, (parse { lenient := false } "a{b:c/*d*/}").1 = .ok sheet ∧
      (parse { lenient := true } "a{b:c/*d*/}").1 = .ok sheet := by
  have tame : Tame "a{b:c/*d*/}".toList := by
    refine ⟨by decide, fun rest hs => ?_, fun cs gap rest _ hs => ?_⟩
    · have behind (n : Nat) (hn : n < 12) :
          (("a{b:c/*d*/}".toList.drop n).take 7).map Char.toLower ≠ "progid:".toList := by
        revert n
        decide +kernel
      rw [List.suffix_iff_eq_drop.mp hs]
      exact behind _ (Nat.lt_succ_of_le (Nat.sub_le _ _))
    · exact absurd (hs.mem List.mem_cons_self) (by decide)
  have read : (parse { lenient := false } "a{b:c/*d*/}").1.toOption.isSome = true := by decide +kernel
  cases strict : (parse { lenient := false } "a{b:c/*d*/}").1 with
  | error e =>
    rw [strict] at read
    cases read
  | ok sheet => exact ⟨sheet, rfl, @parse_lenient_of_strict {} _ _ tame strict⟩

end Sheet

end Stylesheet
