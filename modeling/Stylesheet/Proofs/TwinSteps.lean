import Stylesheet.Proofs.PairedScans
import Stylesheet.Proofs.Twin

namespace Stylesheet

namespace Pairing.Twin

variable {α β : Type} {g : Pairing} {L final : Prop} {look : α → β}

/-- A move is twin if its scan is. -/
theorem move {f f' : Settings → Place → Except Fault α × Place}
    (ahead : ∀ s p, Place.Ahead s.width p (f s p).2) (located : ∀ s p e, (f s p).1 = .error e → e.located = true)
    (paired : L → ∀ p p', g.Places p p' → g.Live p → g.Answers look (f g.first p) (f' g.second p')) :
    g.Twin L final never look (Read.move f) (Read.move f') where
  keeps r _ := by
    rw [Read.outcome_move]
    exact ⟨rfl, ahead _ _, located _ _⟩
  needs _ _ _ _ _ _ hs := hs.elim
  agrees hL r r' hl hr := by
    have answers := paired hL r.place r'.place hr.places hl
    rw [Read.outcome_move, Read.outcome_move, hr.first, hr.second]
    rcases ho : f g.first r.place with ⟨e | a, q⟩
    · rw [ho] at answers
      refine Or.imp (fun h => ⟨h.1, .inr h.2⟩) (fun hlive hq => ?_) answers
      obtain ⟨e', q', ho', akin, places⟩ := hlive hq
      exact ⟨e', ⟨q', g.second, r'.charset, r'.journal⟩, by rw [ho'], akin, rfl, rfl, places⟩
    · rw [ho] at answers
      intro hq
      obtain ⟨a', q', ho', alike, places⟩ := answers (hq.resolve_left id)
      exact ⟨a', ⟨q', g.second, r'.charset, r'.journal⟩, by rw [ho'], alike, rfl, rfl, places⟩

theorem skip (n : Nat) : g.Twin L final never id (Read.skip n) (Read.skip n) :=
  move (fun s p => Place.ahead_forward s.width n p) (fun _ _ _ h => by cases h)
    fun _ _ _ h _ => Answers.forward h n ()

theorem toEnd : g.Twin L final never id Read.toEnd Read.toEnd :=
  move (fun s p => Place.ahead_toEnd s.width p) (fun _ _ _ h => by cases h)
    fun _ _ _ h _ => .ok (.refl _ _) fun hq => h.toEnd (more_of_live_toEnd hq)

theorem take (n : Nat) : g.Twin L final never id (Read.take n) (Read.take n) := by
  refine move (fun s p => ?_) (fun s p e h => ?_) fun _ p p' h hl => ?_
  · dsimp only
    split
    · exact .refl s.width p
    · exact Place.ahead_forward s.width n p
  · dsimp only at h
    split at h
    · cases h
      rfl
    · cases h
  · dsimp only
    by_cases hn : n ≤ p.rest.length
    · have text : p'.rest.take n = p.rest.take n := by rw [h.rest, List.take_append_of_le_length hn]
      have enough : ¬ (p.rest.take n).length < n := by rw [List.length_take]; omega
      rw [text, if_neg enough, if_neg enough]
      exact .ok (.refl _ _) fun _ => h.forward (.inr hn)
    · have short : (p.rest.take n).length < n := by rw [List.length_take]; omega
      rw [if_pos short]
      rcases g.pair_modes with hm | hm
      · rw [h.rest_eq hm.2, if_pos short]
        exact .fail .ending h
      · exact .inl ⟨hm, rfl⟩

/-- A literal in which a brace can only be the last character. One that is a brace is sure. -/
theorem literal {l : String} (hl : '\x7d' ∉ l.toList.dropLast) :
    g.Twin L final (fun _ => l = "\x7d") id (Read.literal l) (Read.literal l) where
  keeps r _ :=
    have steady : Read.Steady Fault.isEnd r.place.text (Read.literal l) := .literal l
    (steady r rfl).1
  needs _ r a s _ ho hs := by
    refine ⟨[], ?_⟩
    rw [Read.rest_of_literal ho, hs]
    rfl
  agrees _ r r' hlive hr := by
    rw [Read.outcome_literal, Read.outcome_literal, comes_eq hr.places hlive hl]
    split
    · next hc =>
      obtain ⟨-, tail, ht⟩ := Place.comes_iff.mp hc
      have enough : l.length ≤ r.place.rest.length := by
        rw [← ht, List.length_append, String.length_toList]
        exact Nat.le_add_right _ _
      intro _
      refine ⟨l, _, rfl, .refl _ _, hr.first, hr.second, ?_⟩
      rw [hr.first, hr.second]
      exact hr.places.forward (.inr enough)
    · exact .inr fun _ => ⟨_, r', rfl, .token, hr⟩

/-- A literal whose text is not looked at. -/
theorem token {l : String} (hl : '\x7d' ∉ l.toList.dropLast) :
    g.Twin L final never id (Functor.discard (Read.literal l)) (Functor.discard (Read.literal l)) :=
  (literal hl).unsure.discard

theorem upTo (stops : List Char) (stopAt : Read.StopAt) (orEnd : Bool) :
    g.Twin L final never id (Read.upTo stops stopAt orEnd) (Read.upTo stops stopAt orEnd) :=
  have moves := Read.Steady.moves_upToStop stops stopAt orEnd
  move moves.ahead moves.located fun _ _ _ h hl => upToStop_paired stops stopAt orEnd h hl

/-- Blanks and comments. A comment that never ends strict reading may end behind the text. -/
theorem gap : g.Twin L final never (Comment.bareAll true) Read.gap Read.gap where
  keeps r _ := (gap_steady r rfl).1
  needs _ _ _ _ _ _ hs := hs.elim
  agrees _ r r' hl hr := by
    have paired := pastGap_paired hr.places hl
    rw [Read.outcome_gap, Read.outcome_gap, hr.first, hr.second]
    cases hu : (r.place.pastGap g.first.width).2.2 with
    | false =>
      intro hq
      obtain ⟨comments, places, flag⟩ := paired (fun h => by rw [hu] at h; cases h) (hq.resolve_left id)
      rw [flag, hu]
      exact ⟨_, _, rfl, comments, rfl, rfl, places⟩
    | true =>
      rcases g.pair_modes with hm | hm
      · obtain ⟨comments, places, flag⟩ := paired (fun _ => hm.2) (.inl hm.2)
        have atEnd := places.toEnd hm.2
        rw [flag, hu, hm.1]
        cases g.first.lenient with
        | true => exact fun _ => ⟨_, _, rfl, comments, rfl, rfl, atEnd⟩
        | false => exact .inr fun _ => ⟨_, _, rfl, .ending, rfl, rfl, atEnd⟩
      · rw [hm.1]
        exact .inl ⟨hm, .inr rfl⟩

/-- A gap whose comments are not looked at. -/
theorem gapIgnored : g.Twin L final never id (Functor.discard Read.gap) (Functor.discard Read.gap) := gap.discard

theorem identifier (ignoreCase : Bool) :
    g.Twin L final never id (Read.identifier ignoreCase) (Read.identifier ignoreCase) := by
  have moved : g.Twin L final never id (Read.move Place.identifier) (Read.move Place.identifier) :=
    move Place.ahead_identifier (fun _ _ _ h => Place.located_identifier h) fun _ _ _ h hl => identifier_paired h hl
  exact moved.bindSame fun cs => .pure fun _ => .refl _ _

theorem record (n n' : Note) :
    g.Twin L final never id (modify fun r => { r with journal := n :: r.journal } : Read Unit)
      (modify fun r => { r with journal := n' :: r.journal }) where
  keeps r _ := .still (r := r) (s := { r with journal := n :: r.journal }) rfl rfl ()
  needs _ _ _ _ _ _ hs := hs.elim
  agrees _ _ _ _ hr _ := ⟨(), _, rfl, .refl id _, ⟨hr.first, hr.second, hr.places⟩⟩

end Pairing.Twin

end Stylesheet
