import Stylesheet.Proofs.Nesting
import Stylesheet.Proofs.Progress

namespace Stylesheet

open Read (Advances AdvancesAt Steady)

theorem Reader.reaches_note (level : Level) (text : String) (r : Reader) : r.Reaches (r.note level text) :=
  ⟨rfl, .refl _ _⟩

theorem Place.rest_ne_nil_of_comes {p : Place} {l : String} (h : p.comes l = true) : p.rest ≠ [] := by
  obtain ⟨positive, tail, left⟩ := Place.comes_iff.mp h
  rw [← left]
  exact List.append_ne_nil_of_left_ne_nil positive tail

namespace Declaration

theorem read_advances (before : List Comment) : Advances (read before) :=
  fun _ _ _ h => ⟨(read_steady before).reaches h, (of_read h).2⟩

end Declaration

namespace RuleSet

variable {rules rules' : RuleSet} {comments : List Comment} {r s : Reader}

/-- Behind a faulty declaration the reader has passed a stop, or it is at the brace that closes the rule set. -/
theorem of_recover (h : recover.outcome r = (.ok true, s)) :
    r.Passes s ∨ r.Reaches s ∧ s.place.comes "\x7d" = true := by
  have moved := recover_steady.reaches h
  rw [outcome_recover] at h
  rcases passed : passFaulty.outcome r with ⟨e | found, t⟩
  · rw [passed] at h
    obtain ⟨_, _, _, h⟩ := Read.ok_of_bind h
    cases h
  · rw [passed, Read.rescued_ok] at h
    cases h
    obtain ⟨_, u, found, rest⟩ := Read.ok_of_bind passed
    obtain ⟨text, found⟩ := Read.ok_of_discard found
    obtain ⟨c, tail, stop, -⟩ := Read.rest_of_upToBefore found
    have reached := (Steady.upTo _ _ _ : SteadyWhole r.place.text _).reaches found
    rw [Read.outcome_bind, Read.outcome_place, Read.following_ok] at rest
    by_cases brace : u.place.comes "\x7d" = true
    · rw [brace] at rest
      cases rest
      exact .inr ⟨moved, brace⟩
    · rw [Bool.not_eq_true] at brace
      rw [brace] at rest
      obtain ⟨_, v, skipped, rest⟩ := Read.ok_of_bind rest
      have one := AdvancesAt.skip Nat.one_pos (by rw [stop]; exact List.cons_ne_nil c tail) _ v skipped
      obtain ⟨_, w, semicolons, rest⟩ := Read.ok_of_bind rest
      cases rest
      exact .inl (reached.passes (one.reaches (Declaration.skipSemicolons_steady.reaches semicolons)))

/-- Where the rule set does not end, a declaration is left out with some of the text, wherever its fault was found. -/
theorem passes_of_skipEntry {p : Reader} {e : Fault} (inside : ¬ p.place.comes "\x7d" = true) (moved : p.Reaches r)
    (h : (skipEntry rules e).outcome r = (.ok (some rules'), s)) : p.Passes s := by
  rw [skipEntry, Read.outcome_bind, Read.outcome_isLenient, Read.following_ok] at h
  split at h
  · rw [Read.outcome_bind, Read.outcome_note, Read.following_ok] at h
    obtain ⟨found, t, recovered, h⟩ := Read.ok_of_bind h
    have noted := moved.trans (r.reaches_note .warn ("Skipping invalid declaration: " ++ e.message))
    cases found with
    | false => cases h
    | true =>
      cases h
      rcases of_recover recovered with passes | ⟨reached, brace⟩
      · exact noted.passes passes
      · refine (noted.trans reached).passes_of_offset fun still => inside ?_
        rw [← (noted.trans reached).ahead.eq_of_offset still]
        exact brace
  · cases h

theorem passes_of_readNext (inside : ¬ r.place.comes "\x7d" = true)
    (h : (readNext rules comments).outcome r = (.ok (some rules'), s)) : r.Passes s := by
  rw [readNext, Read.outcome_tryCatch] at h
  rcases entered : (readEntry rules comments).outcome r with ⟨e | next, t⟩
  · have steady : SteadyWhole r.place.text (readEntry rules comments) :=
      (Declaration.read_steady comments).bind fun d => (Steady.record _).bind fun _ => .pure _
    rw [entered] at h
    exact passes_of_skipEntry inside (steady.reaches entered) h
  · rw [entered] at h
    cases h
    obtain ⟨d, u, declared, entered⟩ := Read.ok_of_bind entered
    cases entered
    have passes := Declaration.read_advances comments r d u declared
    exact ⟨⟨passes.settings, passes.ahead⟩, passes.shorter⟩

end RuleSet

/-- The scan of selectors comes to the end of the text only with a fault that nothing can be read behind. -/
theorem Place.ends_of_selectorText {s : Settings} {quote : Option Char} {depth : Nat} {p : Place}
    (h : (p.selectorText s quote depth).2.rest = []) :
    ∃ e, (p.selectorText s quote depth).1 = .error e ∧ e.recoverable = false := by
  fun_induction selectorText s quote depth p with
  | case1 quote depth p ho => exact ⟨_, rfl, rfl⟩
  | case2 quote depth p c q ho more r hm ih =>
    rw [hm] at ih
    obtain ⟨e, he, final⟩ := ih h
    exact ⟨e, congrArg (Except.map _) he, final⟩
  | case3 quote depth p ho hr => exact ⟨_, rfl, rfl⟩
  | case4 quote depth p ho c rest hr hc hd => exact absurd h (hr ▸ List.cons_ne_nil c rest)
  | case5 quote depth p ho c rest hr hc hd => exact absurd h (hr ▸ List.cons_ne_nil c rest)
  | case6 quote depth p ho c rest hr hc hd => exact absurd h (hr ▸ List.cons_ne_nil c rest)
  | case7 quote depth p ho hc hd hr hr' => exact ⟨_, rfl, rfl⟩
  | case8 quote depth p ho d tail more r hm hc hd hr hr' ih =>
    rw [hm] at ih
    obtain ⟨e, he, final⟩ := ih h
    exact ⟨e, congrArg (Except.map _) he, final⟩
  | case9 quote depth p ho c rest hr hc hd hb hp => exact absurd h (hr ▸ List.cons_ne_nil c rest)
  | case10 quote depth p ho c rest hr hc hd hb hp quote' depth' more r hm ih =>
    rw [hm] at ih
    obtain ⟨e, he, final⟩ := ih h
    exact ⟨e, congrArg (Except.map _) he, final⟩

namespace StyleRule

variable {r s : Reader}

/-- Selectors that can be left out are followed by something. -/
theorem rest_ne_nil_of_readHead {keyframe : Bool} {p : Place} {e : Fault}
    (h : (readHead keyframe p).outcome r = (.error e, s)) (goesOn : e.recoverable = true) : s.place.rest ≠ [] := by
  intro ended
  have scanned : (r.place.selectorText r.settings none 0).2.rest = [] →
      ∃ e, (r.place.selectorText r.settings none 0).1 = .error e ∧ e.recoverable = false := Place.ends_of_selectorText
  rw [readHead, Read.outcome_bind, Read.outcome_move] at h
  rcases text : r.place.selectorText r.settings none 0 with ⟨d | ⟨taken, comments⟩, q⟩
  · rw [text] at h scanned
    cases h
    obtain ⟨_, same, final⟩ := scanned ended
    cases same
    rw [final] at goesOn
    cases goesOn
  · rw [text] at h scanned
    rw [Read.following_ok] at h
    dsimp only at h
    split at h
    · cases h
    · cases h
      obtain ⟨_, same, -⟩ := scanned ended
      cases same

/-- A style rule is left out up to a brace or up to the end, wherever the fault of its selectors was found. -/
theorem passes_of_skipRule {p : Reader} {e : Fault} {head : Option (List Selector × List Comment)}
    (goesOn : e.recoverable = true → r.place.rest ≠ []) (moved : p.Reaches r)
    (h : (skipRule e).outcome r = (.ok head, s)) : p.Passes s := by
  rw [skipRule, Read.outcome_bind, Read.outcome_isLenient, Read.following_ok] at h
  split at h
  · next lenient =>
    rw [Bool.and_eq_true] at lenient
    rw [Read.outcome_bind, Read.outcome_note, Read.following_ok] at h
    obtain ⟨_, t, skipped, h⟩ := Read.ok_of_bind h
    cases h
    have noted := moved.trans (r.reaches_note .warn ("Skipping declaration block: " ++ e.message))
    exact noted.passes ((AdvancesAt.upToEnd (r := r.note .warn _) ['\x7d'] (goesOn lenient.2)).discard _ _ skipped)
  · cases h

/-- A style rule takes its opening brace, or it is left out with some of the text. -/
theorem read_advances (keyframe : Bool) : Advances (read keyframe) := by
  intro r o s h
  rw [read_eq] at h
  obtain ⟨p, _, hp, h⟩ := Read.ok_of_bind h
  cases hp
  obtain ⟨head, t, headed, h⟩ := Read.ok_of_bind h
  cases head with
  | some head =>
    have moved := (readHeadOrSkip_steady keyframe r.place).reaches headed
    obtain ⟨_, u, brace, h⟩ := Read.ok_of_bind h
    obtain ⟨rules, v, block, h⟩ := Read.ok_of_bind h
    cases h
    exact moved.passes ((Reader.passes_of_literal (by decide) brace).reaches ((RuleSet.read_steady _ _).reaches block))
  | none =>
    cases h
    rw [Read.outcome_tryCatch] at headed
    rcases failed : (readHead keyframe r.place).outcome r with ⟨e | head, u⟩
    · have moved := (readHead_steady keyframe r.place).reaches failed
      rw [failed] at headed
      exact passes_of_skipRule (rest_ne_nil_of_readHead failed) moved headed
    · rw [failed, Read.rescued_ok] at headed
      cases headed
      obtain ⟨⟨text, comments⟩, v, _, failed⟩ := Read.ok_of_bind failed
      dsimp only at failed
      split at failed
      · cases failed
      · cases failed

end StyleRule

namespace Statement

variable {readBody : Owner → Read Sheet} {owner : Owner} {first : Bool} {r s : Reader} {i : Item}

theorem passes_of_readUnnamed (h : (readUnnamed owner r.place).outcome r = (.ok i, s)) : i = .closing ∨ r.Passes s := by
  unfold readUnnamed at h
  by_cases brace : r.place.comes "\x7d" = true
  · rw [if_pos brace] at h
    split at h
    · cases h
      exact .inl rfl
    · rw [Read.outcome_bind, Read.outcome_isLenient, Read.following_ok] at h
      split at h
      · cases h
      · rw [Read.outcome_bind, Read.outcome_note, Read.following_ok] at h
        obtain ⟨_, t, skipped, h⟩ := Read.ok_of_bind h
        cases h
        have nonempty := Place.rest_ne_nil_of_comes brace
        have one := AdvancesAt.skip (r := r.note .warn _) Nat.one_pos nonempty _ _ skipped
        exact .inr ((r.reaches_note .warn _).passes one)
  · rw [if_neg brace] at h
    obtain ⟨rule, t, read, h⟩ := Read.ok_of_bind h
    have passes := StyleRule.read_advances _ r rule t read
    cases rule with
    | none =>
      cases h
      exact .inr passes
    | some rule =>
      cases h
      exact .inr passes

/-- An item other than the brace that closes the body has taken some of the text. -/
theorem passes_of_readItem (hb : ∀ owner text, SteadyWhole text (readBody owner))
    (h : (readItem readBody owner first).outcome r = (.ok i, s)) : i = .closing ∨ r.Passes s := by
  rw [readItem_eq, Read.outcome_bind, Read.outcome_place, Read.following_ok] at h
  by_cases sign : r.place.comes "@" = true
  · rw [if_pos sign] at h
    obtain ⟨rule, t, read, h⟩ := Read.ok_of_bind h
    exact .inr ((readAtRule_advances hb r rule t read).reaches ((accept_steady _ _ _ _).reaches h))
  · rw [if_neg sign] at h
    exact passes_of_readUnnamed h

/-- So has what is left out of a body instead of an item. -/
theorem passes_of_skipItem {p : Reader} {e : Fault} (moved : p.Reaches r)
    (h : (skipItem p.place e).outcome r = (.ok (some i), s)) : p.Passes s := by
  rw [skipItem, Read.outcome_bind, Read.outcome_isLenient, Read.following_ok] at h
  split at h
  · obtain ⟨_, _, _, h⟩ := Read.ok_of_bind h
    obtain ⟨_, _, _, h⟩ := Read.ok_of_bind h
    cases h
  · rw [Read.outcome_bind, Read.outcome_isLenient, Read.following_ok] at h
    split at h
    · rw [Read.outcome_bind, Read.outcome_note, Read.following_ok, Read.outcome_bind, Read.outcome_place,
        Read.following_ok] at h
      have noted := moved.trans (r.reaches_note .warn ("Skipping invalid statement: " ++ e.message))
      split at h
      · obtain ⟨_, t, taken, h⟩ := Read.ok_of_bind h
        cases h
        exact noted.passes ((Advances.take Nat.one_pos _).discard _ _ taken)
      · next elsewhere =>
        cases h
        exact noted.passes_of_offset elsewhere
    · cases h

theorem passes_of_readItemOrSkip (hb : ∀ owner text, SteadyWhole text (readBody owner))
    (h : (readItemOrSkip readBody owner first).outcome r = (.ok (some i), s)) : i = .closing ∨ r.Passes s := by
  rw [outcome_readItemOrSkip, Read.outcome_map] at h
  rcases read : (readItem readBody owner first).outcome r with ⟨e | item, t⟩
  · rw [read] at h
    exact .inr (passes_of_skipItem ((readItem_steady (fun owner => hb owner _) owner first).reaches read) h)
  · rw [read] at h
    cases h
    exact passes_of_readItem hb read

end Statement

end Stylesheet
