import Stylesheet.Proofs.Passage
import Stylesheet.Proofs.StrictSheet

namespace Stylesheet

open Read (Steady)

namespace RuleSet

/-- `rules` is what a rule set at `p` holds when the reader that began it in the state `r` is in the state `s`. Each
declaration that is read is sorted in, which puts it behind those that were read before. -/
inductive Collected (p : Position) (r : Reader) : RuleSet → Reader → Prop
  | empty {comments : List Comment} {s : Reader} (moved : r.Reaches s) :
    Collected p r { position := some p, comments := comments } s
  | passed {rules : RuleSet} {s t : Reader} (before : Collected p r rules s) (moved : s.Reaches t) :
    Collected p r rules t
  | added {rules : RuleSet} {s t : Reader} {comments : List Comment} {d : Declaration}
    (before : Collected p r rules s) (declared : (Declaration.read comments).outcome s = (.ok d, t))
    (last : (rules.add d none).2 = rules.withDeclarations (rules.declarations ++ [d])) :
    Collected p r (rules.add d none).2 t

variable {p : Position} {r s t : Reader} {rules rules' : RuleSet}

theorem Collected.reaches (h : Collected p r rules s) : r.Reaches s := by
  induction h with
  | empty moved => exact moved
  | passed before moved ih => exact ih.trans moved
  | added before declared last ih => exact ih.trans ((Declaration.read_steady _).reaches declared)

theorem Collected.position (h : Collected p r rules s) : rules.position = some p := by
  induction h with
  | empty moved => rfl
  | passed before moved ih => exact ih
  | added before declared last ih =>
    rw [last]
    exact ih

theorem Collected.next {comments : List Comment} (hc : Collected p r rules s) (hp : rules.Passed s)
    (h : (readNext rules comments).outcome s = (.ok (some rules'), t)) : Collected p r rules' t := by
  have moved : s.Reaches t := ((readNext_kept rules rules comments comments).kept (Pairing.reads_alone s) h).reaches
  rw [readNext, Read.outcome_tryCatch] at h
  rcases ho : (readEntry rules comments).outcome s with ⟨e | next, u⟩
  · rw [ho] at h
    rcases ok_of_skipEntry h with hr | hr
    · cases hr
      exact hc.passed moved
    · cases hr
  · rw [ho] at h
    cases h
    obtain ⟨d, v, declared, entered⟩ := Read.ok_of_bind ho
    have last := (hp.add (Declaration.of_read declared).1).1
    cases entered
    exact (hc.added declared last).passed ⟨rfl, .refl _ _⟩

theorem collected_of_readInto {n : Nat} (hc : Collected p r rules s) (hp : rules.Passed s)
    (h : (readInto rules n).outcome s = (.ok rules', t)) : Collected p r rules' t := by
  induction n using Nat.strongRecOn generalizing rules s with
  | ind n ih =>
    rw [readInto_eq] at h
    obtain ⟨comments, u, hu, h⟩ := Read.ok_of_bind h
    have collected : Collected p r rules u := hc.passed (gap_steadyWhole.reaches hu)
    have passed : rules.Passed u := hp.of_steady gap_steadyWhole hu
    obtain ⟨place, v, hv, h⟩ := Read.ok_of_bind h
    cases hv
    split at h
    · obtain ⟨_, v, hv, h⟩ := Read.ok_of_bind h
      cases h
      exact collected.passed ((Steady.literal _ : SteadyWhole _ _).discard.reaches hv)
    · obtain ⟨next, v, hv, h⟩ := Read.ok_of_bind h
      cases next with
      | none =>
        have moved := ((readNext_kept rules rules comments comments).kept (Pairing.reads_alone u) hv).reaches
        cases h
        exact collected.passed moved
      | some rules₁ =>
        have collected₁ := collected.next passed hv
        rw [goOn, Read.outcome_shorter] at h
        split at h
        · next hn => exact ih _ hn collected₁ (passed.next hv) h
        · cases h
          exact collected₁

/-- What a rule set holds was collected by its reader. -/
theorem collected_of_read {comments : List Comment} (h : (read p comments).outcome r = (.ok rules, s)) :
    Collected p r rules s := by
  obtain ⟨_, u, hu, h⟩ := Read.ok_of_bind h
  obtain ⟨n, v, hv, h⟩ := Read.ok_of_bind h
  cases hv
  refine collected_of_readInto (.empty (Declaration.skipSemicolons_steady.reaches hu)) ?_ h
  intro d hd
  cases hd

end RuleSet

mutual

/-- The statement was read in a body of `owner`, of which it is the first one if `first`, from the state `r` up to
the state `s`. -/
inductive Statement.Taken : Owner → Bool → Reader → Statement → Reader → Prop
  | style {owner : Owner} {first : Bool} {r u s : Reader} {text : String} {l : Location}
    {selectors : List Selector} {rules : RuleSet} {comments : List Comment}
    (head : Selector.parseList text (owner = .keyframes) l = .ok selectors) (start : r.Passes u)
    (block : RuleSet.Collected r.place.position u rules s) :
    Statement.Taken owner first r (.style ⟨selectors, { rules with comments := comments }⟩) s
  | descriptors {owner : Owner} {first : Bool} {r u s : Reader} {name args : String} {rules : RuleSet}
    {comments : List Comment} (start : r.Passes u) (block : RuleSet.Collected r.place.position u rules s) :
    Statement.Taken owner first r (.descriptors name args { rules with comments := comments }) s
  | grouping {owner : Owner} {first : Bool} {r u s : Reader} {name args : String} {ss : List Statement}
    {comments trailing : List Comment} (start : r.Passes u) (body : Statement.AllTaken .grouping true u ss s) :
    Statement.Taken owner first r (.grouping name args ⟨ss, some r.place.position, comments, trailing⟩) s
  | keyframes {owner : Owner} {first : Bool} {r u s : Reader} {name animation : String} {ss : List Statement}
    {comments trailing : List Comment} (start : r.Passes u) (body : Statement.AllTaken .keyframes true u ss s) :
    Statement.Taken owner first r (.keyframes name animation ⟨ss, some r.place.position, comments, trailing⟩) s
  | imports {owner : Owner} {first : Bool} {r s : Reader} {url : Url} {media : Option String}
    {comments : List Comment} (start : r.Passes s) :
    Statement.Taken owner first r (.imports url media (some r.place.position) comments) s
  | charset {r s : Reader} {encoding : Quoted} {comments : List Comment} (start : r.Passes s) :
    Statement.Taken .sheet true r (.charset encoding (some r.place.position) comments) s
  | naming {owner : Owner} {first : Bool} {r s : Reader} {abbreviation : Option String} {url : Value}
    {comments : List Comment} (start : r.Passes s) :
    Statement.Taken owner first r (.naming abbreviation url (some r.place.position) comments) s

/-- The statements were read one behind the other in a body of `owner`, from the state `r` up to the state `s`. -/
inductive Statement.AllTaken : Owner → Bool → Reader → List Statement → Reader → Prop
  | nil {owner : Owner} {first : Bool} {r s : Reader} (moved : r.Reaches s) :
    Statement.AllTaken owner first r [] s
  | cons {owner : Owner} {first : Bool} {r u v s : Reader} {st : Statement} {ss : List Statement}
    (moved : r.Reaches u) (head : Statement.Taken owner first u st v)
    (tail : Statement.AllTaken owner false v ss s) : Statement.AllTaken owner first r (st :: ss) s

end

namespace Statement

variable {owner : Owner} {first : Bool} {r s t : Reader} {st : Statement} {ss : List Statement}

mutual

theorem Taken.passes {owner : Owner} {first : Bool} {r s : Reader} {st : Statement} :
    Taken owner first r st s → r.Passes s
  | .style _ start block => start.reaches block.reaches
  | .descriptors start block => start.reaches block.reaches
  | .grouping start body => start.reaches body.reaches
  | .keyframes start body => start.reaches body.reaches
  | .imports start => start
  | .charset start => start
  | .naming start => start

theorem AllTaken.reaches {owner : Owner} {first : Bool} {r s : Reader} {ss : List Statement} :
    AllTaken owner first r ss s → r.Reaches s
  | .nil moved => moved
  | .cons moved head tail => (moved.passes head.passes).toReaches.trans tail.reaches

end

/-- Comments before a statement do not matter to where it was read. -/
theorem Taken.addComments (h : Taken owner first r st s) (cs : List Comment) :
    Taken owner first r (st.addComments cs) s := by
  cases h with
  | style head start block =>
    dsimp only [Statement.addComments]
    exact .style head start block
  | descriptors start block =>
    dsimp only [Statement.addComments]
    exact .descriptors start block
  | grouping start body => exact .grouping start body
  | keyframes start body => exact .keyframes start body
  | imports start => exact .imports start
  | charset start => exact .charset start
  | naming start => exact .naming start

theorem AllTaken.behind (h : r.Reaches s) (k : AllTaken owner first s ss t) : AllTaken owner first r ss t := by
  cases k with
  | nil moved => exact .nil (h.trans moved)
  | cons moved head tail => exact .cons (h.trans moved) head tail

theorem AllTaken.upTo {owner : Owner} {first : Bool} {r s t : Reader} {ss : List Statement} (k : s.Reaches t) :
    AllTaken owner first r ss s → AllTaken owner first r ss t
  | .nil moved => .nil (moved.trans k)
  | .cons moved head tail => .cons moved head (tail.upTo k)

theorem Taken.upTo (k : s.Reaches t) (h : Taken owner first r st s) : Taken owner first r st t := by
  cases h with
  | style head start block => exact .style head start (block.passed k)
  | descriptors start block => exact .descriptors start (block.passed k)
  | grouping start body => exact .grouping start (body.upTo k)
  | keyframes start body => exact .keyframes start (body.upTo k)
  | imports start => exact .imports (start.reaches k)
  | charset start => exact .charset (start.reaches k)
  | naming start => exact .naming (start.reaches k)

/-- What a mapped step yields comes from what the step yields. -/
theorem ok_of_some {α : Type} {x : Read α} {a : α} (h : (some <$> x).outcome r = (.ok (some a), s)) :
    x.outcome r = (.ok a, s) := by
  rw [map_eq_pure_bind] at h
  obtain ⟨b, u, hb, h⟩ := Read.ok_of_bind h
  cases h
  exact hb

/-- The selectors of a rule are what a text was read as. -/
theorem parsed_of_readHeadOrSkip {keyframe : Bool} {p : Place} {selectors : List Selector} {comments : List Comment}
    (h : (tryCatch (StyleRule.readHead keyframe p) StyleRule.skipRule).outcome r = (.ok (some (selectors, comments)), s)) :
    ∃ text l, Selector.parseList text keyframe l = .ok selectors := by
  rw [Read.outcome_tryCatch] at h
  rcases ho : (StyleRule.readHead keyframe p).outcome r with ⟨e | head, t⟩
  · rw [ho] at h
    obtain ⟨lenient, _, _, h⟩ := Read.ok_of_bind h
    split at h
    · obtain ⟨_, _, _, h⟩ := Read.ok_of_bind h
      obtain ⟨_, _, _, h⟩ := Read.ok_of_bind h
      cases h
    · cases h
  · rw [ho] at h
    cases h
    obtain ⟨⟨text, passed⟩, _, _, ho⟩ := Read.ok_of_bind ho
    dsimp only at ho
    split at ho
    · next parsed =>
      cases ho
      exact ⟨_, _, parsed⟩
    · cases ho

theorem taken_of_rule {rule : StyleRule}
    (h : (StyleRule.read (owner = .keyframes)).outcome r = (.ok (some rule), s)) :
    Taken owner first r (.style rule) s := by
  rw [StyleRule.read_eq] at h
  obtain ⟨p, u, hu, h⟩ := Read.ok_of_bind h
  cases hu
  obtain ⟨head, u, hu, h⟩ := Read.ok_of_bind h
  have moved : r.Reaches u := (StyleRule.readHeadOrSkip_steady _ _).reaches hu
  cases head with
  | none => cases h
  | some head =>
    obtain ⟨selectors, comments⟩ := head
    obtain ⟨_, v, hv, h⟩ := Read.ok_of_bind h
    obtain ⟨rules, w, hw, h⟩ := Read.ok_of_bind h
    cases h
    have start : r.Passes v := moved.passes (Reader.passes_of_literal (by decide) hv)
    have block := RuleSet.collected_of_read hw
    obtain ⟨text, l, parsed⟩ := parsed_of_readHeadOrSkip hu
    exact .style parsed start block

/-- A statement that begins with no at-sign is a rule. -/
theorem taken_of_readUnnamed {p : Place} (h : (readUnnamed owner p).outcome r = (.ok (.statement st), s)) :
    Taken owner first r st s := by
  unfold readUnnamed at h
  split at h
  · split at h
    · cases h
    · obtain ⟨lenient, _, _, h⟩ := Read.ok_of_bind h
      split at h
      · cases h
      · obtain ⟨_, _, _, h⟩ := Read.ok_of_bind h
        obtain ⟨_, _, _, h⟩ := Read.ok_of_bind h
        cases h
  · obtain ⟨rule, u, hu, h⟩ := Read.ok_of_bind h
    cases rule with
    | none => cases h
    | some rule =>
      cases h
      exact taken_of_rule hu

theorem of_readImport {p : Position} (h : (readImport p).outcome r = (.ok st, s)) :
    ∃ url media, st = .imports url media (some p) [] := by
  obtain ⟨url, _, _, h⟩ := Read.ok_of_bind h
  obtain ⟨_, _, _, h⟩ := Read.ok_of_bind h
  obtain ⟨media, _, _, h⟩ := Read.ok_of_bind h
  cases h
  exact ⟨_, _, rfl⟩

theorem of_readCharset {p : Position} (h : (readCharset p).outcome r = (.ok st, s)) :
    ∃ encoding, st = .charset encoding (some p) [] := by
  obtain ⟨encoding, _, _, h⟩ := Read.ok_of_bind h
  obtain ⟨_, _, _, h⟩ := Read.ok_of_bind h
  obtain ⟨_, _, _, h⟩ := Read.ok_of_bind h
  cases h
  exact ⟨_, rfl⟩

theorem of_readNaming {p : Position} (h : (readNaming p).outcome r = (.ok st, s)) :
    ∃ abbreviation url, st = .naming abbreviation url (some p) [] := by
  rw [readNaming_eq] at h
  obtain ⟨_, _, _, h⟩ := Read.ok_of_bind h
  obtain ⟨_, _, _, h⟩ := Read.ok_of_bind h
  obtain ⟨url, _, _, h⟩ := Read.ok_of_bind h
  unfold readAddressed at h
  dsimp only at h
  split at h
  · cases h
  · obtain ⟨_, _, _, h⟩ := Read.ok_of_bind h
    obtain ⟨_, _, _, h⟩ := Read.ok_of_bind h
    cases h
    exact ⟨_, _, rfl⟩

theorem position_of_readAtName {name : String} {p : Position} (h : readAtName.outcome r = (.ok (name, p), s)) :
    p = r.place.position := by
  obtain ⟨q, _, hq, h⟩ := Read.ok_of_bind h
  cases hq
  obtain ⟨_, _, _, h⟩ := Read.ok_of_bind h
  obtain ⟨_, _, _, h⟩ := Read.ok_of_bind h
  obtain ⟨_, _, _, h⟩ := Read.ok_of_bind h
  obtain ⟨_, _, _, h⟩ := Read.ok_of_bind h
  obtain ⟨_, _, _, h⟩ := Read.ok_of_bind h
  cases h
  rfl

/-- The naming of a charset is accepted only at the start of a sheet. -/
theorem of_admitCharset {l : Location} {name : String} {u : Unit}
    (h : (admitCharset owner first l name).outcome r = (.ok u, s)) : owner = .sheet ∧ first = true := by
  unfold admitCharset at h
  dsimp only at h
  split at h
  · cases h
  · next sheet =>
    split at h
    · cases h
    · next start => exact ⟨by simpa using sheet, by simpa using start⟩

section Bodies

variable {readBody : Owner → Read Sheet}
  (taken : ∀ owner r b s, (readBody owner).outcome r = (.ok b, s) → AllTaken owner true r b.contents s)

include taken

theorem taken_of_readBlockRule {name : String} {u : Reader} (start : r.Passes u)
    (h : (readBlockRule readBody name r.place.position).outcome u = (.ok (some st), s)) :
    Taken owner first r st s := by
  obtain ⟨p, v, hv, h⟩ := Read.ok_of_bind h
  cases hv
  obtain ⟨args, v, hv, h⟩ := Read.ok_of_bind h
  have prelude := start.reaches ((Steady.upTo _ _ _ : SteadyWhole _ _).reaches hv)
  obtain ⟨p, w, hw, h⟩ := Read.ok_of_bind h
  cases hw
  dsimp only at h
  split at h
  · obtain ⟨_, _, _, h⟩ := Read.ok_of_bind h
    cases h
  · obtain ⟨_, w, hw, h⟩ := Read.ok_of_bind h
    have block := prelude.reaches (Reader.passes_of_literal (by decide) hw).toReaches
    split at h
    · obtain ⟨lenient, _, _, h⟩ := Read.ok_of_bind h
      split at h
      · cases h
      · obtain ⟨_, _, _, h⟩ := Read.ok_of_bind h
        obtain ⟨_, _, _, h⟩ := Read.ok_of_bind h
        obtain ⟨_, _, _, h⟩ := Read.ok_of_bind h
        cases h
    · split at h
      · obtain ⟨b, x, hx, h⟩ := Read.ok_of_bind h
        obtain ⟨_, y, hy, h⟩ := Read.ok_of_bind h
        cases h
        exact .grouping block ((taken _ _ _ _ hx).upTo (readClosing_steady.reaches hy))
      · obtain ⟨rules, x, hx, h⟩ := Read.ok_of_bind h
        cases h
        exact .descriptors block (RuleSet.collected_of_read hx)

theorem taken_of_readKeyframes {name : String} {u : Reader} (start : r.Passes u)
    (h : (readKeyframes readBody name r.place.position).outcome u = (.ok st, s)) : Taken owner first r st s := by
  obtain ⟨animation, v, hv, h⟩ := Read.ok_of_bind h
  obtain ⟨b, w, hw, h⟩ := Read.ok_of_bind h
  obtain ⟨_, x, hx, h⟩ := Read.ok_of_bind h
  have block := start.reaches ((Steady.upTo _ _ _ : SteadyWhole _ _).reaches hv)
  have body := (taken _ _ _ _ hw).upTo (readClosing_steady.reaches hx)
  cases h
  exact .keyframes block body

/-- An at-rule is taken where it may stand: the naming of a charset only at the start of a sheet. -/
theorem taken_of_readAtRule (h : (readAtRule readBody).outcome r = (.ok (some st), s))
    (admitted : st.encoding?.isSome = true → owner = .sheet ∧ first = true) : Taken owner first r st s := by
  rw [readAtRule_eq] at h
  obtain ⟨⟨name, p⟩, u, hu, h⟩ := Read.ok_of_bind h
  have start : r.Passes u := readAtName_advances r _ _ hu
  obtain rfl : p = r.place.position := position_of_readAtName hu
  unfold readNamed at h
  dsimp only at h
  split at h
  · have read := ok_of_some h
    obtain ⟨url, media, rfl⟩ := of_readImport read
    exact .imports (start.reaches ((readImport_steady _).reaches read))
  split at h
  · have read := ok_of_some h
    obtain ⟨encoding, rfl⟩ := of_readCharset read
    obtain ⟨rfl, rfl⟩ := admitted rfl
    exact .charset (start.reaches ((readCharset_steady _).reaches read))
  split at h
  · have read := ok_of_some h
    obtain ⟨abbreviation, url, rfl⟩ := of_readNaming read
    exact .naming (start.reaches ((readNaming_steady _).reaches read))
  split at h
  · exact taken_of_readKeyframes taken start (ok_of_some h)
  · exact taken_of_readBlockRule taken start h

theorem taken_of_readItem (h : (readItem readBody owner first).outcome r = (.ok (.statement st), s)) :
    Taken owner first r st s := by
  rw [readItem_eq] at h
  obtain ⟨p, u, hu, h⟩ := Read.ok_of_bind h
  cases hu
  split at h
  · obtain ⟨st', u, hu, h⟩ := Read.ok_of_bind h
    cases st' with
    | none => cases h
    | some st' =>
      unfold accept at h
      dsimp only at h
      split at h
      · next name hname =>
        obtain ⟨_, v, hv, h⟩ := Read.ok_of_bind h
        cases h
        have whole := taken_of_readAtRule taken hu fun _ => of_admitCharset hv
        exact whole.upTo ((admitCharset_steady _ _ _ _).reaches hv)
      · next hname =>
        cases h
        exact taken_of_readAtRule taken hu (by rw [hname]; simp)
  · exact taken_of_readUnnamed h

/-- What is done about a fault yields no statement. -/
theorem taken_of_readItemOrSkip (h : (readItemOrSkip readBody owner first).outcome r = (.ok (some (.statement st)), s)) :
    Taken owner first r st s := by
  rw [outcome_readItemOrSkip] at h
  rcases ho : (some <$> readItem readBody owner first).outcome r with ⟨e | item, t⟩
  · rw [ho, Read.rescued_error, skipItem] at h
    obtain ⟨lenient, _, _, h⟩ := Read.ok_of_bind h
    split at h
    · obtain ⟨_, _, _, h⟩ := Read.ok_of_bind h
      obtain ⟨_, _, _, h⟩ := Read.ok_of_bind h
      cases h
    · obtain ⟨lenient, _, _, h⟩ := Read.ok_of_bind h
      split at h
      · obtain ⟨_, _, _, h⟩ := Read.ok_of_bind h
        obtain ⟨_, _, _, h⟩ := Read.ok_of_bind h
        dsimp only at h
        split at h
        · obtain ⟨_, _, _, h⟩ := Read.ok_of_bind h
          cases h
        · cases h
      · cases h
  · rw [ho] at h
    cases h
    exact taken_of_readItem taken (ok_of_some ho)

end Bodies

/-- The readers inside and behind a statement take what the reader of statements takes. -/
theorem allTaken_of_readBehind {n : Nat} {c : List Statement × List Comment}
    (ih : ∀ m < n, ∀ (owner : Owner) (first : Bool) (r s : Reader) (c : List Statement × List Comment),
      (readAllIn m owner first []).outcome r = (.ok c, s) → AllTaken owner first r c.1 s)
    (h : (readBehind n owner first).outcome r = (.ok c, s)) : AllTaken owner first r c.1 s := by
  rw [readBehind, Read.outcome_shorter] at h
  split at h
  · next hn => exact ih _ hn owner first r s c h
  · cases h
    exact .nil (.refl r)

theorem of_readEnd {pending : List Comment} {c : List Statement × List Comment}
    (h : (readEnd owner pending).outcome r = (.ok c, s)) : AllTaken owner first r c.1 s := by
  have moved := (readEnd_steady owner pending).reaches h
  have empty : c.1 = [] := by
    obtain ⟨lenient, u, _, h⟩ := Read.ok_of_bind h
    split at h
    · obtain ⟨_, _, _, h⟩ := Read.ok_of_bind h
      cases h
    · cases h
      rfl
  rw [empty]
  exact .nil moved

/-- Statements are taken one behind the other, whatever is left out between them. -/
theorem allTaken_of_readAllIn {n : Nat} {pending : List Comment} {c : List Statement × List Comment}
    (h : (readAllIn n owner first pending).outcome r = (.ok c, s)) : AllTaken owner first r c.1 s := by
  induction n using Nat.strongRecOn generalizing owner first pending r s c with
  | ind n ih =>
    have behind {owner : Owner} {first : Bool} {r s : Reader} {c : List Statement × List Comment}
        (h : (readBehind n owner first).outcome r = (.ok c, s)) : AllTaken owner first r c.1 s :=
      allTaken_of_readBehind (fun m hm owner first r s c h => ih m hm h) h
    have inside (owner : Owner) (r : Reader) (b : Sheet) (s : Reader)
        (h : (readInside n owner).outcome r = (.ok b, s)) : AllTaken owner true r b.contents s := by
      obtain ⟨c, u, hu, h⟩ := Read.ok_of_bind h
      cases h
      exact behind hu
    rw [readAllIn_eq] at h
    obtain ⟨p, u, hu, h⟩ := Read.ok_of_bind h
    cases hu
    split at h
    · exact of_readEnd h
    · obtain ⟨comments, u, hu, h⟩ := Read.ok_of_bind h
      have gap : r.Reaches u := gap_steadyWhole.reaches hu
      obtain ⟨p, v, hv, h⟩ := Read.ok_of_bind h
      cases hv
      dsimp only at h
      split at h
      · exact (of_readEnd h).behind gap
      · obtain ⟨item, v, hv, h⟩ := Read.ok_of_bind h
        have next : r.Reaches v :=
          gap.trans ((readItemOrSkip_steady (fun o => readInside_steady n o) owner first).reaches hv)
        split at h
        · cases h
          exact .nil next
        · cases h
          exact .nil next
        · exact (behind h).behind next
        · obtain ⟨c, w, hw, h⟩ := Read.ok_of_bind h
          cases h
          exact .cons gap ((taken_of_readItemOrSkip inside hv).addComments _) (behind hw)

end Statement

namespace Sheet

/-- A sheet that is read holds the statements that were taken from its text. -/
theorem allTaken_of_parse {settings : Settings} {text : String} {sheet : Sheet}
    (h : (parse settings text).1 = .ok sheet) :
    ∃ s, Statement.AllTaken .sheet true (Reader.start (withoutMark text) settings 1) sheet.contents s := by
  obtain ⟨comments, s, read⟩ := readAllIn_of_parse h
  exact ⟨s, Statement.allTaken_of_readAllIn read⟩

end Sheet

end Stylesheet
