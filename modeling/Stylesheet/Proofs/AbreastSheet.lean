import Stylesheet.Proofs.AbreastValue
import Stylesheet.Proofs.TwinSheet

namespace Stylesheet

open Counting (Alike)

variable {g : Counting}

namespace Declaration

theorem readHacks_alike (n : Nat) : g.Alike id (readHacks n) (readHacks n) := by
  induction n using Nat.strongRecOn with
  | ind n ih =>
    rw [readHacks]
    refine Alike.here fun p p' h => Alike.ite (by rw [h.comes]) (fun _ => ?_) fun _ => .pure rfl
    refine (Alike.skip 1).bindIgnored ((Alike.take 1).bindSame fun hack => .bindIgnored .gapIgnored ?_)
    have others : g.Alike id (Read.shorter n (fun m _ => readHacks m) (pure []))
        (Read.shorter n (fun m _ => readHacks m) (pure [])) := .shorter (fun m hm => ih m hm) (.pure rfl)
    exact others.bindSame fun hacks => .pure rfl

theorem readHacksIfLenient_alike : g.Alike id readHacksIfLenient readHacksIfLenient := by
  refine Alike.asking fun lenient => Alike.ite Iff.rfl (fun _ => ?_) fun _ => .pure rfl
  exact Alike.leftBind readHacks_alike

theorem readImportant_alike : g.Alike id readImportant readImportant := by
  refine Alike.here fun p p' h => Alike.ite (by rw [h.comes]) (fun _ => ?_) fun _ => .pure rfl
  refine (Alike.skip 1).bindIgnored (.bindIgnored .gapIgnored (Alike.here fun q q' behind => ?_))
  refine Alike.orThrow (by rw [behind.comesAnyCase]) (.unexpected behind _ _) fun _ => ?_
  exact (Alike.skip 9).bindIgnored (.pure rfl)

theorem skipSemicolons_alike : g.Alike id skipSemicolons skipSemicolons := by
  refine Alike.here fun p p' h => ?_
  rw [h.rest]
  exact .skip _

theorem readRest_alike (p p' : Place) (name : String) {comments comments' : List Comment}
    (hc : Comment.bareAll true comments' = Comment.bareAll true comments) :
    g.Alike (bare true) (readRest p name comments) (readRest p' name comments') := by
  refine (Value.read_alike _).bind fun v v' value => Alike.gap.bind fun ds ds' behind => ?_
  refine readHacksIfLenient_alike.bindSame fun hacks => readImportant_alike.bindSame fun important => ?_
  refine .bindIgnored .gapIgnored (skipSemicolons_alike.bindIgnored ((Alike.note _ _ _ _).bindIgnored (.pure ?_)))
  simp only [bare, Option.map_some, value, Comment.bareAll_append, hc, behind]

theorem read_alike {before before' : List Comment}
    (hb : Comment.bareAll true before' = Comment.bareAll true before) :
    g.Alike (bare true) (read before) (read before') := by
  rw [read_eq, read_eq]
  refine Alike.here fun p p' h => ?_
  rw [h.comes]
  refine (Alike.identifier _).bindSame fun name => Alike.gap.bind fun ds ds' behind => .bindIgnored (.token _) ?_
  refine readRest_alike p p' name ?_
  rw [Comment.bareAll_append, Comment.bareAll_append, hb, behind]

end Declaration

namespace RuleSet

theorem recover_alike : g.Alike id recover recover := by
  have passing : g.Alike id passFaulty passFaulty := by
    refine .bindIgnored (Alike.upTo _ _ _).discard (Alike.here fun p p' h => ?_)
    refine Alike.ite (by rw [h.comes]) (fun _ => ?_) fun _ => .pure rfl
    exact (Alike.skip 1).bindIgnored (Declaration.skipSemicolons_alike.bindIgnored (.pure rfl))
  have rescued : g.Alike id (tryCatch passFaulty fun _ => Read.toEnd >>= fun _ => pure false)
      (tryCatch passFaulty fun _ => Read.toEnd >>= fun _ => pure false) :=
    passing.rescue fun _ _ _ => Alike.toEnd.bindIgnored (.pure rfl)
  intro r r' hr
  have agree := rescued r r' hr
  rw [Read.outcome_tryCatch, Read.outcome_tryCatch] at agree
  rw [outcome_recover, outcome_recover]
  exact agree

theorem skipEntry_alike {r r' : RuleSet} (hr : r'.bare true = r.bare true) {e e' : Fault} (he : g.Named e e') :
    g.Alike (Option.map (bare true)) (skipEntry r e) (skipEntry r' e') := by
  refine Alike.asking fun lenient => Alike.ite Iff.rfl (fun _ => ?_) fun _ => .throw he
  refine (Alike.note _ _ _ _).bindIgnored (recover_alike.bindSame fun found => ?_)
  exact Alike.ite Iff.rfl (fun _ => .pure (congrArg some hr)) fun _ => .pure rfl

variable {r r' : RuleSet} {s s' : Reader}

/-- A declaration that is read becomes the last one of its rule set in both readings. -/
theorem readEntry_alike {comments comments' : List Comment} (hs : g.Readers s s') (hr : r'.bare true = r.bare true)
    (hc : Comment.bareAll true comments' = Comment.bareAll true comments) (hp : r.Passed s) (hp' : r'.Passed s') :
    g.Agree (Option.map (bare true)) ((readEntry r comments).outcome s) ((readEntry r' comments').outcome s') := by
  refine (Declaration.read_alike hc s s' hs).bind fun d t d' t' hd hd' same readers => ?_
  have last := (hp.add (Declaration.of_read hd).1).1
  have last' := (hp'.add (Declaration.of_read hd').1).1
  have added : (r'.add d' none).2.bare true = (r.add d none).2.bare true := by
    simp only [bare, RuleSet.mk.injEq, true_and] at hr
    rw [last, last']
    simp only [bare, withDeclarations, List.map_append, List.map_cons, List.map_nil, hr.1, hr.2, same]
  exact .ok (congrArg some added) ⟨readers.first, readers.second, readers.point⟩

theorem readNext_alike {comments comments' : List Comment} (hs : g.Readers s s') (hr : r'.bare true = r.bare true)
    (hc : Comment.bareAll true comments' = Comment.bareAll true comments) (hp : r.Passed s) (hp' : r'.Passed s') :
    g.Agree (Option.map (bare true)) ((readNext r comments).outcome s) ((readNext r' comments').outcome s') :=
  (readEntry_alike hs hr hc hp hp').rescue fun _ t _ t' _ _ named readers => skipEntry_alike hr named t t' readers

/-- Rule sets are read the same where their declarations stand behind the reader. -/
theorem readInto_alike (n : Nat) (hs : g.Readers s s') (hr : r'.bare true = r.bare true) (hp : r.Passed s)
    (hp' : r'.Passed s') : g.Agree (bare true) ((readInto r n).outcome s) ((readInto r' n).outcome s') := by
  induction n using Nat.strongRecOn generalizing r r' s s' with
  | ind n ih =>
    rw [readInto_eq, readInto_eq]
    refine (Alike.gap s s' hs).bind fun comments t comments' t' ht ht' same readers => ?_
    have passed : r.Passed t := hp.of_steady gap_steadyWhole ht
    have passed' : r'.Passed t' := hp'.of_steady gap_steadyWhole ht'
    rw [readFrom, readFrom, Read.outcome_bind, Read.outcome_bind, Read.outcome_place, Read.outcome_place,
      Read.following_ok, Read.following_ok, readers.point.comes]
    split
    · have closing : g.Alike (bare true) (discard (Read.literal "\x7d") >>= fun _ => pure r)
          (discard (Read.literal "\x7d") >>= fun _ => pure r') := .bindIgnored (.token _) (.pure hr)
      exact closing t t' readers
    · refine (readNext_alike readers hr same passed passed').bind fun next u next' u' hu hu' same readers => ?_
      cases next with
      | none =>
        obtain rfl : next' = none := Option.map_eq_none_iff.mp same
        exact .ok hr readers
      | some r₁ =>
        obtain ⟨r₁', rfl, entered⟩ := Option.map_eq_some_iff.mp same
        rw [goOn, goOn, Read.outcome_shorter, Read.outcome_shorter, readers.point.rest]
        split
        · next h => exact ih _ h readers entered (passed.next hu) (passed'.next hu')
        · exact .ok entered readers

theorem read_alike (p p' : Position) {comments comments' : List Comment}
    (hc : Comment.bareAll true comments' = Comment.bareAll true comments) :
    g.Alike (bare true) (read p comments) (read p' comments') := by
  intro s s' hs
  refine (Declaration.skipSemicolons_alike s s' hs).bind fun _ t _ t' _ _ _ readers => ?_
  rw [Read.outcome_bind, Read.outcome_bind, Read.outcome_left, Read.outcome_left, Read.following_ok,
    Read.following_ok, readers.point.rest]
  refine readInto_alike _ readers ?_ (fun d hd => by cases hd) fun d hd => by cases hd
  simp only [bare, List.map_nil, hc]

end RuleSet

namespace StyleRule

theorem readHead_alike (keyframe : Bool) {p p' : Place} (h : g.Point p p') :
    g.Alike (Option.map headLook) (readHead keyframe p) (readHead keyframe p') := by
  have scan : g.Alike Counting.selectorLook (Read.move fun s q => q.selectorText s none 0)
      (Read.move fun s q => q.selectorText s none 0) := .move fun _ _ h => Counting.selectorText_alike none 0 h
  refine scan.bind fun t t' same => ?_
  obtain ⟨text, comments⟩ := t
  obtain ⟨text', comments'⟩ := t'
  simp only [Counting.selectorLook, Prod.mk.injEq] at same
  obtain ⟨rfl, passed⟩ := same
  dsimp only
  rcases Selector.parseList_cases (String.ofList text') keyframe with ⟨-, read⟩ | ⟨part, -, -, fails⟩
  · rw [read, read]
    refine .pure ?_
    rw [Option.map_some, Option.map_some, headLook, headLook, passed]
  · rw [fails, fails]
    exact .throw (.token h)

theorem skipRule_alike {e e' : Fault} (he : g.Named e e') :
    g.Alike (Option.map headLook) (skipRule e) (skipRule e') := by
  refine Alike.asking fun lenient => Alike.ite (by rw [he.recoverable]) (fun _ => ?_) fun _ => .throw he
  exact (Alike.note _ _ _ _).bindIgnored (.bindIgnored (Alike.upTo _ _ _).discard (.pure rfl))

theorem readRules_alike (p p' : Position) {head head' : Option (List Selector × List Comment)}
    (h : head'.map headLook = head.map headLook) :
    g.Alike (Option.map bare) (readRules p head) (readRules p' head') := by
  cases head with
  | none =>
    obtain rfl : head' = none := Option.map_eq_none_iff.mp h
    exact .pure rfl
  | some head =>
    obtain ⟨head', rfl, same⟩ := Option.map_eq_some_iff.mp h
    obtain ⟨selectors, comments⟩ := head
    obtain ⟨selectors', comments'⟩ := head'
    simp only [headLook, Prod.mk.injEq] at same
    obtain ⟨rfl, passed⟩ := same
    refine .bindIgnored (.token _) ((RuleSet.read_alike p p' passed).bind fun rules rules' seen => .pure ?_)
    rw [Option.map_some, Option.map_some, bare, bare, seen]

theorem read_alike (keyframe : Bool) : g.Alike (Option.map bare) (read keyframe) (read keyframe) := by
  rw [read_eq]
  refine Alike.here fun p p' h => ?_
  refine ((readHead_alike keyframe h).rescue fun e e' => skipRule_alike).bind fun head head' same => ?_
  exact readRules_alike p.position p'.position same

end StyleRule

namespace Statement

variable {p p' : Position}

theorem readImport_alike : g.Alike (bare true) (readImport p) (readImport p') := by
  have rest : g.Alike id readRest readRest := .upTo _ _ _
  refine Url.read_alike.bind fun url url' same => .bindIgnored .gapIgnored (rest.bindSame fun media => .pure ?_)
  have seen : (⟨⟨url'.address.text, none⟩, none⟩ : Url) = ⟨⟨url.address.text, none⟩, none⟩ := same
  rw [bare, bare, seen]

theorem readCharset_alike : g.Alike (bare true) (readCharset p) (readCharset p') := by
  refine Quoted.read_alike.bind fun encoding encoding' same => .bindIgnored .gapIgnored ?_
  refine .bindIgnored (Alike.upTo _ _ _).discard (.pure ?_)
  rw [bare, bare, same]

theorem readNaming_alike : g.Alike (bare true) (readNaming p) (readNaming p') := by
  rw [readNaming_eq, readNaming_eq]
  refine Alike.here fun start start' h => Value.readPrimitive_alike.bind fun first first' same => ?_
  have text := isText_of_bare same
  have address : g.AlikeValue (readAddress first) (readAddress first') := by
    refine Alike.ite (by rw [text]) (fun _ => .pure same) fun _ => ?_
    exact .bindIgnored .gapIgnored Value.readPrimitive_alike
  refine address.bind fun url url' seen => ?_
  have written : url'.toCss .compact = url.toCss .compact := by
    rw [← Value.toCss_bare, seen, Value.toCss_bare]
  unfold readAddressed
  rw [written]
  refine Alike.orThrow (by rw [isText_of_bare seen]) (.token h) fun _ => ?_
  refine .bindIgnored .gapIgnored (.bindIgnored (Alike.upTo _ _ _).discard (.pure ?_))
  rw [bare, bare, seen, text, keyword?_of_bare same]

theorem readClosing_alike : g.Alike id readClosing readClosing :=
  Alike.here fun _ _ h => Alike.ite (by rw [h.comes]) (fun _ => .skip 1) fun _ => .pure rfl

section Bodies

variable {readBody readBody' : Owner → Read Sheet}
  (hb : ∀ owner, g.Alike (Sheet.bare true) (readBody owner) (readBody' owner))

include hb

theorem readKeyframes_alike (name : String) :
    g.Alike (bare true) (readKeyframes readBody name p) (readKeyframes readBody' name p') := by
  refine (Alike.upTo _ _ _).bindSame fun animation => (hb .keyframes).bind fun b b' same => ?_
  refine readClosing_alike.bindIgnored (.pure ?_)
  exact congrArg (Statement.keyframes name (Text.trim animation)) same

theorem readBlockRule_alike (name : String) :
    g.Alike (Option.map (bare true)) (readBlockRule readBody name p) (readBlockRule readBody' name p') := by
  refine Alike.here fun q q' h => (Alike.upTo _ _ _).bindSame fun args => Alike.here fun stop stop' behind => ?_
  dsimp only
  refine Alike.ite (by rw [behind.comes]) (fun _ => ?_) fun _ => ?_
  · exact (Alike.skip 1).bindIgnored (.throwBind (.misplaced h))
  refine .bindIgnored (.token _) (Alike.ite Iff.rfl (fun _ => ?_) fun _ => ?_)
  · refine Alike.asking fun lenient => Alike.orThrow Iff.rfl (.misplaced h) fun _ => ?_
    refine (Alike.note _ _ _ _).bindIgnored (Alike.here fun start start' inside => ?_)
    rw [inside.rest]
    exact (Alike.skip _).bindIgnored (.pure rfl)
  · refine Alike.ite Iff.rfl (fun _ => ?_) fun _ => ?_
    · refine (hb .grouping).bind fun b b' same => readClosing_alike.bindIgnored (.pure ?_)
      exact congrArg (fun b => some (Statement.grouping name (Text.trim args) b)) same
    · refine (RuleSet.read_alike p p' rfl).bind fun rules rules' same => .pure ?_
      rw [Option.map_some, Option.map_some, bare, bare, same]

theorem readNamed_alike (name : String) :
    g.Alike (Option.map (bare true)) (readNamed readBody name p) (readNamed readBody' name p') := by
  have one {x x' : Read Statement} (hx : g.Alike (bare true) x x') :
      g.Alike (Option.map (bare true)) (some <$> x) (some <$> x') := hx.map fun s s' same => congrArg some same
  refine Alike.ite Iff.rfl (fun _ => one readImport_alike) fun _ => ?_
  refine Alike.ite Iff.rfl (fun _ => one readCharset_alike) fun _ => ?_
  refine Alike.ite Iff.rfl (fun _ => one readNaming_alike) fun _ => ?_
  refine Alike.ite Iff.rfl (fun _ => one (readKeyframes_alike hb name)) fun _ => ?_
  exact readBlockRule_alike hb name

theorem readAtRule_alike : g.Alike (Option.map (bare true)) (readAtRule readBody) (readAtRule readBody') := by
  have named : g.Alike Prod.fst readAtName readAtName := by
    refine Alike.here fun p p' h => .bindIgnored (.token _) ((Alike.identifier _).bindSame fun name => ?_)
    refine .bindIgnored .gapIgnored (Alike.here fun q q' _ => (Alike.note _ _ _ _).bindIgnored (.pure rfl))
  rw [readAtRule_eq, readAtRule_eq]
  refine named.bind fun n n' same => ?_
  rw [same]
  exact readNamed_alike hb n.1

end Bodies

theorem admitCharset_alike (owner : Owner) (first : Bool) {q q' : Place} (h : g.Point q q') (name : String) :
    g.Alike id (admitCharset owner first q.location name) (admitCharset owner first q'.location name) := by
  unfold admitCharset
  dsimp only
  refine Alike.orThrow Iff.rfl (.misplaced h) fun _ => Alike.orThrow Iff.rfl (.misplaced h) fun _ => ?_
  exact .setCharset name

theorem accept_alike (owner : Owner) (first : Bool) {q q' : Place} (h : g.Point q q') {s s' : Option Statement}
    (hs : s'.map (bare true) = s.map (bare true)) :
    g.Alike Item.bare (accept owner first q.location s) (accept owner first q'.location s') := by
  cases s with
  | none =>
    obtain rfl : s' = none := Option.map_eq_none_iff.mp hs
    exact .pure rfl
  | some s =>
    obtain ⟨s', rfl, same⟩ := Option.map_eq_some_iff.mp hs
    have item : (Item.statement s').bare = (Item.statement s).bare := congrArg Item.statement same
    unfold accept
    dsimp only
    rw [encoding?_of_bare same]
    split
    · exact (admitCharset_alike owner first h _).bindIgnored (.pure item)
    · exact .pure item

theorem readUnnamed_alike (owner : Owner) {q q' : Place} (h : g.Point q q') :
    g.Alike Item.bare (readUnnamed owner q) (readUnnamed owner q') := by
  refine Alike.ite (by rw [h.comes]) (fun _ => Alike.ite Iff.rfl (fun _ => .pure rfl) fun _ => ?_) fun _ => ?_
  · refine Alike.asking fun lenient => Alike.ite Iff.rfl (fun _ => .throw (.misplaced h)) fun _ => ?_
    exact (Alike.note _ _ _ _).bindIgnored ((Alike.skip 1).bindIgnored (.pure rfl))
  · refine (StyleRule.read_alike _).bind fun rule rule' same => ?_
    cases rule with
    | none =>
      obtain rfl : rule' = none := Option.map_eq_none_iff.mp same
      exact .pure rfl
    | some rule =>
      obtain ⟨rule', rfl, seen⟩ := Option.map_eq_some_iff.mp same
      exact .pure (congrArg (fun r => Item.statement (.style r)) seen)

theorem skipItem_alike {start start' : Place} (h : g.Point start start') {e e' : Fault} (he : g.Named e e') :
    g.Alike (Option.map Item.bare) (skipItem start e) (skipItem start' e') := by
  refine Alike.asking fun lenient => Alike.ite (by rw [he.isEnd]) (fun _ => ?_) fun _ => ?_
  · exact (Alike.note _ _ _ _).bindIgnored (Alike.toEnd.bindIgnored (.pure rfl))
  · refine Alike.asking fun lenient => Alike.ite (by rw [he.recoverable]) (fun _ => ?_) fun _ => .throw he
    refine (Alike.note _ _ _ _).bindIgnored (Alike.here fun q q' behind => ?_)
    refine Alike.ite (by rw [behind.offset, h.offset]) (fun _ => ?_) fun _ => .pure rfl
    exact .bindIgnored (Alike.take 1).discard (.pure rfl)

section Items

variable {readBody readBody' : Owner → Read Sheet}
  (hb : ∀ owner, g.Alike (Sheet.bare true) (readBody owner) (readBody' owner))

include hb

theorem readItem_alike (owner : Owner) (first : Bool) :
    g.Alike Item.bare (readItem readBody owner first) (readItem readBody' owner first) := by
  rw [readItem_eq, readItem_eq]
  refine Alike.here fun q q' h => Alike.ite (by rw [h.comes]) (fun _ => ?_) fun _ => readUnnamed_alike owner h
  exact (readAtRule_alike hb).bind fun s s' same => accept_alike owner first h same

theorem readItemOrSkip_alike (owner : Owner) (first : Bool) :
    g.Alike (Option.map Item.bare) (readItemOrSkip readBody owner first) (readItemOrSkip readBody' owner first) := by
  rw [readItemOrSkip_eq, readItemOrSkip_eq]
  refine Alike.here fun q q' h => Alike.rescue ?_ fun e e' named => skipItem_alike h named
  exact (readItem_alike hb owner first).map fun i i' same => congrArg some same

end Items

theorem readEnd_alike (owner : Owner) {pending pending' : List Comment}
    (h : Comment.bareAll true pending' = Comment.bareAll true pending) :
    g.Alike contentsLook (readEnd owner pending) (readEnd owner pending') := by
  refine Alike.asking fun lenient => Alike.ite Iff.rfl (fun _ => ?_) fun _ => .pure ?_
  · exact Alike.here fun q q' behind => .throwBind (.ending behind)
  · rw [contentsLook, contentsLook, h]

/-- The statements of a body are read the same in both readings, and so are those of all bodies inside. -/
theorem readAllIn_alike (n : Nat) (owner : Owner) (first : Bool) {pending pending' : List Comment}
    (h : Comment.bareAll true pending' = Comment.bareAll true pending) :
    g.Alike contentsLook (readAllIn n owner first pending) (readAllIn n owner first pending') := by
  induction n using Nat.strongRecOn generalizing owner first pending pending' with
  | ind n ih =>
    have behind (owner : Owner) (first : Bool) :
        g.Alike contentsLook (readBehind n owner first) (readBehind n owner first) :=
      .shorter (fun m hm => ih m hm owner first rfl) (.pure rfl)
    have inside (owner : Owner) : g.Alike (Sheet.bare true) (readInside n owner) (readInside n owner) := by
      exact (behind owner true).bind fun c c' same => .pure (bare_of_contentsLook same)
    rw [readAllIn_eq, readAllIn_eq]
    refine Alike.here fun q q' here => Alike.ite (by rw [here.atEnd]) (fun _ => readEnd_alike owner h) fun _ => ?_
    refine Alike.gap.bind fun cs cs' comments => Alike.here fun q q' there => ?_
    have passed : Comment.bareAll true (pending' ++ cs') = Comment.bareAll true (pending ++ cs) := by
      rw [Comment.bareAll_append, Comment.bareAll_append, h, comments]
    have done : g.Alike contentsLook (pure ([], pending ++ cs)) (pure ([], pending' ++ cs')) :=
      .pure (congrArg (Prod.mk []) passed)
    dsimp only
    refine Alike.ite (by rw [there.atEnd]) (fun _ => readEnd_alike owner passed) fun _ => ?_
    refine (readItemOrSkip_alike inside owner first).bind fun i i' same => ?_
    cases i with
    | none =>
      obtain rfl : i' = none := Option.map_eq_none_iff.mp same
      exact done
    | some i =>
      obtain ⟨i', rfl, seen⟩ := Option.map_eq_some_iff.mp same
      cases i with
      | closing =>
        obtain rfl : i' = .closing := Item.eq_closing_of_bare seen
        exact done
      | omitted =>
        obtain rfl : i' = .omitted := Item.eq_omitted_of_bare seen
        exact behind owner first
      | statement s =>
        obtain ⟨s', rfl, statement⟩ := Item.eq_statement_of_bare seen
        refine (behind owner false).bind fun c c' contents => .pure ?_
        simp only [contentsLook, Prod.mk.injEq] at contents ⊢
        rw [bareAll, bareAll, bare_addComments, bare_addComments, statement, passed, contents.1, contents.2]
        exact ⟨rfl, rfl⟩

end Statement

namespace Sheet

/-- A sheet is read the same in both readings. -/
theorem read_alike : g.Alike (bare true) read read := by
  refine Alike.leftBind fun n => (Statement.readAllIn_alike n .sheet true rfl).bind fun c c' same => ?_
  exact (Alike.note _ _ _ _).bindIgnored (.pure (Statement.bare_of_contentsLook same))

end Sheet

end Stylesheet
