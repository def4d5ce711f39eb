import Stylesheet.Proofs.TwinRuleSet

namespace Stylesheet

open Pairing (Twin never)

variable {g : Pairing} {L : Prop}

namespace StyleRule

/-- Selectors with their comments, without places. -/
def headLook (head : List Selector × List Comment) : List Selector × List Comment :=
  (head.1, Comment.bareAll true head.2)

theorem readHead_twin (keyframe : Bool) (p p' : Place) :
    g.Twin L True never (Option.map headLook) (readHead keyframe p) (readHead keyframe p') := by
  have scan : g.Twin L True never Pairing.selectorLook (Read.move fun s q => q.selectorText s none 0)
      (Read.move fun s q => q.selectorText s none 0) :=
    .move (Place.moves_selectorText none 0).ahead (Place.moves_selectorText none 0).located
      fun _ _ _ h hl => Pairing.selectorText_paired none 0 h hl
  refine scan.bind fun t t' alike => ?_
  obtain ⟨text, comments⟩ := t
  obtain ⟨text', comments'⟩ := t'
  obtain rfl : text = text' := (congrArg Prod.fst alike.seen).symm
  rcases Selector.parseList_cases (String.ofList text) keyframe with ⟨-, h⟩ | ⟨part, -, -, h⟩
  · have whole (he : g.exact = true) : comments' = comments := congrArg Prod.snd (alike.whole he)
    have seen : Comment.bareAll true comments' = Comment.bareAll true comments := congrArg Prod.snd alike.seen
    dsimp only
    rw [h, h]
    refine .pure fun _ => ⟨fun he => by rw [whole he], ?_⟩
    rw [Option.map_some, Option.map_some, headLook, headLook, seen]
  · dsimp only
    rw [h, h]
    exact .throw rfl .token

theorem skipRule_twin {e e' : Fault} (he : e.located = true) (akin : Fault.Akin e e') :
    g.Twin L True never (Option.map headLook) (skipRule e) (skipRule e') := by
  refine Twin.orStop (fun b _ _ => ?_) fun s hs => ⟨e, he, rfl⟩
  refine Twin.ite (fun _ => by rw [akin.recoverable]) (fun _ => ?_) fun _ => .throw he akin
  exact (Twin.note _ _ _ _).bindIgnored (.bindIgnored (Twin.upTo _ _ _).discard (.pure fun _ => .refl _ _))

/-- The rule without places. -/
def bare (r : StyleRule) : StyleRule := { r with rules := r.rules.bare true }

theorem readRules_twin {p p' : Position} (hp : L → g.exact = true → p' = p)
    {head head' : Option (List Selector × List Comment)} (h : g.Alike (Option.map headLook) head head') :
    g.Twin L True (·.isSome = true) (Option.map bare) (readRules p head) (readRules p' head') := by
  cases head with
  | none =>
    have absent : head' = none := Option.map_eq_none_iff.mp h.seen
    rw [absent]
    exact .pureUnsure (by simp) fun _ => .refl _ _
  | some head =>
    obtain ⟨head', rfl, seen⟩ := Option.map_eq_some_iff.mp h.seen
    obtain ⟨selectors, comments⟩ := head
    obtain ⟨selectors', comments'⟩ := head'
    obtain rfl : selectors = selectors' := (congrArg Prod.fst seen).symm
    have passed : g.Alike (Comment.bareAll true) comments comments' :=
      ⟨fun he => congrArg Prod.snd (Option.some.inj (h.whole he)), congrArg Prod.snd seen⟩
    refine .bindIgnored (.token (by decide)) ((RuleSet.read_twin hp fun _ => passed).bindPure (fun _ _ => trivial) ?_)
    refine fun rules rules' _ alike => ⟨fun he => by rw [alike.whole he], ?_⟩
    rw [Option.map_some, Option.map_some, bare, bare, alike.seen]

/-- A style rule is read by a twin step. -/
theorem read_twin (keyframe : Bool) :
    g.Twin L True (·.isSome = true) (Option.map bare) (read keyframe) (read keyframe) := by
  rw [read_eq]
  refine Twin.here fun M p p' hm meet => ?_
  refine (Twin.guarded (readHead_twin keyframe p p') (fun _ _ => skipRule_twin) fun e s => skipRule_strict).bind ?_
  exact fun head head' alike => readRules_twin meet.position alike

end StyleRule

namespace Statement

/-- Statements with a block in braces. -/
def hasBlock : Statement → Bool
  | style .. | descriptors .. | grouping .. | keyframes .. => true
  | imports .. | charset .. | naming .. => false

theorem bare_addComments (s : Statement) (cs : List Comment) :
    (s.addComments cs).bare true = (s.bare true).addComments (Comment.bareAll true cs) := by
  cases s <;>
    simp only [addComments, bare, RuleSet.bare, Comment.bareAll, if_true, List.map_append]

theorem readRest_twin : g.Twin L True never id readRest readRest := .upTo _ _ _

variable {p p' : Position} {c : Prop}

theorem readImport_twin (hp : L → g.exact = true → p' = p) :
    g.Twin L True (fun s => c ∧ s.hasBlock = true) (bare true) (readImport p) (readImport p') := by
  refine Url.read_twin.bind fun url url' alike => .bindIgnored .gapIgnored (readRest_twin.bindSame fun media => ?_)
  refine .pureUnsure (fun h => by cases h.2) fun l => ⟨fun he => by rw [alike.whole he, hp l he], ?_⟩
  have seen : (⟨⟨url'.address.text, none⟩, none⟩ : Url) = ⟨⟨url.address.text, none⟩, none⟩ := alike.seen
  rw [bare, bare, seen]

theorem readCharset_twin (hp : L → g.exact = true → p' = p) :
    g.Twin L True (fun s => c ∧ s.hasBlock = true) (bare true) (readCharset p) (readCharset p') := by
  refine Quoted.read_twin.bind fun encoding encoding' alike => .bindIgnored .gapIgnored ?_
  refine .bindIgnored readRest_twin.discard ?_
  refine .pureUnsure (fun h => by cases h.2) fun l => ⟨fun he => by rw [alike.whole he, hp l he], ?_⟩
  rw [bare, bare, alike.seen]

/-- Takes the end of a naming, whose address is a text. -/
def readAddressed (p : Position) (start : Place) (abbreviation : Option String) (url : Value) : Read Statement := do
  if !url.isText then
    throw (.unexpectedToken "a namespace url or string" (url.toCss .compact) start.location)
  discard Read.gap
  discard readRest
  return .naming abbreviation url (some p) []

/-- Takes the address behind an abbreviation. -/
def readAddress (first : Value) : Read Value :=
  if first.isText then pure first else do
    discard Read.gap
    Value.readPrimitive

theorem readNaming_eq (p : Position) : readNaming p = (do
    let start ← Read.place
    let first ← Value.readPrimitive
    let url ← readAddress first
    readAddressed p start (if first.isText then none else first.keyword?) url) := by
  unfold readNaming readAddress
  refine congrArg _ (funext fun start => congrArg _ (funext fun first => ?_))
  dsimp only
  split
  · rfl
  · rw [bind_assoc]
    rfl

theorem isText_of_bare {v v' : Value} (h : v'.bare = v.bare) : v'.isText = v.isText := by
  rw [← Value.isText_bare, h, Value.isText_bare]

theorem keyword?_of_bare {v v' : Value} (h : v'.bare = v.bare) : v'.keyword? = v.keyword? := by
  rw [← Value.keyword?_bare, h, Value.keyword?_bare]

theorem readNaming_twin (hp : L → g.exact = true → p' = p) :
    g.Twin L True (fun s => c ∧ s.hasBlock = true) (bare true) (readNaming p) (readNaming p') := by
  rw [readNaming_eq, readNaming_eq]
  refine Twin.here fun M start start' hm _ => Value.readPrimitive_twin.whole.bind fun first first' alike => ?_
  have text := isText_of_bare alike.seen
  have address : g.Twin M True never Value.bare (readAddress first) (readAddress first') := by
    refine Twin.ite (fun _ => by rw [text]) (fun _ => .pure fun _ => alike) fun _ => ?_
    exact .bindIgnored .gapIgnored Value.readPrimitive_twin.whole
  refine address.bind fun url url' same => ?_
  unfold readAddressed
  refine Twin.orThrow (fun _ => by rw [isText_of_bare same.seen]) rfl .token fun _ => ?_
  refine .bindIgnored .gapIgnored (.bindIgnored readRest_twin.discard ?_)
  refine .pureUnsure (fun h => by cases h.2) fun m =>
    ⟨fun he => by rw [alike.whole he, same.whole he, hp (hm m) he], ?_⟩
  rw [bare, bare, same.seen, text, keyword?_of_bare alike.seen]

theorem outcome_readClosing (r : Reader) :
    readClosing.outcome r =
      if r.place.comes "\x7d" then (.ok (), { r with place := r.place.forward r.settings.width 1 })
      else (.ok (), r) := by
  rw [readClosing, Read.outcome_bind, Read.outcome_place, Read.following_ok]
  split
  · rw [Read.skip, Read.outcome_move]
  · rfl

/-- A body and the brace behind it, where strict reading of the body leaves a brace. -/
theorem enclosed_twin {α β : Type} {sure : α → Prop} {view : α → β} {x x' : Read Sheet} {f f' : Sheet → α}
    (hx : g.Twin L True never (Sheet.bare true) x x') (hs : ∀ a, sure a → c)
    (closes : c → g.first.lenient = false → ∀ r b s, g.Reads r → x.outcome r = (.ok b, s) →
      s.place.comes "\x7d" = true)
    (hf : L → ∀ b b', g.Alike (Sheet.bare true) b b' → g.Alike view (f b) (f' b')) :
    g.Twin L True sure view (x >>= fun b => readClosing >>= fun _ => pure (f b))
      (x' >>= fun b => readClosing >>= fun _ => pure (f' b)) := by
  have closing : g.Twin L True never id readClosing readClosing := by
    refine Twin.here fun M p p' hm meet => ?_
    exact Twin.ite (fun m => by rw [meet.comes (by decide) m]) (fun _ => .skip 1) fun _ => .pure fun _ => .refl _ _
  have behind (b b' : Sheet) (alike : g.Alike (Sheet.bare true) b b') : g.Twin L True never view
      (readClosing >>= fun _ => pure (f b)) (readClosing >>= fun _ => pure (f' b')) :=
    closing.bindIgnored (.pure fun l => hf l b b' alike)
  have needs (hl : g.first.lenient = false) (hc : c) {b : Sheet} {r s t : Reader} {a : α} (hr : g.Reads r)
      (hb : x.outcome r = (.ok b, s)) (ha : (readClosing >>= fun _ => pure (f b)).outcome s = (.ok a, t)) :
      Pairing.Closes s t := by
    rw [Read.outcome_bind, outcome_readClosing, if_pos (closes hc hl r b s hr hb)] at ha
    cases ha
    obtain ⟨-, tail, ht⟩ := Place.comes_iff.mp (closes hc hl r b s hr hb)
    exact ⟨[], by rw [Place.forward_rest, ← ht]; rfl⟩
  refine ⟨(hx.bind behind).keeps, fun hl r a t hr ha hsure => ?_, fun l r r' hl hr => ?_⟩
  · obtain ⟨b, s, hb, ha⟩ := Read.ok_of_bind ha
    exact (needs hl (hs a hsure) hr hb ha).before (hx.kept hr hb).ahead.rest_suffix
  · refine .bind (hx.agrees l r r' hl hr) (fun b s b' s' hb _ live alike readers => ?_) fun b s o' hb dead => ?_
    · rw [Read.outcome_bind, Read.outcome_bind, outcome_readClosing, outcome_readClosing,
        Pairing.comes_eq readers.places live (by decide)]
      split
      · next hc =>
        obtain ⟨-, tail, ht⟩ := Place.comes_iff.mp hc
        have one : 1 ≤ s.place.rest.length := by
          rw [← ht]
          exact Nat.le_add_left 1 _
        refine fun _ => ⟨_, _, rfl, hf l b b' alike, readers.first, readers.second, ?_⟩
        rw [readers.first, readers.second]
        exact readers.places.forward (.inr one)
      · exact fun _ => ⟨_, _, rfl, hf l b b' alike, readers⟩
    · have reads := hx.reads hr.reads hb
      refine .of_not_live ((behind b b (.refl _ _)).keeps s reads) dead fun hloose a t ha hsure => ?_
      exact needs hloose.1 (hs a hsure) hr.reads hb ha

/-- A reader of bodies leaves the brace behind each body inside another one, if `c` and the reading is strict. -/
def Encloses (g : Pairing) (c : Prop) (readBody : Owner → Read Sheet) : Prop :=
  c → g.first.lenient = false → ∀ owner, owner ≠ .sheet → ∀ r b s, g.Reads r →
    (readBody owner).outcome r = (.ok b, s) → s.place.comes "\x7d" = true

section Bodies

variable {readBody readBody' : Owner → Read Sheet}
  (hb : ∀ owner, g.Twin True True never (Sheet.bare true) (readBody owner) (readBody' owner))
  (closes : Encloses g c readBody)

include hb closes

theorem readKeyframes_twin (name : String) (hp : L → g.exact = true → p' = p) :
    g.Twin L True (fun s => c ∧ s.hasBlock = true) (bare true) (readKeyframes readBody name p)
      (readKeyframes readBody' name p') := by
  refine (Twin.upTo _ _ _).bindSame fun animation => ?_
  refine enclosed_twin ((hb .keyframes).weaken fun _ => trivial) (fun _ => And.left)
    (fun hc hl => closes hc hl .keyframes (by decide)) fun l b b' alike => ?_
  refine ⟨fun he => by rw [alike.whole he, hp l he], ?_⟩
  exact congrArg (Statement.keyframes name (Text.trim animation)) alike.seen

/-- A rule with a block. Only lenient reading leaves it out. -/
theorem readBlockRule_twin (name : String) (hp : L → g.exact = true → p' = p) :
    g.Twin L True (fun o => c ∧ o.any hasBlock = true) (Option.map (bare true)) (readBlockRule readBody name p)
      (readBlockRule readBody' name p') := by
  refine Twin.here fun M q q' hm _ => (Twin.upTo _ _ _).bindSame fun args => Twin.here fun N stop stop' hn meet => ?_
  dsimp only
  refine Twin.ite (fun n => by rw [meet.comes (by decide) n]) (fun _ => ?_) fun _ => ?_
  · exact (Twin.skip 1).bindIgnored (.throwBind rfl .misplaced)
  refine .bindIgnored (.token (by decide)) (Twin.ite (fun _ => Iff.rfl) (fun _ => ?_) fun _ => ?_)
  · refine Twin.orStop (fun b hl _ => ?_) fun s _ => ⟨_, rfl, rfl⟩
    refine Twin.orThrow (fun _ => Iff.rfl) rfl .misplaced fun hstrict => ?_
    have lenient : g.first.lenient = true := by simpa [hl] using hstrict
    refine (Twin.note _ _ _ _).bindIgnored (Twin.here fun K start start' _ behind => ?_)
    have same (k : K) : start'.rest = start.rest := (behind.places k).rest_eq (Pairing.more_of_lenient lenient)
    refine .congr (fun k => by rw [same k]) ((Twin.skip _).bindIgnored ?_)
    exact .pureUnsure (fun h => by cases h.2) fun _ => .refl _ _
  · refine Twin.ite (fun _ => Iff.rfl) (fun _ => ?_) fun _ => ?_
    · refine enclosed_twin ((hb .grouping).weaken fun _ => trivial) (fun _ => And.left)
        (fun hc hl => closes hc hl .grouping (by decide)) fun n b b' alike => ?_
      refine ⟨fun he => by rw [alike.whole he, hp (hm (hn n)) he], ?_⟩
      exact congrArg (fun b => some (Statement.grouping name (Text.trim args) b)) alike.seen
    · have rules := RuleSet.read_twin (L := N) (fun n => hp (hm (hn n))) fun _ => .refl (Comment.bareAll true) []
      refine rules.bindPure (fun _ _ => trivial) fun r r' _ alike => ⟨fun he => by rw [alike.whole he], ?_⟩
      rw [Option.map_some, Option.map_some, bare, bare, alike.seen]

end Bodies

theorem readAtName_twin : g.Twin L True never Prod.fst readAtName readAtName := by
  refine Twin.here fun M p p' hm meet => .bindIgnored (.token (by decide)) ?_
  refine (Twin.identifier _).bindSame fun name => .bindIgnored .gapIgnored (Twin.here fun N q q' hn _ => ?_)
  refine (Twin.note _ _ _ _).bindIgnored (.pure fun n => ⟨fun he => ?_, rfl⟩)
  rw [meet.position (hn n) he]

section Items

variable {readBody readBody' : Owner → Read Sheet}
  (hb : ∀ owner, g.Twin True True never (Sheet.bare true) (readBody owner) (readBody' owner))
  (closes : Encloses g c readBody)

include hb closes

theorem readNamed_twin (name : String) (hp : L → g.exact = true → p' = p) :
    g.Twin L True (fun o => c ∧ o.any hasBlock = true) (Option.map (bare true)) (readNamed readBody name p)
      (readNamed readBody' name p') := by
  have one {x x' : Read Statement} (hx : g.Twin L True (fun s => c ∧ s.hasBlock = true) (bare true) x x') :
      g.Twin L True (fun o => c ∧ o.any hasBlock = true) (Option.map (bare true)) (some <$> x) (some <$> x') :=
    hx.mapTo (fun _ => id) fun s s' _ alike => alike.map some fun seen => congrArg some seen
  refine Twin.ite (fun _ => Iff.rfl) (fun _ => one (readImport_twin hp)) fun _ => ?_
  refine Twin.ite (fun _ => Iff.rfl) (fun _ => one (readCharset_twin hp)) fun _ => ?_
  refine Twin.ite (fun _ => Iff.rfl) (fun _ => one (readNaming_twin hp)) fun _ => ?_
  refine Twin.ite (fun _ => Iff.rfl) (fun _ => one (readKeyframes_twin hb closes name hp)) fun _ => ?_
  exact readBlockRule_twin hb closes name hp

theorem readAtRule_twin :
    g.Twin L True (fun o => c ∧ o.any hasBlock = true) (Option.map (bare true)) (readAtRule readBody)
      (readAtRule readBody') := by
  rw [readAtRule_eq, readAtRule_eq]
  refine readAtName_twin.bind fun n n' alike => ?_
  have name : n'.1 = n.1 := alike.seen
  rw [name]
  exact readNamed_twin hb closes n.1 fun _ he => by rw [alike.whole he]

end Items

theorem setCharset_twin (name : String) : g.Twin L True never id (Read.setCharset name) (Read.setCharset name) := by
  have change : g.Twin L True never id (modify fun r => { r with charset := name } : Read Unit)
      (modify fun r => { r with charset := name }) :=
    ⟨fun r _ => .still (r := r) (s := { r with charset := name }) rfl rfl (), fun _ _ _ _ _ _ hs => hs.elim,
      fun _ _ _ _ hr _ => ⟨(), _, rfl, .refl id _, hr.first, hr.second, hr.places⟩⟩
  exact change.bindIgnored (.note _ _ _ _)

theorem admitCharset_twin (owner : Owner) (first : Bool) (l l' : Location) (name : String) :
    g.Twin L True never id (admitCharset owner first l name) (admitCharset owner first l' name) := by
  unfold admitCharset
  dsimp only
  refine Twin.orThrow (fun _ => Iff.rfl) (Fault.located_misplaced _ _) .misplaced fun _ => ?_
  refine Twin.orThrow (fun _ => Iff.rfl) (Fault.located_misplaced _ _) .misplaced fun _ => ?_
  exact setCharset_twin name

/-- The charset that a statement names. -/
def encoding? : Statement → Option String
  | charset encoding _ _ => some encoding.text
  | _ => none

theorem encoding?_of_bare {s s' : Statement} (h : s'.bare true = s.bare true) : s'.encoding? = s.encoding? := by
  have bare (s : Statement) : (s.bare true).encoding? = s.encoding? := by
    cases s <;> rfl
  rw [← bare, h, bare]

theorem encoding?_of_hasBlock {s : Statement} (h : s.hasBlock = true) : s.encoding? = none := by
  cases s with
  | charset => cases h
  | style | descriptors | grouping | keyframes | imports | naming => rfl

/-- What an at-rule makes of the place where it stands. -/
def accept (owner : Owner) (first : Bool) (l : Location) : Option Statement → Read Item
  | none => return .omitted
  | some s =>
    match s.encoding? with
    | some name => do
      admitCharset owner first l name
      return .statement s
    | none => return .statement s

/-- The item of a style rule. -/
def ofRule : Option StyleRule → Read Item
  | some r => return .statement (.style r)
  | none => return .omitted

/-- Takes what stands next where no at-sign stands. -/
def readUnnamed (owner : Owner) (p : Place) : Read Item := do
  if p.comes "\x7d" then
    if owner ≠ .sheet then return .closing
    else if !(← Read.isLenient) then throw (.misplaced "Unopened \x7b" p.location)
    else
      Read.note .warn ("Skipping stray `\x7d` at " ++ p.location.text)
      Read.skip 1
      return .omitted
  else StyleRule.read (owner = .keyframes) >>= ofRule

theorem readItem_eq (readBody : Owner → Read Sheet) (owner : Owner) (first : Bool) :
    readItem readBody owner first = (do
      let p ← Read.place
      if p.comes "@" then readAtRule readBody >>= accept owner first p.location
      else readUnnamed owner p) := by
  unfold readItem readUnnamed
  refine congrArg _ (funext fun p => ?_)
  split
  · refine congrArg _ (funext fun s => ?_)
    cases s with
    | none => rfl
    | some s => cases s <;> rfl
  · split
    · rfl
    · refine congrArg _ (funext fun r => ?_)
      cases r <;> rfl

namespace Item

/-- The item without places. -/
def bare : Item → Item
  | statement s => statement (s.bare true)
  | omitted => omitted
  | closing => closing

theorem eq_closing_of_bare {i : Item} (h : i.bare = Item.bare .closing) : i = .closing := by
  cases i with
  | closing => rfl
  | statement | omitted => cases h

theorem eq_omitted_of_bare {i : Item} (h : i.bare = Item.bare .omitted) : i = .omitted := by
  cases i with
  | omitted => rfl
  | statement | closing => cases h

theorem eq_statement_of_bare {i : Item} {s : Statement} (h : i.bare = (Item.statement s).bare) :
    ∃ s', i = .statement s' ∧ s'.bare true = s.bare true := by
  cases i with
  | statement s' => exact ⟨s', rfl, Item.statement.inj h⟩
  | omitted | closing => cases h

/-- The item is a statement with a block. -/
def hasBlock : Item → Bool
  | statement s => s.hasBlock
  | omitted | closing => false

end Item

theorem accept_twin (owner : Owner) (first : Bool) (l l' : Location) {s s' : Option Statement}
    (hs : ¬ (c ∧ s.any hasBlock = true)) (h : g.Alike (Option.map (bare true)) s s') :
    g.Twin L True (fun i => c ∧ i.hasBlock = true) Item.bare (accept owner first l s) (accept owner first l' s') := by
  cases s with
  | none =>
    have absent : s' = none := Option.map_eq_none_iff.mp h.seen
    rw [absent]
    exact .pureUnsure (fun hc => by cases hc.2) fun _ => .refl _ _
  | some s =>
    obtain ⟨s', rfl, seen⟩ := Option.map_eq_some_iff.mp h.seen
    have item : g.Alike Item.bare (.statement s) (.statement s') :=
      ⟨fun he => by rw [Option.some.inj (h.whole he)], congrArg Item.statement seen⟩
    unfold accept
    dsimp only
    rw [encoding?_of_bare seen]
    split
    · exact (admitCharset_twin owner first l l' _).bindIgnored (.pureUnsure hs fun _ => item)
    · exact .pureUnsure hs fun _ => item

theorem readUnnamed_twin (owner : Owner) {M : Prop} {p p' : Place} (meet : g.Meet M p p') :
    g.Twin M True (fun i => i.hasBlock = true) Item.bare (readUnnamed owner p) (readUnnamed owner p') := by
  refine Twin.ite (fun m => by rw [meet.comes (by decide) m]) (fun _ => ?_) fun _ => ?_
  · refine Twin.ite (fun _ => Iff.rfl) (fun _ => .pureUnsure (by decide) fun _ => .refl _ _) fun _ => ?_
    refine Twin.orStop (fun b _ _ => ?_) fun s _ => ⟨_, rfl, rfl⟩
    refine Twin.ite (fun _ => Iff.rfl) (fun _ => .throw rfl .misplaced) fun _ => ?_
    exact (Twin.note _ _ _ _).bindIgnored ((Twin.skip 1).bindIgnored (.pureUnsure (by decide) fun _ => .refl _ _))
  · refine (StyleRule.read_twin _).bindSure (fun r r' hr alike => ?_) fun r r' hr alike => ?_
    · have absent : r = none := by simpa using hr
      have absent' : r' = none := Option.map_eq_none_iff.mp (absent ▸ alike.seen)
      rw [absent, absent']
      exact .pureUnsure (by decide) fun _ => .refl _ _
    · obtain ⟨r, rfl⟩ := Option.isSome_iff_exists.mp hr
      obtain ⟨r', rfl, seen⟩ := Option.map_eq_some_iff.mp alike.seen
      refine ⟨_, _, rfl, rfl, fun he => by rw [Option.some.inj (alike.whole he)], ?_⟩
      exact congrArg (fun r => Item.statement (.style r)) seen

section Items

variable {readBody readBody' : Owner → Read Sheet}
  (hb : ∀ owner, g.Twin True True never (Sheet.bare true) (readBody owner) (readBody' owner))
  (closes : Encloses g c readBody)

include hb closes

theorem readItem_twin (owner : Owner) (first : Bool) :
    g.Twin L True (fun i => c ∧ i.hasBlock = true) Item.bare (readItem readBody owner first)
      (readItem readBody' owner first) := by
  rw [readItem_eq, readItem_eq]
  refine Twin.here fun M p p' hm meet => Twin.ite (fun m => by rw [meet.comes (by decide) m]) (fun _ => ?_) fun _ => ?_
  · refine (readAtRule_twin hb closes).bindSure (fun s s' hs alike => ?_) fun s s' hs alike => ?_
    · exact accept_twin owner first _ _ hs alike
    · have block := hs.2
      cases s with
      | none => cases block
      | some s =>
        obtain ⟨s', rfl, seen⟩ := Option.map_eq_some_iff.mp alike.seen
        have whole (he : g.exact = true) : s' = s := Option.some.inj (alike.whole he)
        refine ⟨.statement s, .statement s', ?_, ?_, fun he => by rw [whole he], congrArg Item.statement seen⟩
        · rw [accept, encoding?_of_hasBlock block]
        · rw [accept, encoding?_of_bare seen, encoding?_of_hasBlock block]
  · exact (readUnnamed_twin owner meet).lessSure fun _ => And.right

end Items

/-- The contents of a body without places, with the comments behind them. -/
def contentsLook (c : List Statement × List Comment) : List Statement × List Comment :=
  (bareAll true c.1, Comment.bareAll true c.2)

/-- Contents alike without places make sheets alike without places. -/
theorem bare_of_contentsLook {c c' : List Statement × List Comment} {p p' : Option Position}
    (h : contentsLook c' = contentsLook c) :
    Sheet.bare true ⟨c'.1, p', [], c'.2⟩ = Sheet.bare true ⟨c.1, p, [], c.2⟩ :=
  congrArg (fun c => (⟨c.1, none, [], c.2⟩ : Sheet)) h

theorem readEnd_twin (owner : Owner) {pending pending' : List Comment}
    (h : L → g.Alike (Comment.bareAll true) pending pending') :
    g.Twin L True never contentsLook (readEnd owner pending) (readEnd owner pending') := by
  have result : g.Twin L True never contentsLook (pure ([], pending)) (pure ([], pending')) :=
    .pure fun l => (h l).map (fun cs => ([], cs)) fun seen => by rw [contentsLook, contentsLook, seen]
  have inner : g.Twin L True never contentsLook
      (Read.isLenient >>= fun b => if !b then
          Read.place >>= fun p => throw (.unexpectedEnd "`\x7d` before end of document" p.location)
        else pure ([], pending))
      (Read.isLenient >>= fun b => if !b then
          Read.place >>= fun p => throw (.unexpectedEnd "`\x7d` before end of document" p.location)
        else pure ([], pending')) := by
    refine Twin.orStop (fun b _ _ => ?_) fun s _ => ⟨_, rfl, rfl⟩
    exact Twin.ite (fun _ => Iff.rfl) (fun _ => Twin.here fun _ _ _ _ _ => .throw rfl .ending) fun _ => result
  cases owner with
  | sheet => exact Twin.asking (fun _ => result) fun _ _ => rfl
  | grouping => exact inner
  | keyframes => exact inner

theorem readItemOrSkip_eq (readBody : Owner → Read Sheet) (owner : Owner) (first : Bool) :
    readItemOrSkip readBody owner first =
      Read.place >>= fun p => tryCatch (some <$> readItem readBody owner first) (skipItem p) := by
  refine funext fun r => (outcome_readItemOrSkip readBody owner first r).trans ?_
  exact (Read.outcome_tryCatch (some <$> readItem readBody owner first) (skipItem r.place) r).symm

/-- Where an item is left out, the places decide in the same way whether a character must be taken. -/
theorem skipItem_twin {start start' : Place} (hs : L → start'.offset = start.offset + g.shift) {e e' : Fault}
    (he : e.located = true) (akin : Fault.Akin e e') :
    g.Twin L True (fun o => c ∧ o.any Item.hasBlock = true) (Option.map Item.bare) (skipItem start e)
      (skipItem start' e') := by
  have omitted {M : Prop} : g.Twin M True (fun o => c ∧ o.any Item.hasBlock = true) (Option.map Item.bare)
      (pure (some .omitted)) (pure (some .omitted)) := .pureUnsure (fun h => by cases h.2) fun _ => .refl _ _
  refine Twin.orStop (fun b hl _ => ?_) fun s hs => ⟨e, he, ?_⟩
  · refine Twin.ite (fun _ => by rw [akin.isEnd]) (fun _ => ?_) fun _ => ?_
    · refine (Twin.note _ _ _ _).bindIgnored (Twin.toEnd.bindIgnored ?_)
      exact .pureUnsure (fun h => by cases h.2) fun _ => .refl _ _
    · refine Twin.orStop (fun b _ _ => ?_) fun s _ => ⟨e, he, rfl⟩
      refine Twin.ite (fun _ => by rw [akin.recoverable]) (fun _ => ?_) fun _ => .throw he akin
      refine (Twin.note _ _ _ _).bindIgnored (Twin.here fun M p p' hm meet => ?_)
      have same (m : M) : p'.offset = start'.offset ↔ p.offset = start.offset := by
        rw [(meet.places m).offset, hs (hm m), Nat.add_right_cancel_iff]
      exact Twin.ite same (fun _ => .bindIgnored (Twin.take 1).discard omitted) fun _ => omitted
  · have strict := skipItem_strict start e hs
    rw [skipItem, Read.outcome_bind, Read.outcome_isLenient, Read.following_ok, hs] at strict
    exact strict

section Items

variable {readBody readBody' : Owner → Read Sheet}
  (hb : ∀ owner, g.Twin True True never (Sheet.bare true) (readBody owner) (readBody' owner))
  (closes : Encloses g c readBody)

include hb closes

theorem readItemOrSkip_twin (owner : Owner) (first : Bool) :
    g.Twin L True (fun o => c ∧ o.any Item.hasBlock = true) (Option.map Item.bare)
      (readItemOrSkip readBody owner first) (readItemOrSkip readBody' owner first) := by
  rw [readItemOrSkip_eq, readItemOrSkip_eq]
  refine Twin.here fun M p p' _ meet => Twin.guarded ?_ (fun e e' he akin => ?_) fun e s => skipItem_strict p e
  · refine (readItem_twin hb closes owner first).mapTo (fun _ => id) fun i i' _ alike => ?_
    exact alike.map some fun seen => congrArg some seen
  · exact skipItem_twin (fun m => (meet.places m).offset) he akin

end Items

/-- The statements of a body are read by twin steps, and so are those of all bodies inside. -/
theorem readAllIn_twin (n : Nat) (owner : Owner) (first : Bool) {pending pending' : List Comment}
    (h : g.Alike (Comment.bareAll true) pending pending') :
    g.Twin L True never contentsLook (readAllIn n owner first pending)
      (readAllIn (n + g.more.length) owner first pending') := by
  induction n using Nat.strongRecOn generalizing L owner first pending pending' with
  | ind n ih =>
    have behind (M : Prop) (owner : Owner) (first : Bool) : g.Twin M True never contentsLook
        (readBehind n owner first) (readBehind (n + g.more.length) owner first) :=
      .shorter (fun m h => ih m h owner first (.refl _ _)) (.pure fun _ => .refl _ _)
    have inside (owner : Owner) : g.Twin True True never (Sheet.bare true) (readInside n owner)
        (readInside (n + g.more.length) owner) := by
      refine (behind True owner true).bind fun c c' alike => .pure fun _ => ?_
      exact alike.map (fun c => ({ contents := c.1, trailing := c.2 } : Sheet)) bare_of_contentsLook
    rw [readAllIn_eq, readAllIn_eq]
    refine Twin.here fun M p p' _ meet => Twin.ite (fun m => by rw [meet.atEnd m]) (fun _ => ?_) fun _ => ?_
    · exact readEnd_twin owner fun _ => h
    refine Twin.gap.bind fun cs cs' comments => Twin.here fun N q q' _ meet => ?_
    have passed := Comment.alike_append h comments
    dsimp only
    refine Twin.ite (fun n => by rw [meet.atEnd n]) (fun _ => readEnd_twin owner fun _ => passed) fun _ => ?_
    have item : g.Twin N True never (Option.map Item.bare) (readItemOrSkip (readInside n) owner first)
        (readItemOrSkip (readInside (n + g.more.length)) owner first) :=
      (readItemOrSkip_twin (c := False) inside (fun hc => hc.elim) owner first).lessSure fun _ => False.elim
    have done : g.Twin N True never contentsLook (pure ([], pending ++ cs)) (pure ([], pending' ++ cs')) :=
      .pure fun _ => passed.map (fun cs => ([], cs)) fun seen => congrArg (Prod.mk []) seen
    refine item.bind fun i i' alike => ?_
    cases i with
    | none =>
      obtain rfl : i' = none := Option.map_eq_none_iff.mp alike.seen
      exact done
    | some i =>
      obtain ⟨i', rfl, seen⟩ := Option.map_eq_some_iff.mp alike.seen
      cases i with
      | closing =>
        obtain rfl : i' = .closing := Item.eq_closing_of_bare seen
        exact done
      | omitted =>
        obtain rfl : i' = .omitted := Item.eq_omitted_of_bare seen
        exact behind N owner first
      | statement s =>
        obtain ⟨s', rfl, same⟩ := Item.eq_statement_of_bare seen
        refine (behind N owner false).bind fun c c' contents => .pure fun _ => ⟨fun he => ?_, ?_⟩
        · obtain rfl : s' = s := Item.statement.inj (Option.some.inj (alike.whole he))
          rw [passed.whole he, contents.whole he]
        · have tail : contentsLook c' = contentsLook c := contents.seen
          have statements : bareAll true c'.1 = bareAll true c.1 := congrArg Prod.fst tail
          have comments : Comment.bareAll true c'.2 = Comment.bareAll true c.2 := congrArg Prod.snd tail
          rw [contentsLook, contentsLook, bareAll, bareAll, bare_addComments, bare_addComments, same, passed.seen,
            statements, comments]

end Statement

end Stylesheet
