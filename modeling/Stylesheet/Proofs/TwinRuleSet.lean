import Stylesheet.Proofs.RuleSetRoundTrip
import Stylesheet.Proofs.TwinValue

namespace Stylesheet

open Pairing (Twin never)

variable {g : Pairing} {L : Prop}

theorem Comment.alike_append {as as' bs bs' : List Comment} (ha : g.Alike (bareAll true) as as')
    (hb : g.Alike (bareAll true) bs bs') : g.Alike (bareAll true) (as ++ bs) (as' ++ bs') := by
  refine ⟨fun he => by rw [ha.whole he, hb.whole he], ?_⟩
  rw [bareAll_append, bareAll_append, ha.seen, hb.seen]

namespace Declaration

theorem readHacks_twin (n : Nat) : g.Twin L True never id (readHacks n) (readHacks (n + g.more.length)) := by
  induction n using Nat.strongRecOn generalizing L with
  | ind n ih =>
    rw [readHacks, readHacks]
    refine Twin.here fun M p p' hm meet => ?_
    refine Twin.ite (fun m => by rw [meet.comes (by decide) m]) (fun _ => ?_)
      fun _ => .pure fun _ => .refl _ _
    refine (Twin.skip 1).bindIgnored ((Twin.take 1).bindSame fun hack => .bindIgnored .gapIgnored ?_)
    exact Twin.bindSame (.shorter (fun m h => ih m h) (.pure fun _ => .refl _ _)) fun hacks => .pure fun _ => .refl _ _

/-- Takes hacks in lenient mode. -/
def readHacksIfLenient : Read (List String) := do
  if ← Read.isLenient then readHacks (← Read.left) else return []

theorem outcome_readHacks_of_comes {r : Reader} (h : r.place.comes "\\" = false) (n : Nat) :
    (readHacks n).outcome r = (.ok [], r) := by
  rw [readHacks, Read.outcome_bind, Read.outcome_place, Read.following_ok, h]
  rfl

theorem readHacksIfLenient_twin : g.Twin L True never id readHacksIfLenient readHacksIfLenient := by
  refine Twin.askingHere (fun b => ?_) fun hloose _ r r' hl hr => ?_
  · refine Twin.ite (fun _ => Iff.rfl) (fun _ => Twin.leftBind readHacks_twin) fun _ => .pure fun _ => .refl _ _
  · have noHack : r'.place.comes "\\" = false := by
      rw [Pairing.comes_eq hr.places hl (by decide)]
      exact Place.comes_backslash (hr.places.unescaped hloose) rfl
    exact outcome_readHacks_of_comes noHack _

theorem readImportant_twin : g.Twin L True never id readImportant readImportant := by
  refine Twin.here fun M p p' hm meet => ?_
  refine Twin.ite (fun m => by rw [meet.comes (by decide) m]) (fun _ => ?_)
    fun _ => .pure fun _ => .refl _ _
  refine (Twin.skip 1).bindIgnored (.bindIgnored .gapIgnored (Twin.here fun N q q' hn behind => ?_))
  refine Twin.orThrow (fun n => by rw [behind.comesAnyCase (by decide) n]) rfl
    .token fun _ => ?_
  exact (Twin.skip 9).bindIgnored (.pure fun _ => .refl _ _)

theorem skipSemicolons_twin : g.Twin L True never id skipSemicolons skipSemicolons := by
  refine Twin.here fun M p p' hm meet => ?_
  have same (m : M) : p'.rest.takeWhile (· = ';') = p.rest.takeWhile (· = ';') := by
    rw [(meet.places m).rest]
    rcases meet.live m with hmore | hb
    · rw [hmore, List.append_nil]
    · exact takeWhile_append_of_mem _ hb (by decide)
  exact .congr (fun m => by rw [same m]) (.skip _)

/-- Takes what stands behind the colon of a declaration. -/
def readRest (p : Place) (name : String) (comments : List Comment) : Read Declaration := do
  let value ← Value.read (Separator.ofProperty name)
  let afterValue ← Read.gap
  let hacks ← readHacksIfLenient
  let important ← readImportant
  discard Read.gap
  skipSemicolons
  Read.note .trace ("Parsed declaration " ++ name ++ " at " ++ p.position.text)
  return ⟨name, some value, important, hacks, some p.position, comments ++ afterValue⟩

theorem read_eq (before : List Comment) : read before = (do
    let p ← Read.place
    let name ← Read.identifier (!p.comes "--")
    let afterName ← Read.gap
    discard (Read.literal ":")
    readRest p name (before ++ afterName)) := by
  unfold read readRest readHacksIfLenient
  refine congrArg _ (funext fun p => congrArg _ (funext fun name => congrArg _ (funext fun afterName => ?_)))
  refine congrArg _ (funext fun _ => congrArg _ (funext fun value => congrArg _ (funext fun afterValue => ?_)))
  rw [bind_assoc]
  refine congrArg _ (funext fun b => ?_)
  cases b <;> rfl

theorem readRest_twin {p p' : Place} (hp : L → g.Places p p') (name : String) {comments comments' : List Comment}
    (hc : L → g.Alike (Comment.bareAll true) comments comments') :
    g.Twin L True never (bare true) (readRest p name comments) (readRest p' name comments') := by
  refine (Value.read_twin _).whole.bind fun v v' value => Twin.gap.bind fun ds ds' behind => ?_
  refine readHacksIfLenient_twin.bindSame fun hacks => readImportant_twin.bindSame fun important => ?_
  refine .bindIgnored .gapIgnored (skipSemicolons_twin.bindIgnored ((Twin.note _ _ _ _).bindIgnored ?_))
  refine .pure fun l => ?_
  have comments := Comment.alike_append (hc l) behind
  refine ⟨fun he => by rw [value.whole he, comments.whole he, (hp l).position he], ?_⟩
  simp only [bare, Option.map_some, value.seen, comments.seen]

/-- A declaration is read by twin steps. -/
theorem read_twin {before before' : List Comment} (hb : L → g.Alike (Comment.bareAll true) before before') :
    g.Twin L True never (bare true) (read before) (read before') := by
  rw [read_eq, read_eq]
  refine Twin.here fun M p p' hm meet => ?_
  refine .congr (fun m => by rw [meet.comes (by decide) m]) ?_
  refine (Twin.identifier _).bindSame fun name => Twin.gap.bind fun ds ds' behind => ?_
  refine .bindIgnored (.token (by decide)) (readRest_twin meet.places name fun m => ?_)
  exact Comment.alike_append (hb (hm m)) behind

/-- Behind the colon a value is read. -/
theorem of_readRest {p : Place} {name : String} {comments : List Comment} {d : Declaration} {r s : Reader}
    (h : (readRest p name comments).outcome r = (.ok d, s)) :
    d.position = some p.position ∧ d.value.isSome = true := by
  unfold readRest at h
  obtain ⟨_, _, _, h⟩ := Read.ok_of_bind h
  obtain ⟨_, _, _, h⟩ := Read.ok_of_bind h
  obtain ⟨_, _, _, h⟩ := Read.ok_of_bind h
  obtain ⟨_, _, _, h⟩ := Read.ok_of_bind h
  obtain ⟨_, _, _, h⟩ := Read.ok_of_bind h
  obtain ⟨_, _, _, h⟩ := Read.ok_of_bind h
  obtain ⟨_, _, _, h⟩ := Read.ok_of_bind h
  cases h
  exact ⟨rfl, rfl⟩

/-- A declaration stands where it is read, and some of the text is taken for it. -/
theorem of_read {before : List Comment} {d : Declaration} {r s : Reader}
    (h : (read before).outcome r = (.ok d, s)) :
    d.position = some r.place.position ∧ s.place.rest.length < r.place.rest.length := by
  obtain ⟨g, hr⟩ : ∃ g : Pairing, g.Reads r := ⟨_, Pairing.reads_alone r⟩
  rw [read_eq] at h
  obtain ⟨p, r₀, hp, h⟩ := Read.ok_of_bind h
  cases hp
  obtain ⟨name, r₁, h₁, h⟩ := Read.ok_of_bind h
  obtain ⟨comments, r₂, h₂, h⟩ := Read.ok_of_bind h
  obtain ⟨_, r₃, h₃, h⟩ := Read.ok_of_bind h
  have k₁ := (Twin.identifier _ : g.Twin False True never id _ _).kept hr h₁
  have reads₁ := hr.of_kept k₁
  have k₂ := (Twin.gap : g.Twin False True never (Comment.bareAll true) _ _).kept reads₁ h₂
  have reads₂ := reads₁.of_kept k₂
  have reads₃ := (Twin.token (by decide) : g.Twin False True never id (discard (Read.literal ":")) _).reads reads₂ h₃
  have colon : r₂.place.rest = ':' :: r₃.place.rest := by
    obtain ⟨_, h₃⟩ := Read.ok_of_discard h₃
    exact Read.rest_of_literal h₃
  have rest : g.Twin False True never (bare true) (readRest r.place name (before ++ comments))
      (readRest r.place name (before ++ comments)) := readRest_twin False.elim name False.elim
  have k₄ := rest.kept reads₃ h
  constructor
  · exact (of_readRest h).1
  · have le₁ := k₁.ahead.rest_length_le
    have le₂ := k₂.ahead.rest_length_le
    have le₄ := k₄.ahead.rest_length_le
    have one := congrArg List.length colon
    rw [List.length_cons] at one
    dsimp only at le₁ le₂ le₄
    omega

end Declaration

namespace RuleSet

/-- Takes a declaration and enters it. -/
def readEntry (r : RuleSet) (comments : List Comment) : Read (Option RuleSet) := do
  let d ← Declaration.read comments
  modify fun reader => { reader with journal := additionNote d (r.add d none).1 :: reader.journal }
  return some (r.add d none).2

/-- What the fault of a declaration leads to: it is left out, perhaps with all that follows. -/
def skipEntry (r : RuleSet) (e : Fault) : Read (Option RuleSet) := do
  if ← Read.isLenient then
    Read.note .warn ("Skipping invalid declaration: " ++ e.message)
    if ← recover then return some r else return none
  else throw e

/-- Takes a declaration, or leaves it out. -/
def readNext (r : RuleSet) (comments : List Comment) : Read (Option RuleSet) :=
  tryCatch (readEntry r comments) (skipEntry r)

/-- Goes on with the declarations behind. -/
def goOn (r : RuleSet) (n : Nat) : Option RuleSet → Read RuleSet
  | some r' => Read.shorter n (fun m _ => readInto r' m) (pure r')
  | none => pure r

/-- Takes declarations from where no gap stands. -/
def readFrom (r : RuleSet) (n : Nat) (comments : List Comment) : Read RuleSet := do
  if (← Read.place).comes "\x7d" then
    discard (Read.literal "\x7d")
    return r
  else readNext r comments >>= goOn r n

theorem readInto_eq (r : RuleSet) (n : Nat) : readInto r n = Read.gap >>= readFrom r n := by
  rw [readInto]
  refine congrArg _ (funext fun comments => congrArg _ (funext fun p => ?_))
  split
  · rfl
  · refine congrArg _ (funext fun next => ?_)
    cases next <;> rfl

theorem passFaulty_twin : g.Twin L True never id passFaulty passFaulty := by
  refine .bindIgnored (Twin.upTo _ _ _).discard (Twin.here fun M p p' hm meet => ?_)
  refine Twin.ite (fun m => by rw [meet.comes (by decide) m]) (fun _ => ?_)
    fun _ => .pure fun _ => .refl _ _
  exact (Twin.skip 1).bindIgnored (Declaration.skipSemicolons_twin.bindIgnored (.pure fun _ => .refl _ _))

theorem recover_twin (hl : g.first.lenient = true) : g.Twin L True never id recover recover := by
  refine .rescue outcome_recover outcome_recover passFaulty_twin (fun e e' _ _ => ?_) fun hloose => ?_
  · exact Twin.toEnd.bindIgnored (.pure fun _ => .refl _ _)
  · exact absurd (hl.symm.trans hloose.1) (by decide)

theorem skipEntry_twin {r r' : RuleSet} (hr : L → g.Alike (bare true) r r') {e e' : Fault} (he : e.located = true)
    (akin : Fault.Akin e e') : g.Twin L True never (Option.map (bare true)) (skipEntry r e) (skipEntry r' e') := by
  refine Twin.orStop (fun b hl _ => ?_) fun s hs => ⟨e, he, rfl⟩
  refine Twin.ite (fun _ => Iff.rfl) (fun hb => ?_) fun _ => .throw he akin
  refine (Twin.note _ _ _ _).bindIgnored ((recover_twin (hl.trans hb)).bindSame fun found => ?_)
  refine Twin.ite (fun _ => Iff.rfl) (fun _ => .pure fun l => ?_) fun _ => .pure fun _ => .refl _ _
  exact (hr l).map some fun seen => congrArg some seen

theorem skipEntry_strict (r : RuleSet) (e : Fault) {s : Reader} (hs : s.settings.lenient = false) :
    (skipEntry r e).outcome s = (.error e, s) := by
  rw [skipEntry, Read.outcome_bind, Read.outcome_isLenient, Read.following_ok, hs]
  rfl

/-- Where a declaration is taken, it is entered, and the text becomes shorter. -/
theorem ok_of_readEntry {r : RuleSet} {comments : List Comment} {next : Option RuleSet} {s t : Reader}
    (h : (readEntry r comments).outcome s = (.ok next, t)) :
    (∃ d, d.position = some s.place.position ∧ next = some (r.add d none).2) ∧
      t.place.rest.length < s.place.rest.length := by
  obtain ⟨d, u, hd, h⟩ := Read.ok_of_bind h
  obtain ⟨position, shorter⟩ := Declaration.of_read hd
  cases h
  exact ⟨⟨d, position, rfl⟩, shorter⟩

theorem ok_of_skipEntry {r : RuleSet} {e : Fault} {next : Option RuleSet} {s t : Reader}
    (h : (skipEntry r e).outcome s = (.ok next, t)) : next = some r ∨ next = none := by
  obtain ⟨lenient, u, hu, h⟩ := Read.ok_of_bind h
  cases hu
  split at h
  · obtain ⟨_, v, _, h⟩ := Read.ok_of_bind h
    obtain ⟨found, w, _, h⟩ := Read.ok_of_bind h
    split at h
    · cases h
      exact .inl rfl
    · cases h
      exact .inr rfl
  · cases h

section Kept

variable (r r' : RuleSet) (comments comments' : List Comment) (n : Nat)

theorem readEntry_kept :
    g.Twin False True never (Option.map (bare true)) (readEntry r comments) (readEntry r' comments') :=
  (Declaration.read_twin False.elim).bind fun _ _ _ => (Twin.record _ _).bindIgnored (.pure False.elim)

theorem readNext_kept :
    g.Twin False True never (Option.map (bare true)) (readNext r comments) (readNext r' comments') :=
  .guarded (readEntry_kept r r' comments comments')
    (fun _ _ he akin => skipEntry_twin False.elim he akin) fun e _ => skipEntry_strict r e

theorem readInto_kept : g.Twin False True never (bare true) (readInto r n) (readInto r' (n + g.more.length)) where
  keeps s _ := (readInto_steady r n s rfl).1
  needs _ _ _ _ _ _ hs := hs.elim
  agrees := False.elim

theorem goOn_kept (next next' : Option RuleSet) :
    g.Twin False True never (bare true) (goOn r n next) (goOn r' (n + g.more.length) next') := by
  have stays : g.Twin False True never (bare true) (pure r) (pure r') := .pure False.elim
  have again (r₁ r₁' : RuleSet) : g.Twin False True never (bare true) (goOn r n (some r₁))
      (goOn r' (n + g.more.length) (some r₁')) :=
    .shorter (fun m _ => readInto_kept r₁ r₁' m) (.pure False.elim)
  cases next with
  | none => exact .congr False.elim stays
  | some r₁ => exact .congr False.elim (again r₁ r₁)

theorem readFrom_kept :
    g.Twin False True never (bare true) (readFrom r n comments) (readFrom r' (n + g.more.length) comments') := by
  refine Twin.here fun M p p' hm meet => Twin.ite (fun m => (hm m).elim) (fun _ => ?_) fun _ => ?_
  · exact .bindIgnored (.token (by decide)) (.pure fun m => (hm m).elim)
  · exact (((readNext_kept r r' comments comments').bind fun next next' _ => goOn_kept r r' n next next')).weaken hm

end Kept

/-- Behind a declaration that was entered or left out the rule set is still behind the reader. -/
theorem Passed.next {r r₁ : RuleSet} {comments : List Comment} {s t : Reader} (hp : r.Passed s)
    (h : (readNext r comments).outcome s = (.ok (some r₁), t)) : r₁.Passed t := by
  have kept := (readNext_kept r r comments comments).kept (Pairing.reads_alone s) h
  refine Passed.mono ?_ kept.settings kept.ahead
  rw [readNext, Read.outcome_tryCatch] at h
  rcases ho : (readEntry r comments).outcome s with ⟨e | next, u⟩
  · rw [ho] at h
    rcases ok_of_skipEntry h with hr | hr
    · cases hr
      exact hp
    · cases hr
  · rw [ho] at h
    obtain ⟨⟨d, position, hd⟩, -⟩ := ok_of_readEntry ho
    cases h
    cases hd
    exact (hp.add position).2

/-- Strict reading takes a declaration or fails. -/
theorem ok_of_readNext_strict {r : RuleSet} {comments : List Comment} {next : Option RuleSet} {s t : Reader}
    (hl : s.settings.lenient = false) (h : (readNext r comments).outcome s = (.ok next, t)) :
    next.isSome = true ∧ t.place.rest.length < s.place.rest.length := by
  rw [readNext, Read.outcome_tryCatch] at h
  rcases ho : (readEntry r comments).outcome s with ⟨e | n, u⟩
  · have same : u.settings = s.settings :=
      ((readEntry_kept r r comments comments).kept (Pairing.reads_alone s) ho).settings
    rw [ho, Read.rescued_error, skipEntry_strict r e (same ▸ hl)] at h
    cases h
  · rw [ho] at h
    obtain ⟨⟨d, -, hd⟩, shorter⟩ := ok_of_readEntry ho
    cases h
    cases hd
    exact ⟨rfl, shorter⟩

/-- Declarations that are read at places behind all others come in the order of reading. -/
theorem alike_add {r r' : RuleSet} {d d' : Declaration} {s s' : Reader} (hr : g.Alike (bare true) r r')
    (hd : g.Alike (Declaration.bare true) d d') (hp : r.Passed s) (hp' : r'.Passed s')
    (hs : d.position = some s.place.position) (hs' : d'.position = some s'.place.position) :
    g.Alike (bare true) (r.add d none).2 (r'.add d' none).2 := by
  refine ⟨fun he => by rw [hr.whole he, hd.whole he], ?_⟩
  have seen := hr.seen
  simp only [bare, RuleSet.mk.injEq, true_and] at seen
  rw [(hp.add hs).1, (hp'.add hs').1]
  simp only [bare, withDeclarations, List.map_append, List.map_cons, List.map_nil, seen.1, seen.2, hd.seen]

theorem readNext_agree {r r' : RuleSet} {comments comments' : List Comment} {s s' : Reader} (hl : g.Live s.place)
    (hs : g.Readers s s') (hr : g.Alike (bare true) r r') (hc : g.Alike (Comment.bareAll true) comments comments')
    (hp : r.Passed s) (hp' : r'.Passed s') :
    g.Agree True never (Option.map (bare true)) ((readNext r comments).outcome s)
      ((readNext r' comments').outcome s') := by
  have declared := (Declaration.read_twin (L := True) fun _ => hc).agrees trivial s s' hl hs
  have entered : g.Agree True never (Option.map (bare true)) ((readEntry r comments).outcome s)
      ((readEntry r' comments').outcome s') := by
    refine .bind declared (fun d t d' t' hd hd' _ alike readers => ?_) fun d t o' _ ht => .ok_of_not_live ht id
    have same := alike_add hr alike hp hp' (Declaration.of_read hd).1 (Declaration.of_read hd').1
    exact fun _ => ⟨_, _, rfl, same.map some fun seen => congrArg some seen, readers.first, readers.second,
      readers.places⟩
  have kept {e : Fault} {t : Reader} (ho : (readEntry r comments).outcome s = (.error e, t)) :
      g.Reads t ∧ e.located = true := by
    have hk := (readEntry_kept r r comments comments).kept hs.reads ho
    exact ⟨hs.reads.of_kept hk, hk.located e rfl⟩
  have skipped {e e' : Fault} (he : e.located = true) (akin : Fault.Akin e e') :
      g.Twin True True never (Option.map (bare true)) (skipEntry r e) (skipEntry r' e') :=
    skipEntry_twin (fun _ => hr) he akin
  rw [readNext, readNext, Read.outcome_tryCatch, Read.outcome_tryCatch]
  refine .rescue entered (fun e t e' t' ho ht akin readers => ?_) (fun e t o' ho ht => ?_) fun hloose e t ho _ => ?_
  · exact (skipped (kept ho).2 akin).agrees trivial t t' ht readers
  · exact (skipped (kept ho).2 (.refl (kept ho).2)).agree_of_not_live (kept ho).1 ht
  · exact ⟨e, t, .inl trivial, skipEntry_strict r e ((kept ho).1.settings ▸ hloose.1)⟩

section Closing

variable {n : Nat} {r r₁ : RuleSet} {comments : List Comment} {s t : Reader}

theorem readFrom_closes (ih : ∀ m < n, ∀ (r r₁ : RuleSet) (s t : Reader), s.settings.lenient = false →
      s.place.rest.length ≤ m → (readInto r m).outcome s = (.ok r₁, t) → Pairing.Closes s t)
    (hl : s.settings.lenient = false) (hn : s.place.rest.length ≤ n)
    (h : (readFrom r n comments).outcome s = (.ok r₁, t)) : Pairing.Closes s t := by
  obtain ⟨p, u, hu, h⟩ := Read.ok_of_bind h
  cases hu
  split at h
  · obtain ⟨_, u, hu, h⟩ := Read.ok_of_bind h
    obtain ⟨_, hu⟩ := Read.ok_of_discard hu
    cases h
    exact ⟨[], Read.rest_of_literal hu⟩
  · obtain ⟨next, u, hu, h⟩ := Read.ok_of_bind h
    have kept := (readNext_kept r r comments comments).kept (Pairing.reads_alone s) hu
    obtain ⟨taken, shorter⟩ := ok_of_readNext_strict hl hu
    obtain ⟨r₂, rfl⟩ := Option.isSome_iff_exists.mp taken
    rw [goOn, Read.outcome_shorter, dif_pos (Nat.lt_of_lt_of_le shorter hn)] at h
    refine Pairing.Closes.before ?_ kept.ahead.rest_suffix
    have same : u.settings = s.settings := kept.settings
    exact ih _ (Nat.lt_of_lt_of_le shorter hn) r₂ r₁ u t (same ▸ hl) (Nat.le_refl _) h

/-- A rule set that strict reading takes ends with its closing brace. -/
theorem readInto_closes (hl : s.settings.lenient = false) (hn : s.place.rest.length ≤ n)
    (h : (readInto r n).outcome s = (.ok r₁, t)) : Pairing.Closes s t := by
  induction n using Nat.strongRecOn generalizing r r₁ s t with
  | ind n ih =>
    rw [readInto_eq] at h
    obtain ⟨comments, u, hu, h⟩ := Read.ok_of_bind h
    have kept := gap_steadyWhole.kept hu
    have same : u.settings = s.settings := kept.settings
    refine Pairing.Closes.before ?_ kept.ahead.rest_suffix
    refine readFrom_closes (fun m hm r r₁ s t hl hn h => ih m hm hl hn h) (same ▸ hl) ?_ h
    exact Nat.le_trans kept.ahead.rest_length_le hn

end Closing

/-- Takes the brace that closes a rule set. -/
theorem closing_twin {r r' : RuleSet} (hr : L → g.Alike (bare true) r r') :
    g.Twin L True (fun _ => True) (bare true) (discard (Read.literal "\x7d") >>= fun _ => pure r)
      (discard (Read.literal "\x7d") >>= fun _ => pure r') := by
  have brace : g.Twin L True (fun _ => True) id (discard (Read.literal "\x7d")) (discard (Read.literal "\x7d")) :=
    (Twin.literal (by decide)).mapTo (fun _ _ => rfl) fun _ _ _ _ => .refl _ _
  exact brace.bindPure (fun _ => id) fun _ _ l _ => hr l

/-- Rule sets are read in the same way where their declarations stand behind the reader. -/
theorem readInto_agree (n : Nat) {r r' : RuleSet} {s s' : Reader} (hn : s.place.rest.length ≤ n)
    (hl : g.Live s.place) (hs : g.Readers s s') (hr : g.Alike (bare true) r r') (hp : r.Passed s)
    (hp' : r'.Passed s') :
    g.Agree True (fun _ => True) (bare true) ((readInto r n).outcome s)
      ((readInto r' (n + g.more.length)).outcome s') := by
  induction n using Nat.strongRecOn generalizing r r' s s' with
  | ind n ih =>
    rw [readInto_eq, readInto_eq]
    refine .bind (Twin.gap.agrees trivial s s' hl hs) (fun cs t cs' t' ht ht' live comments readers => ?_)
      fun cs t o' ht dead => ?_
    · have passed : r.Passed t := hp.of_steady gap_steadyWhole ht
      have passed' : r'.Passed t' := hp'.of_steady gap_steadyWhole ht'
      have length : t.place.rest.length ≤ n := Nat.le_trans (gap_steadyWhole.kept ht).ahead.rest_length_le hn
      rw [readFrom, readFrom, Read.outcome_bind, Read.outcome_bind, Read.outcome_place, Read.outcome_place,
        Read.following_ok, Read.following_ok, Pairing.comes_eq readers.places live (by decide)]
      split
      · exact (closing_twin fun _ => hr).agrees trivial t t' live readers
      · refine .bind (readNext_agree live readers hr comments passed passed')
          (fun next u next' u' hu hu' live' same readers' => ?_) fun next u o' hu dead => ?_
        · cases next with
          | none =>
            have absent : next' = none := Option.map_eq_none_iff.mp same.seen
            rw [absent]
            exact fun _ => ⟨r', u', rfl, hr, readers'⟩
          | some r₁ =>
            obtain ⟨r₁', rfl, seen⟩ := Option.map_eq_some_iff.mp same.seen
            have alike : g.Alike (bare true) r₁ r₁' := ⟨fun he => Option.some.inj (same.whole he), seen⟩
            refine .shorter readers' (fun h => ?_) fun _ => ⟨r₁', u', rfl, alike, readers'⟩
            exact ih _ h (Nat.le_refl _) live' readers' alike (passed.next hu) (passed'.next hu')
        · have reads := (readNext_kept r r cs cs).reads readers.reads hu
          refine .of_not_live ((goOn_kept r r n next next).keeps u reads) dead fun hloose r₁ v hv _ => ?_
          have strict : t.settings.lenient = false := readers.first ▸ hloose.1
          obtain ⟨taken, shorter⟩ := ok_of_readNext_strict strict hu
          obtain ⟨r₂, rfl⟩ := Option.isSome_iff_exists.mp taken
          rw [goOn, Read.outcome_shorter, dif_pos (Nat.lt_of_lt_of_le shorter length)] at hv
          exact readInto_closes (reads.settings ▸ hloose.1) (Nat.le_refl _) hv
    · have kept := gap_steadyWhole.kept ht
      have reads := hs.reads.of_kept kept
      refine .of_not_live ((readFrom_kept r r cs cs n).keeps t reads) dead fun hloose r₁ v hv _ => ?_
      refine readFrom_closes (fun m _ r r₁ s t hl hn h => readInto_closes hl hn h) (reads.settings ▸ hloose.1) ?_ hv
      exact Nat.le_trans kept.ahead.rest_length_le hn

/-- A rule set is read by a twin step. Where strict reading takes one, its closing brace was still to come. -/
theorem read_twin {p p' : Position} {comments comments' : List Comment} (hp : L → g.exact = true → p' = p)
    (hc : L → g.Alike (Comment.bareAll true) comments comments') :
    g.Twin L True (fun _ => True) (bare true) (read p comments) (read p' comments') where
  keeps r _ := (read_steady p comments r rfl).1
  needs hf s r t hs h _ := by
    obtain ⟨_, u, hu, h⟩ := Read.ok_of_bind h
    have kept := Declaration.skipSemicolons_steady.kept hu
    have strict : u.settings.lenient = false := (hs.of_kept kept).settings ▸ hf
    exact Pairing.Closes.before (readInto_closes strict (Nat.le_refl _) h) kept.ahead.rest_suffix
  agrees l s s' hl hs := by
    refine .bind (Declaration.skipSemicolons_twin.agrees trivial s s' hl hs) (fun _ t _ t' _ _ live _ readers => ?_)
      fun _ t o' ht dead => ?_
    · have start : g.Alike (bare true) ({ position := some p, comments := comments } : RuleSet)
          { position := some p', comments := comments' } := by
        refine ⟨fun he => by rw [hp l he, (hc l).whole he], ?_⟩
        simp only [bare, (hc l).seen]
      have agree := readInto_agree t.place.rest.length (Nat.le_refl _) live readers start
        (fun d hd => by cases hd) fun d hd => by cases hd
      rw [Read.outcome_bind, Read.outcome_bind, Read.outcome_left, Read.outcome_left, Read.following_ok,
        Read.following_ok, readers.places.length]
      exact agree
    · have reads := hs.reads.of_kept (Declaration.skipSemicolons_steady.kept ht)
      have inside : SteadyWhole t.place.text (Read.left >>= readInto { position := some p, comments := comments }) :=
        Read.Steady.left.bind fun n => readInto_steady _ n
      refine .of_not_live (inside t rfl).1 dead fun hloose r v hv _ => ?_
      exact readInto_closes (reads.settings ▸ hloose.1) (Nat.le_refl _) hv

end RuleSet

end Stylesheet
