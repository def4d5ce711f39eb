import Stylesheet.Proofs.TwinLiteral

namespace Stylesheet

open Pairing (Twin never)

variable {g : Pairing} {L final : Prop}

namespace Value

/-- What is made of the fault of a name: none stands before a closing bracket in lenient mode. -/
def orNoName (e : Fault) : Read (Option String) := do
  if e.recoverable && (← Read.isLenient) && (← Read.place).comes "]" then return none else throw e

theorem outcome_orNoName (e : Fault) (r : Reader) :
    (orNoName e).outcome r =
      if e.recoverable && r.settings.lenient && r.place.comes "]" then (.ok none, r) else (.error e, r) := by
  rw [orNoName, Read.outcome_bind, Read.outcome_isLenient, Read.following_ok, Read.outcome_bind, Read.outcome_place,
    Read.following_ok]
  split
  · rfl
  · rfl

theorem readName?_eq : readName? = tryCatch (some <$> Read.identifier false) orNoName := by
  rw [map_eq_pure_bind]
  rfl

/-- Takes names where no closing bracket stands. -/
def readNamesOn (n : Nat) (name : Option String) : Read (List String) := do
  return name.toList ++ (← Read.shorter n (fun m _ => readNames m) (pure []))

/-- Takes names behind the first one. -/
def readNamesBehind (n : Nat) (name : Option String) : Read (List String) := do
  discard Read.gap
  if (← Read.place).comes "]" then return name.toList else readNamesOn n name

theorem readNames_eq (n : Nat) : readNames n = readName? >>= readNamesBehind n := by
  rw [readNames]
  rfl

section Kept

theorem readName?_kept : g.Twin False final never id readName? readName? := by
  have word : g.Twin False final never id (some <$> Read.identifier false) (some <$> Read.identifier false) :=
    (Twin.identifier false).map fun _ _ h => h.elim
  rw [readName?_eq]
  refine Twin.rescue (Read.outcome_tryCatch _ _) (Read.outcome_tryCatch _ _) word (fun e e' he akin => ?_) ?_
  · refine Twin.asking (fun b => Twin.here fun N p p' hn _ => ?_) fun _ m => m.elim
    refine Twin.ite (fun n => (hn n).elim) (fun _ => .pure fun n => (hn n).elim) fun _ => ?_
    exact .throw he akin
  · intro _ e s he hs
    refine ⟨e, s, he, ?_⟩
    rw [outcome_orNoName, hs, Bool.and_false, Bool.false_and, if_neg Bool.false_ne_true]

/-- What a reading of names keeps, wherever it begins. -/
theorem readNames_kept (n : Nat) : g.Twin False final never id (readNames n) (readNames (n + g.more.length)) := by
  induction n using Nat.strongRecOn with
  | ind n ih =>
    rw [readNames_eq, readNames_eq]
    refine readName?_kept.bindSame fun name => .bindIgnored .gapIgnored (Twin.here fun M p p' hm _ => ?_)
    refine Twin.ite (fun m => (hm m).elim) (fun _ => .pure fun _ => .refl _ _) fun _ => ?_
    refine Twin.bindSame (Twin.shorter (fun m h => (ih m h).weaken hm) (.pure fun _ => .refl _ _)) fun names => ?_
    exact .pure fun _ => .refl _ _

theorem readNamesOn_kept (n : Nat) (name : Option String) :
    g.Twin False final never id (readNamesOn n name) (readNamesOn (n + g.more.length) name) :=
  .bindSame (Twin.shorter (fun m _ => readNames_kept m) (.pure fun _ => .refl _ _)) fun _ => .pure fun _ => .refl _ _

end Kept

/-- In a loose pairing a name is looked for where there is no closing bracket. -/
theorem readName?_agree {r r' : Reader} (hl : g.Live r.place) (hr : g.Readers r r')
    (hb : g.Loose → r.place.comes "]" = false) :
    g.Agree final never id (readName?.outcome r) (readName?.outcome r') := by
  have word : g.Twin True final never id (some <$> Read.identifier false) (some <$> Read.identifier false) :=
    (Twin.identifier false).map fun a a' _ ha => ⟨fun _ => by rw [ha.eq], by rw [ha.eq]⟩
  have agree := word.agrees trivial r r' hl hr
  rw [readName?_eq, Read.outcome_tryCatch, Read.outcome_tryCatch]
  rcases ho : (some <$> Read.identifier false).outcome r with ⟨e | name, s⟩
  · rw [ho] at agree
    have reads := word.reads hr.reads ho
    rw [Read.rescued_error, outcome_orNoName, reads.settings]
    rcases g.pair_modes with hm | hloose
    · rcases agree with ⟨hloose, -⟩ | agree
      · exact absurd hm.1 (by rw [hloose.1, hloose.2.1]; decide)
      · obtain ⟨e', s', ho', akin, readers⟩ := agree (.inl hm.2)
        rw [ho', Read.rescued_error, outcome_orNoName, readers.second, hm.1, akin.recoverable,
          Pairing.comes_eq readers.places (.inl hm.2) (by decide)]
        split
        · exact fun _ => ⟨_, _, rfl, .refl _ _, readers⟩
        · exact .inr fun _ => ⟨_, _, rfl, akin, readers⟩
    · rw [hloose.1, Bool.and_false, Bool.false_and, if_neg Bool.false_ne_true]
      refine agree.imp_right fun agree hs => ?_
      obtain ⟨e', s', ho', akin, readers⟩ := agree hs
      have place := place_of_name_error (hr.places.unescaped hloose) ho
      have hc : s'.place.comes "]" = false := by
        rw [Pairing.comes_eq readers.places hs (by decide), place]
        exact hb hloose
      refine ⟨e', s', ?_, akin, readers⟩
      rw [ho', Read.rescued_error, outcome_orNoName, hc, Bool.and_false, if_neg Bool.false_ne_true]
  · rw [ho] at agree
    intro ha
    obtain ⟨a', s', ho', rest⟩ := agree ha
    exact ⟨a', s', by rw [ho']; rfl, rest⟩

/-- Names are read in the same way where one must stand. -/
theorem readNames_agree (n : Nat) {r r' : Reader} (hl : g.Live r.place) (hr : g.Readers r r')
    (hb : g.Loose → r.place.comes "]" = false) :
    g.Agree final never id ((readNames n).outcome r) ((readNames (n + g.more.length)).outcome r') := by
  induction n using Nat.strongRecOn generalizing r r' with
  | ind n ih =>
    have ended (name : Option String) (M : Prop) : g.Twin M final never id
        (pure name.toList : Read (List String)) (pure name.toList) := .pure fun _ => .refl _ _
    have behind (name : Option String) : g.Twin False final never id
        (Read.place >>= fun p => if p.comes "]" then pure name.toList else readNamesOn n name)
        (Read.place >>= fun p => if p.comes "]" then pure name.toList else readNamesOn (n + g.more.length) name) :=
      Twin.here fun M p p' hm _ =>
        Twin.ite (fun m => (hm m).elim) (fun _ => ended name M) fun _ => (readNamesOn_kept n name).weaken hm
    have reads {name : Option String} {s : Reader} (ho : readName?.outcome r = (.ok name, s)) : g.Reads s :=
      (readName?_kept : g.Twin False final never id _ _).reads hr.reads ho
    rw [readNames_eq, readNames_eq]
    refine .bind (readName?_agree hl hr hb) (fun name s name' s' ho _ hs alike readers => ?_) fun name s o' ho hs => ?_
    · rw [alike.eq]
      refine .bind (Twin.gapIgnored.agrees trivial s s' hs readers) (fun _ t _ t' hg _ ht _ readers' => ?_)
        fun _ t o' hg ht => ?_
      · rw [Read.outcome_bind, Read.outcome_bind, Read.outcome_place, Read.outcome_place, Read.following_ok,
          Read.following_ok, Pairing.comes_eq readers'.places ht (by decide)]
        split
        · exact (ended name True).agrees trivial t t' ht readers'
        · next hc =>
          have next : g.Agree final never id
              ((Read.shorter n (fun m _ => readNames m) (pure [])).outcome t)
              ((Read.shorter (n + g.more.length) (fun m _ => readNames m) (pure [])).outcome t') :=
            .shorter readers' (fun h => ih _ h ht readers' fun _ => by simpa using hc) fun _ =>
            ⟨[], t', rfl, .refl _ _, readers'⟩
          refine .bind next (fun names u names' u' _ _ _ same ended => ?_) fun names u o' _ hu => ?_
          · rw [same.eq]
            exact fun _ => ⟨_, u', rfl, .refl _ _, ended⟩
          · exact .ok_of_not_live hu id
      · have reached := (Twin.gapIgnored : g.Twin True final never id _ _).reads (reads ho) hg
        exact (behind name).agree_of_not_live reached ht
    · exact Twin.agree_of_not_live (.bindIgnored .gapIgnored (behind name)) (reads ho) hs

/-- Names in brackets, of which tame text has at least one. -/
theorem readLineNames_twin : g.Twin L final never Value.bare readLineNames readLineNames where
  keeps r _ := (readLineNames_steady r rfl).1
  needs _ _ _ _ _ _ hs := hs.elim
  agrees hL r r' hl hr := by
    have closed (names : List String) : g.Twin True final never Value.bare
        (discard (Read.literal "]") >>= fun _ => pure (.lineNames names (some r.place.position)))
        (discard (Read.literal "]") >>= fun _ => pure (.lineNames names (some r'.place.position))) :=
      .bindIgnored (.token (by decide)) (.pure fun _ => ⟨fun he => by rw [hr.places.position he], rfl⟩)
    have inside : g.Twin False final never Value.bare
        (Read.left >>= fun n => readNames n >>= fun names =>
          discard (Read.literal "]") >>= fun _ => pure (.lineNames names (some r.place.position)))
        (Read.left >>= fun n => readNames n >>= fun names =>
          discard (Read.literal "]") >>= fun _ => pure (.lineNames names (some r'.place.position))) :=
      .leftBind fun n => (readNames_kept n).bindSame fun names => (closed names).weaken False.elim
    have opening : g.Twin True final never id (discard (Read.literal "[")) (discard (Read.literal "[")) :=
      .token (by decide)
    rw [readLineNames, Read.outcome_bind, Read.outcome_bind, Read.outcome_place, Read.outcome_place,
      Read.following_ok, Read.following_ok]
    refine .bind (opening.agrees trivial r r' hl hr) (fun _ s _ s' ho _ hs _ readers => ?_) fun _ s o' ho hs => ?_
    · refine .bind (Twin.gapIgnored.agrees trivial s s' hs readers) (fun _ t _ t' hg _ ht _ readers' => ?_)
        fun _ t o' hg ht => ?_
      · have named : g.Loose → t.place.comes "]" = false := fun hloose =>
          not_comes_bracket (hr.places.text ▸ hloose.2.2.toTame) ho hg
        rw [Read.outcome_bind, Read.outcome_bind, Read.outcome_left, Read.outcome_left, Read.following_ok,
          Read.following_ok, readers'.places.length]
        refine .bind (readNames_agree _ ht readers' named) (fun names u names' u' _ _ hu same ended => ?_)
          fun names u o' hn hu => ?_
        · rw [same.eq]
          exact (closed names).agrees trivial u u' hu ended
        · have reached := (readNames_kept _ : g.Twin False final never id _ _).reads readers'.reads hn
          exact (closed names).agree_of_not_live reached hu
      · have reached := (Twin.gapIgnored : g.Twin True final never id _ _).reads readers.reads hg
        exact inside.agree_of_not_live reached ht
    · exact Twin.agree_of_not_live (.bindIgnored .gapIgnored inside) (opening.reads hr.reads ho) hs

end Value

end Stylesheet
