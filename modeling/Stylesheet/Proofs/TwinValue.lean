import Stylesheet.Proofs.Flattening
import Stylesheet.Proofs.TwinCall

namespace Stylesheet

open Pairing (Twin never)

variable {g : Pairing} {L final : Prop}

namespace Value

variable {nested nested' : List Separator → Read Value} {inner inner' word word' primitive primitive' : Read Value}

theorem readSeparator_twin (order : List Separator) :
    g.Twin L final never id (readSeparator order) (readSeparator order) := by
  refine Twin.here fun M p p' hm meet => ?_
  have same (m : M) : (order.find? fun s => s ≠ .space && p'.comes s.symbol) =
      order.find? fun s => s ≠ .space && p.comes s.symbol := by
    refine congrArg (order.find? ·) (funext fun s => ?_)
    rw [Pairing.comes_eq (meet.places m) (meet.live m) (by cases s <;> decide)]
  refine Twin.congr (fun m => by rw [same m]) ?_
  split
  · next s hs =>
    exact .bindIgnored (.token (by cases s <;> decide)) (.bindIgnored .gapIgnored (.pure fun _ => .refl _ _))
  · exact .pure fun _ => .refl _ _

theorem endsAt_eq {p p' : Place} (h : g.Places p p') (hp : g.Live p) (b : Bool) : endsAt b p' = endsAt b p := by
  have same {l : String} (hl : '\x7d' ∉ l.toList.dropLast) : p'.comes l = p.comes l := Pairing.comes_eq h hp hl
  unfold endsAt
  rw [Pairing.atEnd_eq h hp, same (by decide), same (by decide), same (by decide), same (by decide),
    same (by decide), same (by decide)]

/-- In a loose pairing the mode does not matter to what a value ends at. -/
theorem endsAt_loose {p p' : Place} (hl : g.Loose) (h : g.Places p p') (hp : g.Live p) :
    endsAt true p' = endsAt false p' := by
  rw [endsAt_eq h hp, endsAt_eq h hp, endsAt_mode (h.unescaped hl)]

/-- Values behind separators, without places. -/
def moreLook (more : List (Separator × Value)) : List (Separator × Value) := more.map fun e => (e.1, e.2.bare)

theorem isLenient_place {α : Type} (k : Bool → Place → Read α) :
    (Read.isLenient >>= fun b => Read.place >>= k b) = Read.place >>= fun p => Read.isLenient >>= fun b => k b p := rfl

theorem readMore_twin (hp : g.TwinValue True primitive primitive') (order : List Separator) (n : Nat) :
    g.Twin L False never moreLook (readMore primitive order n) (readMore primitive' order (n + g.more.length)) := by
  induction n using Nat.strongRecOn generalizing L with
  | ind n ih =>
    rw [readMore, readMore, isLenient_place, isLenient_place]
    refine Twin.here fun M p p' hm meet => Twin.asking (fun b => ?_) fun hl m => ?_
    · refine Twin.ite (fun m => by rw [endsAt_eq (meet.places m) (meet.live m)])
        (fun _ => .pure fun _ => .refl _ _) fun _ => ?_
      refine (readSeparator_twin order).bindSame fun s => (hp.weaken fun _ => trivial).bind fun v v' alike => ?_
      have others : g.Twin M False never moreLook
          (Read.shorter n (fun m _ => readMore primitive order m) (pure []))
          (Read.shorter (n + g.more.length) (fun m _ => readMore primitive' order m) (pure [])) :=
        .shorter (fun m h => ih m h) (.pure fun _ => .refl _ _)
      refine .bindIgnored .gapIgnored (others.bind fun more more' following => .pure fun m => ?_)
      refine ⟨fun he => by rw [following.whole he, alike.whole he], ?_⟩
      have seen : moreLook more' = moreLook more := following.seen
      simp only [moreLook, List.map_cons, alike.seen] at seen ⊢
      rw [seen]
    · rw [endsAt_loose hl (meet.places m) (meet.live m)]

theorem readWith_twin (hp : g.TwinValue True primitive primitive') (order : List Separator) :
    g.TwinValue L (readWith primitive order) (readWith primitive' order) := by
  refine Twin.here fun K start start' hk began => .bindIgnored .gapIgnored (Twin.here fun M p p' hm meet => ?_)
  refine Twin.asking (fun b => ?_) fun hl m => by rw [endsAt_loose hl (meet.places m) (meet.live m)]
  refine Twin.orThrow (fun m => by rw [endsAt_eq (meet.places m) (meet.live m)]) rfl
    .token fun _ => ?_
  refine (hp.weaken fun _ => trivial).bind fun first first' alike =>
    .bindIgnored .gapIgnored (Twin.leftBind fun n => ?_)
  refine (readMore_twin hp order n).bind fun more more' following => ?_
  have chains (m : M) : g.Alike Chain.bare (Chain.foldAll order (some start.position) ⟨first, more⟩)
      (Chain.foldAll order (some start'.position) ⟨first', more'⟩) := by
    refine ⟨fun he => ?_, ?_⟩
    · rw [alike.whole he, following.whole he, began.position (hm m) he]
    · have seen : moreLook more' = moreLook more := following.seen
      unfold moreLook at seen
      rw [Chain.bare_foldAll, Chain.bare_foldAll, Chain.bare, Chain.bare, alike.seen, seen]
  have empty {c c' : Chain} (h : c'.bare = c.bare) : c'.more.isEmpty = c.more.isEmpty := by
    have more : c'.bare.more.isEmpty = c.bare.more.isEmpty := by rw [h]
    simpa only [Chain.bare, List.isEmpty_map] using more
  refine Twin.ite (fun m => by rw [empty (chains m).seen]) (fun _ => .pure fun m => ?_) fun _ => ?_
  · exact (chains m).map Chain.first fun h => congrArg Chain.first h
  · exact Twin.here fun N q q' hn behind => .throw rfl .token

theorem readWordOrSign_eq (word : Read Value) :
    readWordOrSign word = Read.place >>= fun p => tryCatch word (orSign p.rest.head?) := by
  refine funext fun r => ?_
  refine (outcome_readWordOrSign word r).trans ?_
  exact (Read.outcome_tryCatch word (orSign r.place.rest.head?) r).symm

theorem orSign_twin {next : Option Char} {e e' : Fault} (h : Fault.Akin e e') :
    g.TwinValue L (orSign next e) (orSign next e') := by
  cases h with
  | token =>
    refine Twin.ite (fun _ => Iff.rfl) (fun _ => ?_) fun _ => .throw rfl .token
    exact (Twin.take 1).map fun t t' _ alike => .of_eq _ (by rw [alike.eq])
  | ending => exact .throw rfl .ending
  | misplaced => exact .throw rfl .misplaced

theorem readWordOrSign_twin (hw : g.TwinValue True word word') :
    g.TwinValue L (readWordOrSign word) (readWordOrSign word') := by
  rw [readWordOrSign_eq, readWordOrSign_eq]
  refine Twin.here fun M p p' hm meet => ?_
  refine Twin.congr (fun m => by rw [meet.head? m]) ?_
  refine Twin.rescue (Read.outcome_tryCatch _ _) (Read.outcome_tryCatch _ _) (hw.weaken fun _ => trivial) ?_ ?_
  · exact fun e e' _ akin => orSign_twin akin
  · intro _ e s he _
    have hend : e.isEnd = true := he.resolve_left id
    refine ⟨e, s, he, ?_⟩
    cases e with
    | unexpectedEnd => rfl
    | unexpectedToken | misplaced | unwritable => cases hend

/-- In a loose pairing the mode does not matter to the form that begins at a place. -/
theorem readForm_loose {p p' : Place} (hl : g.Loose) (h : g.Places p p') (hp : g.Live p) :
    readForm nested inner true p' = readForm nested inner false p' := by
  have filter : p'.comesAnyCase "progid:" = false := by
    rw [Pairing.comesAnyCase_eq h hp (by decide), comes_filter (h.text ▸ hl.2.2.toTame)]
  unfold readForm
  rw [filter, Bool.and_false, Bool.and_false]

theorem readForm_twin (hn : ∀ order, g.TwinValue True (nested order) (nested' order))
    (hi : g.TwinValue True inner inner') {M : Prop} {p p' : Place} (meet : g.Meet M p p') (lenient : Bool) :
    g.TwinValue M (readForm nested inner lenient p) (readForm nested' inner' lenient p') := by
  refine Twin.ite (fun m => by rw [Size.begins_eq (meet.places m) (meet.live m)]) (fun _ => ?_) fun _ => ?_
  · refine (Size.read_twin false).map fun s s' _ alike => ?_
    exact alike.map Value.size fun hb => congrArg Value.size hb
  refine Twin.ite (fun m => by rw [meet.comes (by decide) m, meet.comesAnyCase (by decide) m,
    meet.comesAnyCase (by decide) m]) (fun _ => ?_) fun _ => ?_
  · exact readColor_twin (readWord_twin hn hi true)
  refine Twin.ite (fun m => by rw [meet.comes (by decide) m, meet.comes (by decide) m]) (fun _ => ?_) fun _ => ?_
  · refine Quoted.read_twin.map fun t t' _ alike => ?_
    refine alike.map Value.string fun hb => ?_
    rw [bare, bare, hb]
  refine Twin.ite (fun m => by rw [meet.comesAnyCase (by decide) m]) (fun _ => readFilter_twin hn) fun _ => ?_
  refine Twin.ite (fun m => by rw [meet.comes (by decide) m]) (fun _ => readLineNames_twin) fun _ => ?_
  refine Twin.ite (fun m => by rw [meet.comes (by decide) m]) (fun _ => readRange_twin) fun _ => ?_
  refine Twin.ite (fun m => by rw [meet.comes (by decide) m]) (fun _ => readParenthesized_twin hn) fun _ => ?_
  exact readWordOrSign_twin (readWord_twin hn hi false)

theorem readPrimitiveWith_twin (hn : ∀ order, g.TwinValue True (nested order) (nested' order))
    (hi : g.TwinValue True inner inner') :
    g.TwinValue L (readPrimitiveWith nested inner) (readPrimitiveWith nested' inner') := by
  rw [readPrimitiveWith_eq, readPrimitiveWith_eq]
  refine .bindIgnored .gapIgnored (Twin.here fun M p p' hm meet => Twin.asking (fun b => ?_) fun hl m => ?_)
  · refine (readForm_twin hn hi meet b).bind fun v v' alike => ?_
    exact .bindIgnored .gapIgnored (.pure fun _ => alike)
  · rw [readForm_loose hl (meet.places m) (meet.live m)]

theorem stuck_twin : g.TwinValue L stuck stuck :=
  Twin.here fun _ _ _ _ _ => .throw rfl .token

theorem readPrimitiveIn_twin (n : Nat) : g.TwinValue L (readPrimitiveIn n) (readPrimitiveIn (n + g.more.length)) := by
  induction n using Nat.strongRecOn generalizing L with
  | ind n ih =>
    rw [readPrimitiveIn, readPrimitiveIn]
    refine readPrimitiveWith_twin (fun order => ?_) ?_
    · exact .shorter (fun m h => readWith_twin (ih m h) order) stuck_twin
    · exact .shorter (fun m h => ih m h) stuck_twin

theorem readPrimitive_twin : g.TwinValue L readPrimitive readPrimitive := Twin.leftBind readPrimitiveIn_twin

/-- Every value is read by twin steps. -/
theorem read_twin (order : List Separator) : g.TwinValue L (read order) (read order) :=
  Twin.leftBind fun n => readWith_twin (readPrimitiveIn_twin n) order

end Value

end Stylesheet
