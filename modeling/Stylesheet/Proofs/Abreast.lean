import Stylesheet.Proofs.Counting
import Stylesheet.Proofs.Outcome

namespace Stylesheet

namespace Counting

variable {α β γ δ : Type} {g : Counting}

/-- The two readings at one point. -/
structure Readers (g : Counting) (r r' : Reader) : Prop where
  first : r.settings = g.first
  second : r'.settings = g.second
  point : g.Point r.place r'.place

theorem Readers.lenient {r r' : Reader} (h : g.Readers r r') : r'.settings.lenient = r.settings.lenient := by
  rw [h.first, h.second, g.mode]

/-- What a step comes to in both readings. -/
inductive Agree (g : Counting) (look : α → β) : Except Fault α × Reader → Except Fault α × Reader → Prop
  | ok {a a' : α} {s s' : Reader} (alike : look a' = look a) (readers : g.Readers s s') :
    Agree g look (.ok a, s) (.ok a', s')
  | fault {e e' : Fault} {s s' : Reader} (named : g.Named e e') (readers : g.Readers s s') :
    Agree g look (.error e, s) (.error e', s')

namespace Agree

variable {look : α → γ} {view : β → δ} {x x' : Read α} {r r' : Reader}

/-- The outcomes of steps that go on behind ones that agree. -/
theorem bind {f f' : α → Read β} (hx : g.Agree look (x.outcome r) (x'.outcome r'))
    (hf : ∀ a s a' s', x.outcome r = (.ok a, s) → x'.outcome r' = (.ok a', s') → look a' = look a → g.Readers s s' →
      g.Agree view ((f a).outcome s) ((f' a').outcome s')) :
    g.Agree view ((x >>= f).outcome r) ((x' >>= f').outcome r') := by
  rw [Read.outcome_bind, Read.outcome_bind]
  generalize x.outcome r = o at hx hf
  generalize x'.outcome r' = o' at hx hf
  cases hx with
  | ok alike readers => exact hf _ _ _ _ rfl rfl alike readers
  | fault named readers => exact .fault named readers

/-- The outcomes of steps whose faults are handled. -/
theorem rescue {h h' : Fault → Read α} (hx : g.Agree look (x.outcome r) (x'.outcome r'))
    (hh : ∀ e s e' s', x.outcome r = (.error e, s) → x'.outcome r' = (.error e', s') → g.Named e e' →
      g.Readers s s' → g.Agree look ((h e).outcome s) ((h' e').outcome s')) :
    g.Agree look ((tryCatch x h).outcome r) ((tryCatch x' h').outcome r') := by
  rw [Read.outcome_tryCatch, Read.outcome_tryCatch]
  generalize x.outcome r = o at hx hh
  generalize x'.outcome r' = o' at hx hh
  cases hx with
  | ok alike readers => exact .ok alike readers
  | fault named readers => exact hh _ _ _ _ rfl rfl named readers

end Agree

/-- From one point on the two steps do the same, as far as their results are looked at. -/
def Alike (g : Counting) (look : α → β) (x x' : Read α) : Prop :=
  ∀ r r', g.Readers r r' → g.Agree look (x.outcome r) (x'.outcome r')

/-- Readers of values that do the same. -/
abbrev AlikeValue (g : Counting) (x x' : Read Value) : Prop := g.Alike Value.bare x x'

namespace Alike

variable {look : α → γ} {view : β → δ} {x x' : Read α} {f f' : α → Read β}

theorem pure {a a' : α} (h : look a' = look a) : g.Alike look (Pure.pure a) (Pure.pure a') := by
  intro r r' hr
  exact .ok h hr

theorem throw {e e' : Fault} (h : g.Named e e') :
    g.Alike look (MonadExcept.throw e) (MonadExcept.throw e') := by
  intro r r' hr
  exact .fault h hr

theorem bind (hx : g.Alike look x x') (hf : ∀ a a', look a' = look a → g.Alike view (f a) (f' a')) :
    g.Alike view (x >>= f) (x' >>= f') := by
  intro r r' hr
  exact (hx r r' hr).bind fun a s a' s' _ _ alike readers => hf a a' alike s s' readers

/-- A step with one result for both readings, and what follows it. -/
theorem bindSame {x x' : Read α} (hx : g.Alike id x x') (hf : ∀ a, g.Alike view (f a) (f' a)) :
    g.Alike view (x >>= f) (x' >>= f') := by
  refine hx.bind fun a a' ha => ?_
  obtain rfl : a' = a := ha
  exact hf a'

/-- A step whose result is looked at no further. -/
theorem bindIgnored {k k' : Read β} (hx : g.Alike look x x') (hk : g.Alike view k k') :
    g.Alike view (x >>= fun _ => k) (x' >>= fun _ => k') :=
  hx.bind fun _ _ _ => hk

/-- Nothing follows a fault. -/
theorem throwBind {e e' : Fault} (h : g.Named e e') :
    g.Alike view (MonadExcept.throw e >>= f) (MonadExcept.throw e' >>= f') := by
  intro r r' hr
  exact .fault h hr

theorem map {h h' : α → β} (hx : g.Alike look x x') (hh : ∀ a a', look a' = look a → view (h' a') = view (h a)) :
    g.Alike view (h <$> x) (h' <$> x') := by
  rw [map_eq_pure_bind, map_eq_pure_bind]
  exact hx.bind fun a a' ha => .pure (hh a a' ha)

theorem discard (hx : g.Alike look x x') : g.Alike id (Functor.discard x) (Functor.discard x') := by
  refine hx.map fun _ _ _ => rfl

/-- A choice that both readings make in the same way. -/
theorem ite {c c' : Prop} [Decidable c] [Decidable c'] {y y' : Read α} (hc : c' ↔ c)
    (hx : c → g.Alike look x x') (hy : ¬ c → g.Alike look y y') :
    g.Alike look (if c then x else y) (if c' then x' else y') := by
  by_cases h : c
  · rw [if_pos h, if_pos (hc.mpr h)]
    exact hx h
  · rw [if_neg h, if_neg fun h' => h (hc.mp h')]
    exact hy h

/-- A fault behind a test that fails, and what follows a test that succeeds. -/
theorem orThrow {c c' : Prop} [Decidable c] [Decidable c'] {e e' : Fault} {k k' : PUnit → Read α} (hc : c' ↔ c)
    (he : g.Named e e') (hk : ¬ c → g.Alike look (k ⟨⟩) (k' ⟨⟩)) :
    g.Alike look (if c then MonadExcept.throw e >>= k else k ⟨⟩)
      (if c' then MonadExcept.throw e' >>= k' else k' ⟨⟩) :=
  ite hc (fun _ => throwBind he) hk

/-- A step that goes on from the place it is at. -/
theorem here {k k' : Place → Read α} (hk : ∀ p p', g.Point p p' → g.Alike look (k p) (k' p')) :
    g.Alike look (Read.place >>= k) (Read.place >>= k') := by
  intro r r' hr
  exact hk r.place r'.place hr.point r r' hr

/-- A step that asks for the mode. -/
theorem asking {k k' : Bool → Read α} (hk : ∀ b, g.Alike look (k b) (k' b)) :
    g.Alike look (Read.isLenient >>= k) (Read.isLenient >>= k') := by
  intro r r' hr
  have agree := hk r.settings.lenient r r' hr
  rw [Read.outcome_bind, Read.outcome_bind, Read.outcome_isLenient, Read.outcome_isLenient, Read.following_ok,
    Read.following_ok, hr.lenient]
  exact agree

/-- A step that asks how many characters are left. -/
theorem leftBind {k k' : Nat → Read α} (hk : ∀ n, g.Alike look (k n) (k' n)) :
    g.Alike look (Read.left >>= k) (Read.left >>= k') := by
  intro r r' hr
  have agree := hk r.place.rest.length r r' hr
  rw [Read.outcome_bind, Read.outcome_bind, Read.outcome_left, Read.outcome_left, Read.following_ok,
    Read.following_ok, hr.point.rest]
  exact agree

/-- The next round of a loop. -/
theorem shorter {n : Nat} {again again' : (m : Nat) → m < n → Read α} {otherwise otherwise' : Read α}
    (ha : ∀ m h, g.Alike look (again m h) (again' m h)) (ho : g.Alike look otherwise otherwise') :
    g.Alike look (Read.shorter n again otherwise) (Read.shorter n again' otherwise') := by
  refine leftBind fun m => ?_
  split
  · next h => exact ha m h
  · exact ho

/-- A step whose faults are handled. -/
theorem rescue {h h' : Fault → Read α} (hx : g.Alike look x x')
    (hh : ∀ e e', g.Named e e' → g.Alike look (h e) (h' e')) :
    g.Alike look (tryCatch x h) (tryCatch x' h') := by
  intro r r' hr
  exact (hx r r' hr).rescue fun e s e' s' _ _ named readers => hh e e' named s s' readers

theorem note (level level' : Level) (t t' : String) : g.Alike id (Read.note level t) (Read.note level' t') := by
  intro r r' hr
  exact .ok rfl ⟨hr.first, hr.second, hr.point⟩

theorem setCharset (charset : String) : g.Alike id (Read.setCharset charset) (Read.setCharset charset) := by
  have named : g.Alike id (modify fun r => { r with charset := charset } : Read Unit)
      (modify fun r => { r with charset := charset }) := by
    intro r r' hr
    exact .ok rfl ⟨hr.first, hr.second, hr.point⟩
  exact named.bindIgnored (.note _ _ _ _)

/-- Back to one place passed before. -/
theorem goto {p p' : Place} (h : g.Point p p') : g.Alike id (Read.goto p) (Read.goto p') := by
  intro r r' hr
  exact .ok rfl ⟨hr.first, hr.second, h⟩

theorem move {s s' : Settings → Place → Except Fault α × Place}
    (h : ∀ p p', g.Point p p' → g.Answers look (s g.first p) (s' g.second p')) :
    g.Alike look (Read.move s) (Read.move s') := by
  intro r r' hr
  have answers := h r.place r'.place hr.point
  rw [Read.outcome_move, Read.outcome_move, hr.first, hr.second]
  generalize s g.first r.place = o at answers
  generalize s' g.second r'.place = o' at answers
  cases answers with
  | ok alike point => exact .ok alike ⟨rfl, rfl, point⟩
  | fault named point => exact .fault named ⟨rfl, rfl, point⟩

theorem skip (n : Nat) : g.Alike id (Read.skip n) (Read.skip n) := move fun _ _ h => .ok rfl (h.forward n)

theorem toEnd : g.Alike id Read.toEnd Read.toEnd := move fun _ _ h => .ok rfl h.toEnd

theorem take (n : Nat) : g.Alike id (Read.take n) (Read.take n) := by
  refine move fun p p' h => ?_
  dsimp only
  rw [h.rest]
  split
  · exact .fault (.ending h) h
  · exact .ok rfl (h.forward n)

theorem literal (l : String) : g.Alike id (Read.literal l) (Read.literal l) := by
  refine here fun p p' h => ite (by rw [h.comes]) (fun _ => take _) fun _ => ?_
  exact .throw (.unexpected h _ _)

/-- A literal whose text is not looked at. -/
theorem token (l : String) : g.Alike id (Functor.discard (Read.literal l)) (Functor.discard (Read.literal l)) :=
  (literal l).discard

theorem upTo (stops : List Char) (stopAt : Read.StopAt) (orEnd : Bool) :
    g.Alike id (Read.upTo stops stopAt orEnd) (Read.upTo stops stopAt orEnd) :=
  move fun _ _ h => upToStop_alike stops stopAt orEnd h

theorem comment? : g.Alike (Option.map Comment.text) Read.comment? Read.comment? := by
  refine move fun p p' h => ?_
  have opened := opening_alike h
  generalize p.opening g.first.width = o at opened
  generalize p'.opening g.second.width = o' at opened
  cases opened with
  | absent => exact .ok rfl h
  | unclosed => exact .fault (.ending h.toEnd) h.toEnd
  | whole text point => exact .ok (congrArg some text) point

theorem gap : g.Alike (Comment.bareAll true) Read.gap Read.gap := by
  intro r r' hr
  obtain ⟨comments, point, flag⟩ := pastGap_alike hr.point
  rw [Read.outcome_gap, Read.outcome_gap, hr.first, hr.second, flag, g.mode]
  split
  · split
    · exact .ok comments ⟨rfl, rfl, point.toEnd⟩
    · exact .fault (.ending point.toEnd) ⟨rfl, rfl, point.toEnd⟩
  · exact .ok comments ⟨rfl, rfl, point⟩

/-- A gap whose comments are not looked at. -/
theorem gapIgnored : g.Alike id (Functor.discard Read.gap) (Functor.discard Read.gap) := gap.discard

theorem character? (forIdentifier : Bool) :
    g.Alike id (Read.character? forIdentifier) (Read.character? forIdentifier) := by
  have found : g.Alike id (Read.move Place.piece) (Read.move Place.piece) := move fun _ _ h => piece_alike h
  have taken : g.Alike id (do return some (← Read.move Place.piece) : Read (Option Piece))
      (do return some (← Read.move Place.piece)) := found.bindSame fun piece => .pure rfl
  intro r r' hr
  rw [Read.character?, Read.outcome_bind, Read.outcome_bind, Read.outcome_place, Read.outcome_place,
    Read.following_ok, Read.following_ok, Read.outcome_bind, Read.outcome_bind, Read.outcome_get, Read.outcome_get,
    Read.following_ok, Read.following_ok, hr.first, hr.second, hr.point.goesOn]
  split
  · exact .ok rfl hr
  · exact taken r r' hr

theorem identifier (ignoreCase : Bool) : g.Alike id (Read.identifier ignoreCase) (Read.identifier ignoreCase) := by
  have moved : g.Alike id (Read.move Place.identifier) (Read.move Place.identifier) :=
    move fun _ _ h => identifier_alike h
  exact moved.bindSame fun _ => .pure rfl

end Alike

end Counting

end Stylesheet
