import Stylesheet.Proofs.Gap
import Stylesheet.Proofs.Outcome

namespace Stylesheet

/-- Text without the three things that strict reading takes otherwise: escapes, which may be hacks, filters of old
browsers, and brackets without names. -/
structure Tame (text : List Char) : Prop where
  unescaped : '\\' ∉ text
  unfiltered : ∀ rest, rest <:+ text → (rest.take 7).map Char.toLower ≠ "progid:".toList
  named : ∀ comments gap rest, IsGap comments gap → ¬ ('[' :: gap ++ ']' :: rest) <:+ text

theorem Tame.suffix {text rest : List Char} (h : Tame text) (hs : rest <:+ text) : Tame rest :=
  ⟨fun hm => h.unescaped (hs.mem hm), fun tail ht => h.unfiltered tail (ht.trans hs),
    fun cs gap tail hg ht => h.named cs gap tail hg (ht.trans hs)⟩

/-- The state of the same reading in lenient mode. -/
def Reader.relaxed (r : Reader) : Reader := { r with settings := { r.settings with lenient := true } }

@[simp] theorem Reader.relaxed_place (r : Reader) : r.relaxed.place = r.place := rfl

@[simp] theorem Reader.relaxed_lenient (r : Reader) : r.relaxed.settings.lenient = true := rfl

@[simp] theorem Reader.relaxed_width (r : Reader) : r.relaxed.settings.width = r.settings.width := rfl

namespace Read

variable {α β : Type}

/-- What every outcome keeps of the state before. -/
structure Kept (r : Reader) (o : Except Fault α × Reader) : Prop where
  settings : o.2.settings = r.settings
  ahead : Place.Ahead r.settings.width r.place o.2.place
  located : ∀ e, o.1 = .error e → e.located = true

namespace Kept

variable {r s : Reader} {a : α} {e : Fault}

/-- A step that yields a result and stays where it is. -/
theorem still (hs : s.settings = r.settings) (hp : s.place = r.place) (a : α) : Kept r (.ok a, s) :=
  ⟨hs, hp ▸ .refl _ _, fun _ h => by cases h⟩

theorem fault (r : Reader) (he : e.located = true) : Kept r ((.error e, r) : Except Fault α × Reader) :=
  ⟨rfl, .refl _ _, fun _ h => by cases h; exact he⟩

/-- It does not matter which result there is. -/
theorem result {x : Except Fault α} (h : Kept r (x, s)) (b : β) : Kept r (.ok b, s) :=
  ⟨h.settings, h.ahead, fun _ h => by cases h⟩

theorem error (h : Kept r ((.error e, s) : Except Fault α × Reader)) :
    Kept r ((.error e, s) : Except Fault β × Reader) :=
  ⟨h.settings, h.ahead, fun _ hd => by cases hd; exact h.located e rfl⟩

theorem trans {x : Except Fault α} {o : Except Fault β × Reader} (h : Kept r (x, s)) (k : Kept s o) : Kept r o := by
  have same : s.settings = r.settings := h.settings
  exact ⟨k.settings.trans same, h.ahead.trans (same ▸ k.ahead), k.located⟩

end Kept

/-- The lenient outcome is the strict one, unless that is a fault that ends strict reading for good. -/
def Agree (final : Fault → Bool) (strict lenient : Except Fault α × Reader) : Prop :=
  match strict with
  | (.ok a, r) => lenient = (.ok a, r.relaxed)
  | (.error e, r) => final e = true ∨ lenient = (.error e, r.relaxed)

/-- In the state `r` the step keeps what every step keeps, seen from a place `p` passed before, and agrees with its
lenient run on tame text. -/
def SteadyAt (final : Fault → Bool) (text : List Char) (p : Place) (r : Reader) (x : Read α) : Prop :=
  Kept { r with place := p } (x.outcome r) ∧
    (Tame text → r.settings.lenient = false → Agree final (x.outcome r) (x.outcome r.relaxed))

/-- Steady in every state of a reading of `text`. -/
def Steady (final : Fault → Bool) (text : List Char) (x : Read α) : Prop :=
  ∀ r, r.place.text = text → SteadyAt final text r.place r x

/-- Steady for a caller that began at `p` and may go back there. -/
def SteadyFrom (p : Place) (final : Fault → Bool) (text : List Char) (x : Read α) : Prop :=
  ∀ r, r.place.text = text → Place.Ahead r.settings.width p r.place → SteadyAt final text p r x

variable {final : Fault → Bool} {text : List Char} {x : Read α} {f : α → Read β}

/-- A step and what follows it, which may rely on all that the step keeps. -/
theorem SteadyAt.bind {p : Place} {r : Reader} (hp : p.text = text) (hx : SteadyAt final text p r x)
    (hf : ∀ a s, x.outcome r = (.ok a, s) → s.place.text = text → Place.Ahead s.settings.width p s.place →
      SteadyAt final text p s (f a)) :
    SteadyAt final text p r (x >>= f) := by
  obtain ⟨hk, ha⟩ := hx
  unfold SteadyAt
  rw [outcome_bind, outcome_bind]
  rcases ho : x.outcome r with ⟨e | a, s⟩
  · rw [ho] at hk ha
    refine ⟨hk.error, fun ht hl => ?_⟩
    rcases ha ht hl with hf | heq
    · exact .inl hf
    · rw [heq]
      exact .inr rfl
  · rw [ho] at hk ha
    have same : s.settings = r.settings := hk.settings
    obtain ⟨hk', ha'⟩ := hf a s ho (hk.ahead.text.trans hp) (same ▸ hk.ahead)
    refine ⟨⟨hk'.settings.trans same, same ▸ hk'.ahead, hk'.located⟩, fun ht hl => ?_⟩
    have heq : x.outcome r.relaxed = (.ok a, s.relaxed) := ha ht hl
    rw [heq]
    exact ha' ht (same ▸ hl)

/-- The next round of a loop. -/
theorem SteadyAt.shorter {p : Place} {r : Reader} {n : Nat} {again : (m : Nat) → m < n → Read α}
    {otherwise : Read α} (ha : ∀ m h, SteadyAt final text p r (again m h))
    (ho : SteadyAt final text p r otherwise) : SteadyAt final text p r (Read.shorter n again otherwise) := by
  unfold SteadyAt
  rw [outcome_shorter, outcome_shorter]
  by_cases h : r.place.rest.length < n
  · have hr : r.relaxed.place.rest.length < n := h
    rw [dif_pos h, dif_pos hr]
    exact ha _ h
  · have hr : ¬ r.relaxed.place.rest.length < n := h
    rw [dif_neg h, dif_neg hr]
    exact ho

/-- What holds from a place on holds from one passed before it. -/
theorem SteadyAt.before {p : Place} {r : Reader} (hx : SteadyAt final text r.place r x)
    (hp : Place.Ahead r.settings.width p r.place) : SteadyAt final text p r x := by
  obtain ⟨hk, ha⟩ := hx
  exact ⟨⟨hk.settings, hp.trans hk.ahead, hk.located⟩, ha⟩

/-- A step whose fault is handled. A fault that ends strict reading may be handled otherwise there, as long as a
fault comes of it that ends strict reading too. -/
theorem SteadyAt.rescue {ends : Fault → Bool} {r : Reader} {y : Read α} {h : Fault → Read α}
    (hr : r.place.text = text) (hy : y.outcome r = rescued (x.outcome r) h)
    (hy' : y.outcome r.relaxed = rescued (x.outcome r.relaxed) h) (hx : SteadyAt ends text r.place r x)
    (hh : ∀ e, e.located = true → ∀ s, s.place.text = text → SteadyAt final text s.place s (h e))
    (stop : ∀ e s, ends e = true → s.settings.lenient = false →
      ∃ d t, final d = true ∧ (h e).outcome s = (.error d, t)) : SteadyAt final text r.place r y := by
  obtain ⟨hk, ha⟩ := hx
  unfold SteadyAt
  rw [hy, hy']
  rcases ho : x.outcome r with ⟨e | a, s⟩
  · rw [ho] at hk ha
    have same : s.settings = r.settings := hk.settings
    obtain ⟨hk', ha'⟩ := (hh e (hk.located e rfl) s (hk.ahead.text.trans hr)).before (same ▸ hk.ahead)
    refine ⟨⟨hk'.settings.trans same, same ▸ hk'.ahead, hk'.located⟩, fun ht hl => ?_⟩
    rcases ha ht hl with hend | heq
    · obtain ⟨d, t, hd, hs⟩ := stop e s hend (same ▸ hl)
      rw [rescued_error, hs]
      exact .inl hd
    · rw [heq]
      exact ha' ht (same ▸ hl)
  · rw [ho] at hk ha
    refine ⟨hk, fun ht hl => ?_⟩
    have heq : x.outcome r.relaxed = (.ok a, s.relaxed) := ha ht hl
    rw [heq]
    rfl

theorem Steady.from (hx : Steady final text x) (p : Place) : SteadyFrom p final text x := by
  intro r hr hp
  exact (hx r hr).before hp

namespace SteadyFrom

variable {p : Place}

theorem back (p : Place) : SteadyFrom p final text (Read.goto p) := by
  intro r hr hp
  exact ⟨.still rfl rfl _, fun _ _ => rfl⟩

theorem bind (hp : p.text = text) (hx : SteadyFrom p final text x) (hf : ∀ a, SteadyFrom p final text (f a)) :
    SteadyFrom p final text (x >>= f) := by
  intro r hr hr'
  exact (hx r hr hr').bind hp fun a s _ => hf a s

end SteadyFrom

namespace Steady

theorem mono {final' : Fault → Bool} (hx : Steady final text x) (hf : ∀ e, final e = true → final' e = true) :
    Steady final' text x := by
  intro r hr
  refine ⟨(hx r hr).1, fun ht hl => ?_⟩
  have h := (hx r hr).2 ht hl
  unfold Agree at h ⊢
  split at h
  · exact h
  · exact h.imp_left (hf _)

/-- What a steady step keeps, of an outcome that is known. -/
theorem kept {r s : Reader} {o : Except Fault α} (hx : Steady final r.place.text x) (ho : x.outcome r = (o, s)) :
    Kept r (o, s) :=
  ho ▸ (hx r rfl).1

theorem pure (a : α) : Steady final text (Pure.pure a : Read α) := by
  intro r hr
  exact ⟨.still rfl rfl _, fun _ _ => rfl⟩

theorem throw {e : Fault} (he : e.located = true) : Steady final text (MonadExcept.throw e : Read α) := by
  intro r hr
  exact ⟨.fault r he, fun _ _ => .inr rfl⟩

theorem place : Steady final text Read.place := by
  intro r hr
  exact ⟨.still rfl rfl _, fun _ _ => rfl⟩

theorem left : Steady final text Read.left := by
  intro r hr
  exact ⟨.still rfl rfl _, fun _ _ => rfl⟩

theorem note (level : Level) (t : String) : Steady final text (Read.note level t) := by
  intro r hr
  exact ⟨.still (r := r) (s := r.note level t) rfl rfl (), fun _ _ => rfl⟩

theorem bind (hx : Steady final text x) (hf : ∀ a, Steady final text (f a)) : Steady final text (x >>= f) := by
  intro r hr
  exact (hx r hr).bind hr fun a s _ hs hp => (hf a).from r.place s hs hp

/-- Nothing follows a fault. -/
theorem throwBind {e : Fault} {f : α → Read β} (he : e.located = true) :
    Steady final text (MonadExcept.throw e >>= f) := by
  intro r hr
  exact ⟨.fault r he, fun _ _ => .inr rfl⟩

/-- A fault behind a test that fails, and what follows a test that succeeds. -/
theorem orThrow {c : Prop} [Decidable c] {e : Fault} {f : PUnit → Read α} (he : e.located = true)
    (hf : Steady final text (f ⟨⟩)) : Steady final text (if c then MonadExcept.throw e >>= f else f ⟨⟩) := by
  split
  · exact throwBind he
  · exact hf

theorem map {f : α → β} (hx : Steady final text x) : Steady final text (f <$> x) := by
  rw [map_eq_pure_bind]
  exact hx.bind fun a => .pure (f a)

theorem discard (hx : Steady final text x) : Steady final text (Functor.discard x) := by
  exact hx.map

/-- A step that goes on from the place it is at. -/
theorem here {f : Place → Read β} (hf : ∀ p, p.text = text → Steady final text (f p)) :
    Steady final text (Read.place >>= f) := by
  intro r hr
  exact hf r.place hr r hr

/-- A step that asks for the mode, and does the same in both modes where the text is tame. -/
theorem asking {f : Bool → Read β} (hf : ∀ b, Steady final text (f b))
    (same : Tame text → ∀ r, r.place.text = text → (f true).outcome r = (f false).outcome r) :
    Steady final text (isLenient >>= f) := by
  intro r hr
  unfold SteadyAt
  rw [outcome_bind, outcome_bind, outcome_isLenient, outcome_isLenient, following_ok, following_ok]
  refine ⟨(hf r.settings.lenient r hr).1, fun ht hl => ?_⟩
  rw [Reader.relaxed_lenient, same ht r.relaxed hr, hl]
  exact (hf false r hr).2 ht hl

/-- A step that strict reading fails at. -/
theorem onlyLenient {f : Bool → Read β} (hf : Steady final text (f true))
    (strict : ∀ r, r.settings.lenient = false →
      ∃ e, e.located = true ∧ final e = true ∧ (f false).outcome r = (.error e, r)) :
    Steady final text (isLenient >>= f) := by
  intro r hr
  unfold SteadyAt
  rw [outcome_bind, outcome_isLenient, following_ok]
  cases hl : r.settings.lenient with
  | true => exact ⟨(hf r hr).1, fun _ h => by cases h⟩
  | false =>
    obtain ⟨e, he, hfinal, hs⟩ := strict r hl
    rw [hs]
    exact ⟨⟨rfl, .refl _ _, fun _ h => by cases h; exact he⟩, fun _ _ => .inl hfinal⟩

/-- A move that does not ask for the mode where the text is tame. -/
theorem moveTame {f : Settings → Place → Except Fault α × Place}
    (ahead : ∀ s p, Place.Ahead s.width p (f s p).2) (located : ∀ s p e, (f s p).1 = .error e → e.located = true)
    (mode : ∀ s p, Tame p.text → f { s with lenient := true } p = f s p) : Steady final text (Read.move f) := by
  intro r hr
  unfold SteadyAt
  rw [outcome_move, outcome_move]
  refine ⟨⟨rfl, ahead _ _, located _ _⟩, fun ht _ => ?_⟩
  have same : f r.relaxed.settings r.relaxed.place = f r.settings r.place := mode r.settings r.place (hr ▸ ht)
  rw [same]
  rcases f r.settings r.place with ⟨e | a, p⟩
  · exact .inr rfl
  · exact rfl

theorem move {f : Settings → Place → Except Fault α × Place} (hf : Place.Moves f) :
    Steady final text (Read.move f) :=
  moveTame hf.ahead hf.located fun s p _ => hf.mode s true p

theorem skip (n : Nat) : Steady final text (Read.skip n) := move (Place.moves_forward () fun _ => n)

theorem toEnd : Steady final text Read.toEnd := move (Place.moves_forward () fun p => p.rest.length)

theorem take (n : Nat) : Steady final text (Read.take n) := by
  refine move ⟨fun s p => ?_, fun s p e h => ?_, fun _ _ _ => rfl⟩
  · dsimp only
    split
    · exact .refl s.width p
    · exact Place.ahead_forward s.width n p
  · dsimp only at h
    split at h
    · cases h
      rfl
    · cases h

theorem literal (t : String) : Steady final text (Read.literal t) := by
  refine here fun p _ => ?_
  split
  · exact take _
  · exact throw rfl

theorem moves_upToStop (stops : List Char) (stopAt : StopAt) (orEnd : Bool) :
    Place.Moves (upToStop stops stopAt orEnd) := by
  refine ⟨fun s p => ?_, fun s p e h => ?_, fun _ _ _ => rfl⟩
  · have run := Place.ahead_upTo s.width stops p
    unfold upToStop
    dsimp only
    split
    · split
      · exact run
      · exact run.trans (Place.ahead_next s.width _)
      · exact run.trans (Place.ahead_next s.width _)
    · split
      · exact run
      · exact .refl s.width p
    · exact run
  · unfold upToStop at h
    dsimp only at h
    split at h
    · split at h <;> cases h
    · split at h
      · cases h
      · cases h
        rfl
    · cases h
      rfl

theorem upTo (stops : List Char) (stopAt : StopAt) (orEnd : Bool) :
    Steady final text (Read.upTo stops stopAt orEnd) := move (moves_upToStop stops stopAt orEnd)

theorem shorter {n : Nat} {again : (m : Nat) → m < n → Read α} {otherwise : Read α}
    (ha : ∀ m h, Steady final text (again m h)) (ho : Steady final text otherwise) :
    Steady final text (Read.shorter n again otherwise) :=
  fun r hr => .shorter (fun m h => ha m h r hr) (ho r hr)

/-- Blanks and comments. Only a comment that never ends is taken otherwise in lenient mode, and it ends strict
reading. -/
theorem gap (hfinal : ∀ e, e.isEnd = true → final e = true) : Steady final text Read.gap := by
  intro r hr
  have hg := Place.ahead_pastGap r.settings.width r.place
  unfold SteadyAt
  rw [Read.gap, outcome_bind, outcome_bind, outcome_get, outcome_get, following_ok, following_ok]
  simp only [Reader.relaxed_width, Reader.relaxed_place, Reader.relaxed_lenient]
  rcases h : r.place.pastGap r.settings.width with ⟨cs, p, unclosed⟩
  rw [h] at hg
  cases unclosed with
  | false => exact ⟨⟨rfl, hg, fun _ h => by cases h⟩, fun _ _ => rfl⟩
  | true =>
    have hend := hg.trans (Place.ahead_toEnd r.settings.width p)
    simp only [if_true, outcome_bind, outcome_goto, following_ok]
    cases hl : r.settings.lenient with
    | false => exact ⟨⟨rfl, hend, fun _ h => by cases h; rfl⟩, fun _ _ => .inl (hfinal _ rfl)⟩
    | true => exact ⟨⟨rfl, hend, fun _ h => by cases h⟩, fun _ h => by cases h⟩

/-- A step that remembers the place it is at, and may go back there. -/
theorem anchored {f : Place → Read β} (hf : ∀ p, p.text = text → SteadyFrom p final text (f p)) :
    Steady final text (Read.place >>= f) := by
  intro r hr
  exact hf r.place hr r hr (.refl _ _)

end Steady

end Read

end Stylesheet
