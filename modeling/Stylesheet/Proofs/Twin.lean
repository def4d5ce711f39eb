import Stylesheet.Proofs.Pairing

namespace Stylesheet

namespace Pairing

variable {α β γ δ : Type} {g : Pairing}

/-- The two readings are in their modes at corresponding places. -/
structure Readers (g : Pairing) (s s' : Reader) : Prop where
  first : s.settings = g.first
  second : s'.settings = g.second
  places : g.Places s.place s'.place

/-- A state of the first reading. -/
structure Reads (g : Pairing) (s : Reader) : Prop where
  settings : s.settings = g.first
  text : s.place.text = g.text

theorem Readers.reads {s s' : Reader} (h : g.Readers s s') : g.Reads s := ⟨h.first, h.places.text⟩

/-- A reading beside itself. -/
def alone (s : Reader) : Pairing := ⟨s.settings, s.settings, s.place.text, [], 0, false, fun _ => rfl, .inl ⟨rfl, rfl⟩⟩

theorem reads_alone (s : Reader) : (alone s).Reads s := ⟨rfl, rfl⟩

theorem Reads.of_kept {s t : Reader} {o : Except Fault α} (h : g.Reads s) (hk : Read.Kept s (o, t)) : g.Reads t :=
  ⟨hk.settings.trans h.settings, hk.ahead.text.trans h.text⟩

/-- How the outcome of the second reading follows from that of the first one. Of a result that is not sure it follows
only if a brace is still to come. A fault that ends strict reading may be no fault of lenient reading; if `final`,
every fault does. -/
def Agree (g : Pairing) (final : Prop) (sure : α → Prop) (look : α → β) (o o' : Except Fault α × Reader) : Prop :=
  match o with
  | (.ok a, s) =>
    sure a ∨ g.Live s.place → ∃ a' s', o' = (.ok a', s') ∧ g.Alike look a a' ∧ g.Readers s s'
  | (.error e, s) =>
    (g.Loose ∧ (final ∨ e.isEnd = true)) ∨
      (g.Live s.place → ∃ e' s', o' = (.error e', s') ∧ Fault.Akin e e' ∧ g.Readers s s')

/-- A closing brace is the last character taken between two states. -/
def Closes (r s : Reader) : Prop := ∃ taken, r.place.rest = taken ++ '\x7d' :: s.place.rest

namespace Closes

variable {r s t : Reader}

theorem before (h : Closes s t) (hs : s.place.rest <:+ r.place.rest) : Closes r t := by
  obtain ⟨taken, ht⟩ := h
  obtain ⟨before, hb⟩ := hs
  exact ⟨before ++ taken, by rw [List.append_assoc, ← ht]; exact hb.symm⟩

theorem brace_mem (h : Closes r s) : '\x7d' ∈ r.place.rest := by
  obtain ⟨taken, ht⟩ := h
  rw [ht]
  simp

theorem shorter (h : Closes r s) : s.place.rest.length < r.place.rest.length := by
  obtain ⟨taken, ht⟩ := h
  rw [ht, List.length_append, List.length_cons]
  omega

end Closes

/-- Where the readings are together (`L`), the second step does what the first one does. A sure result of strict
reading has a closing brace as the last character taken. -/
structure Twin (g : Pairing) (L final : Prop) (sure : α → Prop) (look : α → β) (x x' : Read α) : Prop where
  keeps : ∀ r, g.Reads r → Read.Kept r (x.outcome r)
  needs : g.first.lenient = false → ∀ r a s, g.Reads r → x.outcome r = (.ok a, s) → sure a → Closes r s
  agrees : L → ∀ r r', g.Live r.place → g.Readers r r' → g.Agree final sure look (x.outcome r) (x'.outcome r')

/-- No result is sure. -/
def never (_ : α) : Prop := False

namespace Agree

variable {final : Prop} {sure : α → Prop} {look : α → β} {o' : Except Fault α × Reader} {s : Reader}

theorem error_of_not_live {e : Fault} (h : ¬ g.Live s.place) : g.Agree final sure look (.error e, s) o' :=
  .inr fun hl => absurd hl h

theorem ok_of_not_live {a : α} (h : ¬ g.Live s.place) (hs : ¬ sure a) : g.Agree final sure look (.ok a, s) o' := by
  intro hl
  rcases hl with hl | hl
  · exact absurd hl hs
  · exact absurd hl h

theorem of_not_live {x : Read α} {r : Reader} (hk : Read.Kept r (x.outcome r)) (hl : ¬ g.Live r.place)
    (needs : g.Loose → ∀ a s, x.outcome r = (.ok a, s) → sure a → Closes r s) :
    g.Agree final sure look (x.outcome r) o' := by
  rcases ho : x.outcome r with ⟨e | a, s⟩
  · rw [ho] at hk
    exact .error_of_not_live fun hs => hl (hs.before hk.ahead)
  · rw [ho] at hk
    refine .ok_of_not_live (fun hs => hl (hs.before hk.ahead)) fun ha => ?_
    exact hl (.inr (needs (loose_of_not_live hl) a s ho ha).brace_mem)

/-- What follows a fault: the same fault, whatever the second outcome is handed on as. -/
theorem failing {e : Fault} {look : α → γ} {sure₂ : β → Prop} {view : β → δ} {o₂ : Except Fault β × Reader}
    (h : g.Agree final sure look (.error e, s) o') (ho : ∀ e' s', o' = (.error e', s') → o₂ = (.error e', s')) :
    g.Agree final sure₂ view (.error e, s) o₂ := by
  refine Or.imp_right (fun agree live => ?_) h
  obtain ⟨e', s', ho', rest⟩ := agree live
  exact ⟨e', s', ho e' s' ho', rest⟩

/-- The outcomes of steps that go on behind twin ones. Where no brace is to come behind the first step, what follows
is of no account. -/
theorem bind {x x' : Read α} {f f' : α → Read β} {r r' : Reader} {look : α → γ} {sure₂ : β → Prop} {view : β → δ}
    (hx : g.Agree final never look (x.outcome r) (x'.outcome r'))
    (live : ∀ a s a' s', x.outcome r = (.ok a, s) → x'.outcome r' = (.ok a', s') → g.Live s.place →
      g.Alike look a a' → g.Readers s s' → g.Agree final sure₂ view ((f a).outcome s) ((f' a').outcome s'))
    (dead : ∀ a s o', x.outcome r = (.ok a, s) → ¬ g.Live s.place →
      g.Agree final sure₂ view ((f a).outcome s) o') :
    g.Agree final sure₂ view ((x >>= f).outcome r) ((x' >>= f').outcome r') := by
  rw [Read.outcome_bind, Read.outcome_bind]
  rcases ho : x.outcome r with ⟨e | a, s⟩
  · rw [ho] at hx
    rw [Read.following_error]
    exact hx.failing fun e' s' ho' => by rw [ho', Read.following_error]
  · by_cases hs : g.Live s.place
    · rw [ho] at hx
      obtain ⟨a', s', ho', alike, readers⟩ := hx (.inr hs)
      rw [ho']
      exact live a s a' s' ho ho' hs alike readers
    · exact dead a s _ ho hs

/-- The outcomes of twin steps whose faults are handled. A fault that ends strict reading is handed on by the handler
there. -/
theorem rescue {final₂ : Prop} {x x' : Read α} {r r' : Reader} {h h' : Fault → Read α}
    (hx : g.Agree final sure look (x.outcome r) (x'.outcome r'))
    (live : ∀ e s e' s', x.outcome r = (.error e, s) → g.Live s.place → Fault.Akin e e' → g.Readers s s' →
      g.Agree final₂ sure look ((h e).outcome s) ((h' e').outcome s'))
    (dead : ∀ e s o', x.outcome r = (.error e, s) → ¬ g.Live s.place →
      g.Agree final₂ sure look ((h e).outcome s) o')
    (stop : g.Loose → ∀ e s, x.outcome r = (.error e, s) → final ∨ e.isEnd = true →
      ∃ d t, (final₂ ∨ d.isEnd = true) ∧ (h e).outcome s = (.error d, t)) :
    g.Agree final₂ sure look (Read.rescued (x.outcome r) h) (Read.rescued (x'.outcome r') h') := by
  rcases ho : x.outcome r with ⟨e | a, s⟩
  · rw [ho] at hx
    rcases hx with ⟨hloose, hend⟩ | agree
    · obtain ⟨d, t, hd, ht⟩ := stop hloose e s ho hend
      rw [Read.rescued_error, ht]
      exact .inl ⟨hloose, hd⟩
    · by_cases hs : g.Live s.place
      · obtain ⟨e', s', ho', akin, readers⟩ := agree hs
        rw [ho']
        exact live e s e' s' ho hs akin readers
      · exact dead e s _ ho hs
  · rw [ho] at hx
    intro ha
    obtain ⟨a', s', ho', rest⟩ := hx ha
    exact ⟨a', s', by rw [ho']; rfl, rest⟩

/-- The next round of a loop, of which it is known that the readings come to it together. -/
theorem shorter {n : Nat} {r r' : Reader} {again : (m : Nat) → m < n → Read α}
    {again' : (m : Nat) → m < n + g.more.length → Read α} {otherwise otherwise' : Read α} (hr : g.Readers r r')
    (ha : ∀ h, g.Agree final sure look ((again r.place.rest.length h).outcome r)
      ((again' (r.place.rest.length + g.more.length) (Nat.add_lt_add_right h _)).outcome r'))
    (ho : g.Agree final sure look (otherwise.outcome r) (otherwise'.outcome r')) :
    g.Agree final sure look ((Read.shorter n again otherwise).outcome r)
      ((Read.shorter (n + g.more.length) again' otherwise').outcome r') := by
  have length := hr.places.length
  rw [Read.outcome_shorter, Read.outcome_shorter]
  by_cases h : r.place.rest.length < n
  · have h' : r'.place.rest.length < n + g.more.length := by omega
    rw [dif_pos h, dif_pos h']
    have agree := ha h
    revert h'
    rw [length]
    exact fun _ => agree
  · have h' : ¬ r'.place.rest.length < n + g.more.length := by omega
    rw [dif_neg h, dif_neg h']
    exact ho

end Agree

namespace Twin

variable {L M final : Prop} {sure : α → Prop} {sure₂ : β → Prop} {look : α → γ} {view : β → δ} {x x' : Read α}
  {f f' : α → Read β}

theorem weaken (h : g.Twin L final sure look x x') (hm : M → L) : g.Twin M final sure look x x' :=
  ⟨h.keeps, h.needs, fun m => h.agrees (hm m)⟩

theorem lessSure {sure' : α → Prop} (h : g.Twin L final sure look x x') (hs : ∀ a, sure' a → sure a) :
    g.Twin L final sure' look x x' := by
  refine ⟨h.keeps, fun hl r a s hr ho ha => h.needs hl r a s hr ho (hs a ha), fun hL r r' hl hr => ?_⟩
  have agree := h.agrees hL r r' hl hr
  rcases hx : x.outcome r with ⟨e | a, s⟩
  · rw [hx] at agree
    exact agree
  · rw [hx] at agree
    exact fun ha => agree (ha.imp_left (hs a))

theorem unsure (h : g.Twin L final sure look x x') : g.Twin L final never look x x' := h.lessSure fun _ => False.elim

/-- Where some faults end strict reading, all may. -/
theorem whole (h : g.Twin L final sure look x x') : g.Twin L True sure look x x' := by
  refine ⟨h.keeps, h.needs, fun hL r r' hl hr => ?_⟩
  have agree := h.agrees hL r r' hl hr
  rcases hx : x.outcome r with ⟨e | a, s⟩
  · rw [hx] at agree
    exact agree.imp_left fun hf => ⟨hf.1, .inl trivial⟩
  · rw [hx] at agree
    exact agree

/-- The second step may be written otherwise where the readings are together. -/
theorem congr {y : Read α} (hy : L → y = x') (h : g.Twin L final sure look x x') :
    g.Twin L final sure look x y :=
  ⟨h.keeps, h.needs, fun hL => hy hL ▸ h.agrees hL⟩

theorem pure {a a' : α} (h : L → g.Alike look a a') : g.Twin L final never look (Pure.pure a) (Pure.pure a') where
  keeps _ _ := .still rfl rfl a
  needs _ _ _ _ _ _ hs := hs.elim
  agrees hL _ r' _ hr _ := ⟨a', r', rfl, h hL, hr⟩

/-- A result that is not sure, of a step that has sure ones. -/
theorem pureUnsure {a a' : α} (hs : ¬ sure a) (h : L → g.Alike look a a') :
    g.Twin L final sure look (Pure.pure a) (Pure.pure a') where
  keeps _ _ := .still rfl rfl a
  needs _ _ _ _ _ ho ha := by cases ho; exact absurd ha hs
  agrees hL _ r' _ hr _ := ⟨a', r', rfl, h hL, hr⟩

theorem throw {e e' : Fault} (he : e.located = true) (h : Fault.Akin e e') :
    g.Twin L final sure look (MonadExcept.throw e) (MonadExcept.throw e') where
  keeps r _ := .fault r he
  needs _ _ _ _ _ h := by cases h
  agrees _ _ r' _ hr := .inr fun _ => ⟨e', r', rfl, h, hr⟩

/-- Nothing follows a fault. -/
theorem throwBind {e e' : Fault} (he : e.located = true) (h : Fault.Akin e e') :
    g.Twin L final sure₂ view (MonadExcept.throw e >>= f) (MonadExcept.throw e' >>= f') :=
  have twin : g.Twin L final sure₂ view (MonadExcept.throw e : Read β) (MonadExcept.throw e') := throw he h
  ⟨twin.keeps, twin.needs, twin.agrees⟩

/-- A choice that both readings make in the same way. -/
theorem ite {c c' : Prop} [Decidable c] [Decidable c'] {y y' : Read α} (hc : L → (c' ↔ c))
    (hx : c → g.Twin L final sure look x x') (hy : ¬ c → g.Twin L final sure look y y') :
    g.Twin L final sure look (if c then x else y) (if c' then x' else y') := by
  by_cases h : c
  · rw [if_pos h]
    exact .congr (fun hL => if_pos ((hc hL).mpr h)) (hx h)
  · rw [if_neg h]
    exact .congr (fun hL => if_neg fun h' => h ((hc hL).mp h')) (hy h)

/-- A fault behind a test that fails, and what follows a test that succeeds. -/
theorem orThrow {c c' : Prop} [Decidable c] [Decidable c'] {e e' : Fault} {k k' : PUnit → Read α}
    (hc : L → (c' ↔ c)) (he : e.located = true) (h : Fault.Akin e e')
    (hk : ¬ c → g.Twin L final sure look (k ⟨⟩) (k' ⟨⟩)) :
    g.Twin L final sure look (if c then MonadExcept.throw e >>= k else k ⟨⟩)
      (if c' then MonadExcept.throw e' >>= k' else k' ⟨⟩) :=
  ite hc (fun _ => throwBind he h) hk

/-- A step that goes on from the place it is at. -/
theorem here {k k' : Place → Read α}
    (hk : ∀ (M : Prop) p p', (M → L) → g.Meet M p p' → g.Twin M final sure look (k p) (k' p')) :
    g.Twin L final sure look (Read.place >>= k) (Read.place >>= k') where
  keeps r hr := (hk False r.place r.place False.elim ⟨False.elim, False.elim⟩).keeps r hr
  needs hf r a s hr := (hk False r.place r.place False.elim ⟨False.elim, False.elim⟩).needs hf r a s hr
  agrees hL r r' hl hr :=
    (hk True r.place r'.place (fun _ => hL) ⟨fun _ => hl, fun _ => hr.places⟩).agrees trivial r r' hl hr

/-- What a twin step keeps, of an outcome that is known. -/
theorem kept {r s : Reader} {o : Except Fault α} (hx : g.Twin L final sure look x x') (hr : g.Reads r)
    (ho : x.outcome r = (o, s)) : Read.Kept r (o, s) :=
  ho ▸ hx.keeps r hr

theorem reads {r s : Reader} {o : Except Fault α} (hx : g.Twin L final sure look x x') (hr : g.Reads r)
    (ho : x.outcome r = (o, s)) : g.Reads s :=
  hr.of_kept (hx.kept hr ho)

/-- Where no brace is to come, nothing is claimed: none is to come later either, and no result is sure. -/
theorem agree_of_not_live {r : Reader} {o' : Except Fault α × Reader} (hx : g.Twin L final sure look x x')
    (hr : g.Reads r) (hl : ¬ g.Live r.place) : g.Agree final sure look (x.outcome r) o' :=
  .of_not_live (hx.keeps r hr) hl fun hloose a s => hx.needs hloose.1 r a s hr

/-- A step and what follows it. Where the step leaves no brace, neither does what follows it, nor is its result sure,
so that nothing is claimed of it. -/
theorem bind (hx : g.Twin L final never look x x')
    (hf : ∀ a a', g.Alike look a a' → g.Twin L final sure₂ view (f a) (f' a')) :
    g.Twin L final sure₂ view (x >>= f) (x' >>= f') where
  keeps r hr := by
    rw [Read.outcome_bind]
    rcases ho : x.outcome r with ⟨e | a, s⟩
    · exact (hx.kept hr ho).error
    · exact (hx.kept hr ho).trans ((hf a a (.refl look a)).keeps s (hx.reads hr ho))
  needs hl r b t hr ho hs := by
    obtain ⟨a, s, ha, ho⟩ := Read.ok_of_bind ho
    have closes := (hf a a (.refl look a)).needs hl s b t (hx.reads hr ha) ho hs
    exact closes.before (hx.kept hr ha).ahead.rest_suffix
  agrees hL r r' hl hr := by
    refine .bind (hx.agrees hL r r' hl hr) (fun a s a' s' _ _ hs alike readers => ?_) fun a s o' ho hs => ?_
    · exact (hf a a' alike).agrees hL s s' hs readers
    · exact (hf a a (.refl look a)).agree_of_not_live (hx.reads hr.reads ho) hs

/-- A step with one result for both readings, and what follows it. -/
theorem bindSame {x x' : Read α} (hx : g.Twin L final never id x x')
    (hf : ∀ a, g.Twin L final sure₂ view (f a) (f' a)) : g.Twin L final sure₂ view (x >>= f) (x' >>= f') :=
  hx.bind fun a _ ha => by rw [ha.eq]; exact hf a

/-- A step whose result is looked at no further. -/
theorem bindIgnored {x x' : Read α} {k k' : Read β} (hx : g.Twin L final never look x x')
    (hk : g.Twin L final sure₂ view k k') : g.Twin L final sure₂ view (x >>= fun _ => k) (x' >>= fun _ => k') :=
  hx.bind fun _ _ _ => hk

/-- The result of a step seen through a function is as sure as the result itself. -/
theorem mapTo {h h' : α → β} (hx : g.Twin L final sure look x x') (hs : ∀ a, sure₂ (h a) → sure a)
    (hh : ∀ a a', L → g.Alike look a a' → g.Alike view (h a) (h' a')) :
    g.Twin L final sure₂ view (h <$> x) (h' <$> x') where
  keeps r hr := by
    rw [Read.outcome_map]
    rcases ho : x.outcome r with ⟨e | a, s⟩
    · exact (hx.kept hr ho).error
    · exact (hx.kept hr ho).result (h a)
  needs hl r b t hr ho hb := by
    rw [Read.outcome_map] at ho
    rcases hxo : x.outcome r with ⟨e | a, s⟩
    · rw [hxo] at ho
      cases ho
    · rw [hxo] at ho
      cases ho
      exact hx.needs hl r a _ hr hxo (hs a hb)
  agrees hL r r' hl hr := by
    have agree := hx.agrees hL r r' hl hr
    rw [Read.outcome_map, Read.outcome_map]
    rcases ho : x.outcome r with ⟨e | a, s⟩
    · rw [ho] at agree
      rw [Read.following_error]
      exact agree.failing fun e' s' ho' => by rw [ho', Read.following_error]
    · rw [ho] at agree
      intro hb
      obtain ⟨a', s', ho', alike, readers⟩ := agree (hb.imp_left (hs a))
      exact ⟨h' a', s', by rw [ho']; rfl, hh a a' hL alike, readers⟩

theorem map {h h' : α → β} (hx : g.Twin L final never look x x')
    (hh : ∀ a a', L → g.Alike look a a' → g.Alike view (h a) (h' a')) :
    g.Twin L final never view (h <$> x) (h' <$> x') :=
  hx.mapTo (fun _ => id) hh

theorem discard (hx : g.Twin L final never look x x') :
    g.Twin L final never id (Functor.discard x) (Functor.discard x') :=
  hx.map fun _ _ _ _ => .refl id _

/-- A step and a result made of the step's result. -/
theorem bindPure {h h' : α → β} (hx : g.Twin L final sure look x x') (hs : ∀ a, sure₂ (h a) → sure a)
    (hh : ∀ a a', L → g.Alike look a a' → g.Alike view (h a) (h' a')) :
    g.Twin L final sure₂ view (x >>= fun a => Pure.pure (h a)) (x' >>= fun a => Pure.pure (h' a)) := by
  rw [← map_eq_pure_bind, ← map_eq_pure_bind]
  exact hx.mapTo hs hh

/-- A step and what follows it, which is nothing but a result where the step's result is sure. -/
theorem bindSure (hx : g.Twin L final sure look x x')
    (hf : ∀ a a', ¬ sure a → g.Alike look a a' → g.Twin L final sure₂ view (f a) (f' a'))
    (hs : ∀ a a', sure a → g.Alike look a a' →
      ∃ b b', f a = Pure.pure b ∧ f' a' = Pure.pure b' ∧ g.Alike view b b') :
    g.Twin L final sure₂ view (x >>= f) (x' >>= f') := by
  have behind (a : α) : g.Twin False final never view (f a) (f a) := by
    by_cases ha : sure a
    · obtain ⟨b, _, hb, _⟩ := hs a a ha (.refl look a)
      rw [hb]
      exact .pure False.elim
    · have twin := hf a a ha (.refl look a)
      exact ⟨twin.keeps, fun _ _ _ _ _ _ h => h.elim, False.elim⟩
  have loosely : g.Twin False final never view (x >>= f) (x >>= f) :=
    have kept : g.Twin False final never look x x := ⟨hx.keeps, fun _ _ _ _ _ _ h => h.elim, False.elim⟩
    kept.bind fun a a' _ => .congr False.elim (behind a)
  refine ⟨loosely.keeps, fun hl r b t hr ho hb => ?_, fun hL r r' hl hr => ?_⟩
  · obtain ⟨a, s, ha, ho⟩ := Read.ok_of_bind ho
    by_cases certain : sure a
    · obtain ⟨b₁, _, hb₁, _⟩ := hs a a certain (.refl look a)
      rw [hb₁] at ho
      cases ho
      exact hx.needs hl r a t hr ha certain
    · have closes := (hf a a certain (.refl look a)).needs hl s b t (hx.reads hr ha) ho hb
      exact closes.before (hx.kept hr ha).ahead.rest_suffix
  · have agree := hx.agrees hL r r' hl hr
    rw [Read.outcome_bind, Read.outcome_bind]
    rcases ho : x.outcome r with ⟨e | a, s⟩
    · rw [ho] at agree
      rw [Read.following_error]
      exact agree.failing fun e' s' ho' => by rw [ho', Read.following_error]
    · rw [ho] at agree
      by_cases certain : sure a
      · obtain ⟨a', s', ho', alike, readers⟩ := agree (.inl certain)
        obtain ⟨b, b', hb, hb', same⟩ := hs a a' certain alike
        rw [ho', Read.following_ok, Read.following_ok, hb, hb']
        exact fun _ => ⟨b', s', rfl, same, readers⟩
      · by_cases live : g.Live s.place
        · obtain ⟨a', s', ho', alike, readers⟩ := agree (.inr live)
          rw [ho']
          exact (hf a a' certain alike).agrees hL s s' live readers
        · exact (hf a a certain (.refl look a)).agree_of_not_live (hx.reads hr.reads ho) live

theorem note (level level' : Level) (t t' : String) :
    g.Twin L final never id (Read.note level t) (Read.note level' t') where
  keeps r _ := .still (r := r) (s := r.note level t) rfl rfl ()
  needs _ _ _ _ _ _ hs := hs.elim
  agrees _ _ r' _ hr _ := ⟨(), r'.note level' t', rfl, .refl id _, ⟨hr.first, hr.second, hr.places⟩⟩

/-- A step that asks how many characters are left. -/
theorem leftBind {k k' : Nat → Read α} (hk : ∀ n, g.Twin L final sure look (k n) (k' (n + g.more.length))) :
    g.Twin L final sure look (Read.left >>= k) (Read.left >>= k') where
  keeps r hr := (hk r.place.rest.length).keeps r hr
  needs hf r a s hr := (hk r.place.rest.length).needs hf r a s hr
  agrees hL r r' hl hr := by
    have same : (Read.left >>= k').outcome r' = (k' (r.place.rest.length + g.more.length)).outcome r' := by
      rw [Read.outcome_bind, Read.outcome_left, Read.following_ok, hr.places.length]
    rw [same]
    exact (hk r.place.rest.length).agrees hL r r' hl hr

/-- The next round of a loop. -/
theorem shorter {n : Nat} {again : (m : Nat) → m < n → Read α}
    {again' : (m : Nat) → m < n + g.more.length → Read α} {otherwise otherwise' : Read α}
    (ha : ∀ m h, g.Twin L final sure look (again m h) (again' (m + g.more.length) (Nat.add_lt_add_right h _)))
    (ho : g.Twin L final sure look otherwise otherwise') :
    g.Twin L final sure look (Read.shorter n again otherwise)
      (Read.shorter (n + g.more.length) again' otherwise') where
  keeps r hr := by
    rw [Read.outcome_shorter]
    split
    · next h => exact (ha _ h).keeps r hr
    · exact ho.keeps r hr
  needs hf r a s hr := by
    rw [Read.outcome_shorter]
    split
    · next h => exact (ha _ h).needs hf r a s hr
    · exact ho.needs hf r a s hr
  agrees hL r r' hl hr :=
    .shorter hr (fun h => (ha _ h).agrees hL r r' hl hr) (ho.agrees hL r r' hl hr)

/-- A step that asks for the mode. Where the modes differ it comes to the same in both. -/
theorem askingHere {k k' : Bool → Read α} (hk : ∀ b, g.Twin L final sure look (k b) (k' b))
    (same : g.Loose → L → ∀ r r', g.Live r.place → g.Readers r r' → (k' true).outcome r' = (k' false).outcome r') :
    g.Twin L final sure look (Read.isLenient >>= k) (Read.isLenient >>= k') where
  keeps r hr := (hk r.settings.lenient).keeps r hr
  needs hf r a s hr := (hk r.settings.lenient).needs hf r a s hr
  agrees hL r r' hl hr := by
    rw [Read.outcome_bind, Read.outcome_bind, Read.outcome_isLenient, Read.outcome_isLenient, Read.following_ok,
      Read.following_ok, hr.first, hr.second]
    rcases g.modes with hm | hm
    · rw [hm.1]
      exact (hk g.first.lenient).agrees hL r r' hl hr
    · rw [hm.1, hm.2.1, same hm hL r r' hl hr]
      exact (hk false).agrees hL r r' hl hr

/-- A step that asks for the mode, of which it is known that it does not matter. -/
theorem asking {k k' : Bool → Read α} (hk : ∀ b, g.Twin L final sure look (k b) (k' b))
    (same : g.Loose → L → k' true = k' false) :
    g.Twin L final sure look (Read.isLenient >>= k) (Read.isLenient >>= k') :=
  askingHere hk fun hloose hL _ _ _ _ => by rw [same hloose hL]

/-- A step that strict reading fails at, where every fault ends it. -/
theorem orStop {k k' : Bool → Read α}
    (hk : ∀ b, g.first.lenient = b → g.second.lenient = b → g.Twin L True sure look (k b) (k' b))
    (strict : ∀ r, r.settings.lenient = false → ∃ e, e.located = true ∧ (k false).outcome r = (.error e, r)) :
    g.Twin L True sure look (Read.isLenient >>= k) (Read.isLenient >>= k') := by
  rcases g.modes with hm | hm
  · have twin := hk g.first.lenient rfl hm.1
    refine ⟨fun r hr => ?_, fun hf r a s hr => ?_, fun hL r r' hl hr => ?_⟩
    · rw [Read.outcome_bind, Read.outcome_isLenient, Read.following_ok, hr.settings]
      exact twin.keeps r hr
    · rw [Read.outcome_bind, Read.outcome_isLenient, Read.following_ok, hr.settings]
      exact twin.needs hf r a s hr
    · rw [Read.outcome_bind, Read.outcome_bind, Read.outcome_isLenient, Read.outcome_isLenient, Read.following_ok,
        Read.following_ok, hr.first, hr.second, hm.1]
      exact twin.agrees hL r r' hl hr
  · have fails (r : Reader) (hr : r.settings = g.first) :
        ∃ e, e.located = true ∧ (Read.isLenient >>= k).outcome r = (.error e, r) := by
      rw [Read.outcome_bind, Read.outcome_isLenient, Read.following_ok, hr, hm.1]
      exact strict r (hr ▸ hm.1)
    refine ⟨fun r hr => ?_, fun _ r a s hr ho => ?_, fun hL r r' hl hr => ?_⟩
    · obtain ⟨e, he, ho⟩ := fails r hr.settings
      rw [ho]
      exact ⟨rfl, .refl _ _, fun _ h => by cases h; exact he⟩
    · obtain ⟨e, -, ho'⟩ := fails r hr.settings
      rw [ho'] at ho
      cases ho
    · obtain ⟨e, -, ho⟩ := fails r hr.first
      rw [ho]
      exact .inl ⟨hm, .inl trivial⟩

/-- A step whose fault is handled. A fault that ends strict reading is handed on by the handler there. -/
theorem rescue {final₂ : Prop} {y y' : Read α} {h h' : Fault → Read α}
    (hy : ∀ r, y.outcome r = Read.rescued (x.outcome r) h)
    (hy' : ∀ r, y'.outcome r = Read.rescued (x'.outcome r) h') (hx : g.Twin L final sure look x x')
    (hh : ∀ e e', e.located = true → Fault.Akin e e' → g.Twin L final₂ sure look (h e) (h' e'))
    (stop : g.Loose → ∀ e s, final ∨ e.isEnd = true → s.settings.lenient = false →
      ∃ d t, (final₂ ∨ d.isEnd = true) ∧ (h e).outcome s = (.error d, t)) :
    g.Twin L final₂ sure look y y' where
  keeps r hr := by
    rw [hy]
    rcases ho : x.outcome r with ⟨e | a, s⟩
    · have hk := hx.kept hr ho
      exact hk.trans ((hh e e (hk.located e rfl) (.refl (hk.located e rfl))).keeps s (hx.reads hr ho))
    · exact hx.kept hr ho
  needs hl r a t hr ho hs := by
    rw [hy] at ho
    rcases hxo : x.outcome r with ⟨e | b, s⟩
    · rw [hxo] at ho
      have hk := hx.kept hr hxo
      have closes := (hh e e (hk.located e rfl) (.refl (hk.located e rfl))).needs hl s a t (hx.reads hr hxo) ho hs
      exact closes.before hk.ahead.rest_suffix
    · rw [hxo] at ho
      cases ho
      exact hx.needs hl r a _ hr hxo hs
  agrees hL r r' hl hr := by
    have kept {e : Fault} {s : Reader} (ho : x.outcome r = (.error e, s)) : g.Reads s ∧ e.located = true :=
      ⟨hx.reads hr.reads ho, (hx.kept hr.reads ho).located e rfl⟩
    rw [hy, hy']
    refine .rescue (hx.agrees hL r r' hl hr) (fun e s e' s' ho hs akin readers => ?_) (fun e s o' ho hs => ?_) ?_
    · exact (hh e e' (kept ho).2 akin).agrees hL s s' hs readers
    · exact (hh e e (kept ho).2 (.refl (kept ho).2)).agree_of_not_live (kept ho).1 hs
    · exact fun hloose e s ho hend => stop hloose e s hend ((kept ho).1.settings ▸ hloose.1)

/-- A step whose faults are handled by lenient reading only. -/
theorem guarded {h h' : Fault → Read α} (hx : g.Twin L True sure look x x')
    (hh : ∀ e e', e.located = true → Fault.Akin e e' → g.Twin L True sure look (h e) (h' e'))
    (strict : ∀ e s, s.settings.lenient = false → (h e).outcome s = (.error e, s)) :
    g.Twin L True sure look (tryCatch x h) (tryCatch x' h') :=
  rescue (Read.outcome_tryCatch x h) (Read.outcome_tryCatch x' h') hx hh
    fun _ e s _ hl => ⟨e, s, .inl trivial, strict e s hl⟩

end Twin

end Pairing

end Stylesheet
