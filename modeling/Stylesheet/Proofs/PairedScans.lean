import Stylesheet.Proofs.Pairing
import Stylesheet.Proofs.Takes

namespace Stylesheet

/-- A character that does not go on the prefix decides before what stands behind is looked at. -/
theorem takeWhile_append_of_mem {α : Type} {f : α → Bool} {c : α} {l : List α} (more : List α) (hc : c ∈ l)
    (hf : f c = false) : (l ++ more).takeWhile f = l.takeWhile f := by
  induction l with
  | nil => cases hc
  | cons d l ih =>
    rw [List.cons_append, List.takeWhile_cons, List.takeWhile_cons]
    rcases List.mem_cons.mp hc with rfl | hc
    · rw [hf]
      rfl
    · rw [ih hc]

theorem mem_dropWhile_of_mem {α : Type} {f : α → Bool} {c : α} {l : List α} (hc : c ∈ l) (hf : f c = false) :
    c ∈ l.dropWhile f := by
  have split : c ∈ l.takeWhile f ++ l.dropWhile f := by rwa [List.takeWhile_append_dropWhile]
  refine (List.mem_append.mp split).resolve_left fun ht => ?_
  have := List.all_eq_true.mp List.all_takeWhile c ht
  rw [hf] at this
  cases this

namespace Place

theorem opening_of_slash {width : Char → Nat} {p : Place} {tail : List Char} (h : p.rest = '/' :: '*' :: tail) :
    p.opening width =
      match commentBody? tail with
      | none => .unclosed
      | some body => .whole ⟨String.ofList body, some p.position⟩ (p.forward width (body.length + 4)) := by
  unfold opening
  rw [h]
  rfl

end Place

namespace Pairing

variable {α β γ δ : Type} {g : Pairing} {p p' : Place}

/-- How a scan of the second reading answers to that of the first one. -/
def Answers (g : Pairing) (look : α → β) (o o' : Except Fault α × Place) : Prop :=
  match o with
  | (.ok a, q) => g.Live q → ∃ a' q', o' = (.ok a', q') ∧ g.Alike look a a' ∧ g.Places q q'
  | (.error e, q) =>
    (g.Loose ∧ e.isEnd = true) ∨ (g.Live q → ∃ e' q', o' = (.error e', q') ∧ Fault.Akin e e' ∧ g.Places q q')

namespace Answers

variable {look : α → β} {x : Except Fault α} {q : Place}

theorem of_not_live {o' : Except Fault α × Place} (h : ¬ g.Live q) : g.Answers look (x, q) o' := by
  cases x with
  | ok a => exact fun hl => absurd hl h
  | error e => exact .inr fun hl => absurd hl h

theorem ok {a a' : α} {q' : Place} (ha : g.Alike look a a') (hq : g.Live q → g.Places q q') :
    g.Answers look (.ok a, q) (.ok a', q') :=
  fun hl => ⟨a', q', rfl, ha, hq hl⟩

theorem fail {e e' : Fault} {q' : Place} (he : Fault.Akin e e') (hq : g.Places q q') :
    g.Answers look (.error e, q) (.error e', q') :=
  .inr fun _ => ⟨e', q', rfl, he, hq⟩

/-- The result of a scan seen through a function. -/
theorem map {view : γ → δ} {f : α → γ} {f' : α → γ} {o o' : Except Fault α × Place} (h : g.Answers look o o')
    (hf : ∀ a a', g.Alike look a a' → g.Alike view (f a) (f' a')) :
    g.Answers view (o.1.map f, o.2) (o'.1.map f', o'.2) := by
  rcases o with ⟨e | a, q⟩
  · refine Or.imp_right (fun hlive hq => ?_) h
    obtain ⟨e', q', rfl, rest⟩ := hlive hq
    exact ⟨e', q', rfl, rest⟩
  · intro hq
    obtain ⟨a', q', rfl, alike, places⟩ := h hq
    exact ⟨f' a', q', rfl, hf a a' alike, places⟩

end Answers

theorem pair_modes (g : Pairing) : (g.second.lenient = g.first.lenient ∧ g.more = []) ∨ g.Loose := g.modes

theorem Places.rest_eq (h : g.Places p p') (hm : g.more = []) : p'.rest = p.rest := by
  rw [h.rest, hm, List.append_nil]

/-- The two readings have the same first character, or nothing is left to both. -/
theorem rest_cases (h : g.Places p p') (hl : g.Live p) :
    (p.rest = [] ∧ g.more = [] ∧ p'.rest = []) ∨
      ∃ c rest, p.rest = c :: rest ∧ p'.rest = c :: (rest ++ g.more) := by
  cases hr : p.rest with
  | nil =>
    rcases hl with hm | hl
    · exact .inl ⟨rfl, hm, by rw [h.rest_eq hm, hr]⟩
    · rw [hr] at hl
      cases hl
  | cons c rest => exact .inr ⟨c, rest, rfl, by rw [h.rest, hr]; rfl⟩

theorem Places.toEnd (h : g.Places p p') (hm : g.more = []) :
    g.Places (p.toEnd g.first.width) (p'.toEnd g.second.width) := by
  unfold Place.toEnd
  rw [h.rest_eq hm]
  exact h.forward (.inl hm)

theorem more_of_live_toEnd {width : Char → Nat} (h : g.Live (p.toEnd width)) : g.more = [] := by
  refine h.resolve_right ?_
  rw [Place.toEnd, Place.forward_rest, List.drop_length]
  exact List.not_mem_nil

/-- A whole comment is not changed by what stands behind it. -/
theorem commentBody?_append_of_some {l body : List Char} (more : List Char)
    (h : Place.commentBody? l = some body) : Place.commentBody? (l ++ more) = some body := by
  obtain ⟨⟨rest, rfl⟩, hno⟩ := Place.commentBody?_eq_some h
  rw [List.append_assoc]
  exact Place.commentBody?_append hno

/-- A comment that begins in the second reading begins in the first one. -/
theorem opens_of_paired (h : g.Places p p') (hl : g.Live p) (hr : ['/', '*'] <+: p'.rest) : ['/', '*'] <+: p.rest := by
  rcases hl with hm | hl
  · rwa [← h.rest_eq hm]
  · -- the brace is behind the two characters
    obtain ⟨tail, hr⟩ := h.rest ▸ hr
    match hp : p.rest with
    | [] => rw [hp] at hl; cases hl
    | [c] =>
      rw [hp] at hl hr
      obtain ⟨rfl, -⟩ := List.cons.inj hr
      exact absurd hl (by decide)
    | c :: d :: rest =>
      simp only [hp, List.cons_append, List.cons.injEq] at hr
      obtain ⟨rfl, rfl, -⟩ := hr
      exact ⟨rest, rfl⟩

/-- What begins at a place of each reading: the same, but a comment that never ends may end behind the text. -/
inductive Opened (g : Pairing) : Place.Opening → Place.Opening → Prop
  | absent : Opened g .absent .absent
  | unclosed {o : Place.Opening} (h : g.more = [] → o = .unclosed) : Opened g .unclosed o
  | whole {c c' : Comment} {q q' : Place} (alike : g.Alike Comment.text c c') (places : g.Places q q') :
    Opened g (.whole c q) (.whole c' q')

namespace Opened

variable {o : Place.Opening}

theorem of_absent (h : g.Opened .absent o) : o = .absent := by
  cases h
  rfl

theorem of_unclosed (h : g.Opened .unclosed o) (hm : g.more = []) : o = .unclosed := by
  cases h with
  | unclosed h => exact h hm

theorem of_whole {c : Comment} {q : Place} (h : g.Opened (.whole c q) o) :
    ∃ c' q', o = .whole c' q' ∧ g.Alike Comment.text c c' ∧ g.Places q q' := by
  cases h with
  | whole alike places => exact ⟨_, _, rfl, alike, places⟩

end Opened

theorem opening_paired (h : g.Places p p') (hl : g.Live p) :
    g.Opened (p.opening g.first.width) (p'.opening g.second.width) := by
  by_cases ho : ['/', '*'] <+: p.rest
  · obtain ⟨tail, hr⟩ := ho
    replace hr : p.rest = '/' :: '*' :: tail := hr.symm
    have hr' : p'.rest = '/' :: '*' :: (tail ++ g.more) := by rw [h.rest, hr]; rfl
    rw [Place.opening_of_slash hr, Place.opening_of_slash hr']
    cases hb : Place.commentBody? tail with
    | none =>
      refine .unclosed fun hm => ?_
      rw [hm, List.append_nil, hb]
    | some body =>
      rw [commentBody?_append_of_some g.more hb]
      refine .whole ⟨fun he => by rw [h.position he], rfl⟩ (h.forward (.inr ?_))
      obtain ⟨⟨behind, rfl⟩, -⟩ := Place.commentBody?_eq_some hb
      rw [hr]
      simp only [List.length_cons, List.length_append]
      omega
  · rw [Place.opening_absent ho, Place.opening_absent fun hr => ho (opens_of_paired h hl hr)]
    exact .absent

theorem pastBlanks_paired (h : g.Places p p') (hl : g.Live p) :
    g.Places (p.pastBlanks g.first.width) (p'.pastBlanks g.second.width) ∧ g.Live (p.pastBlanks g.first.width) := by
  have same : p'.rest.takeWhile Text.isBlank = p.rest.takeWhile Text.isBlank := by
    rw [h.rest]
    rcases hl with hm | hl
    · rw [hm, List.append_nil]
    · exact takeWhile_append_of_mem _ hl (by decide)
  refine ⟨?_, hl.imp_right fun hl => ?_⟩
  · unfold Place.pastBlanks
    rw [same]
    exact h.forward (.inr (List.takeWhile_prefix _).length_le)
  · rw [Place.pastBlanks_dropWhile]
    exact mem_dropWhile_of_mem hl (by decide)

/-- Gaps are the same in both readings. -/
theorem pastGap_paired (h : g.Places p p') (hl : g.Live p)
    (hu : (p.pastGap g.first.width).2.2 = true → g.more = []) (hq : g.Live (p.pastGap g.first.width).2.1) :
    g.Alike (Comment.bareAll true) (p.pastGap g.first.width).1 (p'.pastGap g.second.width).1 ∧
      g.Places (p.pastGap g.first.width).2.1 (p'.pastGap g.second.width).2.1 ∧
      (p'.pastGap g.second.width).2.2 = (p.pastGap g.first.width).2.2 := by
  obtain ⟨n, hn⟩ : ∃ n, p.rest.length = n := ⟨_, rfl⟩
  induction n using Nat.strongRecOn generalizing p p' with
  | ind n ih =>
    obtain ⟨blanks, live⟩ := pastBlanks_paired h hl
    have opened := opening_paired blanks live
    rw [Place.pastGap_eq] at hu hq ⊢
    rw [Place.pastGap_eq g.second.width]
    cases ho : (p.pastBlanks g.first.width).opening g.first.width with
    | absent =>
      rw [ho] at opened
      rw [opened.of_absent]
      exact ⟨.refl _ _, blanks, rfl⟩
    | unclosed =>
      rw [ho] at opened hu
      rw [opened.of_unclosed (hu rfl)]
      exact ⟨.refl _ _, blanks, rfl⟩
    | whole c q =>
      rw [ho] at opened hu hq
      obtain ⟨c', q', ho', alike, places⟩ := opened.of_whole
      rw [ho']
      have shorter : q.rest.length < n :=
        hn ▸ Nat.lt_of_lt_of_le (Place.opening_rest ho) (p.pastBlanks_rest_length g.first.width)
      have ahead := Place.ahead_pastGap g.first.width q
      obtain ⟨comments, reached, flag⟩ := ih q.rest.length shorter places (hq.before ahead) hu hq rfl
      refine ⟨⟨fun he => ?_, ?_⟩, reached, flag⟩
      · dsimp only
        rw [alike.whole he, comments.whole he]
      have text := alike.seen
      have texts := comments.seen
      simp only [Comment.bareAll, if_true, List.map_cons, text] at texts ⊢
      rw [texts]

/-- A search stops at the same character in both readings. -/
theorem upTo_paired (h : g.Places p p') (hl : g.Live p) (stops : List Char)
    (hq : g.Live (p.upTo g.first.width stops).place) :
    (p'.upTo g.second.width stops).text = (p.upTo g.first.width stops).text ∧
      g.Places (p.upTo g.first.width stops).place (p'.upTo g.second.width stops).place ∧
      (p'.upTo g.second.width stops).halt = (p.upTo g.first.width stops).halt := by
  obtain ⟨n, hn⟩ : ∃ n, p.rest.length = n := ⟨_, rfl⟩
  induction n using Nat.strongRecOn generalizing p p' with
  | ind n ih =>
    rcases rest_cases h hl with ⟨hr, -, hr'⟩ | ⟨c, rest, hr, hr'⟩
    · rw [Place.upTo_of_nil hr, Place.upTo_of_nil hr']
      exact ⟨rfl, h, rfl⟩
    · rw [Place.upTo_of_cons hr] at hq ⊢
      rw [Place.upTo_of_cons hr']
      by_cases hc : c ∈ stops
      · rw [if_pos hc, if_pos hc]
        exact ⟨rfl, h, rfl⟩
      · rw [if_neg hc] at hq ⊢
        rw [if_neg hc]
        have places := h.next (.inr (by rw [hr]; exact List.cons_ne_nil c rest))
        have one : (p.next g.first.width).rest.length < n := by simp [← hn, hr]
        have ahead := Place.ahead_upTo g.first.width stops
        cases ho : (p.next g.first.width).opening g.first.width with
        | absent =>
          rw [ho] at hq
          have live := hq.before (ahead _)
          have opened := opening_paired places live
          rw [ho] at opened
          rw [opened.of_absent]
          obtain ⟨text, reached, halt⟩ := ih _ one places live hq rfl
          exact ⟨congrArg (c :: ·) text, reached, halt⟩
        | unclosed =>
          rw [ho] at hq
          have hm : g.more = [] := more_of_live_toEnd hq
          have opened := opening_paired places (.inl hm)
          rw [ho] at opened
          rw [opened.of_unclosed hm]
          exact ⟨rfl, places.toEnd hm, rfl⟩
        | whole k q =>
          rw [ho] at hq
          have live := (hq.before (ahead q)).before (Place.ahead_of_opening ho)
          have opened := opening_paired places live
          rw [ho] at opened
          obtain ⟨c', q', ho', -, places'⟩ := opened.of_whole
          rw [ho']
          have shorter := Nat.lt_trans (Place.opening_rest ho) one
          obtain ⟨text, reached, halt⟩ := ih _ shorter places' (hq.before (ahead q)) hq rfl
          exact ⟨congrArg (c :: ·) text, reached, halt⟩

/-- Past characters that the first reading has left. -/
theorem Answers.forward (h : g.Places p p') (n : Nat) (a : α) :
    g.Answers id ((.ok a : Except Fault α), p.forward g.first.width n) (.ok a, p'.forward g.second.width n) :=
  .ok (.refl id a) fun hl => h.forward hl.of_forward

theorem escape_paired (h : g.Places p p') (hm : g.more = []) :
    g.Answers id (p.escape g.first.width) (p'.escape g.second.width) := by
  have next := h.next (.inl hm)
  unfold Place.escape
  dsimp only
  rw [next.rest_eq hm]
  cases hr : (p.next g.first.width).rest with
  | nil => exact .fail .ending next
  | cons c rest =>
    dsimp only
    split
    · exact .ok (.refl _ _) fun _ => next
    · split
      · have digits := next.forward (n := ((((c :: rest).take 6).takeWhile isHexDigit).length)) (.inl hm)
        refine .ok (.refl _ _) fun _ => ?_
        split
        · rw [digits.rest_eq hm]
          exact digits.forward (.inl hm)
        · exact digits
      · exact .ok (.refl _ _) fun _ => next.next (.inl hm)

/-- A character with its escape; escapes are met in readings of one mode only. -/
theorem piece_paired (h : g.Places p p') (hl : g.Live p) : g.Answers id (p.piece g.first) (p'.piece g.second) := by
  rcases rest_cases h hl with ⟨hr, -, hr'⟩ | ⟨c, rest, hr, hr'⟩
  · unfold Place.piece
    rw [hr, hr']
    exact .fail .ending h
  · by_cases hc : c = '\\'
    · have hm : g.more = [] := by
        rcases g.pair_modes with hm | hm
        · exact hm.2
        · exact absurd (by rw [hr, hc]; exact List.mem_cons_self) (h.unescaped hm)
      unfold Place.piece
      rw [hr, hr']
      dsimp only
      rw [if_pos hc, if_pos hc]
      exact escape_paired h hm
    · rw [Place.piece_unescaped hr hc, Place.piece_unescaped hr' hc]
      exact .ok (.refl _ _) fun _ => h.next (.inr (by rw [hr]; exact List.cons_ne_nil c rest))

/-- A scan that begins with a piece. -/
theorem Answers.afterPiece {look : α → β} {s s' : Settings} {k k' : Piece → Place → Except Fault α × Place}
    (hpiece : g.Answers id (p.piece s) (p'.piece s'))
    (ahead : ∀ piece q, p.piece s = (.ok piece, q) → Place.Ahead g.first.width q (k piece q).2)
    (hk : ∀ piece q q', p.piece s = (.ok piece, q) → g.Live q → g.Places q q' →
      g.Answers look (k piece q) (k' piece q')) :
    g.Answers look
      (match p.piece s with
        | (.ok piece, q) => k piece q
        | (.error e, q) => (.error e, q))
      (match p'.piece s' with
        | (.ok piece, q) => k' piece q
        | (.error e, q) => (.error e, q)) := by
  rcases ho : p.piece s with ⟨e | piece, q⟩
  · rw [ho] at hpiece
    refine Or.imp_right (fun hlive hq => ?_) hpiece
    obtain ⟨e', q', ho', rest⟩ := hlive hq
    exact ⟨e', q', by rw [ho'], rest⟩
  · by_cases hq : g.Live q
    · rw [ho] at hpiece
      obtain ⟨piece', q', ho', alike, places⟩ := hpiece hq
      rw [ho', alike.eq]
      exact hk piece q q' ho hq places
    · have hk' := ahead piece q ho
      dsimp only
      rcases hkq : k piece q with ⟨o, t⟩
      rw [hkq] at hk'
      exact .of_not_live fun ht => hq (ht.before hk')

/-- Text is the same in both readings. -/
theorem textUpTo_paired (ends : Char → Bool) (h : g.Places p p') (hl : g.Live p) :
    g.Answers id (p.textUpTo g.first ends) (p'.textUpTo g.second ends) := by
  obtain ⟨n, hn⟩ : ∃ n, p.rest.length = n := ⟨_, rfl⟩
  induction n using Nat.strongRecOn generalizing p p' with
  | ind n ih =>
    rcases rest_cases h hl with ⟨hr, -, hr'⟩ | ⟨c, rest, hr, hr'⟩
    · rw [Place.textUpTo_of_nil hr, Place.textUpTo_of_nil hr']
      exact .ok (.refl _ _) fun _ => h
    · rw [Place.textUpTo_of_cons hr, Place.textUpTo_of_cons hr']
      split
      · exact .ok (.refl _ _) fun _ => h
      · refine .afterPiece (piece_paired h hl) (fun piece q hq => ?_) fun piece q q' hq live places => ?_
        · exact (Place.moves_textUpTo ends).ahead g.first q
        · have shorter : q.rest.length < n := by
            have taken := Place.piece_rest (s := g.first) (p := p) (by rw [hr]; exact List.cons_ne_nil c rest)
            rw [hq] at taken
            exact hn ▸ taken
          exact (ih _ shorter places live rfl).map fun a a' ha => by rw [ha.eq]; exact .refl _ _

theorem goesOn_paired (h : g.Places p p') (hl : g.Live p) : p'.goesOn g.second = p.goesOn g.first := by
  unfold Place.goesOn
  rcases rest_cases h hl with ⟨hr, -, hr'⟩ | ⟨c, rest, hr, hr'⟩
  · rw [hr, hr']
  · rw [hr, hr']
    dsimp only
    by_cases hc : c = '\\'
    · rcases g.pair_modes with hm | hm
      · rw [if_pos hc, if_pos hc, hm.1, comes_eq h hl (by decide), comes_eq h hl (by decide)]
      · exact absurd (by rw [hr, hc]; exact List.mem_cons_self) (h.unescaped hm)
    · rw [if_neg hc, if_neg hc]

theorem spelling_paired (h : g.Places p p') (hl : g.Live p) :
    g.Answers id (p.spelling g.first) (p'.spelling g.second) := by
  obtain ⟨n, hn⟩ : ∃ n, p.rest.length = n := ⟨_, rfl⟩
  induction n using Nat.strongRecOn generalizing p p' with
  | ind n ih =>
    rw [Place.spelling_eq, Place.spelling_eq g.second, goesOn_paired h hl]
    split
    · next hg =>
      refine .afterPiece (piece_paired h hl) (fun piece q hq => ?_) fun piece q q' hq live places => ?_
      · exact Place.ahead_spelling g.first q
      · have shorter : q.rest.length < n := by
          have taken := Place.piece_rest (s := g.first) (Place.rest_ne_nil_of_goesOn hg)
          rw [hq] at taken
          exact hn ▸ taken
        exact (ih _ shorter places live rfl).map fun a a' ha => by rw [ha.eq]; exact .refl _ _
    · exact .ok (.refl _ _) fun _ => h

theorem identifier_paired (h : g.Places p p') (hl : g.Live p) :
    g.Answers id (p.identifier g.first) (p'.identifier g.second) := by
  unfold Place.identifier
  rw [atEnd_eq h hl, goesOn_paired h hl]
  split
  · exact .fail .ending h
  · split
    · exact spelling_paired h hl
    · exact .fail .token h

/-- What a scan of selectors yields: their text, and the comments in it. -/
def selectorLook (t : List Char × List Comment) : List Char × List Comment := (t.1, Comment.bareAll true t.2)

/-- The texts of selectors are the same in both readings where fewer than `n` characters are left. -/
def SelectorsPaired (g : Pairing) (n : Nat) : Prop :=
  ∀ (quote : Option Char) (depth : Nat) {q q' : Place}, q.rest.length < n → g.Places q q' → g.Live q →
    g.Answers selectorLook (q.selectorText g.first quote depth) (q'.selectorText g.second quote depth)

theorem selectorMore_paired {n : Nat} (ih : g.SelectorsPaired n) (taken : List Char) {passed passed' : List Comment}
    (hp : g.Alike (Comment.bareAll true) passed passed') (quote : Option Char) (depth : Nat)
    (hn : p.rest.length < n) (places : g.Live p → g.Places p p') :
    g.Answers selectorLook (p.selectorMore g.first taken passed quote depth)
      (p'.selectorMore g.second taken passed' quote depth) := by
  by_cases live : g.Live p
  · refine (ih quote depth hn (places live) live).map fun a a' ha => ⟨fun he => ?_, ?_⟩
    · rw [ha.whole he, hp.whole he]
    · have more := ha.seen
      have before := hp.seen
      simp only [selectorLook, Prod.mk.injEq, Comment.bareAll, if_true] at more before ⊢
      rw [List.map_append, List.map_append, more.1, more.2, before]
      exact ⟨rfl, rfl⟩
  · exact .of_not_live fun ht => live (ht.before (Place.ahead_selectorText g.first quote depth p))

/-- Where no comment begins, the text of selectors ends or goes on with a character or two. -/
theorem selectorText_paired_of_absent (ih : g.SelectorsPaired p.rest.length) {quote : Option Char} (depth : Nat)
    (h : g.Places p p') (hl : g.Live p)
    (absent : (if quote.isNone then p.opening g.first.width else .absent) = .absent)
    (absent' : (if quote.isNone then p'.opening g.second.width else .absent) = .absent) :
    g.Answers selectorLook (p.selectorText g.first quote depth) (p'.selectorText g.second quote depth) := by
  rw [Place.selectorText_eq, absent, Place.selectorText_eq g.second, absent']
  dsimp only
  rcases rest_cases h hl with ⟨hr, -, hr'⟩ | ⟨c, rest, hr, hr'⟩
  · rw [hr, hr']
    exact .fail .ending h
  rw [hr, hr']
  dsimp only
  split
  · split
    · exact .fail .token h
    · exact .ok (.refl _ _) fun _ => h
  split
  · exact .fail .token h
  split
  · next hc =>
    have hm : g.more = [] := by
      rcases g.pair_modes with hm | hm
      · exact hm.2
      · exact absurd (by rw [hr, hc]; exact List.mem_cons_self) (h.unescaped hm)
    rw [hm, List.append_nil]
    cases rest with
    | nil => exact .fail .ending h
    | cons d tail =>
      have two : (p.forward g.first.width 2).rest.length < p.rest.length := by
        simp only [Place.forward_rest, hr, List.length_drop, List.length_cons]
        omega
      exact selectorMore_paired ih _ (.refl _ _) quote depth two fun _ => h.forward (.inl hm)
  split
  · exact .fail .token h
  · have one : (p.next g.first.width).rest.length < p.rest.length := by simp [hr]
    have next := h.next (.inr (by rw [hr]; exact List.cons_ne_nil c rest))
    exact selectorMore_paired ih _ (.refl _ _) _ _ one fun _ => next

theorem selectorText_paired (quote : Option Char) (depth : Nat) (h : g.Places p p') (hl : g.Live p) :
    g.Answers selectorLook (p.selectorText g.first quote depth) (p'.selectorText g.second quote depth) := by
  obtain ⟨n, hn⟩ : ∃ n, p.rest.length = n := ⟨_, rfl⟩
  induction n using Nat.strongRecOn generalizing p p' quote depth with
  | ind n ih =>
    subst hn
    have paired : g.SelectorsPaired p.rest.length := fun quote depth _ _ hq places live =>
      ih _ hq quote depth places live rfl
    have opened : g.Opened (if quote.isNone then p.opening g.first.width else .absent)
        (if quote.isNone then p'.opening g.second.width else .absent) := by
      cases quote with
      | some _ => exact .absent
      | none => exact opening_paired h hl
    cases ho : if quote.isNone then p.opening g.first.width else .absent with
    | absent =>
      rw [ho] at opened
      exact selectorText_paired_of_absent paired depth h hl ho opened.of_absent
    | unclosed =>
      rw [ho] at opened
      rw [Place.selectorText_eq, ho]
      rcases g.pair_modes with hm | hm
      · rw [Place.selectorText_eq g.second, opened.of_unclosed hm.2]
        exact .fail .ending (h.toEnd hm.2)
      · exact .inl ⟨hm, rfl⟩
    | whole c q =>
      rw [ho] at opened
      obtain ⟨c', q', ho', alike, places⟩ := opened.of_whole
      have shorter : q.rest.length < p.rest.length := by
        cases quote with
        | some _ => cases ho
        | none => exact Place.opening_rest ho
      rw [Place.selectorText_eq, ho, Place.selectorText_eq g.second, ho']
      refine selectorMore_paired paired [] ⟨fun he => by rw [alike.whole he], ?_⟩ quote depth shorter fun _ => places
      simp only [Comment.bareAll, if_true, List.map_cons, alike.seen, List.map_nil]

/-- A search yields the same in both readings. One that leaves no brace to come either goes on nowhere, or fails in a
way that ends strict reading. -/
theorem upToStop_paired (stops : List Char) (stopAt : Read.StopAt) (orEnd : Bool) (h : g.Places p p')
    (hl : g.Live p) :
    g.Answers id (Read.upToStop stops stopAt orEnd g.first p) (Read.upToStop stops stopAt orEnd g.second p') := by
  have ahead := Place.ahead_next g.first.width (p.upTo g.first.width stops).place
  unfold Read.upToStop
  dsimp only
  by_cases live : g.Live (p.upTo g.first.width stops).place
  · obtain ⟨text, places, halt⟩ := upTo_paired h hl stops live
    have next := places.next (live.imp_right List.ne_nil_of_mem)
    have one : (p'.upTo g.second.width stops).place.rest.take 1 = (p.upTo g.first.width stops).place.rest.take 1 := by
      rcases rest_cases places live with ⟨hr, -, hr'⟩ | ⟨c, rest, hr, hr'⟩
      · rw [hr, hr']
      · rw [hr, hr']
        rfl
    rw [halt, text, one]
    split
    · split
      · exact .ok (.refl _ _) fun _ => places
      · exact .ok (.refl _ _) fun _ => next
      · exact .ok (.refl _ _) fun _ => next
    · split
      · exact .ok (.refl _ _) fun _ => places
      · exact .fail .ending h
    · exact .fail .ending places
  · split
    · split
      · exact .of_not_live live
      · exact .of_not_live fun hn => live (hn.before ahead)
      · exact .of_not_live fun hn => live (hn.before ahead)
    · split
      · exact .of_not_live live
      · exact .inl ⟨loose_of_not_live live, rfl⟩
    · exact .of_not_live live

end Pairing

end Stylesheet
