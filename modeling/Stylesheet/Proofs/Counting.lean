import Stylesheet.Proofs.Bare
import Stylesheet.Proofs.Scanning

namespace Stylesheet

theorem Place.forward_passed (width : Char → Nat) (n : Nat) (p : Place) :
    (p.forward width n).passed = (p.rest.take n).reverse ++ p.passed := by
  induction n generalizing p with
  | zero => simp [forward]
  | succ n ih =>
    rw [forward, ih, next_rest]
    unfold next
    cases hr : p.rest with
    | nil => simp
    | cons c rest =>
      dsimp only
      split
      · simp
      · simp

/-- Readings of one text in one mode, each with its own count of lines and columns from the origin on. -/
structure Counting where
  first : Settings
  second : Settings
  mode : second.lenient = first.lenient
  origin : Place
  origin' : Place
  passed : origin'.passed = origin.passed
  rest : origin'.rest = origin.rest

namespace Counting

variable {α β γ δ : Type} {g : Counting} {p p' : Place}

/-- One point of the text as each of the readings counts it. -/
def Point (g : Counting) (p p' : Place) : Prop :=
  ∃ n, p = g.origin.forward g.first.width n ∧ p' = g.origin'.forward g.second.width n

namespace Point

theorem origin (g : Counting) : g.Point g.origin g.origin' := ⟨0, rfl, rfl⟩

theorem rest (h : g.Point p p') : p'.rest = p.rest := by
  obtain ⟨n, rfl, rfl⟩ := h
  simp [g.rest]

theorem passed (h : g.Point p p') : p'.passed = p.passed := by
  obtain ⟨n, rfl, rfl⟩ := h
  simp [Place.forward_passed, g.rest, g.passed]

theorem forward (h : g.Point p p') (n : Nat) : g.Point (p.forward g.first.width n) (p'.forward g.second.width n) := by
  obtain ⟨m, rfl, rfl⟩ := h
  exact ⟨m + n, (Place.forward_add _ m n _).symm, (Place.forward_add _ m n _).symm⟩

theorem next (h : g.Point p p') : g.Point (p.next g.first.width) (p'.next g.second.width) := h.forward 1

theorem toEnd (h : g.Point p p') : g.Point (p.toEnd g.first.width) (p'.toEnd g.second.width) := by
  have ends := h.forward p.rest.length
  unfold Place.toEnd
  rw [h.rest]
  exact ends

theorem offset (h : g.Point p p') : p'.offset = p.offset := by rw [Place.offset, Place.offset, h.passed]

theorem atEnd (h : g.Point p p') : p'.atEnd = p.atEnd := by rw [Place.atEnd, Place.atEnd, h.rest]

theorem comes (h : g.Point p p') (l : String) : p'.comes l = p.comes l := by rw [Place.comes, Place.comes, h.rest]

theorem comesAnyCase (h : g.Point p p') (l : String) : p'.comesAnyCase l = p.comesAnyCase l := by
  rw [Place.comesAnyCase, Place.comesAnyCase, h.rest]

theorem peek (h : g.Point p p') (n : Nat) (i : Int) : p'.peek n i = p.peek n i := by
  unfold Place.peek
  rw [h.rest, h.passed]

theorem goesOn (h : g.Point p p') : p'.goesOn g.second = p.goesOn g.first := by
  unfold Place.goesOn
  rw [h.rest, g.mode]
  simp only [h.comes]

end Point

/-- Faults of one kind with the same texts at one point. -/
inductive Named (g : Counting) : Fault → Fault → Prop
  | token {expected found : String} {p p' : Place} (point : g.Point p p') :
    Named g (.unexpectedToken expected found p.location) (.unexpectedToken expected found p'.location)
  | ending {expected : String} {p p' : Place} (point : g.Point p p') :
    Named g (.unexpectedEnd expected p.location) (.unexpectedEnd expected p'.location)
  | misplaced {reason : String} {p p' : Place} (point : g.Point p p') :
    Named g (.misplaced reason p.location) (.misplaced reason p'.location)

namespace Named

variable {e e' : Fault}

theorem isEnd (h : g.Named e e') : e'.isEnd = e.isEnd := by
  cases h <;> rfl

theorem recoverable (h : g.Named e e') : e'.recoverable = e.recoverable := by
  cases h <;> rfl

theorem unexpected (h : g.Point p p') (expected : String) (shown : Nat) :
    g.Named (Read.unexpected expected p shown) (Read.unexpected expected p' shown) := by
  have found := h.peek shown 0
  rw [Read.unexpected, Read.unexpected, found]
  exact .token h

end Named

/-- What a scan comes to in both readings: results that look alike, or the same fault, at one point. -/
inductive Answers (g : Counting) (look : α → β) : Except Fault α × Place → Except Fault α × Place → Prop
  | ok {a a' : α} {q q' : Place} (alike : look a' = look a) (point : g.Point q q') :
    Answers g look (.ok a, q) (.ok a', q')
  | fault {e e' : Fault} {q q' : Place} (named : g.Named e e') (point : g.Point q q') :
    Answers g look (.error e, q) (.error e', q')

namespace Answers

theorem map {look : α → β} {view : γ → δ} {f f' : α → γ} {o o' : Except Fault α × Place} (h : g.Answers look o o')
    (hf : ∀ a a', look a' = look a → view (f' a') = view (f a)) :
    g.Answers view (o.1.map f, o.2) (o'.1.map f', o'.2) := by
  cases h with
  | ok alike point => exact .ok (hf _ _ alike) point
  | fault named point => exact .fault named point

/-- A scan that goes on behind a piece. -/
theorem afterPiece {look : α → β} {k k' : Piece → Place → Except Fault α × Place}
    (h : g.Answers id (p.piece g.first) (p'.piece g.second))
    (hk : ∀ piece q q', p.piece g.first = (.ok piece, q) → g.Point q q' → g.Answers look (k piece q) (k' piece q')) :
    g.Answers look
      (match p.piece g.first with
        | (.ok piece, q) => k piece q
        | (.error e, q) => (.error e, q))
      (match p'.piece g.second with
        | (.ok piece, q) => k' piece q
        | (.error e, q) => (.error e, q)) := by
  generalize p.piece g.first = o at h hk
  generalize p'.piece g.second = o' at h
  cases h with
  | @ok piece piece' q q' alike point =>
    obtain rfl : piece' = piece := alike
    exact hk piece' q q' rfl point
  | fault named point => exact .fault named point

end Answers

/-- What begins at a point of each reading. -/
inductive Opened (g : Counting) : Place.Opening → Place.Opening → Prop
  | absent : Opened g .absent .absent
  | unclosed : Opened g .unclosed .unclosed
  | whole {c c' : Comment} {q q' : Place} (text : c'.text = c.text) (point : g.Point q q') :
    Opened g (.whole c q) (.whole c' q')

theorem opening_alike (h : g.Point p p') : g.Opened (p.opening g.first.width) (p'.opening g.second.width) := by
  unfold Place.opening
  rw [h.rest]
  split
  · split
    · exact .unclosed
    · exact .whole rfl (h.forward _)
  · exact .absent

theorem pastBlanks_alike (h : g.Point p p') :
    g.Point (p.pastBlanks g.first.width) (p'.pastBlanks g.second.width) := by
  unfold Place.pastBlanks
  rw [h.rest]
  exact h.forward _

/-- Gaps are the same in both readings. -/
theorem pastGap_alike (h : g.Point p p') :
    Comment.bareAll true (p'.pastGap g.second.width).1 = Comment.bareAll true (p.pastGap g.first.width).1 ∧
      g.Point (p.pastGap g.first.width).2.1 (p'.pastGap g.second.width).2.1 ∧
      (p'.pastGap g.second.width).2.2 = (p.pastGap g.first.width).2.2 := by
  obtain ⟨n, hn⟩ : ∃ n, p.rest.length = n := ⟨_, rfl⟩
  induction n using Nat.strongRecOn generalizing p p' with
  | ind n ih =>
    have blanks := pastBlanks_alike h
    have opened := opening_alike blanks
    rw [Place.pastGap_eq g.first.width p, Place.pastGap_eq g.second.width p']
    generalize ho : (p.pastBlanks g.first.width).opening g.first.width = o at opened
    generalize (p'.pastBlanks g.second.width).opening g.second.width = o' at opened
    cases opened with
    | absent => exact ⟨rfl, blanks, rfl⟩
    | unclosed => exact ⟨rfl, blanks, rfl⟩
    | @whole c c' q q' text point =>
      have shorter : q.rest.length < n :=
        hn ▸ Nat.lt_of_lt_of_le (Place.opening_rest ho) (p.pastBlanks_rest_length g.first.width)
      obtain ⟨texts, reached, flag⟩ := ih q.rest.length shorter point rfl
      refine ⟨?_, reached, flag⟩
      simp only [Comment.bareAll, if_true, List.map_cons, text] at texts ⊢
      rw [texts]

/-- A search stops at the same character in both readings. -/
theorem upTo_alike (h : g.Point p p') (stops : List Char) :
    (p'.upTo g.second.width stops).text = (p.upTo g.first.width stops).text ∧
      g.Point (p.upTo g.first.width stops).place (p'.upTo g.second.width stops).place ∧
      (p'.upTo g.second.width stops).halt = (p.upTo g.first.width stops).halt := by
  obtain ⟨n, hn⟩ : ∃ n, p.rest.length = n := ⟨_, rfl⟩
  induction n using Nat.strongRecOn generalizing p p' with
  | ind n ih =>
    cases hr : p.rest with
    | nil =>
      have hr' : p'.rest = [] := h.rest.trans hr
      rw [Place.upTo_of_nil hr, Place.upTo_of_nil hr']
      exact ⟨rfl, h, rfl⟩
    | cons c rest =>
      have hr' : p'.rest = c :: rest := h.rest.trans hr
      rw [Place.upTo_of_cons hr, Place.upTo_of_cons hr']
      by_cases hc : c ∈ stops
      · rw [if_pos hc, if_pos hc]
        exact ⟨rfl, h, rfl⟩
      · rw [if_neg hc, if_neg hc]
        have one : (p.next g.first.width).rest.length < n := by simp [← hn, hr]
        have opened := opening_alike h.next
        generalize ho : (p.next g.first.width).opening g.first.width = o at opened
        generalize (p'.next g.second.width).opening g.second.width = o' at opened
        cases opened with
        | absent =>
          obtain ⟨text, reached, halt⟩ := ih _ one h.next rfl
          exact ⟨congrArg (c :: ·) text, reached, halt⟩
        | unclosed => exact ⟨rfl, h.next.toEnd, rfl⟩
        | whole text point =>
          have shorter := Nat.lt_trans (Place.opening_rest ho) one
          obtain ⟨text, reached, halt⟩ := ih _ shorter point rfl
          exact ⟨congrArg (c :: ·) text, reached, halt⟩

theorem upToStop_alike (stops : List Char) (stopAt : Read.StopAt) (orEnd : Bool) (h : g.Point p p') :
    g.Answers id (Read.upToStop stops stopAt orEnd g.first p) (Read.upToStop stops stopAt orEnd g.second p') := by
  obtain ⟨text, reached, halt⟩ := upTo_alike h stops
  unfold Read.upToStop
  dsimp only
  rw [halt, text, reached.rest]
  split
  · split
    · exact .ok rfl reached
    · exact .ok rfl reached.next
    · exact .ok rfl reached.next
  · split
    · exact .ok rfl reached
    · exact .fault (.ending h) h
  · exact .fault (.ending reached) reached

theorem escape_alike (h : g.Point p p') : g.Answers id (p.escape g.first.width) (p'.escape g.second.width) := by
  unfold Place.escape
  dsimp only
  rw [h.next.rest]
  cases hr : (p.next g.first.width).rest with
  | nil => exact .fault (.ending h.next) h.next
  | cons c rest =>
    dsimp only
    split
    · exact .ok rfl h.next
    · split
      · have digits := h.next.forward (((c :: rest).take 6).takeWhile isHexDigit).length
        refine .ok rfl ?_
        split
        · rw [digits.rest]
          exact digits.forward _
        · exact digits
      · exact .ok rfl h.next.next

theorem piece_alike (h : g.Point p p') : g.Answers id (p.piece g.first) (p'.piece g.second) := by
  unfold Place.piece
  rw [h.rest]
  split
  · exact .fault (.ending h) h
  · split
    · exact escape_alike h
    · exact .ok rfl h.next

theorem textUpTo_alike (ends : Char → Bool) (h : g.Point p p') :
    g.Answers id (p.textUpTo g.first ends) (p'.textUpTo g.second ends) := by
  obtain ⟨n, hn⟩ : ∃ n, p.rest.length = n := ⟨_, rfl⟩
  induction n using Nat.strongRecOn generalizing p p' with
  | ind n ih =>
    cases hr : p.rest with
    | nil =>
      have hr' : p'.rest = [] := h.rest.trans hr
      rw [Place.textUpTo_of_nil hr, Place.textUpTo_of_nil hr']
      exact .ok rfl h
    | cons c rest =>
      have hr' : p'.rest = c :: rest := h.rest.trans hr
      rw [Place.textUpTo_of_cons hr, Place.textUpTo_of_cons hr']
      split
      · exact .ok rfl h
      · refine (piece_alike h).afterPiece fun piece q q' hq point => ?_
        have taken := Place.piece_rest (s := g.first) (p := p) (by simp [hr])
        rw [hq, hn] at taken
        exact (ih _ taken point rfl).map fun a a' ha => congrArg (piece.toChars ++ ·) ha

theorem spelling_alike (h : g.Point p p') : g.Answers id (p.spelling g.first) (p'.spelling g.second) := by
  obtain ⟨n, hn⟩ : ∃ n, p.rest.length = n := ⟨_, rfl⟩
  induction n using Nat.strongRecOn generalizing p p' with
  | ind n ih =>
    rw [Place.spelling_eq, Place.spelling_eq g.second, h.goesOn]
    split
    · next hg =>
      refine (piece_alike h).afterPiece fun piece q q' hq point => ?_
      have taken := Place.piece_rest (s := g.first) (Place.rest_ne_nil_of_goesOn hg)
      rw [hq, hn] at taken
      exact (ih _ taken point rfl).map fun a a' ha => congrArg (piece.spell ++ ·) ha
    · exact .ok rfl h

theorem identifier_alike (h : g.Point p p') : g.Answers id (p.identifier g.first) (p'.identifier g.second) := by
  have found := h.peek 5 0
  unfold Place.identifier
  rw [h.atEnd, h.goesOn, found]
  split
  · exact .fault (.ending h) h
  · split
    · exact spelling_alike h
    · exact .fault (.token h) h

/-- What a scan of selectors yields: their text, and the comments in it. -/
def selectorLook (t : List Char × List Comment) : List Char × List Comment := (t.1, Comment.bareAll true t.2)

theorem selectorMore_alike {taken : List Char} {passed passed' : List Comment} {quote : Option Char} {depth : Nat}
    (hp : Comment.bareAll true passed' = Comment.bareAll true passed)
    (h : g.Answers selectorLook (p.selectorText g.first quote depth) (p'.selectorText g.second quote depth)) :
    g.Answers selectorLook (p.selectorMore g.first taken passed quote depth)
      (p'.selectorMore g.second taken passed' quote depth) := by
  refine h.map fun t t' ht => ?_
  simp only [selectorLook, Prod.mk.injEq] at ht ⊢
  rw [Comment.bareAll_append, Comment.bareAll_append, hp, ht.1, ht.2]
  exact ⟨rfl, rfl⟩

theorem selectorText_alike (quote : Option Char) (depth : Nat) (h : g.Point p p') :
    g.Answers selectorLook (p.selectorText g.first quote depth) (p'.selectorText g.second quote depth) := by
  obtain ⟨n, hn⟩ : ∃ n, p.rest.length = n := ⟨_, rfl⟩
  induction n using Nat.strongRecOn generalizing p p' quote depth with
  | ind n ih =>
    subst hn
    have opened : g.Opened (if quote.isNone then p.opening g.first.width else .absent)
        (if quote.isNone then p'.opening g.second.width else .absent) := by
      split
      · exact opening_alike h
      · exact .absent
    rw [Place.selectorText_eq, Place.selectorText_eq g.second]
    generalize ho : (if quote.isNone then p.opening g.first.width else .absent) = o at opened
    generalize (if quote.isNone then p'.opening g.second.width else .absent) = o' at opened
    cases opened with
    | unclosed => exact .fault (.ending h.toEnd) h.toEnd
    | @whole c c' q q' text point =>
      have shorter : q.rest.length < p.rest.length := by
        split at ho
        · exact Place.opening_rest ho
        · cases ho
      refine selectorMore_alike ?_ (ih _ shorter quote depth point rfl)
      simp only [Comment.bareAll, if_true, List.map_cons, text, List.map_nil]
    | absent =>
      dsimp only
      rw [h.rest]
      cases hr : p.rest with
      | nil => exact .fault (.ending h) h
      | cons c rest =>
        have one : (p.next g.first.width).rest.length < p.rest.length := by simp [hr]
        dsimp only
        split
        · split
          · exact .fault (.token h) h
          · exact .ok rfl h
        split
        · exact .fault (.token h) h
        split
        · cases rest with
          | nil => exact .fault (.ending h) h
          | cons d tail =>
            have two : (p.forward g.first.width 2).rest.length < p.rest.length := by
              simp only [Place.forward_rest, hr, List.length_drop, List.length_cons]
              omega
            exact selectorMore_alike rfl (ih _ two quote depth (h.forward 2) rfl)
        split
        · exact .fault (.token h) h
        · exact selectorMore_alike rfl (ih _ one _ _ h.next rfl)

end Counting

end Stylesheet
