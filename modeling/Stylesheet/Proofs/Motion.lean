import Stylesheet.Proofs.Scanning

namespace Stylesheet

/-- A fault of reading, which names a location. Only writing has other faults. -/
def Fault.located (e : Fault) : Bool := e.location?.isSome

@[simp] theorem Fault.located_unexpectedToken (a b : String) (l : Location) :
    (Fault.unexpectedToken a b l).located = true := rfl

@[simp] theorem Fault.located_unexpectedEnd (a : String) (l : Location) :
    (Fault.unexpectedEnd a l).located = true := rfl

@[simp] theorem Fault.located_misplaced (a : String) (l : Location) : (Fault.misplaced a l).located = true := rfl

/-- A located fault either ends the reading or leaves something to go on with. -/
theorem Fault.isEnd_or_recoverable {e : Fault} (h : e.located = true) : e.isEnd = true ∨ e.recoverable = true := by
  cases e with
  | unexpectedToken => exact .inr rfl
  | unexpectedEnd => exact .inl rfl
  | misplaced => exact .inr rfl
  | unwritable => cases h

namespace Place

variable {width : Char → Nat} {p q r : Place}

/-- `q` is `p` or lies behind it in the same text. -/
def Ahead (width : Char → Nat) (p q : Place) : Prop := ∃ n, q = p.forward width n

theorem Ahead.refl (width : Char → Nat) (p : Place) : Ahead width p p := ⟨0, rfl⟩

theorem Ahead.trans (h : Ahead width p q) (k : Ahead width q r) : Ahead width p r := by
  obtain ⟨m, rfl⟩ := h
  obtain ⟨n, rfl⟩ := k
  exact ⟨m + n, (forward_add width m n p).symm⟩

theorem ahead_forward (width : Char → Nat) (n : Nat) (p : Place) : Ahead width p (p.forward width n) := ⟨n, rfl⟩

theorem ahead_next (width : Char → Nat) (p : Place) : Ahead width p (p.next width) := ⟨1, rfl⟩

theorem Ahead.text (h : Ahead width p q) : q.text = p.text := by
  obtain ⟨n, rfl⟩ := h
  exact forward_text width n p

theorem Ahead.rest_suffix (h : Ahead width p q) : q.rest <:+ p.rest := by
  obtain ⟨n, rfl⟩ := h
  rw [forward_rest]
  exact List.drop_suffix n p.rest

theorem Ahead.rest_length_le (h : Ahead width p q) : q.rest.length ≤ p.rest.length := h.rest_suffix.length_le

theorem next_of_rest_nil (h : p.rest = []) : p.next width = p := by
  unfold next
  rw [h]

theorem offset_next_of_cons {c : Char} {rest : List Char} (h : p.rest = c :: rest) :
    (p.next width).offset = p.offset + 1 := by
  unfold next offset
  rw [h]
  dsimp only
  split <;> rfl

theorem offset_forward_le (width : Char → Nat) (n : Nat) (p : Place) : p.offset ≤ (p.forward width n).offset := by
  induction n generalizing p with
  | zero => exact Nat.le_refl _
  | succ n ih =>
    refine Nat.le_trans ?_ (ih (p.next width))
    cases h : p.rest with
    | nil => exact Nat.le_of_eq (congrArg offset (next_of_rest_nil h).symm)
    | cons c rest => rw [offset_next_of_cons h]; exact Nat.le_succ _

/-- Nothing lies behind the end of the text. -/
theorem forward_of_rest_nil (h : p.rest = []) (n : Nat) : p.forward width n = p := by
  induction n with
  | zero => rfl
  | succ n ih => rw [forward, next_of_rest_nil h, ih]

/-- A place is known by the text that was passed on the way to it. -/
theorem Ahead.eq_forward (h : Ahead width p q) {t : List Char} (ht : p.rest = t ++ q.rest) :
    q = p.forward width t.length := by
  obtain ⟨n, rfl⟩ := h
  have length := congrArg List.length ht
  rw [forward_rest, List.length_append, List.length_drop] at length
  rcases Nat.le_total n p.rest.length with inside | behind
  · have passed : n = t.length := by omega
    rw [passed]
  · have ended : (p.forward width t.length).rest = [] := by
      rw [forward_rest, List.drop_eq_nil_iff]
      omega
    obtain ⟨k, rfl⟩ : ∃ k, n = t.length + k := ⟨n - t.length, by omega⟩
    rw [forward_add, forward_of_rest_nil ended]

/-- A move that passes no character goes nowhere. -/
theorem Ahead.eq_of_offset (h : Ahead width p q) (ho : q.offset = p.offset) : q = p := by
  obtain ⟨n, rfl⟩ := h
  cases n with
  | zero => rfl
  | succ n =>
    cases hr : p.rest with
    | nil => exact forward_of_rest_nil hr _
    | cons c rest =>
      have hle := offset_forward_le width n (p.next width)
      rw [offset_next_of_cons hr] at hle
      rw [forward] at ho
      omega

theorem ahead_toEnd (width : Char → Nat) (p : Place) : Ahead width p (p.toEnd width) := ⟨_, rfl⟩

theorem ahead_pastBlanks (width : Char → Nat) (p : Place) : Ahead width p (p.pastBlanks width) := ⟨_, rfl⟩

theorem ahead_of_opening {c : Comment} (h : p.opening width = .whole c q) : Ahead width p q := by
  unfold opening at h
  split at h
  · split at h
    · cases h
    · cases h
      exact ahead_forward width _ p
  · cases h

theorem ahead_pastGap (width : Char → Nat) (p : Place) : Ahead width p (p.pastGap width).2.1 := by
  fun_induction pastGap width p with
  | case1 p h => exact ahead_pastBlanks width p
  | case2 p h => exact ahead_pastBlanks width p
  | case3 p c q h cs r unclosed hq ih =>
    rw [hq] at ih
    exact ((ahead_pastBlanks width p).trans (ahead_of_opening h)).trans ih

theorem ahead_upTo (width : Char → Nat) (stops : List Char) (p : Place) :
    Ahead width p (p.upTo width stops).place := by
  fun_induction upTo width stops p with
  | case1 p h => exact .refl width p
  | case2 p c rest hr hc => exact .refl width p
  | case3 p c rest hr hc h run ih => exact (ahead_next width p).trans ih
  | case4 p c rest hr hc h => exact (ahead_next width p).trans (ahead_toEnd width _)
  | case5 p c rest hr hc k q h run ih => exact ((ahead_next width p).trans (ahead_of_opening h)).trans ih

theorem ahead_escape (width : Char → Nat) (p : Place) : Ahead width p (p.escape width).2 := by
  have first := ahead_next width p
  unfold escape
  dsimp only
  split
  · exact first
  · split
    · exact first
    · split
      · have digits := first.trans (ahead_forward width ((((p.next width).rest.take 6).takeWhile isHexDigit).length) _)
        split
        · exact digits.trans (ahead_forward width _ _)
        · exact digits
      · exact first.trans (ahead_next width _)

theorem located_escape {width : Char → Nat} {p : Place} {e : Fault} (h : (p.escape width).1 = .error e) :
    e.located = true := by
  unfold escape at h
  dsimp only at h
  split at h
  · cases h
    rfl
  · split at h
    · cases h
    · split at h
      · cases h
      · cases h

theorem ahead_piece (s : Settings) (p : Place) : Ahead s.width p (p.piece s).2 := by
  unfold piece
  split
  · exact .refl s.width p
  · split
    · exact ahead_escape s.width p
    · exact ahead_next s.width p

theorem located_piece {s : Settings} {p : Place} {e : Fault} (h : (p.piece s).1 = .error e) : e.located = true := by
  unfold piece at h
  split at h
  · cases h
    rfl
  · split at h
    · exact located_escape h
    · cases h

theorem map_eq_error {ε α β : Type} {f : α → β} {x : Except ε α} {e : ε} (h : x.map f = .error e) :
    x = .error e := by
  cases x with
  | error d => simpa [Except.map] using h
  | ok a => cases h

theorem ahead_spelling (s : Settings) (p : Place) : Ahead s.width p (p.spelling s).2 := by
  fun_induction spelling s p with
  | case1 p h piece q hq more r hr ih =>
    have hp := ahead_piece s p
    rw [hr] at ih
    rw [hq] at hp
    exact hp.trans ih
  | case2 p h e q hq =>
    have hp := ahead_piece s p
    rwa [hq] at hp
  | case3 p h => exact .refl s.width p

theorem located_spelling {s : Settings} {p : Place} {e : Fault} (h : (p.spelling s).1 = .error e) :
    e.located = true := by
  fun_induction spelling s p with
  | case1 p hg piece q hq more r hr ih =>
    rw [hr] at ih
    exact ih (map_eq_error h)
  | case2 p hg d q hq =>
    cases h
    exact located_piece (by rw [hq])
  | case3 p hg => cases h

theorem ahead_identifier (s : Settings) (p : Place) : Ahead s.width p (p.identifier s).2 := by
  unfold identifier
  split
  · exact .refl s.width p
  · split
    · exact ahead_spelling s p
    · exact .refl s.width p

theorem located_identifier {s : Settings} {p : Place} {e : Fault} (h : (p.identifier s).1 = .error e) :
    e.located = true := by
  unfold identifier at h
  split at h
  · cases h
    rfl
  · split at h
    · exact located_spelling h
    · cases h
      rfl

/-- A move that only goes forward, fails at a location, and does not ask in which mode text is read. -/
structure Moves {α : Type} (f : Settings → Place → Except Fault α × Place) : Prop where
  ahead : ∀ s p, Ahead s.width p (f s p).2
  located : ∀ s p e, (f s p).1 = .error e → e.located = true
  mode : ∀ s b p, f { s with lenient := b } p = f s p

theorem moves_forward {α : Type} (a : α) (n : Place → Nat) :
    Moves fun s p => ((.ok a : Except Fault α), p.forward s.width (n p)) :=
  ⟨fun s p => ahead_forward s.width _ p, fun _ _ _ h => (by cases h), fun _ _ _ => rfl⟩

theorem piece_mode (s : Settings) (b : Bool) (p : Place) : p.piece { s with lenient := b } = p.piece s := rfl

theorem moves_textUpTo (ends : Char → Bool) : Moves fun s p => p.textUpTo s ends where
  ahead s p := by
    fun_induction textUpTo s ends p with
    | case1 p h => exact .refl s.width p
    | case2 p c rest hr hc => exact .refl s.width p
    | case3 p c rest hr hc piece q hq more r hm ih =>
      have hp := ahead_piece s p
      rw [hm] at ih
      rw [hq] at hp
      exact hp.trans ih
    | case4 p c rest hr hc e q hq =>
      have hp := ahead_piece s p
      rwa [hq] at hp
  located s p e h := by
    fun_induction textUpTo s ends p with
    | case1 p hr => cases h
    | case2 p c rest hr hc => cases h
    | case3 p c rest hr hc piece q hq more r hm ih =>
      rw [hm] at ih
      exact ih (map_eq_error h)
    | case4 p c rest hr hc d q hq =>
      cases h
      exact located_piece (by rw [hq])
  mode s b p := by
    fun_induction textUpTo s ends p with
    | case1 p hr => rw [textUpTo_of_nil hr]
    | case2 p c rest hr hc => rw [textUpTo_of_cons hr, if_pos hc]
    | case3 p c rest hr hc piece q hq more r hm ih =>
      rw [textUpTo_of_cons hr, if_neg hc, piece_mode, hq]
      dsimp only
      rw [ih, hm]
    | case4 p c rest hr hc e q hq => rw [textUpTo_of_cons hr, if_neg hc, piece_mode, hq]

theorem ahead_selectorText (s : Settings) (quote : Option Char) (depth : Nat) (p : Place) :
    Ahead s.width p (p.selectorText s quote depth).2 := by
  fun_induction selectorText s quote depth p with
  | case1 quote depth p ho => exact ahead_toEnd s.width p
  | case2 quote depth p c q ho more r hm ih =>
    rw [hm] at ih
    refine Ahead.trans ?_ ih
    split at ho
    · exact ahead_of_opening ho
    · cases ho
  | case3 quote depth p ho hr => exact .refl s.width p
  | case4 quote depth p ho c rest hr hc hd => exact .refl s.width p
  | case5 quote depth p ho c rest hr hc hd => exact .refl s.width p
  | case6 quote depth p ho c rest hr hc hd => exact .refl s.width p
  | case7 quote depth p ho hc hd hr hr' => exact .refl s.width p
  | case8 quote depth p ho d tail more r hm hc hd hr hr' ih =>
    rw [hm] at ih
    exact (ahead_forward s.width 2 p).trans ih
  | case9 quote depth p ho c rest hr hc hd hb hp => exact .refl s.width p
  | case10 quote depth p ho c rest hr hc hd hb hp quote' depth' more r hm ih =>
    rw [hm] at ih
    exact (ahead_next s.width p).trans ih

theorem located_selectorText {s : Settings} {quote : Option Char} {depth : Nat} {p : Place} {e : Fault}
    (h : (p.selectorText s quote depth).1 = .error e) : e.located = true := by
  fun_induction selectorText s quote depth p with
  | case1 quote depth p ho => cases h; rfl
  | case2 quote depth p c q ho more r hm ih =>
    rw [hm] at ih
    exact ih (map_eq_error h)
  | case3 quote depth p ho hr => cases h; rfl
  | case4 quote depth p ho c rest hr hc hd => cases h; rfl
  | case5 quote depth p ho c rest hr hc hd => cases h
  | case6 quote depth p ho c rest hr hc hd => cases h; rfl
  | case7 quote depth p ho hc hd hr hr' => cases h; rfl
  | case8 quote depth p ho d tail more r hm hc hd hr hr' ih =>
    rw [hm] at ih
    exact ih (map_eq_error h)
  | case9 quote depth p ho c rest hr hc hd hb hp => cases h; rfl
  | case10 quote depth p ho c rest hr hc hd hb hp quote' depth' more r hm ih =>
    rw [hm] at ih
    exact ih (map_eq_error h)

theorem selectorText_mode (s : Settings) (b : Bool) (quote : Option Char) (depth : Nat) (p : Place) :
    p.selectorText { s with lenient := b } quote depth = p.selectorText s quote depth := by
  have width : ({ s with lenient := b } : Settings).width = s.width := rfl
  obtain ⟨n, hn⟩ : ∃ n, p.rest.length = n := ⟨_, rfl⟩
  induction n using Nat.strongRecOn generalizing p quote depth with
  | ind n ih =>
    have more (taken : List Char) (passed : List Comment) (quote' : Option Char) (depth' : Nat) (q : Place)
        (hq : q.rest.length < p.rest.length) :
        selectorMore { s with lenient := b } taken passed quote' depth' q =
          selectorMore s taken passed quote' depth' q := by
      simp only [selectorMore, ih q.rest.length (hn ▸ hq) quote' depth' q rfl]
    rw [selectorText_eq, selectorText_eq s, width]
    cases ho : (if quote.isNone then p.opening s.width else .absent) with
    | unclosed => rfl
    | whole c q =>
      split at ho
      · exact more [] [c] quote depth q (opening_rest ho)
      · cases ho
    | absent =>
      cases hr : p.rest with
      | nil => rfl
      | cons c rest =>
        have one : (p.next s.width).rest.length < p.rest.length := by simp [hr]
        dsimp only
        rw [more [c] [] _ _ _ one]
        cases rest with
        | nil => rfl
        | cons d tail =>
          have two : (p.forward s.width 2).rest.length < p.rest.length := by
            simp only [forward_rest, hr, List.length_drop, List.length_cons]
            omega
          dsimp only
          rw [more [c, d] [] _ _ _ two]

theorem moves_selectorText (quote : Option Char) (depth : Nat) : Moves fun s p => p.selectorText s quote depth :=
  ⟨fun s p => ahead_selectorText s quote depth p, fun _ _ _ h => located_selectorText h,
    fun s b p => selectorText_mode s b quote depth p⟩

end Place

end Stylesheet
