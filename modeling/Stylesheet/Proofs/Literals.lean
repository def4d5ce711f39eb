import Stylesheet.Proofs.Plain
import Stylesheet.Proofs.SteadyValue
import Stylesheet.Proofs.Takes

namespace Stylesheet

/-- The character of a code: the replacement character for zero, for surrogates and for what is past the last code. -/
def IsCode (n : Nat) (c : Char) : Prop :=
  if n = 0 ∨ (0xD800 ≤ n ∧ n ≤ 0xDFFF) ∨ 0x10FFFF < n then c = '\uFFFD' else c.toNat = n

instance (n : Nat) (c : Char) : Decidable (IsCode n c) :=
  inferInstanceAs (Decidable (if n = 0 ∨ (0xD800 ≤ n ∧ n ≤ 0xDFFF) ∨ 0x10FFFF < n then c = '\uFFFD' else c.toNat = n))

theorem IsCode.eq_ofCode {n : Nat} {c : Char} (h : IsCode n c) : c = ofCode n := by
  unfold IsCode at h
  unfold ofCode
  split at h
  · next noDigit =>
    rw [h, if_neg]
    simp only [Nat.isValidChar, Bool.and_eq_true, decide_eq_true_eq]
    omega
  · next known =>
    subst h
    rw [if_pos, Char.ofNat_toNat]
    simp only [Nat.isValidChar, Bool.and_eq_true, decide_eq_true_eq]
    omega

theorem isCode_ofCode (n : Nat) : IsCode n (ofCode n) := by
  unfold IsCode ofCode
  split
  · next noDigit =>
    rw [if_neg]
    simp only [Nat.isValidChar, Bool.and_eq_true, decide_eq_true_eq]
    omega
  · next known =>
    have valid : n.isValidChar := by
      unfold Nat.isValidChar
      omega
    rw [if_pos, Text.toNat_ofNat valid]
    simp only [Bool.and_eq_true, decide_eq_true_eq]
    omega

theorem toNat_of_isHexDigit {c : Char} (hc : isHexDigit c = true) :
    (0x30 ≤ c.toNat ∧ c.toNat ≤ 0x39) ∨ (0x61 ≤ c.toNat ∧ c.toNat ≤ 0x66) ∨ (0x41 ≤ c.toNat ∧ c.toNat ≤ 0x46) := by
  simp only [isHexDigit, Bool.or_eq_true, Bool.and_eq_true, decide_eq_true_eq, Char.isDigit_iff_toNat] at hc
  rcases hc with (hc | hc) | hc
  · exact .inl hc
  · exact .inr (.inl hc)
  · exact .inr (.inr hc)

theorem isHexDigit_of_isBlank {c : Char} (hc : Text.isBlank c = true) : isHexDigit c = false := by
  rw [Bool.eq_false_iff]
  intro digit
  have codes := toNat_of_isHexDigit digit
  simp only [Text.isBlank, Bool.or_eq_true, Bool.and_eq_true, decide_eq_true_eq, beq_iff_eq] at hc
  omega

/-- What belongs to a code behind its `n` digits, where `next` follows: one blank behind fewer than six digits, and a
carriage return takes its line feed along; or nothing, if no digit and no blank follows or if there are six digits. -/
inductive CodeEnds : Nat → List Char → Option Char → Prop
  | full {n : Nat} {next : Option Char} : n = 6 → CodeEnds n [] next
  | bare {n : Nat} {next : Option Char} : n < 6 →
    (∀ c ∈ next, isHexDigit c = false ∧ Text.isBlank c = false) → CodeEnds n [] next
  | blank {n : Nat} {c : Char} {next : Option Char} : n < 6 → Text.isBlank c = true →
    ¬ (c = '\r' ∧ next = some '\n') → CodeEnds n [c] next
  | pair {n : Nat} {next : Option Char} : n < 6 → CodeEnds n ['\r', '\n'] next

namespace CodeEnds

variable {n : Nat} {digits blank l : List Char} {next : Option Char}

theorem le (h : CodeEnds n blank next) : n ≤ 6 := by
  cases h with
  | full six => exact Nat.le_of_eq six
  | bare few _ => exact Nat.le_of_lt few
  | blank few _ _ => exact Nat.le_of_lt few
  | pair few => exact Nat.le_of_lt few

/-- The digits are taken up to the last one. -/
theorem digits_taken (hd : digits.all isHexDigit = true) (h : CodeEnds digits.length blank l.head?) :
    ((digits ++ (blank ++ l)).take 6).takeWhile isHexDigit = digits := by
  have own : (digits ++ (blank ++ l)).takeWhile isHexDigit = digits ++ (blank ++ l).takeWhile isHexDigit :=
    List.takeWhile_append_of_pos (List.all_eq_true.mp hd)
  rw [← List.take_takeWhile, own]
  by_cases six : digits.length = 6
  · rw [← six, List.take_left]
  · have noDigits : (blank ++ l).takeWhile isHexDigit = [] := by
      cases h with
      | full h => exact absurd h six
      | bare _ other =>
        cases l with
        | nil => rfl
        | cons c l => exact List.takeWhile_cons_of_neg (by simp [(other c rfl).1])
      | blank _ hb _ => exact List.takeWhile_cons_of_neg (by simp [isHexDigit_of_isBlank hb])
      | pair _ => rfl
    rw [noDigits, List.append_nil, List.take_of_length_le h.le]

theorem escapeBlank_single {c : Char} (h : ¬ (c = '\r' ∧ l.head? = some '\n')) :
    Place.escapeBlank (c :: l) = if Text.isBlank c then 1 else 0 := by
  unfold Place.escapeBlank
  split
  · next pair =>
    cases pair
    exact absurd ⟨rfl, rfl⟩ h
  · next same =>
    cases same
    rfl
  · next absent => cases absent

/-- The blank behind the digits is taken up to its end. -/
theorem blank_taken (h : CodeEnds n blank l.head?) (hn : n < 6) : Place.escapeBlank (blank ++ l) = blank.length := by
  cases h with
  | full h => exact absurd h (Nat.ne_of_lt hn)
  | bare _ other =>
    cases l with
    | nil => rfl
    | cons c l =>
      have solid := (other c rfl).2
      have single : ¬ (c = '\r' ∧ l.head? = some '\n') := by
        rintro ⟨rfl, _⟩
        exact absurd solid (by decide)
      rw [List.nil_append, escapeBlank_single single, solid]
      rfl
  | blank _ hb single =>
    rw [List.singleton_append, escapeBlank_single single, hb]
    rfl
  | pair _ => rfl

end CodeEnds

/-- What stands between quotes and the text it spells, character by character: as it is, as a code, or any other one
behind a backslash. -/
inductive Quoted.Spells (quote : Char) : List Char → List Char → Prop
  | nil : Spells quote [] []
  | raw {c : Char} {w t : List Char} : c ≠ quote → c ≠ '\\' → Spells quote w t → Spells quote (c :: w) (c :: t)
  | code {digits blank : List Char} {c : Char} {w t : List Char} : digits ≠ [] → digits.all isHexDigit = true →
    CodeEnds digits.length blank (w ++ [quote]).head? → IsCode (ofHexDigits digits) c → Spells quote w t →
    Spells quote ('\\' :: (digits ++ (blank ++ w))) (c :: t)
  | escaped {c : Char} {w t : List Char} : c ≠ '\n' → c ≠ '\r' → isHexDigit c = false → Spells quote w t →
    Spells quote ('\\' :: c :: w) (c :: t)

namespace Place

variable {s : Settings} {p : Place} {quote : Char} {l : List Char}

theorem piece_of_code {digits blank : List Char} (h0 : digits ≠ []) (hd : digits.all isHexDigit = true)
    (hb : CodeEnds digits.length blank l.head?) (hp : p.rest = '\\' :: (digits ++ (blank ++ l))) :
    (p.piece s).1 = .ok (.char (ofCode (ofHexDigits digits))) ∧ (p.piece s).2.rest = l := by
  cases digits with
  | nil => exact absurd rfl h0
  | cons d digits =>
    have digit : isHexDigit d = true := List.all_eq_true.mp hd d List.mem_cons_self
    have inline : ¬ (decide (d = '\n') || decide (d = '\r')) = true := by
      intro h
      simp only [Bool.or_eq_true, decide_eq_true_eq] at h
      rcases h with rfl | rfl
      · exact absurd digit (by decide)
      · exact absurd digit (by decide)
    have one : (p.next s.width).rest = d :: (digits ++ (blank ++ l)) := by
      rw [next_rest, hp, List.tail_cons, List.cons_append]
    have taken : ((p.next s.width).rest.take 6).takeWhile isHexDigit = d :: digits := by
      rw [one, ← List.cons_append]
      exact hb.digits_taken hd
    have behind : ((p.next s.width).forward s.width (d :: digits).length).rest = blank ++ l := by
      rw [forward_rest, one, ← List.cons_append, List.drop_left]
    rw [piece, hp]
    dsimp only
    rw [if_pos rfl, escape, taken, one]
    dsimp only
    rw [if_neg inline, if_pos digit]
    refine ⟨rfl, ?_⟩
    dsimp only
    split
    · next few => rw [forward_rest, behind, hb.blank_taken few, List.drop_left]
    · next many =>
      cases hb with
      | full _ => exact behind
      | bare few _ => exact absurd few many
      | blank few _ _ => exact absurd few many
      | pair few => exact absurd few many

theorem piece_of_escaped {c : Char} (hn : c ≠ '\n') (hr : c ≠ '\r') (hd : isHexDigit c = false)
    (hp : p.rest = '\\' :: c :: l) : (p.piece s).1 = .ok (.char c) ∧ (p.piece s).2.rest = l := by
  have one : (p.next s.width).rest = c :: l := by rw [next_rest, hp, List.tail_cons]
  rw [piece, hp]
  dsimp only
  rw [if_pos rfl, escape, one]
  dsimp only
  rw [if_neg (by simp [hn, hr]), if_neg (by simp [hd])]
  refine ⟨rfl, ?_⟩
  rw [next_rest, one, List.tail_cons]

theorem piece_of_raw {c : Char} (hc : c ≠ '\\') (hp : p.rest = c :: l) :
    (p.piece s).1 = .ok (.char c) ∧ (p.piece s).2.rest = l := by
  rw [piece, hp]
  dsimp only
  rw [if_neg hc]
  refine ⟨rfl, ?_⟩
  rw [next_rest, hp, List.tail_cons]

/-- One character on, if it does not end the text. -/
theorem textUpTo_of_piece {ends : Char → Bool} {c d : Char} {rest t m : List Char} (hp : p.rest = d :: rest)
    (hd : ends d = false) (one : (p.piece s).1 = .ok (.char c) ∧ (p.piece s).2.rest = l)
    (more : ∀ q : Place, q.rest = l → (q.textUpTo s ends).1 = .ok t ∧ (q.textUpTo s ends).2.rest = m) :
    (p.textUpTo s ends).1 = .ok (c :: t) ∧ (p.textUpTo s ends).2.rest = m := by
  obtain ⟨ho, hr⟩ := one
  rw [textUpTo_of_cons hp, hd, if_neg Bool.false_ne_true]
  rcases hpiece : p.piece s with ⟨o, q⟩
  rw [hpiece] at ho hr
  cases ho
  obtain ⟨io, ir⟩ := more q hr
  dsimp only
  rw [io]
  exact ⟨rfl, ir⟩

/-- The text up to the quote is what is spelled before it. -/
theorem textUpTo_of_spells {w t : List Char} (hq : quote ≠ '\\') (hw : Quoted.Spells quote w t)
    (hp : p.rest = w ++ quote :: l) :
    (p.textUpTo s (· = quote)).1 = .ok t ∧ (p.textUpTo s (· = quote)).2.rest = quote :: l := by
  induction hw generalizing p with
  | nil =>
    have start : p.rest = quote :: l := hp
    rw [textUpTo_of_cons start, if_pos (by simp)]
    exact ⟨rfl, start⟩
  | raw other solid _ ih => exact textUpTo_of_piece hp (by simpa using other) (piece_of_raw solid hp) fun q hr => ih hr
  | @code digits blank c w t nonempty hd ends code _ ih =>
    have start : p.rest = '\\' :: (digits ++ (blank ++ (w ++ quote :: l))) := by
      rw [hp]
      simp only [List.cons_append, List.append_assoc]
    have next : (w ++ [quote]).head? = (w ++ quote :: l).head? := by
      cases w with
      | nil => rfl
      | cons _ _ => rfl
    rw [code.eq_ofCode]
    exact textUpTo_of_piece start (by simpa using hq.symm) (piece_of_code nonempty hd (next ▸ ends) start)
      fun q hr => ih hr
  | escaped hn hr hd _ ih =>
    exact textUpTo_of_piece hp (by simpa using hq.symm) (piece_of_escaped hn hr hd hp) fun q hr => ih hr

/-- A backslash before a line break is passed over, and the text goes on with the line break itself. -/
theorem textUpTo_of_lineBreak {ends : Char → Bool} {c : Char} (hc : c = '\n' ∨ c = '\r') (hp : p.rest = '\\' :: c :: l)
    (hd : ends '\\' = false) : p.textUpTo s ends = (p.next s.width).textUpTo s ends := by
  have one : (p.next s.width).rest = c :: l := by rw [next_rest, hp, List.tail_cons]
  have lineBreak : (decide (c = '\n') || decide (c = '\r')) = true := by simpa using hc
  have joint : p.piece s = (.ok .joint, p.next s.width) := by
    rw [piece, hp]
    dsimp only
    rw [if_pos rfl, escape, one]
    dsimp only
    rw [if_pos lineBreak]
  rw [textUpTo_of_cons hp, hd, if_neg Bool.false_ne_true, joint]
  dsimp only
  rcases (p.next s.width).textUpTo s ends with ⟨e | t, q⟩
  · rfl
  · rfl

end Place

namespace Quoted

variable {quote : Char} {w t : List Char}

/-- Digits of a code that takes nothing along. -/
theorem Spells.bare {digits : List Char} (hw : Spells quote w t) (h0 : digits ≠ [])
    (hd : digits.all isHexDigit = true) (ends : CodeEnds digits.length [] (w ++ [quote]).head?) :
    ∃ u, Spells quote ('\\' :: (digits ++ w)) u :=
  ⟨_, .code h0 hd ends (isCode_ofCode _) hw⟩

/-- Fewer than six digits of a code that takes the blank behind them along, and the line feed behind that. -/
theorem Spells.behind_blank (hq : quote = '"' ∨ quote = '\'') (hw : Spells quote w t) {digits : List Char}
    (h0 : digits ≠ []) (hd : digits.all isHexDigit = true) (few : digits.length < 6) {c : Char}
    (blank : Text.isBlank c = true) : ∃ u, Spells quote ('\\' :: (digits ++ c :: w)) u := by
  by_cases pair : c = '\r' ∧ (w ++ [quote]).head? = some '\n'
  · obtain ⟨rfl, feed⟩ := pair
    cases hw with
    | nil =>
      cases feed
      rcases hq with h | h <;> cases h
    | raw _ _ hw =>
      cases feed
      exact ⟨_, .code h0 hd (.pair few) (isCode_ofCode _) hw⟩
    | code _ _ _ _ _ => cases feed
    | escaped _ _ _ _ => cases feed
  · exact ⟨_, .code h0 hd (.blank few blank pair) (isCode_ofCode _) hw⟩

/-- Digits before a text between quotes are a code, and it may take along what the text begins with. -/
theorem Spells.behind_digits (hq : quote = '"' ∨ quote = '\'') (hw : Spells quote w t) {digits : List Char}
    (h0 : digits ≠ []) (hd : digits.all isHexDigit = true) (h6 : digits.length ≤ 6) :
    ∃ u, Spells quote ('\\' :: (digits ++ w)) u := by
  by_cases six : digits.length = 6
  · exact hw.bare h0 hd (.full six)
  have few : digits.length < 6 := Nat.lt_of_le_of_ne h6 six
  clear h6 six
  -- only a character that stands as it is can be a digit or a blank, so the induction goes on over the digits
  induction hw generalizing digits with
  | nil =>
    refine Spells.nil.bare h0 hd (.bare few ?_)
    intro c hc
    cases hc
    rcases hq with rfl | rfl <;> decide
  | @raw c w t other solid hw ih =>
    by_cases digit : isHexDigit c = true
    · have all : (digits ++ [c]).all isHexDigit = true := by simp [hd, digit]
      have nonempty : digits ++ [c] ≠ [] := List.append_ne_nil_of_left_ne_nil h0 [c]
      have longer : (digits ++ [c]).length = digits.length + 1 := List.length_append
      rw [List.append_cons]
      by_cases full : (digits ++ [c]).length = 6
      · exact hw.bare nonempty all (.full full)
      · exact ih nonempty all (by omega)
    · by_cases blank : Text.isBlank c = true
      · exact hw.behind_blank hq h0 hd few blank
      · refine (Spells.raw other solid hw).bare h0 hd (.bare few ?_)
        intro d hd
        cases hd
        exact ⟨Bool.eq_false_iff.mpr digit, Bool.eq_false_iff.mpr blank⟩
  | code nonempty hd' ends code hw _ =>
    refine (Spells.code nonempty hd' ends code hw).bare h0 hd (.bare few ?_)
    intro c hc
    cases hc
    decide
  | escaped hn hr hd' hw _ =>
    refine (Spells.escaped hn hr hd' hw).bare h0 hd (.bare few ?_)
    intro c hc
    cases hc
    decide

/-- What is written for a character spells it, if it is not NUL. -/
theorem Spells.behind_escape (hq : quote = '"' ∨ quote = '\'') (hw : Spells quote w t) (c : Char) :
    ∃ u, Spells quote (escape c ++ w) u ∧ (c ≠ '\x00' → u = c :: t) := by
  unfold escape
  split
  · next marked =>
    simp only [Bool.or_eq_true, decide_eq_true_eq] at marked
    have known : c ≠ '\n' ∧ c ≠ '\r' ∧ isHexDigit c = false := by
      rcases marked with (rfl | rfl) | rfl <;> decide
    exact ⟨c :: t, .escaped known.1 known.2.1 known.2.2 hw, fun _ => rfl⟩
  · next unmarked =>
    simp only [Bool.or_eq_true, decide_eq_true_eq, not_or] at unmarked
    split
    · next nul =>
      obtain ⟨u, hu⟩ := hw.behind_digits hq (List.cons_ne_nil '0' []) (by decide) (by decide)
      exact ⟨u, hu, fun h => absurd nul h⟩
    · split
      · next feed =>
        have ends : CodeEnds 1 [' '] (w ++ [quote]).head? := .blank (by decide) (by decide) (by simp)
        have feed' : IsCode (ofHexDigits ['A']) c := by
          rw [feed]
          decide
        exact ⟨c :: t, .code (List.cons_ne_nil 'A' []) (by decide) ends feed' hw, fun _ => rfl⟩
      · have other : c ≠ quote := by
          rcases hq with rfl | rfl
          · exact unmarked.1.2
          · exact unmarked.2
        exact ⟨c :: t, .raw other unmarked.1.1 hw, fun _ => rfl⟩

/-- What is written for a text spells something, and the text itself if there is no NUL in it. -/
theorem spells_escape (hq : quote = '"' ∨ quote = '\'') (t : List Char) :
    ∃ u, Spells quote (t.flatMap escape) u ∧ ('\x00' ∉ t → u = t) := by
  induction t with
  | nil => exact ⟨[], .nil, fun _ => rfl⟩
  | cons c t ih =>
    obtain ⟨u, hu, same⟩ := ih
    obtain ⟨v, hv, here⟩ := hu.behind_escape hq c
    refine ⟨v, hv, ?_⟩
    intro h0
    rw [List.mem_cons, not_or] at h0
    rw [here (Ne.symm h0.1), same h0.2]

/-- What stands between quotes is read as the text up to the second one. -/
theorem takes_between {l : List Char} (hq : quote = '"' ∨ quote = '\'')
    (between : ∀ (s : Settings) (p : Place), p.rest = w ++ quote :: l →
      (p.textUpTo s (· = quote)).1 = .ok t ∧ (p.textUpTo s (· = quote)).2.rest = quote :: l) :
    Read.Takes (quote :: (w ++ quote :: l)) l Quoted.read fun a => a.text = String.ofList t := by
  have opens : (decide (quote = '"') || decide (quote = '\'')) = true := by
    rcases hq with h | h <;> simp [h]
  refine .here fun p hp => ?_
  rw [hp]
  dsimp only
  rw [if_pos opens]
  refine (Read.Takes.skip 1).bind fun _ _ => ?_
  refine Read.Takes.bind (m := quote :: l) (P := (· = t)) (.move fun s q hq => ?_) fun text ht => ?_
  · obtain ⟨ho, hr⟩ := between s q hq
    exact ⟨t, ho, hr, rfl⟩
  · refine .here fun q hq => .passing ?_ ((Read.Takes.skip 1).bind fun _ _ => .pure ?_)
    · rw [Place.atEnd, hq]
      exact Bool.false_ne_true
    · rw [ht]

/-- A text between quotes is read as what it spells. -/
theorem takes_spelled {l : List Char} (hq : quote = '"' ∨ quote = '\'') (hw : Spells quote w t) :
    Read.Takes (quote :: (w ++ quote :: l)) l Quoted.read fun a => a.text = String.ofList t := by
  have solid : quote ≠ '\\' := by rcases hq with rfl | rfl <;> decide
  exact takes_between hq fun _ _ hp => Place.textUpTo_of_spells solid hw hp

theorem toList_toCss (f : Layout) (q : Quoted) :
    (q.toCss f).toList = f.quote :: (q.text.toList.flatMap escape ++ [f.quote]) := by
  rw [toCss, String.toList_ofList]

/-- What is written for a text is read, and as the text itself if there is no NUL in it. -/
theorem takes_written {f : Layout} {l : List Char} (hq : f.quote = '"' ∨ f.quote = '\'') (q : Quoted) :
    Read.Takes ((q.toCss f).toList ++ l) l Quoted.read fun a => '\x00' ∉ q.text.toList → a.text = q.text := by
  obtain ⟨u, hu, same⟩ := spells_escape hq q.text.toList
  have start : (q.toCss f).toList ++ l = f.quote :: (q.text.toList.flatMap escape ++ f.quote :: l) := by
    rw [toList_toCss, List.cons_append, List.append_assoc]
    rfl
  rw [start]
  refine (takes_spelled hq hu).mono ?_
  intro a ha h0
  rw [ha, same h0, String.ofList_toList]

/-- Literals end where they seem to, whatever follows and in both modes: the text that is written for any text, NUL
included, is read up to its second quote, and if there is no NUL in it, nothing is lost. -/
theorem read_written {f : Layout} (hq : f.quote = '"' ∨ f.quote = '\'') {q : Quoted} {rest : List Char} {r : Reader}
    (hp : r.place.rest = (q.toCss f).toList ++ rest) :
    ∃ a s, Quoted.read.outcome r = (.ok a, s) ∧ s.place.rest = rest ∧
      s.place = r.place.forward r.settings.width (q.toCss f).length ∧ ('\x00' ∉ q.text.toList → a.text = q.text) := by
  obtain ⟨a, s, read, left, same⟩ := takes_written hq q r hp
  have ahead := (read_steady.kept read).ahead
  refine ⟨a, s, read, left, ?_, same⟩
  rw [← String.length_toList]
  exact ahead.eq_forward (hp.trans (congrArg ((q.toCss f).toList ++ ·) left.symm))

/-- The code of a NUL takes along the letters behind it; without a NUL nothing is lost. -/
theorem read_written_codes :
    let f : Layout := { Layout.compact with quote := '\'' }
    let lossy : Quoted := ⟨"\x00Fa\n", none⟩
    let whole : Quoted := ⟨"\nFa\\ \"", none⟩
    let r (q : Quoted) := Reader.start (q.toCss f ++ "b") { lenient := false } 1
    (∃ a s, Quoted.read.outcome (r lossy) = (.ok a, s) ∧ s.place.rest = "b".toList ∧
      s.place = (r lossy).place.forward (r lossy).settings.width (lossy.toCss f).length) ∧
    ∃ a s, Quoted.read.outcome (r whole) = (.ok a, s) ∧ s.place.rest = "b".toList ∧
      s.place = (r whole).place.forward (r whole).settings.width (whole.toCss f).length ∧ a.text = whole.text := by
  intro f lossy whole r
  have quote : f.quote = '"' ∨ f.quote = '\'' := .inr rfl
  have start (q : Quoted) : (r q).place.rest = (q.toCss f).toList ++ "b".toList :=
    Reader.start_append _ _ _ _
  obtain ⟨a, s, readA, left, place, _⟩ := read_written quote (start lossy)
  obtain ⟨b, t, readB, left', place', same⟩ := read_written quote (start whole)
  exact ⟨⟨a, s, readA, left, place⟩, b, t, readB, left', place', same (by decide)⟩

/-- The forms of characters in a text between quotes: what is read is what they spell, in both modes and whatever
follows the second quote. A blank behind a code belongs to it only if the code has fewer than six digits. -/
theorem read_spelled (hq : quote = '"' ∨ quote = '\'') (hw : Spells quote w t) {rest : List Char} {r : Reader}
    (hp : r.place.rest = quote :: (w ++ quote :: rest)) :
    ∃ a s, Quoted.read.outcome r = (.ok a, s) ∧ a.text = String.ofList t ∧ s.place.rest = rest ∧
      s.place = r.place.forward r.settings.width (w.length + 2) := by
  obtain ⟨a, s, read, left, same⟩ := takes_spelled hq hw r hp
  have ahead := (read_steady.kept read).ahead
  have literal : r.place.rest = (quote :: (w ++ [quote])) ++ s.place.rest := by
    rw [hp, left, List.cons_append, List.append_assoc]
    rfl
  have place := ahead.eq_forward literal
  rw [List.length_cons, List.length_append, List.length_singleton] at place
  exact ⟨a, s, read, same, left, place⟩

/-- One text with all forms: two digits with a blank before a letter, six digits before a blank, the code of a
surrogate with a carriage return and a line feed, and a quote. -/
theorem read_spelled_forms :
    let w := "\\26 B\\000041 \\d800\r\n\\\"".toList
    let t := "&BA \uFFFD\"".toList
    let r := Reader.start (String.ofList ('"' :: (w ++ '"' :: ['1']))) { lenient := false } 1
    Spells '"' w t ∧ ∃ a s, Quoted.read.outcome r = (.ok a, s) ∧ a.text = String.ofList t ∧ s.place.rest = ['1'] ∧
      s.place = r.place.forward r.settings.width (w.length + 2) := by
  intro w t r
  have spelled : Spells '"' w t := by
    refine .code (List.cons_ne_nil '2' ['6']) (by decide) (.blank (by decide) (by decide) (by decide)) (by decide) ?_
    refine .raw (by decide) (by decide) ?_
    refine .code (List.cons_ne_nil '0' ['0', '0', '0', '4', '1']) (by decide) (.full rfl) (by decide) ?_
    refine .raw (by decide) (by decide) ?_
    refine .code (List.cons_ne_nil 'd' ['8', '0', '0']) (by decide) (.pair (by decide)) (by decide) ?_
    exact .escaped (by decide) (by decide) (by decide) .nil
  exact ⟨spelled, read_spelled (.inl rfl) spelled String.toList_ofList⟩

/-- An escaped line break, which no form of a character describes, is not left out of a text: what is read is the line
break without its backslash. -/
theorem read_lineBreak (hq : quote = '"' ∨ quote = '\'') {c : Char} (hc : c = '\n' ∨ c = '\r') (hw : Spells quote w t)
    {rest : List Char} {r : Reader} (hp : r.place.rest = quote :: ('\\' :: c :: w ++ quote :: rest)) :
    ∃ a s, Quoted.read.outcome r = (.ok a, s) ∧ a.text = String.ofList (c :: t) ∧ s.place.rest = rest := by
  have solid : quote ≠ '\\' := by rcases hq with rfl | rfl <;> decide
  have other : c ≠ quote ∧ c ≠ '\\' := by rcases hq with rfl | rfl <;> rcases hc with rfl | rfl <;> decide
  have raw : Spells quote (c :: w) (c :: t) := .raw other.1 other.2 hw
  have between (s : Settings) (p : Place) (hp : p.rest = '\\' :: c :: w ++ quote :: rest) :
      (p.textUpTo s (· = quote)).1 = .ok (c :: t) ∧ (p.textUpTo s (· = quote)).2.rest = quote :: rest := by
    rw [Place.textUpTo_of_lineBreak hc hp (by simpa using solid.symm)]
    exact Place.textUpTo_of_spells solid raw (by rw [Place.next_rest, hp]; rfl)
  obtain ⟨a, s, read, left, same⟩ := takes_between hq between r hp
  exact ⟨a, s, read, same, left⟩

/-- Behind six digits a blank is a character of its own. -/
theorem blank_behind_six_digits :
    let text := (Quoted.read.outcome (Reader.start "\"\\000041 b\"" {} 1)).1.toOption.map Quoted.text
    text = some "A b" ∧ text ≠ some "Ab" := by
  intro text
  have read : text = some "A b" := by decide +kernel
  refine ⟨read, ?_⟩
  rw [read]
  decide

end Quoted

end Stylesheet
