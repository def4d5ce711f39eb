import Mathlib.Data.List.Infix
import Stylesheet.Proofs.Leniency
import Stylesheet.Proofs.SheetRoundTrip
import Stylesheet.Proofs.Trimming
import Stylesheet.Proofs.TwinSheet

namespace Stylesheet

open Pairing (Twin never)

/-- A rule of whose selectors one is not valid. The body may hold anything but the brace that ends it and comments. -/
structure BadRule (selectors body : String) : Prop where
  nonempty : selectors ≠ ""
  begins : ∀ c, selectors.toList.head? = some c → Text.isBlank c = false ∧ c ≠ '@' ∧ c ≠ '\uFEFF'
  plain : ∀ c ∈ ['\x7b', '\x7d', '(', ')', '"', '\'', '\\', '/'], c ∉ selectors.toList
  invalid : ∃ part ∈ Selector.parts selectors, Selector.isValid part false = false
  unclosed : '\x7d' ∉ body.toList
  uncommented : ¬ ['/', '*'] <:+: body.toList

/-- A rule with an at-sign before whose block the parentheses do not match. The body may hold anything in which the
braces match. -/
structure BadBlock (name prelude body : String) : Prop where
  letter : name.toList.head?.any Char.isLower = true
  letters : ∀ c ∈ name.toList, (c.isLower || c.isDigit || c == '-' || c == '_') = true
  other : name ∉ ["import", "charset", "namespace", "keyframes"]
  unopened : ∀ c ∈ ['\x7b', ';'], c ∉ prelude.toList
  uncommented : ¬ ['/', '*'] <:+: prelude.toList
  unmatched : prelude.toList.count '(' ≠ prelude.toList.count ')'
  nested : ∀ t, t <+: body.toList → t.count '\x7d' ≤ t.count '\x7b'
  closed : body.toList.count '\x7d' = body.toList.count '\x7b'

/-- Statements that lenient reading leaves out. -/
inductive Bad : String → Prop
  | rule {selectors body : String} (h : BadRule selectors body) : Bad (selectors ++ "\x7b" ++ body ++ "\x7d")
  | block {name prelude body : String} (h : BadBlock name prelude body) :
    Bad ("@" ++ name ++ " " ++ prelude ++ "\x7b" ++ body ++ "\x7d")

namespace Read

variable {α β : Type} {l m k : List Char} {x : Read α} {f : α → Read β} {P : α → Prop} {Q : β → Prop}

/-- Where lenient reading has `l` left, the step leaves `m` and yields something that `P` holds of. -/
def Passes (l m : List Char) (x : Read α) (P : α → Prop) : Prop :=
  ∀ r, r.settings.lenient = true → r.place.rest = l →
    ∃ a s, x.outcome r = (.ok a, s) ∧ s.settings.lenient = true ∧ s.place.rest = m ∧ P a

namespace Passes

/-- A step that takes a text in both modes and stays in its mode. -/
theorem of_takes (hx : Takes l m x P) (hs : ∀ text, SteadyWhole text x) : Passes l m x P := by
  intro r hl hr
  obtain ⟨a, s, ho, hm, ha⟩ := hx r hr
  exact ⟨a, s, ho, ((hs _).settings ho) ▸ hl, hm, ha⟩

theorem pure {a : α} (ha : P a) : Passes l l (Pure.pure a) P :=
  fun r hl hr => ⟨a, r, rfl, hl, hr, ha⟩

theorem bind (hx : Passes l m x P) (hf : ∀ a, P a → Passes m k (f a) Q) : Passes l k (x >>= f) Q := by
  intro r hl hr
  obtain ⟨a, s, hs, hl, hm, ha⟩ := hx r hl hr
  obtain ⟨b, t, ht, hl, hk, hb⟩ := hf a ha s hl hm
  refine ⟨b, t, ?_, hl, hk, hb⟩
  rw [outcome_bind, hs, following_ok, ht]

theorem note (level : Level) (t : String) : Passes l l (Read.note level t) fun _ => True :=
  of_takes (.note level t) fun _ => .note level t

theorem skip (n : Nat) : Passes l (l.drop n) (Read.skip n) fun _ => True :=
  of_takes (.skip n) fun _ => .skip n

/-- A step that looks at the place it is at. -/
theorem here {f : Place → Read β} (hf : ∀ p, p.rest = l → Passes l m (f p) Q) : Passes l m (place >>= f) Q :=
  fun r hl hr => hf r.place hr r hl hr

/-- A step that asks for the mode. -/
theorem asking {f : Bool → Read β} (hf : Passes l m (f true) Q) : Passes l m (isLenient >>= f) Q := by
  intro r hl hr
  rw [outcome_bind, outcome_isLenient, following_ok, hl]
  exact hf r hl hr

/-- A step that succeeds leaves nothing to handle. -/
theorem caught {h : Fault → Read α} (hx : Passes l m x P) : Passes l m (tryCatch x h) P := by
  intro r hl hr
  obtain ⟨a, s, ho, rest⟩ := hx r hl hr
  refine ⟨a, s, ?_, rest⟩
  rw [outcome_tryCatch, ho, rescued_ok]

/-- A step whose fault is handled. -/
theorem rescue {h : Fault → Read α}
    (hx : ∀ r, r.place.rest = l → ∃ e s, x.outcome r = (.error e, s) ∧ s.settings = r.settings ∧ s.place.rest = k ∧
      Passes k m (h e) P) : Passes l m (tryCatch x h) P := by
  intro r hl hr
  obtain ⟨e, s, ho, same, hk, handled⟩ := hx r hr
  rw [outcome_tryCatch, ho, rescued_error]
  exact handled s (same ▸ hl) hk

end Passes

end Read

open Read (Passes Takes Steady)
open Statement

variable {l : List Char}

section Rule

variable {selectors body : String}

/-- Selectors without quotes, escapes, comments and parentheses are taken up to the brace. -/
theorem YieldsSelectors.plain {t : List Char} (ht : ∀ c ∈ ['\x7b', '\x7d', '(', ')', '"', '\'', '\\', '/'], c ∉ t) :
    YieldsSelectors 0 (t ++ '\x7b' :: l) t ('\x7b' :: l) := by
  induction t with
  | nil => exact .brace
  | cons d t ih =>
    have other (c : Char) (hc : c ∈ ['\x7b', '\x7d', '(', ')', '"', '\'', '\\', '/']) : d ≠ c :=
      fun h => ht c hc (h ▸ List.mem_cons_self)
    have depth : Place.depthBehind none 0 d = 0 := by
      simp [Place.depthBehind, other '(' (by decide), other ')' (by decide)]
    refine .cons ⟨other _ (by decide), other _ (by decide), other _ (by decide), other _ (by decide)⟩
      ⟨other _ (by decide), other _ (by decide)⟩ (fun h => absurd h (other _ (by decide))) ?_
    rw [depth]
    exact ih fun c hc h => ht c hc (List.mem_cons_of_mem d h)

namespace BadRule

variable (h : BadRule selectors body)

include h

theorem head : ∃ c t, selectors.toList = c :: t ∧ Text.isBlank c = false ∧ c ≠ '@' ∧ c ≠ '\x7d' ∧ c ≠ '/' ∧
    c ≠ '\uFEFF' := by
  cases ht : selectors.toList with
  | nil => exact absurd (String.toList_eq_nil_iff.mp ht) h.nonempty
  | cons c t =>
    have other (d : Char) (hd : d ∈ ['\x7b', '\x7d', '(', ')', '"', '\'', '\\', '/']) : c ≠ d :=
      fun hc => h.plain d hd (by rw [ht, hc]; exact List.mem_cons_self)
    obtain ⟨solid, sign, mark⟩ := h.begins c (by rw [ht]; rfl)
    exact ⟨c, t, rfl, solid, sign, other _ (by decide), other _ (by decide), mark⟩

theorem parseList_error :
    ∃ found, ∀ l, Selector.parseList selectors false l = .error (.unexpectedToken "a valid selector" found l) := by
  obtain ⟨part, mem, wrong⟩ := h.invalid
  rcases Selector.parseList_cases selectors false with ⟨valid, -⟩ | ⟨other, -, -, fails⟩
  · exact absurd ((valid part mem).symm.trans wrong) (by decide)
  · exact ⟨Text.trim other, fails⟩

/-- What was begun as a body is left out up to the first brace that closes. -/
theorem passes_skipRule {e : Fault} (he : e.recoverable = true) :
    Passes ('\x7b' :: (body.toList ++ '\x7d' :: l)) l (StyleRule.skipRule e) (· = none) := by
  have plain : ('\x7b' :: body.toList).all (· ∉ ['\x7d']) = true := by
    rw [List.all_eq_true]
    intro c hc
    rw [decide_eq_true_eq, List.mem_singleton]
    rintro rfl
    exact h.unclosed ((List.mem_cons.mp hc).resolve_left (by decide))
  have free : ¬ ['/', '*'] <:+: '\x7b' :: body.toList := fun hi =>
    (List.infix_cons_iff.mp hi).elim (fun start => by simp at start) h.uncommented
  refine .asking ?_
  rw [he]
  refine (Passes.note _ _).bind fun _ _ => ?_
  have taken := (Takes.upToBehind (l := l) plain List.mem_cons_self (by decide) free true).discard
  exact (Passes.of_takes taken fun _ => (Steady.upTo _ _ _).discard).bind fun _ _ => .pure rfl

theorem passes_read :
    Passes (selectors.toList ++ '\x7b' :: (body.toList ++ '\x7d' :: l)) l (StyleRule.read false) (· = none) := by
  obtain ⟨found, fails⟩ := h.parseList_error
  rw [StyleRule.read_eq]
  refine .here fun p _ => .bind (m := l) (P := (· = none))
    (.rescue (k := '\x7b' :: (body.toList ++ '\x7d' :: l)) fun r hr => ?_) fun head none => ?_
  · obtain ⟨yields, left⟩ := YieldsSelectors.plain h.plain r.settings r.place hr
    refine ⟨.unexpectedToken "a valid selector" found p.location,
      { r with place := (r.place.selectorText r.settings none 0).2 }, ?_, rfl, left, h.passes_skipRule rfl⟩
    rw [StyleRule.readHead, Read.outcome_bind, Read.outcome_move, yields, Read.following_ok]
    dsimp only
    rw [String.ofList_toList, fails]
    rfl
  · rw [none]
    exact .pure rfl

end BadRule

end Rule

section Block

/-- A text in which the braces match up to the blocks that are open, and the brace behind it, end these blocks. -/
theorem Place.blockLength_of_balanced {depth : Nat} {t : List Char}
    (nested : ∀ u, u <+: t → u.count '\x7d' ≤ u.count '\x7b' + depth)
    (closed : t.count '\x7d' = t.count '\x7b' + depth) :
    blockLength (depth + 1) (t ++ '\x7d' :: l) = t.length + 1 := by
  induction t generalizing depth with
  | nil =>
    have noDepth : 0 = depth := by simpa using closed
    rw [← noDepth]
    rfl
  | cons c t ih =>
    have inner (u : List Char) (hu : u <+: t) := nested (c :: u) (List.cons_prefix_cons.mpr ⟨rfl, hu⟩)
    rw [List.cons_append, blockLength, List.length_cons]
    by_cases opens : c = '\x7b'
    · subst opens
      rw [List.count_cons_self, List.count_cons_of_ne (by decide)] at closed
      have tail : blockLength (depth + 1 + 1) (t ++ '\x7d' :: l) = t.length + 1 := by
        refine ih (fun u hu => ?_) (by omega)
        have count := inner u hu
        rw [List.count_cons_self, List.count_cons_of_ne (by decide)] at count
        omega
      rw [if_pos rfl, tail]
    · rw [if_neg opens]
      by_cases closes : c = '\x7d'
      · subst closes
        rw [List.count_cons_self, List.count_cons_of_ne (by decide)] at closed
        obtain ⟨d, rfl⟩ : ∃ d, depth = d + 1 := by
          have count := inner [] List.nil_prefix
          rw [List.count_cons_self, List.count_cons_of_ne (by decide), List.count_nil, List.count_nil] at count
          exact ⟨depth - 1, by omega⟩
        have tail : blockLength (d + 1) (t ++ '\x7d' :: l) = t.length + 1 := by
          refine ih (fun u hu => ?_) (by omega)
          have count := inner u hu
          rw [List.count_cons_self, List.count_cons_of_ne (by decide)] at count
          omega
        rw [if_pos rfl, if_neg (by omega), Nat.add_sub_cancel, tail]
      · rw [List.count_cons_of_ne closes, List.count_cons_of_ne opens] at closed
        have tail : blockLength (depth + 1) (t ++ '\x7d' :: l) = t.length + 1 := by
          refine ih (fun u hu => ?_) closed
          have count := inner u hu
          rwa [List.count_cons_of_ne closes, List.count_cons_of_ne opens] at count
        rw [if_neg closes, tail]

theorem isLower_iff {c : Char} : c.isLower = true ↔ 0x61 ≤ c.toNat ∧ c.toNat ≤ 0x7A := by
  change (decide (0x61 ≤ c.toNat) && decide (c.toNat ≤ 0x7A)) = true ↔ _
  rw [Bool.and_eq_true, decide_eq_true_eq, decide_eq_true_eq]

/-- The letters of lower case among the characters of names. -/
theorem isNameChar_of_low {c : Char} (h : (c.isLower || c.isDigit || c == '-' || c == '_') = true) :
    isNameChar c = true ∧ c.toLower = c := by
  have code : c.toLower.toNat = c.toNat := by
    rw [Text.toNat_toLower, if_neg]
    rintro ⟨low, high⟩
    simp only [Bool.or_eq_true, beq_iff_eq, isLower_iff, isDigit_iff] at h
    rcases h with ((h | h) | rfl) | rfl
    · omega
    · omega
    · exact absurd low (by decide)
    · exact absurd high (by decide)
  refine ⟨?_, Char.toNat_inj.mp code⟩
  have alpha (hl : c.isLower = true) : c.isAlpha = true := by
    change (c.isUpper || c.isLower) = true
    rw [hl, Bool.or_true]
  simp only [isNameChar, Char.isAlphanum, Bool.or_eq_true] at h ⊢
  exact h.imp_left (.imp_left (.imp_left alpha))

namespace BadBlock

variable {name prelude body : String} (h : BadBlock name prelude body)

include h

theorem isLowerName : isLowerName name = true := by
  have nonempty : name.toList ≠ [] := fun empty => by
    have letter := h.letter
    rw [empty] at letter
    cases letter
  have lower : name.toList.map Char.toLower = name.toList :=
    List.map_congr_left (fun c hc => (isNameChar_of_low (h.letters c hc)).2) |>.trans (List.map_id' _)
  rw [Stylesheet.isLowerName, lower]
  simpa [nonempty] using fun c hc => (isNameChar_of_low (h.letters c hc)).1

/-- A name that begins with a letter has no vendor in front. -/
theorem not_isKeyframes : AtName.isKeyframes name = false := by
  have plain : AtName.withoutVendor name = name := by
    unfold AtName.withoutVendor
    split
    · next rest ht =>
      have letter := h.letter
      rw [ht] at letter
      cases letter
    · rfl
  rw [AtName.isKeyframes, plain, beq_eq_false_iff_ne]
  rintro rfl
  exact h.other (by decide)

/-- What stands behind the name, as the reader meets it. -/
theorem met : Met ['\x7b', ';'] (Text.trim (String.ofList (pastBlank prelude.toList)))
    (' ' :: prelude.toList.takeWhile Text.isBlank) (pastBlank prelude.toList) where
  skipped := by
    rw [List.all_cons, List.all_takeWhile]
    rfl
  unstopped := List.all_eq_true.mpr fun c hc =>
    decide_eq_true fun stop => h.unopened c stop ((List.dropWhile_suffix _).mem hc)
  uncommented hi := h.uncommented (hi.trans (List.dropWhile_suffix _).isInfix)
  trimmed := rfl
  solid c rest ht := by
    have first := List.head?_dropWhile_not Text.isBlank prelude.toList
    unfold pastBlank at ht
    rw [ht] at first
    simpa using first

theorem unbalanced : balanced (Text.trim (String.ofList (pastBlank prelude.toList))) = false := by
  rw [balanced, Text.count_trim rfl, Text.count_trim rfl, pastBlank, Text.count_dropWhile rfl, Text.count_dropWhile rfl,
    decide_eq_false_iff_not]
  exact h.unmatched

/-- A block is left out up to the brace that closes it. -/
theorem passes_readBlockRule (readBody : Owner → Read Sheet) (p : Position) :
    Passes (pastBlank prelude.toList ++ '\x7b' :: (body.toList ++ '\x7d' :: l)) l (readBlockRule readBody name p)
      (· = none) := by
  refine .here fun q _ => ?_
  have args := Takes.upToBefore (c := '\x7b') (l := body.toList ++ '\x7d' :: l) h.met.unstopped (by decide) (by decide)
    h.met.uncommented false
  refine (Passes.of_takes args fun _ => .upTo _ _ _).bind fun text ht => .here fun stop hs => ?_
  rw [Place.comes_of_head hs (t := ";") rfl (by decide), ht]
  dsimp only
  rw [if_neg Bool.false_ne_true, h.unbalanced, Bool.not_false, if_pos rfl]
  refine (Passes.of_takes (Takes.char rfl).discard fun _ => (Steady.literal _).discard).bind fun _ _ => .asking ?_
  rw [Bool.not_true, if_neg Bool.false_ne_true]
  refine (Passes.note _ _).bind fun _ _ => .here fun start hstart => ?_
  have length : Place.blockLength 1 (body.toList ++ '\x7d' :: l) = body.toList.length + 1 :=
    Place.blockLength_of_balanced h.nested h.closed
  have behind := Passes.skip (l := body.toList ++ '\x7d' :: l) (body.toList.length + 1)
  rw [← List.drop_drop, List.drop_left] at behind
  rw [hstart, length]
  exact behind.bind fun _ _ => .pure rfl

theorem passes_readAtRule (readBody : Owner → Read Sheet) :
    Passes ('@' :: (name.toList ++ ' ' :: (prelude.toList ++ '\x7b' :: (body.toList ++ '\x7d' :: l)))) l
      (readAtRule readBody) (· = none) := by
  have parts : prelude.toList.takeWhile Text.isBlank ++ pastBlank prelude.toList = prelude.toList :=
    List.takeWhile_append_dropWhile
  have text : ' ' :: (prelude.toList ++ '\x7b' :: (body.toList ++ '\x7d' :: l)) =
      (' ' :: prelude.toList.takeWhile Text.isBlank) ++
        (pastBlank prelude.toList ++ '\x7b' :: (body.toList ++ '\x7d' :: l)) := by
    rw [List.cons_append, ← List.append_assoc, parts]
  have other : name ≠ "import" ∧ name ≠ "charset" ∧ name ≠ "namespace" := by
    have other := h.other
    simp only [List.mem_cons, not_or] at other
    exact ⟨other.1, other.2.1, other.2.2.1⟩
  have named := takes_atName h.isLowerName (.cons rfl (by decide)) h.met.skipped
    (h.met.stops (c := '\x7b') (l := body.toList ++ '\x7d' :: l) rfl (by decide))
  rw [text, readAtRule_eq]
  refine (Passes.of_takes named fun _ => readAtName_steady).bind fun n hn => ?_
  rw [hn, readNamed, if_neg other.1, if_neg other.2.1, if_neg other.2.2, h.not_isKeyframes, if_neg Bool.false_ne_true]
  exact h.passes_readBlockRule readBody n.2

end BadBlock

end Block

namespace Statement

/-- What reading of statements makes of an item behind the comments `pending`. -/
def goOn (n : Nat) (owner : Owner) (first : Bool) (pending : List Comment) :
    Option Item → Read (List Statement × List Comment)
  | none | some .closing => return ([], pending)
  | some .omitted => readBehind n owner first
  | some (.statement s) => do
    let (ss, cs) ← readBehind n owner false
    return (s.addComments pending :: ss, cs)

/-- Where neither a blank nor a comment stands, an item is read at once. -/
theorem outcome_readAllIn_solid {n : Nat} {owner : Owner} {first : Bool} {pending : List Comment} {r : Reader} {c : Char}
    {t : List Char} (hr : r.place.rest = c :: t) (solid : Text.isBlank c = false) (slash : c ≠ '/') :
    (readAllIn n owner first pending).outcome r =
      (readItemOrSkip (readInside n) owner first >>= goOn n owner first pending).outcome r := by
  have stops : Stops r.place.rest := hr ▸ .cons solid slash
  have more : ¬ r.place.atEnd = true := by
    rw [Place.atEnd, hr]
    exact Bool.false_ne_true
  rw [readAllIn_eq, Read.outcome_bind, Read.outcome_place, Read.following_ok, if_neg more, Read.outcome_bind,
    Read.outcome_gap_of_stops stops, Read.following_ok, Read.outcome_bind, Read.outcome_place, Read.following_ok,
    if_neg more, List.append_nil, Read.outcome_bind, Read.outcome_bind]
  refine congrArg _ (funext fun item => ?_)
  rcases item with _ | item
  · rfl
  · cases item <;> rfl

end Statement

namespace Bad

variable {bad : String}

theorem toList_rule (selectors body : String) (l : List Char) :
    (selectors ++ "\x7b" ++ body ++ "\x7d").toList ++ l =
      selectors.toList ++ '\x7b' :: (body.toList ++ '\x7d' :: l) := by
  simp

theorem toList_block (name prelude body : String) (l : List Char) :
    ("@" ++ name ++ " " ++ prelude ++ "\x7b" ++ body ++ "\x7d").toList ++ l =
      '@' :: (name.toList ++ ' ' :: (prelude.toList ++ '\x7b' :: (body.toList ++ '\x7d' :: l))) := by
  simp

theorem head (h : Bad bad) :
    ∃ c t, bad.toList = c :: t ∧ Text.isBlank c = false ∧ c ≠ '/' ∧ c ≠ '\uFEFF' := by
  cases h with
  | @rule selectors body h =>
    obtain ⟨c, t, ht, solid, -, -, slash, mark⟩ := h.head
    exact ⟨c, t ++ '\x7b' :: (body.toList ++ ['\x7d']), by simp [ht], solid, slash, mark⟩
  | @block name prelude body h =>
    exact ⟨'@', name.toList ++ ' ' :: (prelude.toList ++ '\x7b' :: (body.toList ++ ['\x7d'])), by simp, rfl, by decide,
      by decide⟩

theorem ends (h : Bad bad) : ∃ t, bad.toList = t ++ ['\x7d'] := by
  cases h with
  | @rule selectors body h => exact ⟨selectors.toList ++ '\x7b' :: body.toList, by simp⟩
  | @block name prelude body h =>
    exact ⟨'@' :: (name.toList ++ ' ' :: (prelude.toList ++ '\x7b' :: body.toList)), by simp⟩

theorem passes_readItem (h : Bad bad) (readBody : Owner → Read Sheet) :
    Passes (bad.toList ++ l) l (readItem readBody .sheet true) (· = .omitted) := by
  rw [readItem_eq]
  cases h with
  | rule h =>
    obtain ⟨c, t, ht, -, sign, brace, -⟩ := h.head
    rw [toList_rule]
    refine .here fun p hp => ?_
    rw [ht, List.cons_append] at hp
    rw [Place.comes_of_head hp (t := "@") rfl (Ne.symm sign), if_neg Bool.false_ne_true, readUnnamed,
      Place.comes_of_head hp (t := "\x7d") rfl (Ne.symm brace), if_neg Bool.false_ne_true]
    refine h.passes_read.bind fun r hr => ?_
    rw [hr]
    exact .pure rfl
  | block h =>
    rw [toList_block]
    refine .here fun p hp => ?_
    rw [if_pos (Place.comes_char (t := "@") hp rfl)]
    refine (h.passes_readAtRule readBody).bind fun s hs => ?_
    rw [hs]
    exact .pure rfl

theorem passes_readItemOrSkip (h : Bad bad) (readBody : Owner → Read Sheet) :
    Passes (bad.toList ++ l) l (readItemOrSkip readBody .sheet true) (· = some .omitted) := by
  rw [readItemOrSkip_eq]
  refine .here fun p _ => .caught ?_
  rw [map_eq_pure_bind]
  refine (h.passes_readItem readBody).bind fun i hi => ?_
  rw [hi]
  exact .pure rfl

/-- Behind the statement reading goes on as it began. -/
theorem outcome_readAllIn (h : Bad bad) {n : Nat} {r : Reader} (hl : r.settings.lenient = true)
    (hr : r.place.rest = bad.toList ++ l) (hn : l.length < n) :
    ∃ s, (readAllIn n .sheet true []).outcome r = (readAllIn l.length .sheet true []).outcome s ∧
      s.settings = r.settings ∧ s.place.text = r.place.text ∧ s.place.rest = l := by
  obtain ⟨c, t, ht, solid, slash, -⟩ := h.head
  have start : r.place.rest = c :: (t ++ l) := by rw [hr, ht]; rfl
  obtain ⟨i, u, hitem, -, hu, rfl⟩ := h.passes_readItemOrSkip (readInside n) r hl hr
  have skipped := (readItemOrSkip_steady (readInside_steady n) .sheet true).kept hitem
  refine ⟨u, ?_, skipped.settings, skipped.ahead.text, hu⟩
  rw [outcome_readAllIn_solid start solid slash, Read.outcome_bind, hitem, Read.following_ok, goOn, readBehind,
    Read.outcome_shorter]
  subst hu
  rw [dif_pos hn]

/-- A text, and the same text behind a bad statement, both read leniently. -/
def pairing (settings : Settings) (bad rest : String) : Pairing where
  first := { settings with lenient := true }
  second := { settings with lenient := true }
  text := rest.toList
  more := []
  shift := bad.toList.length
  exact := false
  width_eq _ := rfl
  modes := .inl ⟨rfl, rfl⟩

/-- Reading of the text with the bad statement comes to a reader that stands where reading of the text alone begins. -/
theorem readers_behind (settings : Settings) (h : Bad bad) (rest : String) :
    ∃ s, (readAllIn (bad ++ rest).toList.length .sheet true []).outcome
          (Reader.start (bad ++ rest) { settings with lenient := true } 1) =
        (readAllIn rest.toList.length .sheet true []).outcome s ∧
      (pairing settings bad rest).Readers (Reader.start rest { settings with lenient := true } 1) s := by
  have text : (bad ++ rest).toList = bad.toList ++ rest.toList := String.toList_append
  obtain ⟨t, ht⟩ := h.ends
  have shorter : rest.toList.length < (bad ++ rest).toList.length := by
    rw [text, List.length_append, ht, List.length_append, List.length_singleton]
    omega
  obtain ⟨s, same, settings', whole, behind⟩ :=
    h.outcome_readAllIn (r := Reader.start (bad ++ rest) { settings with lenient := true } 1) rfl text shorter
  have passed : s.place.passed = bad.toList.reverse := by
    have parts : s.place.passed.reverse ++ s.place.rest = bad.toList ++ rest.toList := whole.trans text
    rw [behind] at parts
    rw [← List.append_cancel_right parts, List.reverse_reverse]
  refine ⟨s, same, rfl, settings', rfl, behind.trans (List.append_nil _).symm, ?_, ?_, fun h => by cases h⟩
  · rw [Place.offset, passed, List.length_reverse]
    exact (Nat.zero_add _).symm
  · rw [passed, ht, List.reverse_append]
    rfl

end Bad

namespace Sheet

/-- Lenient reading of a bad statement and what stands behind it comes to what lenient reading of the latter comes to,
but for the places. -/
theorem parse_past_bad (settings : Settings) {bad rest : String} (h : Bad bad)
    (unmarked : rest.toList.head? ≠ some '\uFEFF') :
    ∃ sheet sheet', (parse { settings with lenient := true } rest).1 = .ok sheet ∧
      (parse { settings with lenient := true } (bad ++ rest)).1 = .ok sheet' ∧
      sheet'.bare true = sheet.bare true := by
  obtain ⟨s, same, readers⟩ := h.readers_behind settings rest
  obtain ⟨c, t, hc⟩ := readAllIn_succeeds rest.toList.length .sheet true []
    (r := Reader.start rest { settings with lenient := true } 1) rfl
  have agree := (readAllIn_twin (g := Bad.pairing settings bad rest) (L := True) rest.toList.length .sheet true
    (.refl _ [])).agrees trivial _ s (.inl rfl) readers
  rw [hc] at agree
  obtain ⟨c', t', hc', alike, -⟩ := agree (.inr (.inl rfl))
  have start : (bad ++ rest).toList.head? ≠ some '\uFEFF' := by
    obtain ⟨d, u, hd, -, -, mark⟩ := h.head
    rw [String.toList_append, hd]
    exact fun h => mark (Option.some.inj h)
  refine ⟨⟨c.1, some ⟨1, 0⟩, [], c.2⟩, ⟨c'.1, some ⟨1, 0⟩, [], c'.2⟩, parse_of_readAllIn (s := t) ?_,
    parse_of_readAllIn (s := t') ?_, ?_⟩
  · rw [withoutMark_of_head unmarked]
    exact hc
  · rw [withoutMark_of_head start]
    exact same.trans hc'
  · exact bare_of_contentsLook alike.seen

/-- A rule with a semicolon in its selector is passed, and so is a grouping rule that leaves a parenthesis open. -/
theorem parse_past_bad_pair :
    (" p { color: blue }".toList.head? ≠ some '\uFEFF') ∧
      (∃ sheet sheet', (parse { lenient := true } " p { color: blue }").1 = .ok sheet ∧
        (parse { lenient := true } ("a; b { color: red }" ++ " p { color: blue }")).1 = .ok sheet' ∧
        sheet'.bare true = sheet.bare true) ∧
      ∃ sheet sheet', (parse { lenient := true } " p { color: blue }").1 = .ok sheet ∧
        (parse { lenient := true } ("@media (width: 1px \x7b p \x7b color: red \x7d \x7d" ++ " p { color: blue }")).1 = .ok sheet' ∧
        sheet'.bare true = sheet.bare true := by
  have rule : Bad "a; b { color: red }" := by
    have parts : "a; b " ++ "\x7b" ++ " color: red " ++ "\x7d" = "a; b { color: red }" := by decide
    rw [← parts]
    refine .rule ⟨by decide, fun c hc => ?_, by simp, by decide +kernel, by decide,
      Text.not_infix_of_hasPair (by decide)⟩
    have first : some 'a' = some c := hc
    cases first
    decide
  have block : Bad "@media (width: 1px \x7b p \x7b color: red \x7d \x7d" := by
    have parts : "@" ++ "media" ++ " " ++ "(width: 1px " ++ "\x7b" ++ " p { color: red } " ++ "\x7d" =
      "@media (width: 1px \x7b p \x7b color: red \x7d \x7d" := by decide
    rw [← parts]
    refine .block ⟨by decide, List.all_eq_true.mp (by decide), by decide, by simp,
      Text.not_infix_of_hasPair (by decide), by decide, fun t ht => ?_, by decide⟩
    have nested : ∀ t ∈ " p { color: red } ".toList.inits, t.count '\x7d' ≤ t.count '\x7b' := by decide
    exact nested t ((List.mem_inits _ _).mpr ht)
  have unmarked : " p { color: blue }".toList.head? ≠ some '\uFEFF' := by decide
  exact ⟨unmarked, parse_past_bad {} rule unmarked, parse_past_bad {} block unmarked⟩

end Sheet

end Stylesheet
