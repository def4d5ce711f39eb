import Stylesheet.Proofs.Leniency
import Stylesheet.Proofs.Nesting

namespace Stylesheet

open Read (Steady)

namespace Read

variable {α β : Type} {x : Read α} {f : α → Read β} {P : α → Prop} {Q : β → Prop}

/-- `P` holds of what strict reading yields. -/
def Strictly (x : Read α) (P : α → Prop) : Prop :=
  ∀ r a s, r.settings.lenient = false → x.outcome r = (.ok a, s) → P a

namespace Strictly

theorem pure {a : α} (ha : P a) : Strictly (Pure.pure a) P := by
  intro r b s _ h
  cases h
  exact ha

theorem throw {e : Fault} : Strictly (MonadExcept.throw e) P := by
  intro r a s _ h
  cases h

theorem throwBind {e : Fault} : Strictly (MonadExcept.throw e >>= f) Q := by
  intro r b s _ h
  cases h

theorem bind (hx : ∀ text, SteadyWhole text x) (hf : ∀ a, Strictly (f a) Q) : Strictly (x >>= f) Q := by
  intro r b t hl h
  obtain ⟨a, s, hs, ht⟩ := ok_of_bind h
  exact hf a s b t (((hx _).settings hs) ▸ hl) ht

/-- A step of whose results something is known. -/
theorem bindStrict (h : Strictly x P) (hx : ∀ text, SteadyWhole text x) (hf : ∀ a, P a → Strictly (f a) Q) :
    Strictly (x >>= f) Q := by
  intro r b t hl hb
  obtain ⟨a, s, hs, ht⟩ := ok_of_bind hb
  exact hf a (h r a s hl hs) s b t (((hx _).settings hs) ▸ hl) ht

/-- A fault that strict reading hands on. -/
theorem caught {h : Fault → Read α} (hx : Strictly x P) (hs : ∀ text, SteadyWhole text x)
    (strict : ∀ e r, r.settings.lenient = false → (h e).outcome r = (.error e, r)) : Strictly (tryCatch x h) P := by
  intro r a t hl ha
  rw [outcome_tryCatch] at ha
  rcases ho : x.outcome r with ⟨e | b, s⟩
  · rw [ho, rescued_error, strict e s (((hs _).settings ho) ▸ hl)] at ha
    cases ha
  · rw [ho] at ha
    exact hx r a t hl (ho.trans ha)

theorem here {f : Place → Read β} (hf : ∀ p, Strictly (f p) Q) : Strictly (place >>= f) Q :=
  bind (fun _ => .place) hf

theorem asking {f : Bool → Read β} (hf : Strictly (f false) Q) : Strictly (isLenient >>= f) Q := by
  intro r b t hl h
  rw [outcome_bind, outcome_isLenient, following_ok, hl] at h
  exact hf r b t hl h

theorem map {f : α → β} (hf : ∀ a, Q (f a)) : Strictly (f <$> x) Q := by
  intro r b s _ h
  rw [map_eq_pure_bind] at h
  obtain ⟨a, t, -, h⟩ := ok_of_bind h
  cases h
  exact hf a

end Strictly

/-- The two steps come to the same where fewer than `n` characters are left. -/
def SameBelow (n : Nat) (x x' : Read α) : Prop := ∀ r, r.place.rest.length < n → x.outcome r = x'.outcome r

theorem suffix_of_steady {r s : Reader} {a : α} (hx : SteadyWhole r.place.text x) (h : x.outcome r = (.ok a, s)) :
    s.place.rest <:+ r.place.rest :=
  (hx.kept h).ahead.rest_suffix

theorem length_le_of_steady {r s : Reader} {a : α} (hx : SteadyWhole r.place.text x) (h : x.outcome r = (.ok a, s)) :
    s.place.rest.length ≤ r.place.rest.length :=
  (suffix_of_steady hx h).length_le

end Read

open Read (Strictly SameBelow)

namespace StyleRule

theorem readHead_strictly (keyframe : Bool) (p : Place) : Strictly (readHead keyframe p) (·.isSome = true) := by
  refine .bind (fun _ => Steady.move (Place.moves_selectorText none 0)) fun (text, comments) => ?_
  dsimp only
  split
  · exact .pure rfl
  · exact .throw

theorem read_strictly (keyframe : Bool) : Strictly (read keyframe) (·.isSome = true) := by
  rw [read_eq]
  refine .here fun p => .bindStrict (P := (·.isSome = true)) ?_ (fun _ => readHeadOrSkip_steady keyframe p)
    fun head hs => ?_
  · exact .caught (readHead_strictly keyframe p) (fun _ => readHead_steady keyframe p) fun e r => skipRule_strict
  · obtain ⟨head, rfl⟩ := Option.isSome_iff_exists.mp hs
    exact .bind (fun _ => (Steady.literal _).discard) fun _ =>
      .bind (fun _ => RuleSet.read_steady _ _) fun _ => .pure rfl

end StyleRule

namespace Statement

section Bodies

variable {readBody readBody' : Owner → Read Sheet} (hb : ∀ owner text, SteadyWhole text (readBody owner))

include hb

theorem readBlockRule_strictly (name : String) (p : Position) :
    Strictly (readBlockRule readBody name p) (·.isSome = true) := by
  refine .here fun q => .bind (fun _ => .upTo _ _ _) fun args => .here fun stop => ?_
  dsimp only
  split
  · exact .bind (fun _ => .skip 1) fun _ => .throwBind
  · refine .bind (fun _ => (Steady.literal _).discard) fun _ => ?_
    split
    · exact .asking .throwBind
    · split
      · exact .bind (hb _) fun body => .bind (fun _ => readClosing_steady) fun _ => .pure rfl
      · exact .bind (fun _ => RuleSet.read_steady _ _) fun _ => .pure rfl

theorem readAtRule_strictly : Strictly (readAtRule readBody) (·.isSome = true) := by
  rw [readAtRule_eq]
  refine .bind (fun _ => readAtName_steady) fun n => ?_
  unfold readNamed
  split
  · exact .map fun _ => rfl
  · split
    · exact .map fun _ => rfl
    · split
      · exact .map fun _ => rfl
      · split
        · exact .map fun _ => rfl
        · exact readBlockRule_strictly hb _ _

end Bodies

/-- Takes a body inside another one, wherever it begins. -/
def readFresh (owner : Owner) : Read Sheet := do
  let (ss, cs) ← readAllIn (← Read.left) owner true []
  return { contents := ss, trailing := cs }

theorem readInside_same (n : Nat) (owner : Owner) : SameBelow n (readInside n owner) (readFresh owner) := by
  intro r hr
  rw [readInside, readFresh, Read.outcome_bind, Read.outcome_bind, readBehind, Read.outcome_shorter, dif_pos hr,
    Read.outcome_left, Read.following_ok, Read.outcome_bind]

/-- The bodies inside an item of a body are read as if it began with them. -/
theorem outcome_readItemOrSkip_fresh (owner : Owner) (first : Bool) {n : Nat} {r : Reader}
    (hr : r.place.rest.length ≤ n) :
    (readItemOrSkip (readInside n) owner first).outcome r = (readItemOrSkip readFresh owner first).outcome r := by
  refine readItemOrSkip_same (R := .ahead r) (fun inner => .of_passes fun s passes => ?_) owner first r (.refl r)
  exact readInside_same n inner s (Nat.lt_of_lt_of_le passes.shorter hr)

theorem readFresh_steady {text : List Char} (owner : Owner) : SteadyWhole text (readFresh owner) :=
  Steady.left.bind fun n => (readAllIn_steady n owner true []).bind fun _ => .pure _

theorem readFresh_twin {g : Pairing} (owner : Owner) :
    g.Twin True True Pairing.never (Sheet.bare true) (readFresh owner) (readFresh owner) := by
  refine Pairing.Twin.leftBind fun n =>
    (readAllIn_twin n owner true (.refl _ [])).bind fun c c' alike => .pure fun _ => ?_
  exact alike.map (fun c => ({ contents := c.1, trailing := c.2 } : Sheet)) bare_of_contentsLook

theorem accept_strictly (owner : Owner) (first : Bool) (l : Location) (st : Statement) :
    Strictly (accept owner first l (some st)) (· = .statement st) := by
  unfold accept
  dsimp only
  split
  · exact .bind (fun _ => admitCharset_steady _ _ _ _) fun _ => .pure rfl
  · exact .pure rfl

section Strict

variable {readBody : Owner → Read Sheet} {owner : Owner} {first : Bool} {r s : Reader}
  (hb : ∀ owner text, SteadyWhole text (readBody owner)) (hl : r.settings.lenient = false)

include hb hl

/-- Strict reading has no fault behind it. -/
theorem readItem_of_strict {o : Option Item} (h : (readItemOrSkip readBody owner first).outcome r = (.ok o, s)) :
    ∃ i, o = some i ∧ (readItem readBody owner first).outcome r = (.ok i, s) := by
  have steady : SteadyWhole r.place.text (some <$> readItem readBody owner first) :=
    (readItem_steady (fun o => hb o _) owner first).map
  rw [outcome_readItemOrSkip] at h
  rcases hi : (some <$> readItem readBody owner first).outcome r with ⟨e | found, t⟩
  · rw [hi, Read.rescued_error, skipItem_strict _ _ (steady.settings hi ▸ hl)] at h
    cases h
  · rw [hi] at h
    cases h
    rw [map_eq_pure_bind] at hi
    obtain ⟨i, t, hi, ht⟩ := Read.ok_of_bind hi
    cases ht
    exact ⟨i, rfl, hi⟩

/-- An item that strict reading takes is a statement, which begins here and ends behind, or the brace that closes the
body. -/
theorem item_of_strict {o : Option Item} (ok : (readItemOrSkip readBody owner first).outcome r = (.ok o, s)) :
    (∃ st, o = some (.statement st) ∧ s.place.rest.length < r.place.rest.length) ∨
      (o = some .closing ∧ owner ≠ .sheet ∧ s.place.comes "\x7d" = true) := by
  obtain ⟨i, rfl, h⟩ := readItem_of_strict hb hl ok
  rw [readItem_eq] at h
  obtain ⟨p, r', hp, h⟩ := Read.ok_of_bind h
  cases hp
  by_cases sign : r.place.comes "@" = true
  · rw [if_pos sign] at h
    obtain ⟨o, t, ho, h⟩ := Read.ok_of_bind h
    obtain ⟨st, rfl⟩ := Option.isSome_iff_exists.mp (readAtRule_strictly hb r o t hl ho)
    have strict : t.settings.lenient = false := (readAtRule_steady (fun o => hb o _)).settings ho ▸ hl
    have behind := Read.length_le_of_steady (accept_steady _ _ _ _) h
    obtain rfl := accept_strictly _ _ _ _ t i s strict h
    exact .inl ⟨st, rfl, Nat.lt_of_le_of_lt behind (readAtRule_advances hb r _ _ ho).shorter⟩
  · rw [if_neg sign, readUnnamed] at h
    by_cases brace : r.place.comes "\x7d" = true
    · rw [if_pos brace] at h
      by_cases sheet : owner ≠ .sheet
      · rw [if_pos sheet] at h
        cases h
        exact .inr ⟨rfl, sheet, brace⟩
      · rw [if_neg sheet, Read.outcome_bind, Read.outcome_isLenient, Read.following_ok, hl] at h
        cases h
    · rw [if_neg brace] at h
      obtain ⟨o, t, ho, h⟩ := Read.ok_of_bind h
      have isSome := StyleRule.read_strictly _ r o t hl ho
      have closes :=
        (StyleRule.read_twin (g := Pairing.alone r) (L := False) _).needs hl r o t (Pairing.reads_alone r) ho isSome
      obtain ⟨rule, rfl⟩ := Option.isSome_iff_exists.mp isSome
      cases h
      exact .inl ⟨.style rule, rfl, closes.shorter⟩

end Strict

/-- A strict reading of a body from the state `r` up to the state `s`: it ends with the text, or before the brace that
closes the body, or takes a statement behind a gap and goes on. -/
inductive StrictRun (owner : Owner) :
    Bool → List Comment → Reader → List Statement × List Comment → Reader → Prop
  | ending {first : Bool} {pending cs : List Comment} {r s : Reader} {texts : List String} (outer : owner = .sheet)
      (gap : IsGap texts r.place.rest) : StrictRun owner first pending r ([], cs) s
  | closing {first : Bool} {pending cs : List Comment} {r s : Reader} (inner : owner ≠ .sheet)
      (brace : s.place.comes "\x7d" = true) : StrictRun owner first pending r ([], cs) s
  | statement {first : Bool} {pending cs : List Comment} {r s t u : Reader} {st : Statement}
      {c : List Statement × List Comment} (gap : Read.gap.outcome r = (.ok cs, t)) (mode : t.settings.lenient = false)
      (item : (readItemOrSkip readFresh owner first).outcome t = (.ok (some (.statement st)), u))
      (shorter : u.place.rest.length < t.place.rest.length) (tail : StrictRun owner false [] u c s) :
      StrictRun owner first pending r (st.addComments (pending ++ cs) :: c.1, c.2) s

theorem readEnd_of_strict {owner : Owner} {pending : List Comment} {r s : Reader} {c : List Statement × List Comment}
    (hl : r.settings.lenient = false) (h : (readEnd owner pending).outcome r = (.ok c, s)) :
    owner = .sheet ∧ c = ([], pending) := by
  rw [readEnd, Read.outcome_bind, Read.outcome_isLenient, Read.following_ok, hl] at h
  cases owner with
  | sheet =>
    cases h
    exact ⟨rfl, rfl⟩
  | grouping => cases h
  | keyframes => cases h

theorem strictRun_of_ok {n : Nat} {owner : Owner} {first : Bool} {pending : List Comment} {r s : Reader}
    {c : List Statement × List Comment} (hl : r.settings.lenient = false) (hn : r.place.rest.length ≤ n)
    (h : (readAllIn n owner first pending).outcome r = (.ok c, s)) : StrictRun owner first pending r c s := by
  induction n using Nat.strongRecOn generalizing first pending r c with
  | ind n ih =>
    rw [readAllIn_eq] at h
    obtain ⟨p, r', hp, h⟩ := Read.ok_of_bind h
    cases hp
    by_cases ended : r.place.atEnd = true
    · rw [if_pos ended] at h
      obtain ⟨outer, rfl⟩ := readEnd_of_strict hl h
      have gap : IsGap [] r.place.rest := by
        rw [List.isEmpty_iff.mp ended]
        exact .nil
      exact .ending outer gap
    rw [if_neg ended] at h
    obtain ⟨cs, t, gap, h⟩ := Read.ok_of_bind h
    have mode : t.settings.lenient = false := gap_steadyWhole.settings gap ▸ hl
    obtain ⟨q, t', hq, h⟩ := Read.ok_of_bind h
    cases hq
    by_cases ended : t.place.atEnd = true
    · dsimp only at h
      rw [if_pos ended] at h
      obtain ⟨outer, rfl⟩ := readEnd_of_strict mode h
      obtain ⟨texts, g, isGap, hg⟩ := Read.gap_of_strict hl gap
      rw [List.isEmpty_iff.mp ended, List.append_nil] at hg
      exact .ending outer (hg ▸ isGap)
    dsimp only at h
    rw [if_neg ended] at h
    obtain ⟨o, u, item, h⟩ := Read.ok_of_bind h
    have bound := Nat.le_trans (Read.length_le_of_steady gap_steadyWhole gap) hn
    rw [outcome_readItemOrSkip_fresh owner first bound] at item
    rcases item_of_strict (fun o _ => readFresh_steady o) mode item with ⟨st, rfl, shorter⟩ | ⟨rfl, inner, brace⟩
    · obtain ⟨c, v, behind, h⟩ := Read.ok_of_bind h
      cases h
      have less : u.place.rest.length < n := Nat.lt_of_lt_of_le shorter bound
      rw [readBehind, Read.outcome_shorter, dif_pos less] at behind
      have mode' : u.settings.lenient = false :=
        (readItemOrSkip_steady (fun o => readFresh_steady o) owner first).settings item ▸ mode
      exact .statement gap mode item shorter (ih _ less mode' (Nat.le_refl _) behind)
    · cases h
      exact .closing inner brace

/-- The brace that closes a body is left to what the body belongs to. -/
theorem StrictRun.brace {owner : Owner} {first : Bool} {pending : List Comment} {r s : Reader}
    {c : List Statement × List Comment} (h : StrictRun owner first pending r c s) (inner : owner ≠ .sheet) :
    s.place.comes "\x7d" = true := by
  induction h with
  | ending outer => exact absurd outer inner
  | closing _ brace => exact brace
  | statement _ _ _ _ _ ih => exact ih

theorem encloses_readFresh {g : Pairing} : Encloses g True readFresh := by
  intro _ hl owner inner r b s hr h
  obtain ⟨n, r', hn, h⟩ := Read.ok_of_bind h
  cases hn
  obtain ⟨c, t, hc, h⟩ := Read.ok_of_bind h
  cases h
  have mode : r.settings.lenient = false := hr.settings ▸ hl
  exact (strictRun_of_ok mode (Nat.le_refl _) hc).brace inner

/-- A statement with a block is read up to its last brace. -/
theorem closes_of_item {owner : Owner} {first : Bool} {r s : Reader} {st : Statement}
    (hl : r.settings.lenient = false) (block : st.hasBlock = true)
    (h : (readItemOrSkip readFresh owner first).outcome r = (.ok (some (.statement st)), s)) : Pairing.Closes r s := by
  have twin := readItemOrSkip_twin (g := Pairing.alone r) (L := False) readFresh_twin encloses_readFresh owner first
  exact twin.needs hl r _ s (Pairing.reads_alone r) h ⟨trivial, block⟩

theorem hasBlock_addComments (st : Statement) (cs : List Comment) : (st.addComments cs).hasBlock = st.hasBlock := by
  cases st <;> rfl

/-- A last brace with nothing but a gap behind it. -/
def EndsBlock (rest : List Char) : Prop := ∃ before texts gap, IsGap texts gap ∧ rest = before ++ '\x7d' :: gap

theorem EndsBlock.before {l m : List Char} (h : EndsBlock l) (hs : l <:+ m) : EndsBlock m := by
  obtain ⟨before, texts, gap, isGap, rfl⟩ := h
  obtain ⟨more, rfl⟩ := hs
  exact ⟨more ++ before, texts, gap, isGap, (List.append_assoc ..).symm⟩

theorem EndsBlock.mem {l : List Char} (h : EndsBlock l) : '\x7d' ∈ l := by
  obtain ⟨before, texts, gap, -, rfl⟩ := h
  simp

theorem StrictRun.gap_of_nil {owner : Owner} {first : Bool} {pending : List Comment} {r s : Reader}
    {c : List Statement × List Comment} (h : StrictRun owner first pending r c s) (outer : owner = .sheet)
    (empty : c.1 = []) : ∃ texts, IsGap texts r.place.rest := by
  cases h with
  | ending _ gap => exact ⟨_, gap⟩
  | closing inner => exact absurd outer inner
  | statement => cases empty

/-- What stands behind the gap before a statement ends with a block if the last statement of a sheet has one. -/
theorem StrictRun.endsBlock_of_tail {owner : Owner} {first : Bool} {r s t : Reader} {st : Statement} {cs : List Comment}
    {c : List Statement × List Comment} (outer : owner = .sheet) (mode : r.settings.lenient = false)
    (item : (readItemOrSkip readFresh owner first).outcome r = (.ok (some (.statement st)), s))
    (tail : StrictRun owner false [] s c t) (block : (st.addComments cs :: c.1).getLast?.any hasBlock = true)
    (behind : c.1.getLast?.any hasBlock = true → EndsBlock s.place.rest) : EndsBlock r.place.rest := by
  cases hc : c.1 with
  | nil =>
    rw [hc, List.getLast?_singleton, Option.any_some, hasBlock_addComments] at block
    obtain ⟨taken, ht⟩ := closes_of_item mode block item
    obtain ⟨texts, gap⟩ := tail.gap_of_nil outer hc
    exact ⟨taken, texts, _, gap, ht⟩
  | cons next more =>
    rw [hc, List.getLast?_cons_cons, ← hc] at block
    exact (behind block).before
      (Read.suffix_of_steady (readItemOrSkip_steady (fun o => readFresh_steady o) owner first) item)

/-- A sheet whose last statement has a block ends with a block. -/
theorem StrictRun.endsBlock {owner : Owner} {first : Bool} {pending : List Comment} {r s : Reader}
    {c : List Statement × List Comment} (h : StrictRun owner first pending r c s) (outer : owner = .sheet)
    (block : c.1.getLast?.any hasBlock = true) : EndsBlock r.place.rest := by
  induction h with
  | ending => cases block
  | closing => cases block
  | statement gap mode item _ tail ih =>
    have last := endsBlock_of_tail outer mode item tail block ih
    exact last.before (Read.suffix_of_steady gap_steadyWhole gap)

end Statement

end Stylesheet
