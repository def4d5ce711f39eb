import Stylesheet.Proofs.Flattening
import Stylesheet.Proofs.ValueForms

namespace Stylesheet

namespace Chain

variable {d s : Separator} {p : Option Position}

/-- What a value behind a separator is written as. -/
def spread (e : Separator × Value) : List (Separator × Value) := (e.1, (e.2.flat []).first) :: (e.2.flat []).more

/-- The run that a chain is written as when the lists in it are opened. -/
def opened (c : Chain) : Chain := ⟨(c.first.flat []).first, (c.first.flat []).more ++ c.more.flatMap spread⟩

theorem joinAll_eq (c : Chain) (s : Separator) (cs : List Chain) :
    c.joinAll s cs = ⟨c.first, c.more ++ cs.flatMap fun e => (s, e.first) :: e.more⟩ := by
  induction cs generalizing c with
  | nil => simp [joinAll]
  | cons e cs ih =>
    rw [joinAll, List.foldl_cons, ← joinAll, ih, join]
    simp

theorem flat_list (v : Value) (vs : List Value) :
    Value.flat [] (.list (v :: vs) s p) = opened ⟨v, vs.map fun w => (s, w)⟩ := by
  rw [Value.flat_loose List.not_mem_nil, joinAll_eq, opened, List.flatMap_map, List.flatMap_map]
  rfl

/-- A list of two components is written with its separator. -/
theorem mem_flat_list {vs : List Value} (two : 2 ≤ vs.length) : ∃ v, (s, v) ∈ (Value.flat [] (.list vs s p)).more := by
  match vs, two with
  | v :: w :: vs, _ =>
    refine ⟨(w.flat []).first, ?_⟩
    rw [flat_list, opened, List.map_cons, List.flatMap_cons]
    exact List.mem_append_right _ List.mem_cons_self

theorem spread_close (s : Separator) (v : Value) (vs : List Value) :
    spread (s, close d p (v :: vs)) = spread (s, v) ++ vs.flatMap fun w => spread (d, w) := by
  cases vs with
  | nil => exact (List.append_nil _).symm
  | cons w vs =>
    rw [close, spread, flat_list, opened, List.flatMap_map]
    · rfl
    · simp

theorem groups_cons (v w : Value) (t : Separator) (more : List (Separator × Value)) :
    groups d v ((t, w) :: more) =
      if t = d then (v :: (groups d w more).1, (groups d w more).2)
      else ([v], (t, (groups d w more).1) :: (groups d w more).2) := rfl

/-- A group begins with its first value. -/
theorem groups_first (v : Value) (more : List (Separator × Value)) : ∃ vs, (groups d v more).1 = v :: vs := by
  cases more with
  | nil => exact ⟨[], rfl⟩
  | cons e more =>
    rw [groups_cons]
    split
    · exact ⟨_, rfl⟩
    · exact ⟨[], rfl⟩

/-- The groups are written as what was grouped. -/
theorem spread_groups (s : Separator) (v : Value) (more : List (Separator × Value)) :
    spread (s, close d p (groups d v more).1) ++
        ((groups d v more).2.map fun e => (e.1, close d p e.2)).flatMap spread =
      spread (s, v) ++ more.flatMap spread := by
  induction more generalizing s v with
  | nil => rfl
  | cons e more ih =>
    obtain ⟨t, w⟩ := e
    obtain ⟨vs, hvs⟩ := groups_first (d := d) w more
    have behind := ih t w
    rw [hvs, spread_close] at behind
    rw [groups_cons, hvs, List.flatMap_cons]
    split
    · next same =>
      subst same
      rw [spread_close, List.flatMap_cons, List.append_assoc, behind]
    · rw [List.map_cons, List.flatMap_cons, spread_close t, behind]
      rfl

theorem opened_fold (c : Chain) : (c.fold d p).opened = c.opened := by
  have groups := spread_groups (d := d) (p := p) d c.first c.more
  rw [spread, spread, List.cons_append, List.cons_append, List.cons.injEq, Prod.mk.injEq] at groups
  rw [opened, opened, fold]
  exact congrArg₂ Chain.mk groups.1.2 groups.2

theorem opened_foldAll (order : List Separator) (c : Chain) : (c.foldAll order p).opened = c.opened := by
  rw [foldAll]
  induction fullOrder order generalizing c with
  | nil => rfl
  | cons d order ih => rw [List.foldl_cons, ih, opened_fold]

/-- The values of a chain are no lists, and its separators are of the order. -/
abbrev IsFlat (order : List Separator) (c : Chain) : Prop := c.IsRun Value.IsWhole order

theorem IsFlat.opened {order : List Separator} {c : Chain} (hc : c.IsFlat order) : c.opened = c := by
  have behind : ∀ more : List (Separator × Value), (∀ e ∈ more, e.1 ∈ order ∧ e.2.IsWhole) →
      more.flatMap spread = more := by
    intro more hm
    induction more with
    | nil => rfl
    | cons e more ih =>
      rw [List.forall_mem_cons] at hm
      rw [List.flatMap_cons, ih hm.2, spread, Value.flat_other hm.1.2]
      rfl
  rw [Chain.opened, Value.flat_other hc.first, behind c.more hc.more]
  rfl

/-- A grouped value is of a separator of the order if it is written as a chain is. -/
theorem IsFlat.separator {order : List Separator} {c : Chain} (hc : c.IsFlat order) {v : Value} (hv : v.Grouped order)
    (written : (v.flat []).bare = c.bare) (vs : List Value) (s : Separator) (p : Option Position)
    (hl : v = .list vs s p) : s ∈ order := by
  subst hl
  cases hv with
  | whole other => exact absurd rfl (other vs s p)
  | list two _ _ =>
    obtain ⟨w, hw⟩ := mem_flat_list (s := s) (p := p) two
    have known : (s, w.bare) ∈ c.bare.more := written ▸ List.mem_map_of_mem hw
    obtain ⟨e, he, same⟩ := List.mem_map.mp known
    have here : e.1 = s := congrArg Prod.fst same
    exact here ▸ (hc.more e he).1

/-- Grouped by the order, and if it is a list, then by a separator in `done`. -/
structure Closed (order done : List Separator) (v : Value) : Prop where
  grouped : v.Grouped order
  separator : ∀ vs s p, v = .list vs s p → s ∈ done

/-- A chain that the separators in `done` are folded out of. -/
structure Folded (order done : List Separator) (c : Chain) : Prop where
  first : Closed order done c.first
  more : ∀ e ∈ c.more, (e.1 ∈ order ∧ e.1 ∉ done) ∧ Closed order done e.2

/-- A group that is closed next: of one value, or of several ones that stood behind a separator that is not done. -/
structure Gathered (order done : List Separator) (d : Separator) (vs : List Value) : Prop where
  closed : ∀ v ∈ vs, Closed order done v
  size : vs.length = 1 ∨ d ∉ done ∧ 2 ≤ vs.length

variable {order done behind : List Separator}

theorem Closed.mono {v : Value} (hv : Closed order done v) : Closed order (done ++ [d]) v :=
  ⟨hv.grouped, fun vs s p h => List.mem_append_left _ (hv.separator vs s p h)⟩

theorem Gathered.close {vs : List Value} (hg : Gathered (done ++ d :: behind) done d vs) :
    Closed (done ++ d :: behind) (done ++ [d]) (close d p vs) := by
  obtain ⟨closed, size⟩ := hg
  match vs, size with
  | [v], _ => exact (closed v List.mem_cons_self).mono
  | v :: w :: vs, .inr ⟨later, two⟩ =>
    refine ⟨.list two (fun u hu => (closed u hu).grouped) fun us t q hu => ?_, fun us t q h => ?_⟩
    · have earlier : t ∈ done := (closed _ hu).separator us t q rfl
      rw [List.idxOf_append_of_mem earlier, List.idxOf_append_of_notMem later]
      exact Nat.lt_of_lt_of_le (List.idxOf_lt_length_of_mem earlier) (Nat.le_add_right _ _)
    · cases h
      exact List.mem_append_right _ List.mem_cons_self

theorem gathered_groups {v : Value} {more : List (Separator × Value)} (hv : Closed order done v)
    (hm : ∀ e ∈ more, (e.1 ∈ order ∧ e.1 ∉ done) ∧ Closed order done e.2) :
    Gathered order done d (groups d v more).1 ∧
      ∀ e ∈ (groups d v more).2, (e.1 ∈ order ∧ e.1 ∉ done ++ [d]) ∧ Gathered order done d e.2 := by
  induction more generalizing v with
  | nil => exact ⟨⟨fun u hu => List.mem_singleton.mp hu ▸ hv, .inl rfl⟩, nofun⟩
  | cons e more ih =>
    obtain ⟨t, w⟩ := e
    rw [List.forall_mem_cons] at hm
    obtain ⟨⟨known, hw⟩, others⟩ := hm
    obtain ⟨group, groups'⟩ := ih hw others
    rw [groups_cons]
    split
    · next same =>
      subst same
      refine ⟨⟨fun u hu => ?_, .inr ⟨known.2, ?_⟩⟩, groups'⟩
      · rcases List.mem_cons.mp hu with rfl | hu
        · exact hv
        · exact group.closed u hu
      · obtain ⟨vs, hvs⟩ := groups_first (d := t) w more
        rw [hvs]
        exact Nat.le_add_left 2 _
    · next other =>
      refine ⟨⟨fun u hu => List.mem_singleton.mp hu ▸ hv, .inl rfl⟩, fun e he => ?_⟩
      rcases List.mem_cons.mp he with rfl | he
      · refine ⟨⟨known.1, fun h => ?_⟩, group⟩
        rcases List.mem_append.mp h with h | h
        · exact known.2 h
        · exact other (List.mem_singleton.mp h)
      · exact groups' e he

/-- Folding by the next separator of the order. -/
theorem Folded.fold {c : Chain} (hc : c.Folded (done ++ d :: behind) done) :
    (c.fold d p).Folded (done ++ d :: behind) (done ++ [d]) := by
  obtain ⟨group, others⟩ := gathered_groups (d := d) hc.first hc.more
  refine ⟨group.close, fun e he => ?_⟩
  obtain ⟨g, hg, rfl⟩ := List.mem_map.mp he
  exact ⟨(others g hg).1, (others g hg).2.close⟩

theorem Folded.foldl {c : Chain} (hc : c.Folded (done ++ behind) done) :
    (behind.foldl (fun c d => c.fold d p) c).Folded (done ++ behind) (done ++ behind) := by
  induction behind generalizing done c with
  | nil => rwa [List.append_nil] at hc ⊢
  | cons d behind ih =>
    have next := hc.fold (p := p)
    have order : done ++ d :: behind = (done ++ [d]) ++ behind := by rw [List.append_assoc]; rfl
    rw [order] at next ⊢
    exact ih next

/-- Folding by a whole order leaves one value, which is written as the run and grouped by the order. -/
theorem IsFlat.foldAll {c : Chain} (hc : c.IsFlat (fullOrder order)) (p : Option Position) :
    ∃ v, c.foldAll order p = ⟨v, []⟩ ∧ v.flat [] = c ∧ v.Grouped (fullOrder order) := by
  have start : c.Folded ([] ++ fullOrder order) [] := by
    have whole {v : Value} (hv : v.IsWhole) : Closed (fullOrder order) [] v :=
      ⟨.whole hv, fun vs s q h => absurd h (hv vs s q)⟩
    exact ⟨whole hc.first, fun e he => ⟨⟨(hc.more e he).1, List.not_mem_nil⟩, whole (hc.more e he).2⟩⟩
  have folded : (c.foldAll order p).Folded (fullOrder order) (fullOrder order) := start.foldl
  have run := (opened_foldAll (p := p) order c).trans hc.opened
  generalize c.foldAll order p = folding at folded run
  obtain ⟨v, more⟩ := folding
  cases more with
  | nil =>
    refine ⟨v, rfl, ?_, folded.first.grouped⟩
    rw [← run, Chain.opened, List.flatMap_nil, List.append_nil]
  | cons e more =>
    have pending := (folded.more e List.mem_cons_self).1
    exact absurd pending.1 pending.2

end Chain

namespace Value

open Read (Yields)

variable {nested : List Separator → Read Value} {inner word primitive : Read Value}

theorem readWord_whole (ignoreCase : Bool) : Yields (readWord nested inner ignoreCase) IsWhole := by
  refine .behind fun _ => .behind fun _ => .behind fun _ => ?_
  split
  · exact .pure nofun
  · refine .behind fun _ => ?_
    split
    · exact .behind fun _ => .pure nofun
    · split
      · exact readCalculation_marked.yields fun _ _ marked => marked.unlisted
      · exact (readFunction_marked ignoreCase).yields fun _ _ marked => marked.unlisted

theorem orSign_whole (next : Option Char) (e : Fault) : Yields (orSign next e) IsWhole := by
  unfold orSign
  split
  · split
    · exact .map fun _ => nofun
    · exact .throw _
  · exact .throw _

theorem readWordOrSign_whole (hw : Yields word IsWhole) : Yields (readWordOrSign word) IsWhole := by
  intro r v s h
  rw [outcome_readWordOrSign, ← Read.outcome_tryCatch] at h
  exact hw.caught (orSign_whole _) r v s h

/-- A reader of primitives yields no list. -/
theorem readPrimitiveWith_whole : Yields (readPrimitiveWith nested inner) IsWhole := by
  rw [readPrimitiveWith_eq]
  refine .behind fun _ => .behind fun p => .behind fun lenient => .bind ?_ fun v hv => .behind fun _ => .pure hv
  rcases readForm_cases nested inner lenient p with marked | range | word
  · exact marked.yields fun _ _ marked => marked.unlisted
  · rw [range]
    exact .behind fun _ => .behind fun _ => .orThrow (.behind fun _ => .pure nofun)
  · rw [word]
    exact readWordOrSign_whole (readWord_whole false)

theorem readPrimitiveIn_whole (n : Nat) : Yields (readPrimitiveIn n) IsWhole := by
  rw [readPrimitiveIn]
  exact readPrimitiveWith_whole

theorem space_mem_fullOrder (order : List Separator) : .space ∈ Chain.fullOrder order := by
  unfold Chain.fullOrder
  split
  · next known => exact List.contains_iff_mem.mp known
  · exact List.mem_append_right _ List.mem_cons_self

theorem mem_fullOrder {order : List Separator} {s : Separator} (hs : s ∈ order) : s ∈ Chain.fullOrder order := by
  unfold Chain.fullOrder
  split
  · exact hs
  · exact List.mem_append_left _ hs

theorem readSeparator_known (order : List Separator) : Yields (readSeparator order) (· ∈ Chain.fullOrder order) := by
  refine .behind fun p => ?_
  split
  · next s found => exact .behind fun _ => .behind fun _ => .pure (mem_fullOrder (List.mem_of_find?_eq_some found))
  · exact .pure (space_mem_fullOrder order)

theorem readMore_flat (hp : Yields primitive IsWhole) (order : List Separator) (n : Nat) :
    Yields (readMore primitive order n) fun more => ∀ e ∈ more, e.1 ∈ Chain.fullOrder order ∧ e.2.IsWhole := by
  induction n using Nat.strongRecOn with
  | ind n ih =>
    rw [readMore]
    refine .behind fun lenient => .behind fun p => ?_
    split
    · exact .pure nofun
    · refine .bind (readSeparator_known order) fun s hs => .bind hp fun v hv => .behind fun _ => ?_
      refine .bind (.shorter ih (.pure nofun)) fun more hm => .pure ?_
      exact List.forall_mem_cons.mpr ⟨⟨hs, hv⟩, hm⟩

/-- Takes the run of a value of the given primitives. -/
def readRunWith (primitive : Read Value) (order : List Separator) : Read Chain := do
  discard Read.gap
  let p ← Read.place
  if endsAt (← Read.isLenient) p then throw (Read.unexpected "a value" p)
  let first ← primitive
  discard Read.gap
  return ⟨first, ← readMore primitive order (← Read.left)⟩

/-- Takes the run of a value: the values up to a character that ends it, with the separators between them. -/
def readRun (order : List Separator) : Read Chain := do readRunWith (readPrimitiveIn (← Read.left)) order

theorem readRunWith_flat (hp : Yields primitive IsWhole) (order : List Separator) :
    Yields (readRunWith primitive order) (Chain.IsFlat (Chain.fullOrder order)) := by
  refine .behind fun _ => .behind fun p => .behind fun lenient => .orThrow <| .bind hp fun first hf => .behind fun _ =>
    .behind fun n => .bind (readMore_flat hp order n) fun more hm => .pure ⟨hf, hm⟩

/-- Groups a run that begins at `start`. -/
def group (order : List Separator) (start : Position) (c : Chain) : Read Value := do
  let chain := c.foldAll order (some start)
  if chain.more.isEmpty then return chain.first
  else throw (Read.unexpected "a single value" (← Read.place))

theorem readWith_eq (primitive : Read Value) (order : List Separator) :
    readWith primitive order = (do group order (← Read.place).position (← readRunWith primitive order)) := by
  simp only [readWith, readRunWith, bind_assoc]
  refine bind_congr fun start => bind_congr fun _ => bind_congr fun p => bind_congr fun lenient => ?_
  split
  · rfl
  · simp only [bind_assoc, pure_bind, group]

/-- Folding by an order of separators loses nothing and realises the order: where the run of a value is read, reading
yields one value, and it is the only one that is written as the run and grouped by the order. -/
theorem read_of_run {order : List Separator} {r s : Reader} {c : Chain} (h : (readRun order).outcome r = (.ok c, s)) :
    ∃ v, (read order).outcome r = (.ok v, s) ∧ v.flat [] = c ∧ v.Grouped (Chain.fullOrder order) ∧
      ∀ w : Value, (w.flat []).bare = c.bare → w.Grouped (Chain.fullOrder order) → w.bare = v.bare := by
  rw [readRun, Read.outcome_bind, Read.outcome_left, Read.following_ok] at h
  have flat : c.IsFlat (Chain.fullOrder order) := readRunWith_flat (readPrimitiveIn_whole _) order r c s h
  obtain ⟨v, folded, written, grouped⟩ := flat.foldAll (some r.place.position)
  refine ⟨v, ?_, written, grouped, fun w hw hg => ?_⟩
  · rw [read, Read.outcome_bind, Read.outcome_left, Read.following_ok, readWith_eq, Read.outcome_bind,
      Read.outcome_place, Read.following_ok, Read.outcome_bind, h, Read.following_ok, group, folded]
    rfl
  · have unique := foldAll_grouped hg (flat.separator hg hw) hw.symm (some r.place.position)
    rw [folded] at unique
    exact congrArg Chain.first unique.symm

/-- A run that an order groups which names the comma twice and no space. -/
theorem read_of_run_twice :
    let order := [Separator.comma, .comma, .slash]
    let r := Reader.start "a/b c , d;" { lenient := false } 1
    ∃ c s, (readRun order).outcome r = (.ok c, s) ∧ c.more.map Prod.fst = [.slash, .space, .comma] ∧
      ∃ v, (read order).outcome r = (.ok v, s) ∧ v.flat [] = c ∧ v.Grouped (Chain.fullOrder order) ∧
        ∀ w : Value, (w.flat []).bare = c.bare → w.Grouped (Chain.fullOrder order) → w.bare = v.bare := by
  intro order r
  have known : ((readRun order).outcome r).1.toOption.any
      (fun c => c.more.map Prod.fst = [.slash, .space, .comma]) = true := by decide +kernel
  rcases h : (readRun order).outcome r with ⟨e | c, s⟩
  · rw [h] at known
    cases known
  · rw [h] at known
    exact ⟨c, s, rfl, of_decide_eq_true known, read_of_run h⟩

end Value

end Stylesheet
