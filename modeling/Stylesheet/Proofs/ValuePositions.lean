import Stylesheet.Proofs.DocumentOrder
import Stylesheet.Proofs.Folding
import Stylesheet.Proofs.Leaves
import Stylesheet.Proofs.Progress

namespace Stylesheet

mutual

/-- A value and all that stands in its nested lists, each list before its components. -/
def Value.nodes : Value → List Value
  | .list vs s p => .list vs s p :: Value.nodesOf vs
  | v => [v]
termination_by structural v => v

def Value.nodesOf : List Value → List Value
  | [] => []
  | v :: vs => v.nodes ++ Value.nodesOf vs
termination_by structural vs => vs

end

def Value.isList : Value → Bool
  | .list .. => true
  | _ => false

/-- Where values stand, bare words apart. -/
def Value.positions (vs : List Value) : List Position := vs.filterMap Value.position?

/-- The values of a chain. -/
def Chain.values (c : Chain) : List Value := c.first :: c.more.map Prod.snd

namespace Value

open Read (Yields YieldsAt)
open Position (Climb)

variable {nested : List Separator → Read Value} {inner word primitive : Read Value}

/-- At `p`, or without a place. -/
def StandsAt (p : Position) (v : Value) : Prop := ∀ q, v.position? = some q → q = p

theorem IsMarkedAt.standsAt {p : Position} {v : Value} (h : v.IsMarkedAt p) : v.StandsAt p :=
  fun _ hq => Option.some.inj (hq.symm.trans h.position)

theorem standsAt_of_none {p : Position} {v : Value} (h : v.position? = none) : v.StandsAt p := by
  intro q hq
  rw [h] at hq
  cases hq

/-- A call goes back to where its name began. -/
theorem readWord_standsAt (ignoreCase : Bool) : YieldsAt (readWord nested inner ignoreCase) StandsAt := by
  intro r v t h
  rw [outcome_readWord] at h
  split at h
  · cases h
  · next name s _ =>
    split at h
    · cases h
      exact standsAt_of_none rfl
    · exact (readCall_marked ignoreCase name { s with place := r.place } v t h).standsAt

theorem orSign_unplaced (next : Option Char) (e : Fault) : Yields (orSign next e) fun v => v.position? = none := by
  unfold orSign
  split
  · split
    · exact .map fun _ => rfl
    · exact .throw _
  · exact .throw _

theorem readWordOrSign_standsAt (hw : YieldsAt word StandsAt) : YieldsAt (readWordOrSign word) StandsAt := by
  intro r v t h
  rw [outcome_readWordOrSign] at h
  rcases read : word.outcome r with ⟨e | u, s⟩
  · rw [read] at h
    exact standsAt_of_none (orSign_unplaced _ e s v t h)
  · rw [read] at h
    cases h
    exact hw r v t read

theorem readForm_standsAt (lenient : Bool) (p : Place) : YieldsAt (readForm nested inner lenient p) StandsAt := by
  rcases readForm_cases nested inner lenient p with marked | range | word
  · exact marked.mono fun _ _ => IsMarkedAt.standsAt
  · have unplaced : Yields readRange fun v => v.position? = none :=
      .behind fun _ => .behind fun _ => .orThrow (.behind fun _ => .pure rfl)
    rw [range]
    exact fun r v s h => standsAt_of_none (unplaced r v s h)
  · rw [word]
    exact readWordOrSign_standsAt (readWord_standsAt false)

/-- Whatever the step yields, the positions of the values in it increase along the text that is taken. -/
def Climbs {α : Type} (x : Read α) (values : α → List Value) : Prop :=
  ∀ r a s, x.outcome r = (.ok a, s) →
    r.Reaches s ∧ Climb r.position s.position ((positions (values a)).map some)

theorem positions_cons (v : Value) (vs : List Value) : positions (v :: vs) = positions [v] ++ positions vs :=
  List.filterMap_append (l := [v])

theorem readPrimitiveWith_climbs (hn : ∀ order text, SteadyPart text (nested order))
    (hi : ∀ text, SteadyPart text inner) : Climbs (readPrimitiveWith nested inner) fun v => [v] := by
  intro r v u h
  rw [readPrimitiveWith_eq] at h
  obtain ⟨_, s, before, h⟩ := Read.ok_of_bind h
  obtain ⟨_, _, ⟨⟩, h⟩ := Read.ok_of_bind h
  obtain ⟨_, _, ⟨⟩, h⟩ := Read.ok_of_bind h
  obtain ⟨w, t, form, h⟩ := Read.ok_of_bind h
  obtain ⟨_, _, behind, h⟩ := Read.ok_of_bind h
  cases h
  have came : r.Reaches s := gap_steady.discard.reaches before
  obtain ⟨cs, skipped⟩ := Read.ok_of_discard before
  have taken := (readForm_advancesAt hn hi _ (Read.stops_of_gap skipped) v t form).reaches
    (gap_steady.discard.reaches behind)
  refine ⟨came.trans taken.toReaches, ?_⟩
  have stands := readForm_standsAt _ _ s v t form
  unfold positions
  cases place : v.position? with
  | none =>
    rw [List.filterMap_cons_none place]
    exact .nil _ _
  | some q =>
    rw [stands q place] at place
    rw [List.filterMap_cons_some place]
    exact (Climb.single taken.before).widen came.not_before (Position.before_irrefl _)

theorem readPrimitiveIn_climbs (n : Nat) : Climbs (readPrimitiveIn n) fun v => [v] := by
  rw [readPrimitiveIn]
  exact readPrimitiveWith_climbs (fun order _ => nestedIn_steady n order) fun _ => innerIn_steady n

theorem Climbs.shorter {α : Type} {values : α → List Value} {n : Nat} {again : (m : Nat) → m < n → Read α}
    {otherwise : Read α} (ha : ∀ m h, Climbs (again m h) values) (ho : Climbs otherwise values) :
    Climbs (Read.shorter n again otherwise) values := by
  intro r a s h
  rw [Read.outcome_shorter] at h
  split at h
  · exact ha _ _ r a s h
  · exact ho r a s h

/-- A value with the gap behind it, and other values that are reached next. -/
theorem Climbs.first (hp : Climbs primitive fun v => [v]) {r s t u x : Reader} {v : Value} {vs : List Value} {w : Unit}
    (before : r.Reaches s) (taken : primitive.outcome s = (.ok v, t)) (skipped : (discard Read.gap).outcome t = (.ok w, u))
    (others : u.Reaches x ∧ Climb u.position x.position ((positions vs).map some)) :
    r.Reaches x ∧ Climb r.position x.position ((positions (v :: vs)).map some) := by
  have behind := gap_steady.discard.reaches skipped
  obtain ⟨within, first⟩ := hp s v t taken
  obtain ⟨on, more⟩ := others
  have came := (before.trans within).trans behind
  refine ⟨came.trans on, ?_⟩
  rw [positions_cons, List.map_append]
  exact (first.widen before.not_before behind.not_before).append more came.not_before on.not_before

theorem readMore_climbs (hp : Climbs primitive fun v => [v]) (order : List Separator) (n : Nat) :
    Climbs (readMore primitive order n) (List.map Prod.snd) := by
  have ended : Climbs (pure [] : Read (List (Separator × Value))) (List.map Prod.snd) := by
    rintro r _ _ ⟨⟩
    exact ⟨.refl r, .nil _ _⟩
  induction n using Nat.strongRecOn with
  | ind n ih =>
    intro r es x h
    rw [readMore] at h
    obtain ⟨_, _, ⟨⟩, h⟩ := Read.ok_of_bind h
    obtain ⟨_, _, ⟨⟩, h⟩ := Read.ok_of_bind h
    split at h
    · exact ended r es x h
    · obtain ⟨sep, s, separated, h⟩ := Read.ok_of_bind h
      obtain ⟨v, t, taken, h⟩ := Read.ok_of_bind h
      obtain ⟨_, u, skipped, h⟩ := Read.ok_of_bind h
      obtain ⟨more, _, followed, h⟩ := Read.ok_of_bind h
      cases h
      have before := (readSeparator_steady order).reaches separated
      exact hp.first before taken skipped (Climbs.shorter ih ended u more x followed)

theorem readRunWith_climbs (hp : Climbs primitive fun v => [v]) (order : List Separator) :
    Climbs (readRunWith primitive order) Chain.values := by
  intro r c x h
  rw [readRunWith] at h
  obtain ⟨_, s, skipped, h⟩ := Read.ok_of_bind h
  obtain ⟨_, _, ⟨⟩, h⟩ := Read.ok_of_bind h
  obtain ⟨_, _, ⟨⟩, h⟩ := Read.ok_of_bind h
  split at h
  · cases h
  · obtain ⟨v, t, taken, h⟩ := Read.ok_of_bind h
    obtain ⟨_, u, passed, h⟩ := Read.ok_of_bind h
    obtain ⟨_, _, ⟨⟩, h⟩ := Read.ok_of_bind h
    obtain ⟨more, _, followed, h⟩ := Read.ok_of_bind h
    cases h
    exact hp.first (gap_steady.discard.reaches skipped) taken passed (readMore_climbs hp order _ u more x followed)

theorem nodesOf_eq (vs : List Value) : nodesOf vs = vs.flatMap nodes := by
  induction vs with
  | nil => rfl
  | cons v vs ih => rw [nodesOf, ih, List.flatMap_cons]

theorem nodes_whole {v : Value} (hv : v.IsWhole) : v.nodes = [v] := by
  cases v with
  | list vs s p => exact absurd rfl (hv vs s p)
  | keyword | size | color | string | url | function | calculation | lineNames => rfl

theorem IsWhole.isList {v : Value} (hv : v.IsWhole) : v.isList = false := by
  cases v with
  | list vs s p => exact absurd rfl (hv vs s p)
  | keyword | size | color | string | url | function | calculation | lineNames => rfl

/-- The leaves are what is no list. -/
theorem leaves_eq_filter (v : Value) : v.leaves false = v.nodes.filter fun u => !u.isList := by
  induction v using list_induction with
  | whole v hv =>
    rw [leaves_shallow hv, nodes_whole hv, List.filter_cons, hv.isList]
    rfl
  | list vs s p ih =>
    have opened : (!isList (.list vs s p)) = false := rfl
    rw [leaves, leavesOf_eq, nodes, List.filter_cons, opened, if_neg Bool.false_ne_true, nodesOf_eq, List.filter_flatMap]
    exact List.flatMap_congr ih

end Value

namespace Chain

open Value (nodesOf leavesOf leavesOf_eq nodesOf_eq)

variable {d : Separator} {p : Option Position} {vs : List Value} {c : Chain}

theorem groups_flatten (v : Value) (more : List (Separator × Value)) :
    (groups d v more).1 ++ ((groups d v more).2.map Prod.snd).flatten = v :: more.map Prod.snd := by
  induction more generalizing v with
  | nil => rfl
  | cons e more ih =>
    rw [groups_cons]
    split
    · rw [List.cons_append, ih, List.map_cons]
    · rw [List.map_cons, List.map_cons, List.flatten_cons, ih, List.singleton_append]

/-- Folding parts the values into groups and closes each of them. -/
theorem values_fold (d : Separator) (p : Option Position) (c : Chain) :
    ∃ gs : List (List Value), (c.fold d p).values = gs.map (close d p) ∧ gs.flatten = c.values := by
  refine ⟨(groups d c.first c.more).1 :: (groups d c.first c.more).2.map Prod.snd, ?_, groups_flatten _ _⟩
  rw [values, fold, List.map_cons, List.map_map, List.map_map]
  rfl

theorem leaves_close (g : List Value) : (close d p g).leaves false = leavesOf false g := by
  match g with
  | [] => rfl
  | [v] => exact (List.append_nil _).symm
  | v :: w :: g => rfl

theorem list_of_close {g : List Value} {u : Value} (hu : u ∈ (close d p g).nodes) :
    u = .list g d p ∨ u ∈ nodesOf g := by
  match g with
  | [] => exact .inl (List.mem_singleton.mp hu)
  | [v] =>
    rw [close] at hu
    exact .inr (List.mem_append_left _ hu)
  | v :: w :: g => exact List.mem_cons.mp hu

/-- The leaves of the values are `vs`, and all lists among them are at `p`. -/
structure LaidAt (p : Option Position) (vs : List Value) (c : Chain) : Prop where
  leaves : leavesOf false c.values = vs
  lists : ∀ u ∈ nodesOf c.values, u.isList = true → u.position? = p

theorem LaidAt.fold (hc : c.LaidAt p vs) (d : Separator) : (c.fold d p).LaidAt p vs := by
  obtain ⟨gs, closed, parts⟩ := values_fold d p c
  refine ⟨?_, fun u hu listed => ?_⟩
  · rw [closed, ← hc.leaves, ← parts, leavesOf_eq, leavesOf_eq, List.flatMap_map, ← List.flatMap_id, List.flatMap_assoc]
    refine List.flatMap_congr fun g _ => ?_
    rw [leaves_close, leavesOf_eq]
    rfl
  · rw [closed, nodesOf_eq, List.flatMap_map] at hu
    obtain ⟨g, hg, hu⟩ := List.mem_flatMap.mp hu
    rcases list_of_close hu with rfl | hu
    · rfl
    · refine hc.lists u ?_ listed
      rw [nodesOf_eq] at hu ⊢
      obtain ⟨v, hv, hu⟩ := List.mem_flatMap.mp hu
      rw [← parts]
      exact List.mem_flatMap_of_mem (List.mem_flatten_of_mem hg hv) hu

theorem LaidAt.foldAll (hc : c.LaidAt p vs) (order : List Separator) : (c.foldAll order p).LaidAt p vs := by
  rw [Chain.foldAll]
  induction fullOrder order generalizing c with
  | nil => exact hc
  | cons d order ih => exact ih (hc.fold d)

/-- A run as it is read has no lists. -/
theorem IsFlat.laidAt {order : List Separator} (hc : c.IsFlat order) (p : Option Position) : c.LaidAt p c.values := by
  have whole : ∀ v ∈ c.values, v.IsWhole := by
    refine List.forall_mem_cons.mpr ⟨hc.first, fun v hv => ?_⟩
    obtain ⟨e, he, rfl⟩ := List.mem_map.mp hv
    exact (hc.more e he).2
  refine ⟨?_, fun u hu listed => ?_⟩
  · rw [leavesOf_eq, List.flatMap_congr fun v hv => Value.leaves_shallow (whole v hv), List.flatMap_singleton']
  · rw [nodesOf_eq, List.flatMap_congr fun v hv => Value.nodes_whole (whole v hv), List.flatMap_singleton'] at hu
    rw [(whole u hu).isList] at listed
    cases listed

end Chain

namespace Value

/-- Lists that all stand at `p` are in order among increasing positions from `p` on just where nothing further on comes
before them. -/
theorem sorted_positions {ns : List Value} {p : Position}
    (lists : ∀ u ∈ ns, u.isList = true → u.position? = some p)
    (increase : (positions (ns.filter fun u => !u.isList)).Pairwise fun q q' => q.before q' = true)
    (within : ∀ q ∈ positions (ns.filter fun u => !u.isList), q.before p = false) :
    Position.Sorted (positions ns) ↔
      ∀ front u back, ns = front ++ u :: back → u.isList = true → ∀ q ∈ positions front, q = p := by
  have atStart : ∀ u ∈ ns, u.isList = true → u.StandsAt p :=
    fun u hu listed q hq => Option.some.inj (hq.symm.trans (lists u hu listed))
  have behind : ∀ u ∈ ns, ∀ q, u.position? = some q → q.before p = false := by
    intro u hu q hq
    cases listed : u.isList with
    | true =>
      rw [atStart u hu listed q hq]
      exact Position.before_irrefl p
    | false =>
      have left : u ∈ ns.filter fun u => !u.isList := List.mem_filter.mpr ⟨hu, by rw [listed]; rfl⟩
      exact within q (List.mem_filterMap.mpr ⟨u, left, hq⟩)
  constructor
  · rintro sorted front u back rfl listed q hq
    have here := lists u (List.mem_append_right _ List.mem_cons_self) listed
    rw [positions, List.filterMap_append, List.filterMap_cons_some here, Position.sorted_around] at sorted
    obtain ⟨w, hw, place⟩ := List.mem_filterMap.mp hq
    exact Position.eq_of_not_before (behind w (List.mem_append_left _ hw) q place) (sorted.2.1 q hq)
  · intro start
    -- of two positions the later one is that of a list, or the earlier one is, or neither
    refine List.pairwise_filterMap.mpr (List.pairwise_iff_getElem.mpr fun i j hi hj less q hq q' hq' => ?_)
    cases later : ns[j].isList with
    | true =>
      have parts : ns = ns.take j ++ ns[j] :: ns.drop (j + 1) := by simp
      have earlier : ns[i] ∈ ns.take j := List.mem_take_iff_getElem.mpr ⟨i, by omega, rfl⟩
      rw [start _ _ _ parts later q (List.mem_filterMap.mpr ⟨_, earlier, hq⟩),
        atStart _ (List.getElem_mem hj) later q' hq']
      exact Position.before_irrefl p
    | false =>
      cases first : ns[i].isList with
      | true =>
        rw [atStart _ (List.getElem_mem hi) first q hq]
        exact behind _ (List.getElem_mem hj) q' hq'
      | false =>
        have leaves := List.pairwise_iff_getElem.mp (List.pairwise_filter.mp (List.pairwise_filterMap.mp increase))
        have increasing := leaves i j hi hj less (by rw [first]; rfl) (by rw [later]; rfl) q hq q' hq'
        exact Position.not_before_of_before increasing

variable {order : List Separator} {r s : Reader} {v : Value}

/-- The components of a value that was read have increasing positions in the text that was taken, and all lists in it
have the position where that text begins, not their own. So the positions are in source order if and only if no list
comes behind a component that stands further on. -/
theorem positions_of_read (h : (read order).outcome r = (.ok v, s)) :
    (∀ u ∈ v.nodes, u.isList = true → u.position? = some r.position) ∧
      ((positions (v.leaves false)).Pairwise (fun p q => p.before q = true) ∧
        ∀ p ∈ positions (v.leaves false), p.before r.position = false ∧ p.before s.position = true) ∧
      (Position.Sorted (positions v.nodes) ↔
        ∀ front u back, v.nodes = front ++ u :: back → u.isList = true → ∀ p ∈ positions front, p = r.position) := by
  rw [read, Read.outcome_bind, Read.outcome_left, Read.following_ok, readWith_eq] at h
  obtain ⟨_, _, ⟨⟩, h⟩ := Read.ok_of_bind h
  obtain ⟨c, t, run, h⟩ := Read.ok_of_bind h
  have flat : c.IsFlat (Chain.fullOrder order) := readRunWith_flat (readPrimitiveIn_whole _) order r c t run
  obtain ⟨reached, places⟩ := readRunWith_climbs (readPrimitiveIn_climbs _) order r c t run
  have laid := (flat.laidAt (some r.position)).foldAll order
  obtain ⟨w, folded, -, -⟩ := flat.foldAll (some r.place.position)
  rw [Reader.position, folded] at laid
  rw [group, folded] at h
  cases h
  have leaves : w.leaves false = c.values := by rw [← laid.leaves]; exact (List.append_nil _).symm
  have lists : ∀ u ∈ w.nodes, u.isList = true → u.position? = some r.position :=
    fun u hu => laid.lists u (List.mem_append_left _ hu)
  obtain ⟨increase, within⟩ := Position.climb_map_some.mp places
  rw [← leaves] at increase within
  refine ⟨lists, ⟨increase, within⟩, ?_⟩
  rw [leaves_eq_filter] at increase within
  exact sorted_positions lists increase fun q hq => (within q hq).1

/-- The list that the comma makes comes first, at the place of the list around it. -/
theorem positions_of_read_first :
    let r := Reader.start "1px,2px 3px" {} 1
    ∃ v s, (read (Separator.ofProperty "width")).outcome r = (.ok v, s) ∧ Position.Sorted (positions v.nodes) ∧
      (∀ u ∈ v.nodes, u.isList = true → u.position? = some r.position) ∧
      ((positions (v.leaves false)).Pairwise (fun p q => p.before q = true) ∧
        ∀ p ∈ positions (v.leaves false), p.before r.position = false ∧ p.before s.position = true) ∧
      ∀ front u back, v.nodes = front ++ u :: back → u.isList = true → ∀ p ∈ positions front, p = r.position := by
  intro r
  have known : ((read (Separator.ofProperty "width")).outcome r).1.toOption.any
      (fun v => positions v.nodes = [⟨1, 0⟩, ⟨1, 0⟩, ⟨1, 0⟩, ⟨1, 4⟩, ⟨1, 8⟩]) = true := by decide +kernel
  obtain ⟨v, s, value, places⟩ := Read.ok_of_any known
  have sorted : Position.Sorted (positions v.nodes) := by
    rw [of_decide_eq_true places]
    unfold Position.Sorted
    decide
  obtain ⟨lists, leaves, exactly⟩ := positions_of_read value
  exact ⟨v, s, value, sorted, lists, leaves, exactly.mp sorted⟩

/-- The list that the comma makes of the last two lengths comes behind the first two, at the place of the whole value. -/
theorem positions_of_read_last :
    ∃ v s, (read (Separator.ofProperty "width")).outcome (Reader.start "12px 3px 1px,2px" {} 1) = (.ok v, s) ∧
      positions v.nodes = [⟨1, 0⟩, ⟨1, 0⟩, ⟨1, 5⟩, ⟨1, 0⟩, ⟨1, 9⟩, ⟨1, 13⟩] ∧
      ¬ Position.Sorted (positions v.nodes) := by
  have known : ((read (Separator.ofProperty "width")).outcome (Reader.start "12px 3px 1px,2px" {} 1)).1.toOption.any
      (fun v => positions v.nodes = [⟨1, 0⟩, ⟨1, 0⟩, ⟨1, 5⟩, ⟨1, 0⟩, ⟨1, 9⟩, ⟨1, 13⟩]) = true := by decide +kernel
  obtain ⟨v, s, value, places⟩ := Read.ok_of_any known
  have places := of_decide_eq_true places
  refine ⟨v, s, value, places, ?_⟩
  rw [places]
  unfold Position.Sorted
  decide

end Value

end Stylesheet
