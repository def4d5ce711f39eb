import Mathlib.Data.List.Basic
import Stylesheet.Proofs.Bare
import Stylesheet.Proofs.Plain

namespace Stylesheet

namespace Chain

/-- One chain behind another, with a separator between them. -/
def join (c : Chain) (s : Separator) (d : Chain) : Chain := ⟨c.first, c.more ++ (s, d.first) :: d.more⟩

/-- Several chains behind one, each behind the separator. -/
def joinAll (c : Chain) (s : Separator) (cs : List Chain) : Chain := cs.foldl (fun c d => c.join s d) c

/-- The chain without places. -/
def bare (c : Chain) : Chain := ⟨c.first.bare, c.more.map fun e => (e.1, e.2.bare)⟩

end Chain

mutual

/-- The run that a value is written as. Lists of the separators in `done` are left whole. -/
def Value.flat (done : List Separator) : Value → Chain
  | .list (v :: vs) s p =>
    if s ∈ done then ⟨.list (v :: vs) s p, []⟩ else (v.flat done).joinAll s (Value.flatAll done vs)
  | v => ⟨v, []⟩
termination_by structural v => v

def Value.flatAll (done : List Separator) : List Value → List Chain
  | [] => []
  | v :: vs => v.flat done :: Value.flatAll done vs
termination_by structural vs => vs

end

/-- No list. -/
def Value.IsWhole (v : Value) : Prop := ∀ vs s p, v ≠ .list vs s p

/-- Grouped by an order of separators: a list has two components or more, and a list in it is of a separator that comes
earlier in the order. -/
inductive Value.Grouped (order : List Separator) : Value → Prop
  | whole {v : Value} : v.IsWhole → Grouped order v
  | list {vs : List Value} {s : Separator} {p : Option Position} : 2 ≤ vs.length →
    (∀ v ∈ vs, Grouped order v) → (∀ us t q, .list us t q ∈ vs → order.idxOf t < order.idxOf s) →
    Grouped order (.list vs s p)

namespace Chain

variable {d s : Separator} {p : Option Position}

/-- A separator that is not grouped by ends a group. -/
theorem groups_append (h : s ≠ d) (v w : Value) (more behind : List (Separator × Value)) :
    groups d v (more ++ (s, w) :: behind) =
      ((groups d v more).1, (groups d v more).2 ++ (s, (groups d w behind).1) :: (groups d w behind).2) := by
  induction more generalizing v with
  | nil => simp only [List.nil_append, groups, if_neg h]
  | cons entry more ih =>
    obtain ⟨t, u⟩ := entry
    rw [List.cons_append, groups, groups, ih]
    dsimp only
    split
    · rfl
    · rfl

theorem fold_join (h : s ≠ d) (c e : Chain) : (c.join s e).fold d p = (c.fold d p).join s (e.fold d p) := by
  simp only [fold, join, groups_append h, List.map_append, List.map_cons]

theorem fold_joinAll (h : s ≠ d) (c : Chain) (cs : List Chain) :
    (c.joinAll s cs).fold d p = (c.fold d p).joinAll s (cs.map (fold d p)) := by
  induction cs generalizing c with
  | nil => rfl
  | cons e cs ih =>
    rw [joinAll, List.foldl_cons, ← joinAll, ih, fold_join h]
    rfl

/-- One group where all separators are the one that is grouped by. -/
theorem groups_same (v : Value) (vs : List Value) : groups d v (vs.map fun w => (d, w)) = (v :: vs, []) := by
  induction vs generalizing v with
  | nil => rfl
  | cons w vs ih =>
    rw [List.map_cons, groups, ih]
    exact if_pos rfl

theorem bare_join (c e : Chain) : (c.join s e).bare = c.bare.join s e.bare := by
  simp only [bare, join, List.map_append, List.map_cons]

theorem bare_joinAll (c : Chain) (cs : List Chain) : (c.joinAll s cs).bare = c.bare.joinAll s (cs.map bare) := by
  induction cs generalizing c with
  | nil => rfl
  | cons e cs ih =>
    rw [joinAll, List.foldl_cons, ← joinAll, ih, bare_join]
    rfl

theorem bare_close (vs : List Value) : (close d p vs).bare = close d none (vs.map Value.bare) := by
  match vs with
  | [] => rfl
  | [v] => rfl
  | v :: w :: vs => rw [List.map_cons, List.map_cons, close, close, Value.bare, Value.bareAll_eq_map] <;> simp

theorem groups_bare (v : Value) (more : List (Separator × Value)) :
    groups d v.bare (more.map fun e => (e.1, e.2.bare)) =
      ((groups d v more).1.map Value.bare, (groups d v more).2.map fun e => (e.1, e.2.map Value.bare)) := by
  induction more generalizing v with
  | nil => rfl
  | cons entry more ih =>
    obtain ⟨t, u⟩ := entry
    rw [List.map_cons, groups, groups, ih]
    dsimp only
    split
    · rfl
    · rfl

/-- Grouping does not look at places. -/
theorem bare_fold (c : Chain) : (c.fold d p).bare = c.bare.fold d none := by
  simp only [fold, bare, groups_bare, bare_close, List.map_map, Function.comp_def]

theorem bare_foldAll (order : List Separator) (c : Chain) :
    (c.foldAll order p).bare = c.bare.foldAll order none := by
  unfold foldAll
  induction fullOrder order generalizing c with
  | nil => rfl
  | cons d ds ih => rw [List.foldl_cons, List.foldl_cons, ih, bare_fold]

end Chain

namespace Value

theorem flatAll_eq_map (done : List Separator) (vs : List Value) : flatAll done vs = vs.map (flat done) := by
  induction vs with
  | nil => rfl
  | cons v vs ih => rw [flatAll, ih, List.map_cons]

theorem arePlain_iff {vs : List Value} {order : List Separator} :
    arePlain vs order = true ↔ ∀ v ∈ vs, v.isPlain order = true := by
  induction vs with
  | nil => simp [arePlain]
  | cons v vs ih => rw [arePlain, Bool.and_eq_true, ih, List.forall_mem_cons]

theorem flat_loose {done : List Separator} {s : Separator} (hs : s ∉ done) (v : Value) (vs : List Value)
    (p : Option Position) : flat done (.list (v :: vs) s p) = (v.flat done).joinAll s (vs.map (flat done)) := by
  rw [flat, if_neg hs, flatAll_eq_map]

theorem flat_tight {done : List Separator} {s : Separator} (hs : s ∈ done) (vs : List Value)
    (p : Option Position) : flat done (.list vs s p) = ⟨.list vs s p, []⟩ := by
  cases vs with
  | nil => rfl
  | cons v vs => exact if_pos hs

theorem joinAll_whole (s : Separator) (v : Value) (vs : List Value) (more : List (Separator × Value)) :
    (Chain.mk v more).joinAll s (vs.map fun w => ⟨w, []⟩) = ⟨v, more ++ vs.map fun w => (s, w)⟩ := by
  induction vs generalizing more with
  | nil => simp [Chain.joinAll]
  | cons w vs ih =>
    rw [List.map_cons, Chain.joinAll, List.foldl_cons, ← Chain.joinAll, Chain.join, ih]
    simp

/-- Induction over the lists in a value. -/
theorem list_induction {P : Value → Prop} (whole : ∀ v, v.IsWhole → P v)
    (list : ∀ vs s p, (∀ v ∈ vs, P v) → P (.list vs s p)) (v : Value) : P v := by
  match v with
  | .list vs s p => exact list vs s p fun u hu => list_induction whole list u
  | .keyword _ => exact whole _ nofun
  | .size _ => exact whole _ nofun
  | .color _ _ _ => exact whole _ nofun
  | .string _ => exact whole _ nofun
  | .url _ => exact whole _ nofun
  | .function _ _ _ _ => exact whole _ nofun
  | .calculation _ _ _ => exact whole _ nofun
  | .lineNames _ _ => exact whole _ nofun
termination_by sizeOf v

theorem flat_other {done : List Separator} {v : Value} (hv : v.IsWhole) : v.flat done = ⟨v, []⟩ := by
  cases v with
  | list vs s p => exact absurd rfl (hv vs s p)
  | keyword | size | color | string | url | function | calculation | lineNames => rfl

/-- A value is left whole that is no list, or a list of a separator in `done`. -/
theorem flat_whole {done : List Separator} {v : Value} (hv : ∀ vs s p, v = .list vs s p → s ∈ done) :
    v.flat done = ⟨v, []⟩ := by
  cases v with
  | list vs s p => exact flat_tight (hv vs s p rfl) vs p
  | keyword | size | color | string | url | function | calculation | lineNames => rfl

/-- What comes earlier than `d` in an order stands before the first `d`. -/
theorem mem_of_idxOf_lt {before behind : List Separator} {d t : Separator}
    (h : (before ++ d :: behind).idxOf t < (before ++ d :: behind).idxOf d) : t ∈ before := by
  by_contra absent
  have reached : (before ++ d :: behind).idxOf d ≤ before.length := by
    by_cases hd : d ∈ before
    · rw [List.idxOf_append_of_mem hd]
      exact Nat.le_of_lt (List.idxOf_lt_length_of_mem hd)
    · rw [List.idxOf_append_of_notMem hd, List.idxOf_cons_self]
      exact Nat.le_refl _
  rw [List.idxOf_append_of_notMem absent] at h
  omega

/-- Grouping by the next separator makes whole the lists of that separator. -/
theorem fold_flat {done : List Separator} {d : Separator} {behind : List Separator} {v : Value}
    (hv : v.Grouped (done.reverse ++ d :: behind)) : ((v.flat done).fold d none).bare = (v.flat (d :: done)).bare := by
  induction hv with
  | whole other =>
    rw [flat_other other, flat_other other]
    rfl
  | @list vs s p two _ tighter ih =>
    match vs, two with
    | v :: w :: vs, _ =>
      by_cases tight : s ∈ done
      · rw [flat_tight tight, flat_tight (List.mem_cons_of_mem d tight)]
        rfl
      · by_cases same : s = d
        · subst same
          have whole (u : Value) (hu : u ∈ v :: w :: vs) : u.flat done = ⟨u, []⟩ :=
            flat_whole fun us t q hl => List.mem_reverse.mp (mem_of_idxOf_lt (tighter us t q (hl ▸ hu)))
          have flats : (w :: vs).map (flat done) = (w :: vs).map fun u => ⟨u, []⟩ :=
            List.map_congr_left fun u hu => whole u (List.mem_cons_of_mem v hu)
          rw [flat_tight List.mem_cons_self, flat_loose tight, flats, whole v List.mem_cons_self, joinAll_whole,
            List.nil_append]
          simp only [Chain.fold, Chain.groups_same, List.map_nil]
          rfl
        · have loose : s ∉ d :: done := fun h => (List.mem_cons.mp h).elim same tight
          rw [flat_loose tight, flat_loose loose, Chain.fold_joinAll same, Chain.bare_joinAll, Chain.bare_joinAll,
            ih v List.mem_cons_self]
          congr 1
          rw [List.map_map, List.map_map, List.map_map]
          exact List.map_congr_left fun u hu => ih u (List.mem_cons_of_mem v hu)

theorem foldl_flat {v : Value} {k behind : List Separator} (hv : v.Grouped (k.reverse ++ behind))
    (hs : ∀ vs s p, v = .list vs s p → s ∈ k.reverse ++ behind) {c : Chain} (hc : c.bare = (v.flat k).bare) :
    (behind.foldl (fun c d => c.fold d none) c).bare = ⟨v.bare, []⟩ := by
  induction behind generalizing k c with
  | nil =>
    rw [List.append_nil] at hs
    rw [List.foldl_nil, hc, flat_whole fun vs s p hl => List.mem_reverse.mp (hs vs s p hl)]
    rfl
  | cons d behind ih =>
    have order : k.reverse ++ d :: behind = (d :: k).reverse ++ behind := by
      rw [List.reverse_cons, List.append_assoc]
      rfl
    rw [List.foldl_cons]
    refine ih (order ▸ hv) (order ▸ hs) ?_
    rw [Chain.bare_fold, hc, ← Chain.bare_fold, fold_flat hv]

/-- Grouping what a grouped value is written as gives the value back. -/
theorem foldAll_grouped {order : List Separator} {v : Value} (hv : v.Grouped (Chain.fullOrder order))
    (hs : ∀ vs s p, v = .list vs s p → s ∈ Chain.fullOrder order) {c : Chain} (hc : c.bare = (v.flat []).bare)
    (p : Option Position) : (c.foldAll order p).bare = ⟨v.bare, []⟩ := by
  have placeless : (c.foldAll order p).bare = (c.foldAll order none).bare := by
    rw [Chain.bare_foldAll, Chain.bare_foldAll]
  rw [placeless, Chain.foldAll]
  exact foldl_flat (k := []) hv hs hc

theorem idxOf_lt_of_mem_takeWhile {order : List Separator} {s t : Separator} (hs : s ∈ order)
    (ht : t ∈ order.takeWhile (· ≠ s)) : order.idxOf t < order.idxOf s := by
  induction order with
  | nil => cases ht
  | cons d order ih =>
    rw [List.takeWhile_cons] at ht
    split at ht
    · next other =>
      have later : d ≠ s := by simpa using other
      rw [List.idxOf_cons_ne order later]
      rcases List.mem_cons.mp ht with rfl | ht
      · rw [List.idxOf_cons_self]
        exact Nat.succ_pos _
      · have known := ih ((List.mem_cons.mp hs).resolve_left later.symm) ht
        by_cases here : d = t
        · rw [here, List.idxOf_cons_self]
          exact Nat.succ_pos _
        · rw [List.idxOf_cons_ne order here]
          exact Nat.succ_lt_succ known
    · cases ht

/-- A plain value is grouped by its order, and by every order that begins with it. -/
theorem grouped_of_isPlain {order whole : List Separator} (ho : order <+: whole) {v : Value}
    (hv : v.isPlain order = true) : v.Grouped whole := by
  induction v using list_induction generalizing order with
  | whole v other => exact .whole other
  | list vs s p ih =>
    simp only [isPlain, Bool.and_eq_true, List.contains_iff_mem, decide_eq_true_eq] at hv
    obtain ⟨⟨two, hs⟩, parts⟩ := hv
    rw [arePlain_iff] at parts
    refine .list two (fun v hm => ih v hm ((List.takeWhile_prefix _).trans ho) (parts v hm)) fun us t q hm => ?_
    have earlier : t ∈ order.takeWhile (· ≠ s) := by
      have part := parts _ hm
      simp only [isPlain, Bool.and_eq_true, List.contains_iff_mem] at part
      exact part.1.2
    have before := idxOf_lt_of_mem_takeWhile hs earlier
    obtain ⟨behind, rfl⟩ := ho
    rwa [List.idxOf_append_of_mem hs, List.idxOf_append_of_mem ((List.takeWhile_sublist _).mem earlier)]

/-- Grouping what a plain value is written as gives the value back. -/
theorem foldAll_flat {order : List Separator} (ho : .space ∈ order) {v : Value} (hv : v.isPlain order = true)
    {c : Chain} (hc : c.bare = (v.flat []).bare) (p : Option Position) :
    (c.foldAll order p).bare = ⟨v.bare, []⟩ := by
  have full : Chain.fullOrder order = order := if_pos (List.contains_iff_mem.mpr ho)
  refine foldAll_grouped (full.symm ▸ grouped_of_isPlain (List.prefix_refl order) hv) (fun vs s q hl => ?_) hc p
  subst hl
  simp only [isPlain, Bool.and_eq_true, List.contains_iff_mem] at hv
  exact full.symm ▸ hv.1.2

theorem isPlain_other {v : Value} (hv : v.IsWhole) (order order' : List Separator) :
    v.isPlain order = v.isPlain order' := by
  cases v with
  | list vs s p => exact absurd rfl (hv vs s p)
  | keyword | size | color | string | url | function | calculation | lineNames => rfl

end Value

namespace Chain

/-- A chain of values that `P` holds of, with separators of the order. -/
structure IsRun (P : Value → Prop) (order : List Separator) (c : Chain) : Prop where
  first : P c.first
  more : ∀ e ∈ c.more, e.1 ∈ order ∧ P e.2

theorem IsRun.mono {P : Value → Prop} {order order' : List Separator} {c : Chain} (hc : c.IsRun P order)
    (h : ∀ s ∈ order, s ∈ order') : c.IsRun P order' :=
  ⟨hc.first, fun e he => ⟨h _ (hc.more e he).1, (hc.more e he).2⟩⟩

theorem IsRun.joinAll {P : Value → Prop} {order : List Separator} {c : Chain} {s : Separator} {cs : List Chain}
    (hs : s ∈ order) (hc : c.IsRun P order) (hcs : ∀ e ∈ cs, e.IsRun P order) : (c.joinAll s cs).IsRun P order := by
  induction cs generalizing c with
  | nil => exact hc
  | cons e cs ih =>
    have he := hcs e List.mem_cons_self
    refine ih ⟨hc.first, fun x hx => ?_⟩ fun e' he' => hcs e' (List.mem_cons_of_mem e he')
    rcases List.mem_append.mp hx with hx | hx
    · exact hc.more x hx
    · rcases List.mem_cons.mp hx with rfl | hx
      · exact ⟨hs, he.first⟩
      · exact he.more x hx

/-- The text of values behind separators. -/
def textOfMore (f : Layout) (more : List (Separator × Value)) : List Char :=
  more.flatMap fun (s, v) => (f.around s).toList ++ (v.toCss f).toList

theorem textOfMore_cons (f : Layout) (s : Separator) (v : Value) (more : List (Separator × Value)) :
    textOfMore f ((s, v) :: more) = (f.around s).toList ++ ((v.toCss f).toList ++ textOfMore f more) := by
  rw [textOfMore, List.flatMap_cons, ← textOfMore, List.append_assoc]

/-- The text of a chain. -/
def text (f : Layout) (c : Chain) : List Char := (c.first.toCss f).toList ++ textOfMore f c.more

theorem text_join (f : Layout) (c : Chain) (s : Separator) (e : Chain) :
    (c.join s e).text f = c.text f ++ ((f.around s).toList ++ e.text f) := by
  simp only [text, textOfMore, join, List.flatMap_append, List.flatMap_cons, List.append_assoc]

theorem text_joinAll (f : Layout) (c : Chain) (s : Separator) (cs : List Chain) :
    (c.joinAll s cs).text f = c.text f ++ cs.flatMap fun e => (f.around s).toList ++ e.text f := by
  induction cs generalizing c with
  | nil => simp [joinAll]
  | cons e cs ih =>
    rw [joinAll, List.foldl_cons, ← joinAll, ih, text_join, List.flatMap_cons, List.append_assoc, List.append_assoc]

end Chain

theorem toList_intercalate_cons (between first : String) (texts : List String) :
    (String.intercalate between (first :: texts)).toList =
      first.toList ++ texts.flatMap fun t => between.toList ++ t.toList := by
  induction texts generalizing first with
  | nil => simp
  | cons t texts ih =>
    rw [String.intercalate_cons_cons, String.toList_append, String.toList_append, ih, List.flatMap_cons]
    simp only [List.append_assoc]

namespace Value

theorem texts_eq_map (f : Layout) (vs : List Value) : texts f vs = vs.map (toCss f) := by
  induction vs with
  | nil => rfl
  | cons v vs ih => rw [texts, ih, List.map_cons]

/-- A value is written as its run. -/
theorem toCss_flat (f : Layout) (v : Value) : (v.toCss f).toList = (v.flat []).text f := by
  induction v using list_induction with
  | whole v other =>
    rw [flat_other other]
    exact (List.append_nil _).symm
  | list vs s p ih =>
    cases vs with
    | nil => exact (List.append_nil _).symm
    | cons v vs =>
      rw [flat_loose List.not_mem_nil, Chain.text_joinAll, ← ih v List.mem_cons_self, toCss, texts_eq_map,
        List.map_cons, toList_intercalate_cons, List.flatMap_map, List.flatMap_map]
      congr 1
      rw [List.flatMap_def, List.flatMap_def]
      congr 1
      exact List.map_congr_left fun u hu => by rw [ih u (List.mem_cons_of_mem v hu)]

/-- A list is written as the runs of its components, one behind the other. -/
theorem flat_isRun {P : Value → Prop} {order : List Separator} {vs : List Value} {s : Separator} {p : Option Position}
    (nonempty : vs ≠ []) (hs : s ∈ order) (parts : ∀ v ∈ vs, (v.flat []).IsRun P order) :
    ((Value.list vs s p).flat []).IsRun P order := by
  match vs, nonempty with
  | v :: vs, _ =>
    rw [flat_loose List.not_mem_nil]
    refine .joinAll hs (parts v List.mem_cons_self) fun e he => ?_
    obtain ⟨u, hu, rfl⟩ := List.mem_map.mp he
    exact parts u (List.mem_cons_of_mem v hu)

theorem flat_isPlain {order : List Separator} {v : Value} (hv : v.isPlain order = true) :
    (v.flat []).IsRun (·.isPlain [] = true) order := by
  induction v using list_induction generalizing order with
  | whole v other =>
    rw [flat_other other]
    exact ⟨(isPlain_other other order []) ▸ hv, fun e he => by cases he⟩
  | list vs s p ih =>
    simp only [isPlain, Bool.and_eq_true, List.contains_iff_mem, decide_eq_true_eq] at hv
    obtain ⟨⟨two, hs⟩, parts⟩ := hv
    rw [arePlain_iff] at parts
    have tighter (t : Separator) (ht : t ∈ order.takeWhile (· ≠ s)) : t ∈ order :=
      (List.takeWhile_sublist _).mem ht
    refine flat_isRun (List.ne_nil_of_length_pos (by omega)) hs fun u hu => ?_
    exact (ih u hu (parts u hu)).mono tighter

end Value

end Stylesheet
