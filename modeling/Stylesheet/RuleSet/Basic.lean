import Stylesheet.RuleSet.Declaration
import Stylesheet.Source.Journal

namespace Stylesheet

/-- For each name the indices of its declarations, in the order of the first one. -/
abbrev NameIndex := List (String × List Nat)

namespace NameIndex

/-- Enters an index behind those that the name has. -/
def enter (name : String) (i : Nat) : NameIndex → NameIndex
  | [] => [(name, [i])]
  | (n, is) :: entries => if n = name then (n, is ++ [i]) :: entries else (n, is) :: enter name i entries

/-- Enters declarations whose first one stands at `i`. -/
def enterAll : List Declaration → Nat → NameIndex → NameIndex
  | [], _, index => index
  | d :: ds, i, index => enterAll ds (i + 1) (index.enter d.name i)

def ofList (ds : List Declaration) : NameIndex := enterAll ds 0 []

/-- The indices of a name. -/
def find (index : NameIndex) (name : String) : List Nat := (index.lookup name).getD []

@[simp] theorem find_nil (name : String) : find [] name = [] := rfl

theorem find_cons (n : String) (is : List Nat) (entries : NameIndex) (name : String) :
    find ((n, is) :: entries) name = if name = n then is else entries.find name := by
  by_cases h : name = n
  · simp [find, h]
  · have hb : (name == n) = false := beq_false_of_ne h
    simp [find, List.lookup_cons, hb, h]

/-- Entering adds the index behind those of its name and leaves all other names alone. -/
theorem find_enter (name : String) (i : Nat) (index : NameIndex) (m : String) :
    (index.enter name i).find m = if m = name then index.find m ++ [i] else index.find m := by
  induction index with
  | nil => simp [enter, find_cons]
  | cons entry entries ih =>
    obtain ⟨n, is⟩ := entry
    by_cases hn : n = name
    · by_cases hm : m = name <;> simp [enter, find_cons, hn, hm]
    · by_cases hm : m = n
      · have hmn : m ≠ name := fun h => hn (hm.symm.trans h)
        simp [enter, find_cons, hn, hm]
      · simp [enter, find_cons, hn, hm, ih]

end NameIndex

/-- Declarations in the order of their places, with an index from names to places in the list. -/
structure RuleSet where
  declarations : List Declaration := []
  index : NameIndex := []
  position : Option Position := none
  comments : List Comment := []

namespace RuleSet

/-- The index follows from the declarations, so it takes no part in equality. -/
def same (r s : RuleSet) : Bool :=
  r.declarations == s.declarations && r.position == s.position && r.comments == s.comments

instance : BEq RuleSet := ⟨same⟩

def size (r : RuleSet) : Nat := r.declarations.length

/-- The rule set with other declarations. -/
def withDeclarations (r : RuleSet) (ds : List Declaration) : RuleSet :=
  { r with declarations := ds, index := .ofList ds }

/-- One column on, if a position is on the line of `anchor` and not left of it. -/
def makeRoom (anchor p : Position) : Position :=
  if p.line = anchor.line ∧ anchor.column ≤ p.column then ⟨p.line, Position.numberBehind p.column⟩ else p

/-- The start of the line below all declarations. -/
def freshLine (ds : List Declaration) : Position :=
  ⟨((ds.filterMap Declaration.position).map fun p => Position.numberBehind p.line).max?.getD 1, 0⟩

/-- Where a declaration at `p` belongs: before the first one that stands behind `p`. -/
def placeOf (p : Position) (ds : List Declaration) : Nat :=
  (ds.findIdx? fun d => d.position.any p.before).getD ds.length

/-- Adds a declaration and tells the index that it got. With the index of a sibling it goes before that one and
takes over its place, and what stands there or behind it on the line moves one column. Without, it is sorted in
by its place, or begins a new line behind all others if it has none. -/
def add (d : Declaration) (sibling : Option Nat) (r : RuleSet) : Nat × RuleSet :=
  match sibling.bind fun i => r.declarations[i]?.map fun s => (i, s) with
  | some (i, s) =>
    match s.position with
    | some anchor =>
      let moved := r.declarations.map fun e => { e with position := e.position.map (makeRoom anchor) }
      (i, r.withDeclarations (moved.insertIdx i { d with position := some anchor }))
    | none => (i, r.withDeclarations (r.declarations.insertIdx i d))
  | none =>
    match d.position with
    | some p =>
      let i := placeOf p r.declarations
      (i, r.withDeclarations (r.declarations.insertIdx i d))
    | none =>
      (r.size, r.withDeclarations (r.declarations ++ [{ d with position := some (freshLine r.declarations) }]))

/-- Adds declarations one after the other, each sorted in by its place or on a line of its own. -/
def addAll (ds : List Declaration) (r : RuleSet) : RuleSet := ds.foldl (fun r d => (r.add d none).2) r

/-- What the journal says of an addition. -/
def additionNote (d : Declaration) (i : Nat) : Note :=
  ⟨.trace, "Adding declaration `" ++ d.name ++ "` at index " ++ toString i⟩

/-- Changes every declaration. -/
def edit (change : Declaration → Declaration) (r : RuleSet) : RuleSet :=
  r.withDeclarations (r.declarations.map change)

/-- Changes declarations in turn, where each change may carry something on to the next one. -/
def changeInTurn (change : σ → Declaration → Declaration × σ) : σ → List Declaration → List Declaration
  | _, [] => []
  | s, d :: ds => (change s d).1 :: changeInTurn change (change s d).2 ds

/-- Changes every declaration in turn. -/
def editInTurn (change : σ → Declaration → Declaration × σ) (start : σ) (r : RuleSet) : RuleSet :=
  r.withDeclarations (changeInTurn change start r.declarations)

theorem changeInTurn_alone (change : Declaration → Declaration) (ds : List Declaration) :
    changeInTurn (fun (_ : Unit) d => (change d, ())) () ds = ds.map change := by
  induction ds with
  | nil => rfl
  | cons d ds ih => rw [changeInTurn, ih, List.map_cons]

/-- A change that carries nothing on is made to each declaration by itself. -/
theorem editInTurn_alone (change : Declaration → Declaration) (r : RuleSet) :
    r.editInTurn (fun (_ : Unit) d => (change d, ())) () = r.edit change := by
  rw [editInTurn, changeInTurn_alone, edit]

/-- Takes out the declaration at an index. -/
def removeAt (i : Nat) (r : RuleSet) : Option Declaration × RuleSet :=
  match r.declarations[i]? with
  | some d => (some d, r.withDeclarations (r.declarations.eraseIdx i))
  | none => (none, r)

/-- The index of the first declaration that equals `d`. -/
def indexOf? (d : Declaration) (r : RuleSet) : Option Nat := r.declarations.findIdx? (· == d)

/-- Takes out the first declaration that equals `d`. -/
def remove (d : Declaration) (r : RuleSet) : Option Declaration × RuleSet :=
  match r.indexOf? d with
  | some i => r.removeAt i
  | none => (none, r)

/-- Takes out the declarations whose names fit a pattern. -/
def removeFitting (pattern : String) (r : RuleSet) : List Declaration × RuleSet :=
  let (removed, kept) := r.declarations.partition fun d => Declaration.nameFits d.name pattern
  (removed, r.withDeclarations kept)

/-- Takes out all declarations. -/
def clear (r : RuleSet) : RuleSet := r.withDeclarations []

end RuleSet

end Stylesheet
