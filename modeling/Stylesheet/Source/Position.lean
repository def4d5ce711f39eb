namespace Stylesheet

/-- The line and column that a node remembers. -/
structure Position where
  line : Nat
  column : Nat
  deriving DecidableEq

namespace Position

/-- Source order: by line, then by column. -/
def before (p q : Position) : Bool :=
  p.line < q.line || (p.line == q.line && p.column < q.column)

theorem before_irrefl (p : Position) : p.before p = false := by simp [before]

theorem before_trans {p q r : Position} (hpq : p.before q = true) (hqr : q.before r = true) :
    p.before r = true := by
  simp only [before, Bool.or_eq_true, Bool.and_eq_true, decide_eq_true_eq, beq_iff_eq] at *
  omega

/-- Of two places on a line or on different lines one comes first, unless they are the same. -/
theorem eq_of_not_before {p q : Position} (hpq : p.before q = false) (hqp : q.before p = false) : p = q := by
  obtain ⟨l, c⟩ := p
  obtain ⟨m, d⟩ := q
  simp only [before, Bool.or_eq_false_iff, Bool.and_eq_false_iff, decide_eq_false_iff_not, beq_eq_false_iff_ne,
    Position.mk.injEq] at *
  omega

/-- The last number that a line or a column can have: both are machine words. -/
def lastNumber : Nat := 0xFFFFFFFFFFFFFFFF

/-- The number behind another one. Behind the last one they begin with 0 again. -/
def numberBehind (n : Nat) : Nat := if n < lastNumber then n + 1 else 0

theorem numberBehind_of_lt {n : Nat} (h : n < lastNumber) : numberBehind n = n + 1 := if_pos h

/-- Counting on is the addition of machine words. -/
theorem numberBehind_eq_word {n : Nat} (h : n ≤ lastNumber) : numberBehind n = (UInt64.ofNat n + 1).toNat := by
  have word : (UInt64.ofNat n + 1).toNat = (n + 1) % 0x10000000000000000 := by simp
  rw [word, numberBehind]
  unfold lastNumber at h ⊢
  split <;> omega

def order (p q : Position) : Ordering :=
  if p.before q then .lt else if q.before p then .gt else .eq

def text (p : Position) : String := toString p.line ++ ":" ++ toString p.column

end Position

/-- The place that a fault names, with the number of characters before it. -/
structure Location where
  line : Nat
  column : Nat
  offset : Nat
  deriving DecidableEq

namespace Location

def position (l : Location) : Position := ⟨l.line, l.column⟩

/-- A location is written as its position. -/
def text (l : Location) : String := l.position.text

/-- The location given to text that stands in no source. -/
def none : Location := ⟨0, 0, 0⟩

end Location

end Stylesheet
