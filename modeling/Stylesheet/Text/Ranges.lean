namespace Stylesheet.Text

/-- Membership in increasing ranges; the first range that starts above `n` ends the search. -/
def inRanges : List (Nat × Nat) → Nat → Bool
  | [], _ => false
  | (low, high) :: ranges, n => if n < low then false else n ≤ high || inRanges ranges n

end Stylesheet.Text
