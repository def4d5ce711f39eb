import Mathlib.Logic.Function.Iterate
import Stylesheet.Proofs.Coincidence

namespace Stylesheet.Read

variable {ι α β σ : Type}

theorem ext {x y : Read α} (h : ∀ r, x.outcome r = y.outcome r) : x = y := funext h

/-- A step that asks for the characters left. -/
theorem outcome_left_bind (f : Nat → Read α) (r : Reader) :
    (left >>= f).outcome r = (f r.place.rest.length).outcome r := by
  rw [outcome_bind, outcome_left, following_ok]

/-- What follows a step only matters where the step comes to. -/
theorem outcome_bind_congr {x : Read α} {f f' : α → Read β} {r : Reader}
    (h : ∀ a s, x.outcome r = (.ok a, s) → (f a).outcome s = (f' a).outcome s) :
    (x >>= f).outcome r = (x >>= f').outcome r := by
  rw [outcome_bind, outcome_bind]
  rcases hs : x.outcome r with ⟨e | a, s⟩
  · rfl
  · exact h a s hs

/-- The bound of a loop allows another round behind some of the text. -/
theorem outcome_shorter_of_passes {n : Nat} {again : (m : Nat) → m < n → Read α} {otherwise : Read α} {r s : Reader}
    (hn : r.place.rest.length ≤ n) (h : r.Passes s) :
    (shorter n again otherwise).outcome s =
      (again s.place.rest.length (Nat.lt_of_lt_of_le h.shorter hn)).outcome s := by
  rw [outcome_shorter, dif_pos (Nat.lt_of_lt_of_le h.shorter hn)]

theorem shorter_bind {n : Nat} (again : (m : Nat) → m < n → Read α) (otherwise : Read α) (f : α → Read β) :
    shorter n again otherwise >>= f = shorter n (fun m hm => again m hm >>= f) (otherwise >>= f) := by
  refine ext fun r => ?_
  rw [outcome_bind, outcome_shorter, outcome_shorter]
  split
  · rw [outcome_bind]
  · rw [outcome_bind]

/-- The readers `x` are made by `step` out of each other, and that ends. -/
structure Recurs (step : (ι → Read α) → ι → Read α) (x : ι → Read α) : Prop where
  /-- The readers solve the equations that `step` stands for. -/
  equation : ∀ i, x i = step x i
  /-- In a step the readers are used only behind some of the text: what other readers do elsewhere does not matter. -/
  descends : ∀ (again : ι → Read α) (r : Reader) (i : ι),
    (∀ j s, r.Passes s → (x j).outcome s = (again j).outcome s) → (x i).outcome r = (step again i).outcome r
  /-- More steps inside one another than there are characters left are enough, whatever stands in the innermost. -/
  ends : ∀ (again : ι → Read α) (n : Nat) (r : Reader) (i : ι), r.place.rest.length < n →
    (step^[n] again i).outcome r = (x i).outcome r

/-- A recursion that takes some of the text before it comes back to itself has one solution, which it reaches. -/
theorem Recurs.of_descends {step : (ι → Read α) → ι → Read α} {x : ι → Read α}
    (descends : ∀ (again : ι → Read α) (r : Reader) (i : ι),
      (∀ j s, r.Passes s → (x j).outcome s = (again j).outcome s) → (x i).outcome r = (step again i).outcome r) :
    Recurs step x where
  equation i := ext fun r => descends x r i fun _ _ _ => rfl
  descends := descends
  ends again n := by
    induction n with
    | zero => exact fun r i less => absurd less (Nat.not_lt_zero _)
    | succ n ih =>
      intro r i less
      rw [Function.iterate_succ_apply']
      refine (descends _ r i fun j s passes => (ih s j ?_).symm).symm
      exact Nat.lt_of_lt_of_le passes.shorter (Nat.le_of_lt_succ less)

/-- One round of a loop and what is read behind it, if the round is not the last one. -/
def rounds (round : σ → Read (σ ⊕ α)) (again : σ → Read α) (a : σ) : Read α := do
  match ← round a with
  | .inl b => again b
  | .inr result => return result

/-- The reader `x` is the loop of `round`: every round but the last takes some of the text. -/
structure Loops (round : σ → Read (σ ⊕ α)) (x : σ → Read α) : Prop extends Recurs (rounds round) x where
  progress : ∀ a b r s, (round a).outcome r = (.ok (.inl b), s) → r.place.offset < s.place.offset

/-- The reader `x` is the loop of `round` that begins with `start`. -/
def RunsFrom (start : σ) (round : σ → Read (σ ⊕ α)) (x : Read α) : Prop :=
  ∃ collect, Loops round collect ∧ x = collect start

theorem Loops.of_passes {round : σ → Read (σ ⊕ α)} {x : σ → Read α}
    (equation : ∀ a r, (x a).outcome r = (rounds round x a).outcome r)
    (passes : ∀ a b r s, (round a).outcome r = (.ok (.inl b), s) → r.Passes s) : Loops round x where
  toRecurs := Recurs.of_descends fun again r a same => by
    rw [equation, rounds, rounds, outcome_bind, outcome_bind]
    rcases h : (round a).outcome r with ⟨e | b | result, s⟩
    · rfl
    · exact same b s (passes a b r s h)
    · rfl
  progress a b r s h := (passes a b r s h).offset_lt

/-- What is read behind a round by a loop whose rounds are bounded. -/
def bounded (x : Nat → σ → Read α) (otherwise : σ → Read α) (n : Nat) : σ ⊕ α → Read α
  | .inl b => shorter n (fun m _ => x m b) (otherwise b)
  | .inr result => pure result

/-- A loop whose rounds are bounded by the characters left is a loop without a bound. -/
theorem Loops.of_bounded {round : σ → Read (σ ⊕ α)} {x : Nat → σ → Read α} {otherwise : σ → Read α}
    (equation : ∀ a r, (x r.place.rest.length a).outcome r =
      (round a >>= bounded x otherwise r.place.rest.length).outcome r)
    (passes : ∀ a b r s, (round a).outcome r = (.ok (.inl b), s) → r.Passes s) :
    Loops round fun a => left >>= fun n => x n a := by
  refine .of_passes (fun a r => ?_) passes
  rw [outcome_left_bind, equation, rounds]
  refine outcome_bind_congr fun o s h => ?_
  cases o with
  | inl b => rw [bounded, outcome_shorter_of_passes (Nat.le_refl _) (passes a b r s h), outcome_left_bind]
  | inr result => rfl

end Stylesheet.Read
