/-
# Loops

A loop whose body says whether to go on, run for a bounded number of rounds. The rule for it
asks for an invariant and for a measure that decreases with every round that goes on; then
the loop ends by itself within any bound above the measure. A partial function that is applied to
the elements of a list in order succeeds if it does for each of them.
-/

import Mathlib.Data.List.Forall2

namespace BtcSharp.Math

variable {σ : Type*}

/-- What one round of a loop leads to. -/
inductive Round (σ : Type*)
  | again (state : σ)
  | stop (state : σ)

/-- Rounds until one stops the loop; nothing if there is none among as many as are allowed. -/
def loop (round : σ → Round σ) : Nat → σ → Option σ
  | 0, _ => none
  | fuel + 1, state =>
    match round state with
    | .again next => loop round fuel next
    | .stop last => some last

/-- A loop with an invariant and a decreasing measure ends. -/
theorem loop_ends {round : σ → Round σ} {inv post : σ → Prop} {measure : σ → Nat}
    (hagain : ∀ state next, inv state → round state = .again next → inv next ∧
      measure next < measure state)
    (hstop : ∀ state last, inv state → round state = .stop last → post last) :
    ∀ {fuel : Nat} {state : σ}, inv state → measure state < fuel →
      ∃ last, loop round fuel state = some last ∧ post last := by
  intro fuel
  induction fuel with
  | zero => exact fun _ hfuel => absurd hfuel (Nat.not_lt_zero _)
  | succ fuel ih =>
    intro state hinv hfuel
    rw [loop]
    cases hround : round state with
    | again next =>
      obtain ⟨hnext, hless⟩ := hagain state next hinv hround
      exact ih hnext (Nat.lt_of_lt_of_le hless (Nat.le_of_lt_succ hfuel))
    | stop last => exact ⟨last, rfl, hstop state last hinv hround⟩

variable {α β : Type*} {f : α → Option β}

/-- All elements have a result. -/
theorem mapM_eq_some_iff {values : List α} {results : List β} :
    values.mapM f = some results ↔
    List.Forall₂ (fun value result => f value = some result) values results := by
  induction values generalizing results with
  | nil => simp [eq_comm]
  | cons value values ih =>
    rw [List.mapM_cons, List.forall₂_cons_left_iff]
    constructor
    · intro h
      obtain ⟨result, hresult, h⟩ := Option.bind_eq_some_iff.mp h
      obtain ⟨rest, hrest, h⟩ := Option.bind_eq_some_iff.mp h
      exact ⟨result, rest, hresult, ih.mp hrest, (Option.some.inj h).symm⟩
    rintro ⟨result, rest, hresult, hrest, rfl⟩
    rw [hresult, ih.mpr hrest]
    rfl

end BtcSharp.Math
