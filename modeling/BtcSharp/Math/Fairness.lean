/-
# Progress under fair scheduling

An infinite run of a system of threads, of which one or none acts at each time. It is fair if
no thread that stays ready is passed over forever. The rule asks for a measure that no step
increases, and in each state for threads that are ready and whose step decreases it.
-/

import Mathlib.Tactic.ByContra

namespace BtcSharp.Math

variable {σ τ : Type*}

/-- A thread that stays ready acts in the end. -/
def WeaklyFair (ready : σ → τ → Prop) (state : Nat → σ) (actor : Nat → Option τ) : Prop :=
  ∀ t i, (∀ j, i ≤ j → ready (state j) t) → ∃ j, i ≤ j ∧ actor j = some t

variable {ready helpful : σ → τ → Prop} {state : Nat → σ} {actor : Nat → Option τ}
  {inside : σ → Prop} {goal : Nat → Prop} {measure : σ → Nat}

/-- Until the goal is reached, the measure decreases or the helpful threads stay helpful. -/
def Progresses (helpful : σ → τ → Prop) (inside : σ → Prop) (goal : Nat → Prop)
    (measure : σ → Nat) (state : Nat → σ) (actor : Nat → Option τ) : Prop :=
  ∀ i, inside (state i) → ¬ goal i → inside (state (i + 1)) ∧
    (measure (state (i + 1)) < measure (state i) ∨
      measure (state (i + 1)) = measure (state i) ∧
        ∀ t, helpful (state i) t → actor i ≠ some t ∧ helpful (state (i + 1)) t)

/-- A helpful thread that is passed over stays helpful until the measure decreases. -/
theorem Progresses.stays (h : Progresses helpful inside goal measure state actor) {i : Nat} {t : τ}
    (hinside : inside (state i)) (hhelpful : helpful (state i) t) (hgoal : ∀ j, i ≤ j → ¬ goal j)
    (hmeasure : ∀ j, i ≤ j → inside (state j) → ¬ measure (state j) < measure (state i)) :
    ∀ k, inside (state (i + k)) ∧ measure (state (i + k)) = measure (state i) ∧
      helpful (state (i + k)) t ∧ actor (i + k) ≠ some t := by
  have hactor : ∀ k, inside (state (i + k)) → measure (state (i + k)) = measure (state i) →
      helpful (state (i + k)) t → actor (i + k) ≠ some t := by
    intro k hin heq hhelp hact
    obtain ⟨hnext, hless | ⟨-, hstays⟩⟩ := h (i + k) hin (hgoal _ (Nat.le_add_right i k))
    · exact hmeasure (i + k + 1) (Nat.le_add_right i (k + 1)) hnext (heq ▸ hless)
    · exact (hstays t hhelp).1 hact
  intro k
  induction k with
  | zero => exact ⟨hinside, rfl, hhelpful, hactor 0 hinside rfl hhelpful⟩
  | succ k ih =>
    obtain ⟨hin, heq, hhelp, -⟩ := ih
    obtain ⟨hnext, hless | ⟨hsame, hstays⟩⟩ := h (i + k) hin (hgoal _ (Nat.le_add_right i k))
    · exact absurd (heq ▸ hless) (hmeasure (i + k + 1) (Nat.le_add_right i (k + 1)) hnext)
    · have hthere := (hstays t hhelp).2
      exact ⟨hnext, hsame.trans heq, hthere, hactor (k + 1) hnext (hsame.trans heq) hthere⟩

/-- In a fair run the goal is reached. The least measure from a point on is never undercut. -/
theorem eventually_of_fair (hfair : WeaklyFair ready state actor)
    (hprogress : Progresses helpful inside goal measure state actor)
    (hhelpful : ∀ i, inside (state i) → ∃ t, helpful (state i) t)
    (hready : ∀ i t, inside (state i) → helpful (state i) t → ready (state i) t) {i : Nat}
      (hinside : inside (state i)) : ∃ j, i ≤ j ∧ goal j := by
  by_contra hnever
  have hgoal : ∀ j, i ≤ j → ¬ goal j := fun j hj hg => hnever ⟨j, hj, hg⟩
  induction hm : measure (state i) using Nat.strongRecOn generalizing i with
  | ind m ih =>
    obtain ⟨t, ht⟩ := hhelpful i hinside
    have hmeasure : ∀ j, i ≤ j → inside (state j) → ¬ measure (state j) < measure (state i) := by
      intro j hj hin hless
      have hlater : ∀ k, j ≤ k → ¬ goal k := fun k hk => hgoal k (Nat.le_trans hj hk)
      exact ih _ (hm ▸ hless) hin (fun ⟨k, hk, hg⟩ => hlater k hk hg) hlater rfl
    have hstays := hprogress.stays hinside ht hgoal hmeasure
    obtain ⟨j, hj, hact⟩ := hfair t i fun j hj => by
      obtain ⟨k, rfl⟩ := Nat.exists_eq_add_of_le hj
      exact hready _ t (hstays k).1 (hstays k).2.2.1
    obtain ⟨k, rfl⟩ := Nat.exists_eq_add_of_le hj
    exact (hstays k).2.2.2 hact

end BtcSharp.Math
