/-
# Point writes on a map

A log of point writes applied in order to a map. The last write to a key decides
its value, so a log whose writes all agree with a target map moves each written key
to the target and leaves the others, whatever prefix of it was applied before. Over
finitely many keys, the total weight of the values changes by what is written.
-/

import Mathlib.Algebra.BigOperators.Group.Finset.Basic
import Mathlib.Algebra.Ring.Int.Defs

namespace BtcSharp.Math

open Function List

variable {K V : Type*} [DecidableEq K]

/-- Apply a log of point writes, first write first. -/
def applyWrites (base : K → V) (log : List (K × V)) : K → V :=
  log.foldl (fun map entry => Function.update map entry.1 entry.2) base

@[simp]
theorem applyWrites_nil (base : K → V) : applyWrites base [] = base := rfl

@[simp]
theorem applyWrites_cons (base : K → V) (entry : K × V) (log : List (K × V)) :
    applyWrites base (entry :: log) =
      applyWrites (update base entry.1 entry.2) log := rfl

theorem applyWrites_append (base : K → V) (first second : List (K × V)) :
    applyWrites base (first ++ second) = applyWrites (applyWrites base first) second :=
  foldl_append

variable {log : List (K × V)} {key : K} {old new mixed : K → V}

/-- Keys without a write keep their value. -/
theorem applyWrites_of_notMem (base : K → V)
    (hkey : key ∉ log.map Prod.fst) : applyWrites base log key = base key := by
  induction log generalizing base with
  | nil => rfl
  | cons entry log ih =>
    simp only [map_cons, mem_cons, not_or] at hkey
    rw [applyWrites_cons, ih _ hkey.2, update_of_ne hkey.1]

/-- A written key no longer depends on the map the log started from. -/
theorem applyWrites_congr_of_mem (hkey : key ∈ log.map Prod.fst) (base other : K → V) :
    applyWrites base log key = applyWrites other log key := by
  induction log generalizing base other with
  | nil => simp at hkey
  | cons entry log ih =>
    by_cases hlater : key ∈ log.map Prod.fst
    · exact ih hlater _ _
    have hhead : key = entry.1 := by simpa [hlater] using hkey
    rw [applyWrites_cons, applyWrites_cons, applyWrites_of_notMem _ hlater,
      applyWrites_of_notMem _ hlater, hhead, update_self, update_self]

/-- Writes that agree with a target move each written key to the target. -/
theorem applyWrites_of_agrees (target : K → V)
    (hagrees : ∀ entry ∈ log, entry.2 = target entry.1) (base : K → V) (key : K) :
    applyWrites base log key = if key ∈ log.map Prod.fst then target key else base key := by
  by_cases hkey : key ∈ log.map Prod.fst
  · have htarget : applyWrites target log = target := by
      clear hkey
      induction log with
      | nil => rfl
      | cons entry log ih =>
        have hself : update target entry.1 entry.2 = target := by
          rw [hagrees entry mem_cons_self, update_eq_self]
        rw [applyWrites_cons, hself]
        exact ih fun later hlater => hagrees later (mem_cons_of_mem _ hlater)
    rw [if_pos hkey, applyWrites_congr_of_mem hkey base target, htarget]
  · rw [if_neg hkey, applyWrites_of_notMem base hkey]

/-! ## Mixtures

A map that holds at every key the value of one of two maps, as a log that was applied
in part leaves it. -/

/-- The value of `old` or of `new` at every key. -/
def Mixture (old new mixed : K → V) : Prop := ∀ key, mixed key = old key ∨ mixed key = new key

theorem Mixture.applyWrites (h : Mixture old new mixed) (hagrees : ∀ entry ∈ log,
    entry.2 = new entry.1) : Mixture old new (Math.applyWrites mixed log) := by
  intro key
  rw [applyWrites_of_agrees new hagrees]
  split
  · exact .inr rfl
  · exact h key

/-- A log that leads from `old` to `new` leads there from every mixture of the two: at a
written key the last write decides, and at the others the two maps agree. -/
theorem Mixture.applyWrites_eq (h : Mixture old new mixed) (hlog : Math.applyWrites old log = new) :
    Math.applyWrites mixed log = new := by
  funext key
  by_cases hkey : key ∈ log.map Prod.fst
  · rw [applyWrites_congr_of_mem hkey mixed old, hlog]
  have hsame : old key = new key := by
    rw [← hlog, applyWrites_of_notMem old hkey]
  rw [applyWrites_of_notMem mixed hkey]
  rcases h key with hold | hnew
  · exact hold.trans hsame
  · exact hnew

/-! ## Totals

The sum of a weight over all keys, and what a log of writes does to it. -/

/-- A write replaces one term of a sum over all keys. -/
theorem sum_update {M : Type*} [AddCommMonoid M] [Fintype K] (weight : K → V → M) (map : K → V)
    (key : K) (value : V) :
    ∑ other, weight other (update map key value other) + weight key (map key) =
      ∑ other, weight other (map other) + weight key value := by
  have hnew := Finset.add_sum_erase Finset.univ
    (fun other => weight other (update map key value other)) (Finset.mem_univ key)
  have hold := Finset.add_sum_erase Finset.univ (fun other => weight other (map other))
    (Finset.mem_univ key)
  have hrest : ∑ other ∈ Finset.univ.erase key, weight other (update map key value other) =
      ∑ other ∈ Finset.univ.erase key, weight other (map other) := by
    apply Finset.sum_congr rfl
    intro other hother
    rw [update_of_ne (Finset.ne_of_mem_erase hother)]
  rw [hrest, update_self] at hnew
  rw [← hnew, ← hold, add_right_comm, add_comm (weight key value), add_right_comm]

/-- Writes to distinct keys replace their terms. -/
theorem sum_applyWrites {M : Type*} [AddCommMonoid M] [Fintype K] (weight : K → V → M)
    (hnodup : (log.map Prod.fst).Nodup) (map : K → V) :
    ∑ key,
      weight key (applyWrites map log key) +
      (log.map fun entry => weight entry.1 (map entry.1)).sum =
      ∑ key, weight key (map key) + (log.map fun entry => weight entry.1 entry.2).sum := by
  induction log generalizing map with
  | nil => rfl
  | cons entry rest ih =>
    rw [map_cons, nodup_cons] at hnodup
    have hframe : (rest.map fun later => weight later.1 (update map entry.1 entry.2 later.1)) =
        rest.map fun later => weight later.1 (map later.1) := by
      apply map_congr_left
      intro later hlater
      rw [update_of_ne (ne_of_mem_of_not_mem (mem_map_of_mem hlater) hnodup.1)]
    have hrest := ih hnodup.2 (update map entry.1 entry.2)
    rw [hframe] at hrest
    rw [applyWrites_cons, map_cons, sum_cons, map_cons, sum_cons, add_left_comm, hrest, ← add_assoc,
      add_comm (weight entry.1 (map entry.1)), sum_update, add_assoc]

section Total

variable [Fintype K] (weight : V → Int)

/-- The total weight of the values of a map. -/
def total (map : K → V) : Int := ∑ key, weight (map key)

/-- Writes to distinct keys replace the weights of their values. -/
theorem total_applyWrites (hnodup : (log.map Prod.fst).Nodup) (map : K → V) :
    total weight (applyWrites map log) = total weight map -
      (log.map fun entry => weight (map entry.1)).sum +
      (log.map fun entry => weight entry.2).sum := by
  have hsum := sum_applyWrites (fun _ => weight) hnodup map
  unfold total
  omega

end Total

/-! ## Totals over the bound keys

The weight may depend on the key, and is summed over the keys that have a value. -/

section BoundTotal

variable {M : Type*} [Fintype K] [AddCommGroup M] (weight : K → V → M)

/-- The sum of the weights of all bindings. -/
def boundTotal (map : K → Option V) : M := ∑ key, (map key).elim 0 (weight key)

variable {weight} {map : K → Option V} {value : V} {entries : List (K × V)}

omit [DecidableEq K] in
theorem map_boundTotal {N : Type*} [AddCommGroup N] (f : M →+ N) :
    f (boundTotal weight map) = boundTotal (fun key value => f (weight key value)) map := by
  rw [boundTotal, map_sum]
  apply Finset.sum_congr rfl
  intro key _
  cases map key with
  | none => exact map_zero f
  | some value => rfl

omit [DecidableEq K] in
theorem boundTotal_empty : boundTotal weight (fun _ => none) = 0 :=
    Finset.sum_eq_zero fun _ _ => rfl

section

variable (hnodup : (entries.map Prod.fst).Nodup)

include hnodup

theorem boundTotal_applyWrites {old : K × V → Option V} (hold : ∀ entry ∈ entries,
    map entry.1 = old entry) (new : K × V → Option V) :
    boundTotal weight (applyWrites map (entries.map fun entry => (entry.1, new entry))) +
        (entries.map fun entry => (old entry).elim 0 (weight entry.1)).sum =
      boundTotal weight map + (entries.map fun entry => (new entry).elim 0
        (weight entry.1)).sum := by
  have hkeys : ((entries.map fun entry => (entry.1, new entry)).map Prod.fst).Nodup := by
    rwa [map_map]
  have hsum := sum_applyWrites (fun key (bound : Option V) => bound.elim 0 (weight key)) hkeys map
  have hterms : (entries.map fun entry => (old entry).elim 0 (weight entry.1)) = entries.map _ :=
    map_congr_left fun entry hentry => by rw [← hold entry hentry]
  rw [map_map, map_map] at hsum
  rw [hterms]
  exact hsum

/-- Binding distinct free keys. -/
theorem boundTotal_bind_all (hfree : ∀ entry ∈ entries, map entry.1 = none) :
    boundTotal weight (applyWrites map (entries.map fun entry => (entry.1, some entry.2))) =
      boundTotal weight map + (entries.map fun entry => weight entry.1 entry.2).sum := by
  simpa using boundTotal_applyWrites hnodup hfree fun entry => some entry.2

/-- Unbinding distinct keys that are bound as listed. -/
theorem boundTotal_unbind_all (hbound : ∀ entry ∈ entries, map entry.1 = some entry.2) :
    boundTotal weight (applyWrites map (entries.map fun entry => (entry.1, none))) =
      boundTotal weight map - (entries.map fun entry => weight entry.1 entry.2).sum := by
  apply eq_sub_of_add_eq
  simpa using boundTotal_applyWrites hnodup hbound fun _ => none

/-- The total along a list of all bindings. -/
theorem boundTotal_eq_sum
    (hentries : ∀ key value, (key, value) ∈ entries ↔ map key = some value) :
    boundTotal weight map = (entries.map fun entry => weight entry.1 entry.2).sum := by
  have hmap :
      applyWrites (fun _ => none) (entries.map fun entry => (entry.1, some entry.2)) = map := by
    funext key
    have hagrees : ∀ entry ∈ entries.map (fun entry => (entry.1, some entry.2)),
        entry.2 = map entry.1 := by
      intro entry hentry
      obtain ⟨⟨key, value⟩, hmem, rfl⟩ := mem_map.mp hentry
      exact ((hentries key value).mp hmem).symm
    rw [applyWrites_of_agrees map hagrees]
    split
    · rfl
    next hkey =>
    cases hvalue : map key with
    | none => rfl
    | some value =>
      have hmem := mem_map_of_mem (f := fun entry => (entry.1, some entry.2))
        ((hentries key value).mpr hvalue)
      exact absurd (mem_map_of_mem (f := Prod.fst) hmem) hkey
  rw [← hmap, boundTotal_bind_all hnodup fun _ _ => rfl, boundTotal_empty, zero_add]

end

end BoundTotal

end BtcSharp.Math
