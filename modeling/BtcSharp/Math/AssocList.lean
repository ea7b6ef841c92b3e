/-
# Lists of keys and values

A map as a list of pairs in which a key stands once: what is looked up after a value was
put in, with and without a value being there, when a value was changed and when a key was taken
out, and how many of the values have a property.
-/

import Mathlib.Data.List.Nodup

namespace BtcSharp.Math

open List

variable {α β : Type*} [DecidableEq α] {map : List (α × β)} {key other : α} {value : β}

/-- A value is put in, unless there is one for the key. -/
def emplace (map : List (α × β)) (key : α) (value : β) : List (α × β) :=
  if key ∈ map.map Prod.fst then map else map ++ [(key, value)]

/-- A key is taken out. -/
def eraseKey (map : List (α × β)) (key : α) : List (α × β) := map.filter fun pair => pair.1 ≠ key

/-- The value of a key is changed. -/
def modifyKey (map : List (α × β)) (key : α) (change : β → β) : List (α × β) :=
  map.map fun pair => if pair.1 = key then (pair.1, change pair.2) else pair

theorem lookup_eq_none_iff_keys : map.lookup key = none ↔ key ∉ map.map Prod.fst := by
  rw [lookup_eq_none_iff, mem_map]
  constructor
  · rintro hall ⟨pair, hpair, rfl⟩
    exact absurd (hall pair hpair) (by simp)
  intro hnot pair hpair
  simp only [bne_iff_ne]
  exact fun heq => hnot ⟨pair, hpair, heq.symm⟩

theorem lookup_eq_none_congr {γ : Type*} {map' : List (α × γ)}
    (hkeys : map.map Prod.fst = map'.map Prod.fst) :
    map.lookup key = none ↔ map'.lookup key = none := by
  rw [lookup_eq_none_iff_keys, hkeys, lookup_eq_none_iff_keys]

theorem mem_of_lookup (h : map.lookup key = some value) : (key, value) ∈ map := by
  obtain ⟨_, _, heq, -⟩ := lookup_eq_some_iff.mp h
  rw [heq]
  exact mem_append_right _ mem_cons_self

/-- With distinct keys, a pair is in the list if it is what is looked up. -/
theorem lookup_iff_mem (hnodup : (map.map Prod.fst).Nodup) :
    map.lookup key = some value ↔ (key, value) ∈ map := by
  refine ⟨mem_of_lookup, fun hmem => ?_⟩
  cases hlookup : map.lookup key with
  | none =>
    exact absurd (mem_map_of_mem hmem) (lookup_eq_none_iff_keys.mp hlookup)
  | some found =>
    have heq := inj_on_of_nodup_map hnodup (mem_of_lookup hlookup) hmem rfl
    exact congrArg (fun pair => some pair.2) heq

theorem lookup_emplace_self (hnone : map.lookup key = none) :
    (emplace map key value).lookup key = some value := by
  unfold emplace
  rw [if_neg (lookup_eq_none_iff_keys.mp hnone), lookup_append, hnone, Option.none_or,
    lookup_cons_self]

theorem lookup_emplace_ne (hne : other ≠ key) :
    (emplace map key value).lookup other = map.lookup other := by
  unfold emplace
  split
  · rfl
  · rw [lookup_append, lookup_cons, beq_eq_false_iff_ne.mpr hne]
    exact Option.or_none

theorem mem_keys_emplace : other ∈ (emplace map key value).map Prod.fst ↔
    other ∈ map.map Prod.fst ∨ other = key := by
  unfold emplace
  split
  · next hthere => exact ⟨.inl, fun h => h.elim id fun heq => heq ▸ hthere⟩
  · rw [map_append, mem_append, map_singleton, mem_singleton]

theorem nodup_emplace (hnodup : (map.map Prod.fst).Nodup) :
    ((emplace map key value).map Prod.fst).Nodup := by
  unfold emplace
  split
  · exact hnodup
  next hnew =>
  rw [map_append]
  refine nodup_append'.mpr ⟨hnodup, nodup_singleton _, fun found hfound hkey => ?_⟩
  rw [mem_singleton.mp hkey] at hfound
  exact hnew hfound

theorem lookup_eraseKey_self : (eraseKey map key).lookup key = none := by
  rw [lookup_eq_none_iff_keys, mem_map]
  rintro ⟨_, hpair, heq⟩
  exact of_decide_eq_true (mem_filter.mp hpair).2 heq

theorem lookup_eraseKey_ne (hne : other ≠ key) :
    (eraseKey map key).lookup other = map.lookup other := by
  induction map with
  | nil => rfl
  | cons pair map ih =>
    unfold eraseKey at ih ⊢
    rw [filter_cons]
    by_cases hkey : pair.1 = key
    · rw [if_neg (by simp [hkey]), ih, lookup_cons, beq_eq_false_iff_ne.mpr (hkey ▸ hne)]
    · rw [if_pos (by simp [hkey]), lookup_cons, lookup_cons, ih]

theorem nodup_eraseKey (hnodup : (map.map Prod.fst).Nodup) :
    ((eraseKey map key).map Prod.fst).Nodup :=
  hnodup.sublist (filter_sublist.map _)

theorem keys_eraseKey :
    (eraseKey map key).map Prod.fst = (map.map Prod.fst).filter fun other => other ≠ key := by
  rw [filter_map]
  rfl

theorem keys_modifyKey (map : List (α × β)) (key : α) (change : β → β) :
    (modifyKey map key change).map Prod.fst = map.map Prod.fst := by
  unfold modifyKey
  rw [map_map]
  apply map_congr_left
  intro pair _
  show (if pair.1 = key then (pair.1, change pair.2) else pair).1 = pair.1
  split <;> rfl

theorem nodup_modifyKey (hnodup : (map.map Prod.fst).Nodup) (key : α) (change : β → β) :
    ((modifyKey map key change).map Prod.fst).Nodup := by
  rw [keys_modifyKey]
  exact hnodup

theorem lookup_modifyKey (map : List (α × β)) (key other : α) (change : β → β) :
    (modifyKey map key change).lookup other =
      if other = key then (map.lookup other).map change else map.lookup other := by
  induction map with
  | nil => simp [modifyKey]
  | cons pair map ih =>
    unfold modifyKey at ih ⊢
    rw [map_cons]
    by_cases hpair : pair.1 = key
    · rw [if_pos hpair, lookup_cons, lookup_cons, ih]
      by_cases hother : other = pair.1
      · simp [hother, hpair]
      · simp [beq_eq_false_iff_ne.mpr hother]
    rw [if_neg hpair, lookup_cons, lookup_cons, ih]
    by_cases hother : other = pair.1
    · simp [hother, hpair]
    · simp [beq_eq_false_iff_ne.mpr hother]

/-- What is found when one of the values was changed. -/
theorem lookup_modifyKey_cases {old new : β} (change : β → β) (hkey : map.lookup key = some old)
    (h : (modifyKey map key change).lookup other = some new) :
    other = key ∧ new = change old ∨ other ≠ key ∧ map.lookup other = some new := by
  rw [lookup_modifyKey] at h
  split at h
  · next heq =>
    subst heq
    rw [hkey] at h
    exact .inl ⟨rfl, (Option.some.inj h).symm⟩
  · next hne => exact .inr ⟨hne, h⟩

variable {found : β} {test : β → Bool}

/-- How many of the values have a property. -/
def countValues (test : β → Bool) (map : List (α × β)) : Nat := map.countP fun pair => test pair.2

omit [DecidableEq α] in
theorem countValues_middle (before after : List (α × β)) :
    countValues test (before ++ (key, value) :: after) =
    countValues test (before ++ after) + (test value).toNat := by
  unfold countValues
  rw [countP_append, countP_append, countP_cons]
  cases test value <;> rfl

section

variable (hnodup : (map.map Prod.fst).Nodup) (hfound : map.lookup key = some found)

include hnodup hfound

/-- With distinct keys, a value that is found splits the list. -/
theorem split_of_lookup : ∃ before after, map = before ++ (key, found) :: after ∧
      eraseKey map key = before ++ after ∧
      ∀ change, modifyKey map key change = before ++ (key, change found) :: after := by
  obtain ⟨before, after, rfl, -⟩ := lookup_eq_some_iff.mp hfound
  rw [map_append, map_cons, nodup_middle, nodup_cons, ← map_append] at hnodup
  have hne : ∀ pair ∈ before ++ after, pair.1 ≠ key := by
    rintro pair hpair rfl
    exact hnodup.1 (mem_map.mpr ⟨pair, hpair, rfl⟩)
  refine ⟨before, after, rfl, ?_, fun change => ?_⟩
  · rw [eraseKey, filter_append, filter_cons_of_neg (by simp), ← filter_append, filter_eq_self]
    exact fun pair hpair => decide_eq_true (hne pair hpair)
  · have hsame :
        (before ++ after).map (fun pair => if pair.1 = key then (pair.1, change pair.2) else pair) =
        before ++ after :=
      (map_congr_left fun pair hpair => if_neg (hne pair hpair)).trans (map_id _)
    rw [map_append] at hsame
    obtain ⟨hbefore, hafter⟩ := append_inj hsame (length_map _)
    rw [modifyKey, map_append, map_cons, if_pos rfl, hbefore, hafter]

theorem countValues_modifyKey (change : β → β) (test : β → Bool) :
    countValues test (modifyKey map key change) + (test found).toNat =
      countValues test map + (test (change found)).toNat := by
  obtain ⟨before, after, hmap, -, hmodify⟩ := split_of_lookup hnodup hfound
  rw [hmodify, hmap, countValues_middle, countValues_middle, Nat.add_right_comm]

theorem countValues_eraseKey (test : β → Bool) :
    countValues test (eraseKey map key) + (test found).toNat = countValues test map := by
  obtain ⟨before, after, hmap, herase, -⟩ := split_of_lookup hnodup hfound
  rw [herase, hmap, countValues_middle]

end

section Counter

variable {count : Int} (hcount : count = countValues test map) (hnodup : (map.map Prod.fst).Nodup)
  (hfound : map.lookup key = some found)

include hcount hnodup hfound

/-- A counter of the values is adjusted with them. -/
theorem counter_modifyKey (change : β → β) {new : Int}
    (hnew : new + (test found).toNat = count + (test (change found)).toNat) :
    new = countValues test (modifyKey map key change) := by
  have hvalues := countValues_modifyKey hnodup hfound change test
  omega

theorem counter_modifyKey_of_eq (change : β → β) (heq : test (change found) = test found) :
    count = countValues test (modifyKey map key change) := by
  apply counter_modifyKey hcount hnodup hfound change
  rw [heq]

theorem counter_eraseKey : count - (test found).toNat = countValues test (eraseKey map key) := by
  have hvalues := countValues_eraseKey hnodup hfound test
  omega

end Counter

/-- All values are changed. -/
theorem lookup_map_values {γ : Type*} (map : List (α × β)) (key : α) (change : β → γ) :
    (map.map (Prod.map id change)).lookup key = (map.lookup key).map change := by
  induction map with
  | nil => rfl
  | cons pair rest ih =>
    rw [map_cons, lookup_cons, lookup_cons, ih]
    show (match key == pair.1 with | true => _ | false => _) = _
    cases key == pair.1 <;> rfl

/-- A new value without the property. -/
theorem countValues_emplace (hnone : map.lookup key = none) (hvalue : test value = false) :
    countValues test (emplace map key value) = countValues test map := by
  unfold emplace countValues
  rw [if_neg (lookup_eq_none_iff_keys.mp hnone), countP_append, countP_singleton, hvalue]
  rfl

theorem keys_emplace (hnone : map.lookup key = none) :
    (emplace map key value).map Prod.fst = map.map Prod.fst ++ [key] := by
  unfold emplace
  rw [if_neg (lookup_eq_none_iff_keys.mp hnone), map_append, map_singleton]

end BtcSharp.Math
