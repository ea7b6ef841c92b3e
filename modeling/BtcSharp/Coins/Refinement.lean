/-
# The stack of caches refines a stack of plain maps

A call may be made on any layer of the stack. It then has its plain-map effect on
that layer, as long as nobody changes a layer underneath an entry that relies on
it. That side condition is real: a FRESH entry promises that the layer below has no
such coin, and adding the coin below breaks the promise behind the entry's back.
-/

import BtcSharp.Coins.Stack

namespace BtcSharp

namespace CoinsView

/-- The caches above a depth hold no entry for the outpoint. -/
def Bare : Nat → CoinsView → COutPoint → Prop
  | 0, _, _ => True
  | _ + 1, .db _, _ => True
  | depth + 1, .cache top base, outpoint =>
    top.cacheCoins outpoint = none ∧ Bare depth base outpoint

/-- Walking up from a depth, the first entry met for the outpoint, if there is one,
is DIRTY and not FRESH. Such an entry relies on nothing below it, and hides the
outpoint from the layers further up. -/
def Shielded : Nat → CoinsView → COutPoint → Prop
  | 0, _, _ => True
  | _ + 1, .db _, _ => True
  | depth + 1, .cache top base, outpoint =>
    Shielded depth base outpoint ∧
      (Bare depth base outpoint → ∀ entry, top.cacheCoins outpoint = some entry →
        entry.dirty = true ∧ entry.fresh = false)

/-- A call the stack's users may make: there is a cache at that depth, its caller's
promise holds, and an outpoint whose coin changes is shielded. -/
def Op.Admissible (op : Op) (view : CoinsView) (depth : Nat) : Prop :=
  ∃ cache : CacheView, view.layer depth = some cache.view ∧ op.Ready cache ∧
    ∀ outpoint, op.onMap cache.view.utxo outpoint ≠
      cache.view.utxo outpoint → Shielded depth view outpoint

/-- Empty caches over a database of unspent coins. -/
def IsFresh : CoinsView → Prop
  | .db base => ∀ outpoint coin, base.coins outpoint = some coin → coin.isSpent = false
  | .cache top base => (∀ outpoint, top.cacheCoins outpoint = none) ∧ top.flagged = [] ∧
      base.IsFresh

/-- The stacks that admissible calls lead to. -/
inductive Reachable : CoinsView → Prop
  | start {view : CoinsView} (hfresh : view.IsFresh) : Reachable view
  | step {view view' : CoinsView} {op : Op} {depth : Nat} {result : Result}
      (hreach : Reachable view) (hadmissible : op.Admissible view depth)
      (hrun : op.runAt depth view = .ok (result, view')) : Reachable view'

/-- The effect of a call at a depth, on every layer of the stack. -/
structure Op.Refines (op : Op) (view : CoinsView) (depth : Nat) (cache : CacheView)
    (result : Result) (view' : CoinsView) : Prop where
  returns : op.Returns cache.view.utxo cache.view.bestBlock result
  here : view'.mapAt depth = some (op.onMap cache.view.utxo)
  below : ∀ other, depth < other → (op.writesBack = true → other ≠ depth + 1) →
    view'.mapAt other = view.mapAt other
  parent : op.writesBack = true →
    view'.mapAt (depth + 1) = some cache.view.utxo ∧
    (view'.layer (depth + 1)).map bestBlock = (view'.layer depth).map bestBlock ∧
    (cache.top.hashBlock ≠ 0 →
      (view'.layer depth).map bestBlock = (view.layer depth).map bestBlock)
  above : ∀ other, other < depth → ∃ map map', view.mapAt other = some map ∧
    view'.mapAt other = some map' ∧
    ∀ outpoint, op.onMap cache.view.utxo outpoint =
      cache.view.utxo outpoint → map' outpoint = map outpoint

/-! ## From a layer to the whole stack -/

variable {view : CoinsView} {top : CCoinsViewCache} {below below' : UtxoMap} {op : Op}

theorem IsFresh.wellFormed (h : view.IsFresh) : view.WellFormed := by
  induction view with
  | db base => exact h
  | cache top base ih =>
    obtain ⟨hnone, hflagged, hbase⟩ := h
    exact ⟨ih hbase, by simp [hnone], by simp [hflagged], by simp [hflagged, hnone]⟩

/-- A cache stays coherent when the map below changes only at shielded outpoints. -/
theorem coherent_of_shielded (h : top.Coherent below) (hshield : ∀ outpoint,
      below' outpoint ≠ below outpoint →
      ∀ entry, top.cacheCoins outpoint = some entry → entry.dirty = true ∧ entry.fresh = false) :
    top.Coherent below' := by
  refine ⟨fun outpoint entry hentry => ?_, h.linked⟩
  have hlegal := h.legal outpoint entry hentry
  by_cases hsame : below' outpoint = below outpoint
  · rw [hsame]
    exact hlegal
  · obtain ⟨hdirty, hfresh⟩ := hshield outpoint hsame entry hentry
    exact ⟨by simp [hdirty], by simp [hfresh], hlegal.spent⟩

/-- A cache shows a change below only where it has no entry. -/
theorem onto_ne {outpoint : COutPoint} (hne : top.onto below' outpoint ≠ top.onto below outpoint) :
    top.cacheCoins outpoint = none ∧ below' outpoint ≠ below outpoint := by
  cases hentry : top.cacheCoins outpoint with
  | none =>
    rw [CCoinsViewCache.Coherent.onto_of_none hentry,
      CCoinsViewCache.Coherent.onto_of_none hentry] at hne
    exact ⟨rfl, hne⟩
  | some entry =>
    rw [CCoinsViewCache.Coherent.onto_of_some hentry,
      CCoinsViewCache.Coherent.onto_of_some hentry] at hne
    exact absurd rfl hne

/-- A successful call on the layer at a depth, seen from the top of the stack. The
induction carries which outpoints the change is visible at. -/
theorem runAt_lift {cache new : CacheView} {result : Result}
    (hrun : op.run cache = .ok (result, new)) (hnew : new.view.WellFormed) :
    ∀ {depth : Nat} {view : CoinsView}, view.WellFormed → view.layer depth = some cache.view →
      (∀ outpoint, new.view.utxo outpoint ≠ cache.view.utxo outpoint →
      Shielded depth view outpoint) →
      ∃ view', op.runAt depth view = .ok (result, view') ∧ view'.WellFormed ∧
        (∀ offset, view'.layer (depth + offset) = new.view.layer offset) ∧
        (∀ outpoint, view'.utxo outpoint ≠ view.utxo outpoint → Bare depth view outpoint ∧
          new.view.utxo outpoint ≠ cache.view.utxo outpoint) ∧
        ∀ other, other < depth → ∃ map map', view.mapAt other = some map ∧
          view'.mapAt other = some map' ∧
          ∀ outpoint, new.view.utxo outpoint = cache.view.utxo outpoint →
          map' outpoint = map outpoint := by
  intro depth
  induction depth with
  | zero =>
    intro view hwf hlayer hshield
    obtain rfl : view = cache.view := by simpa using hlayer
    exact ⟨new.view, by simp only [CacheView.view, Op.runAt, hrun], hnew, by simp,
      fun outpoint hne => ⟨trivial, hne⟩, by simp⟩
  | succ depth ih =>
    intro view hwf hlayer hshield
    cases view with
    | db db => cases hlayer
    | cache outer inner =>
      obtain ⟨inner', hrun', hwf', hlayers, hvisible, habove⟩ :=
        ih hwf.1 hlayer fun outpoint hne => (hshield outpoint hne).1
      have houter := coherent_of_shielded hwf.2 fun outpoint hne =>
          (hshield outpoint (hvisible outpoint hne).2).2 (hvisible outpoint hne).1
      have hvisible' : ∀ outpoint, outer.onto inner'.utxo outpoint ≠
          outer.onto inner.utxo outpoint → Bare (depth + 1) (.cache outer inner) outpoint ∧
            new.view.utxo outpoint ≠ cache.view.utxo outpoint := by
        intro outpoint hne
        obtain ⟨hnone, hbelow⟩ := onto_ne hne
        obtain ⟨hbare, hchanged⟩ := hvisible outpoint hbelow
        exact ⟨⟨hnone, hbare⟩, hchanged⟩
      refine ⟨.cache outer inner', by simp only [Op.runAt, hrun'], ⟨hwf', houter⟩,
        fun offset => ?_, hvisible', fun other hother => ?_⟩
      · rw [Nat.add_right_comm]
        exact hlayers offset
      cases other with
      | zero =>
        refine ⟨_, _, mapAt_zero _, mapAt_zero _, fun outpoint hsame => ?_⟩
        by_contra hne
        exact (hvisible' outpoint hne).2 hsame
      | succ other => exact habove other (by omega)

/-- An admissible call on a well-formed stack succeeds, keeps it well formed and
has its plain-map effect on every layer. -/
theorem Op.Admissible.refines {depth : Nat} (hadmissible : op.Admissible view depth)
    (hwf : view.WellFormed) : ∃ cache result view', view.layer depth = some cache.view ∧
      op.runAt depth view = .ok (result, view') ∧ view'.WellFormed ∧
      op.Refines view depth cache result view' := by
  obtain ⟨cache, hlayer, hready, hshield⟩ := hadmissible
  have hat := hwf.of_layer hlayer
  obtain ⟨result, new, hrun, heffect⟩ := op.run_effect hat hready
  obtain ⟨view', hrunAt, hwf', hlayers, -, habove⟩ :=
    runAt_lift hrun heffect.wellFormed hwf hlayer fun outpoint hne =>
      hshield outpoint (by rwa [heffect.utxo_eq] at hne)
  have hmaps : ∀ offset, view'.mapAt (depth + offset) = new.view.mapAt offset := fun offset => by
    rw [mapAt, hlayers offset, mapAt]
  have holds : ∀ offset, view.mapAt (depth + offset) = cache.view.mapAt offset := fun offset => by
    rw [mapAt, layer_add hlayer, mapAt]
  refine ⟨cache, result, view', hlayer, hrunAt, hwf',
    ⟨heffect.returns, ?_, fun other hother hparent => ?_, fun hback => ?_, fun other hother => ?_⟩⟩
  · rw [← heffect.utxo_eq]
    simpa using hmaps 0
  · obtain ⟨offset, rfl⟩ : ∃ offset, other = depth + (offset + 1) := ⟨other - depth - 1, by omega⟩
    rw [hmaps, holds]
    cases hback : op.writesBack with
    | false => exact congrFun (heffect.below hback) offset
    | true =>
      obtain ⟨deeper, rfl⟩ : ∃ deeper, offset = deeper + 1 :=
        ⟨offset - 1, by have := hparent hback; omega⟩
      exact heffect.belowParent hback deeper
  · obtain ⟨hmap, hbest, hsame⟩ := heffect.parent hback
    have hhere : view'.layer depth = some new.view := by simpa using hlayers 0
    refine ⟨?_, ?_, fun hnonnull => ?_⟩
    · rw [hmaps 1, ← hmap]
      exact mapAt_zero new.base
    · rw [hlayers 1, hhere, Option.map_some, ← hbest]
      exact congrArg (Option.map bestBlock) (layer_zero new.base)
    · rw [hhere, hlayer, Option.map_some, Option.map_some, hsame hnonnull]
  · obtain ⟨map, map', hmap, hmap', hsame⟩ := habove other hother
    exact ⟨map, map', hmap, hmap', fun outpoint heq =>
      hsame outpoint (by rw [heffect.utxo_eq]; exact heq)⟩

/-! ## Every reachable stack -/

/-- Every reachable stack is well formed. -/
theorem Reachable.wellFormed (h : Reachable view) : view.WellFormed := by
  induction h with
  | start hfresh => exact hfresh.wellFormed
  | step _ hadmissible hrun ih =>
    obtain ⟨-, _, _, -, hrun', hwf, -⟩ := hadmissible.refines ih
    obtain ⟨-, rfl⟩ : _ ∧ _ := by simpa [hrun] using hrun'
    exact hwf

/-- **The caches refine plain maps.** After any admissible calls on any layers, any
further admissible call succeeds, so that neither logic error of the write-back is
ever thrown, and has exactly its plain-map effect. -/
theorem reachable_op_refines {view : CoinsView} (hreach : Reachable view) {op : Op}
    {depth : Nat} (hadmissible : op.Admissible view depth) :
    ∃ cache result view', view.layer depth = some cache.view ∧
      op.runAt depth view = .ok (result, view') ∧ Reachable view' ∧
      op.Refines view depth cache result view' := by
  obtain ⟨cache, result, view', hlayer, hrun, -, hrefines⟩ :=
    hadmissible.refines hreach.wellFormed
  exact ⟨cache, result, view', hlayer, hrun, hreach.step hadmissible hrun, hrefines⟩

/-- Two empty caches over an empty database. -/
def twoCaches : CoinsView := .cache {} (.cache {} (.db {}))

theorem twoCaches_isFresh : twoCaches.IsFresh :=
  ⟨fun _ => rfl, rfl, fun _ => rfl, rfl, nofun⟩

def satoshi : Coin := ⟨⟨1, []⟩, false, 1⟩

/-- A coin is added to the lower cache and spent in the upper one, which adds another coin. -/
theorem exists_reachable_spent : ∃ view, Reachable view ∧ Op.flush.Admissible view 0 ∧
    view.utxo ⟨1, 0⟩ = none ∧ view.utxo ⟨2, 0⟩ = some satoshi ∧
    (view.mapAt 1).map (fun map => (map ⟨1, 0⟩, map ⟨2, 0⟩)) = some (some satoshi, none) := by
  have hlower : (Op.addCoin ⟨1, 0⟩ satoshi false).Admissible twoCaches 1 :=
    ⟨⟨{}, .db {}⟩, rfl, ⟨rfl, fun _ => rfl⟩, fun _ _ => ⟨trivial, nofun⟩⟩
  have hadded := (Reachable.start twoCaches_isFresh).step hlower rfl
  have hspent := @Reachable.step _ _ (.spendCoin ⟨1, 0⟩) 0 _ hadded
    ⟨⟨{}, _⟩, rfl, trivial, fun _ _ => trivial⟩ rfl
  exact ⟨_, @Reachable.step _ _ (.addCoin ⟨2, 0⟩ satoshi false) 0 _ hspent
    ⟨⟨_, _⟩, rfl, ⟨rfl, fun _ => rfl⟩, fun _ _ => trivial⟩ rfl,
    ⟨⟨_, _⟩, rfl, trivial, fun _ _ => trivial⟩, rfl, rfl, rfl⟩

/-- Flushing the upper cache moves both changes to the lower one. -/
theorem reachable_op_refines_flush : ∃ view cache result view', Reachable view ∧
    (view.mapAt 1).map (fun map => (map ⟨1, 0⟩, map ⟨2, 0⟩)) = some (some satoshi, none) ∧
    view.layer 0 = some cache.view ∧ Op.flush.runAt 0 view = .ok (result, view') ∧
    Op.flush.Refines view 0 cache result view' ∧
    (view'.mapAt 1).map (fun map => (map ⟨1, 0⟩, map ⟨2, 0⟩)) = some (none, some satoshi) := by
  obtain ⟨view, hreach, hflush, hspent, hadded, hlower⟩ := exists_reachable_spent
  obtain ⟨cache, result, view', hlayer, hrun, -, hrefines⟩ := reachable_op_refines hreach hflush
  refine ⟨view, cache, result, view', hreach, hlower, hlayer, hrun, hrefines, ?_⟩
  obtain rfl : view = cache.view := by simpa using hlayer
  rw [(hrefines.parent rfl).1, Option.map_some, hspent, hadded]

/-- The side condition is needed. Both caches add a coin where their own map has
none, the child first; its entry is FRESH, and flushing it throws. -/
theorem flush_freshMisapplied : ∃ first second : CoinsView, twoCaches.IsFresh ∧
      twoCaches.utxo ⟨1, 0⟩ = none ∧
      (Op.addCoin ⟨1, 0⟩ satoshi false).runAt 0 twoCaches = .ok (.done, first) ∧
      (first.mapAt 1).map (fun map => map ⟨1, 0⟩) = some none ∧
      (Op.addCoin ⟨1, 0⟩ satoshi false).runAt 1 first = .ok (.done, second) ∧
      Op.flush.runAt 0 second = .error .freshMisapplied :=
  ⟨_, _, twoCaches_isFresh, rfl, rfl, rfl, rfl, rfl⟩

end CoinsView

end BtcSharp
