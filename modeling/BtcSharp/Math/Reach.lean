/-
# Worklist search and paths

A search over a graph given by its successor lists, with a set of nodes staged for
processing and a set of nodes already visited. Sets are duplicate-free lists. The search
may start from a set that was visited before; then it finds that set and all that the
staged nodes lead to. A second search uses what is known to follow from some of the nodes.

The last part is about how the paths of a relation change when the relation does:
when nodes are cut off, when a node without successors is added, and when several nodes are
added that the old ones do not follow.
-/

import Mathlib.Data.List.Induction
import Mathlib.Data.List.Nodup
import Mathlib.Data.List.Perm.Subperm

namespace BtcSharp.Math

open List Relation

variable {α : Type*} {stage found : List α} {node : α}

section Search

variable [DecidableEq α] (next : α → List α)

/-- Stage those of the given nodes that were not visited. -/
def stageNew (visited stage nodes : List α) : List α :=
  nodes.foldl (fun stage node => if node ∈ visited then stage else stage.insert node) stage

/-- Process the staged nodes, at most as many as the first argument says. -/
def search : Nat → List α → List α → List α
  | 0, _, visited => visited
  | _ + 1, [], visited => visited
  | fuel + 1, node :: stage, visited =>
    search fuel (stageNew (visited.insert node) stage (next node)) (visited.insert node)

variable {visited nodes : List α}

theorem mem_stageNew : ∀ {stage : List α} {node : α}, node ∈ stageNew visited stage nodes ↔
      node ∈ stage ∨ node ∈ nodes ∧ node ∉ visited := by
  induction nodes with
  | nil =>
    intro stage node
    simp [stageNew]
  | cons head nodes ih =>
    intro stage node
    have hstep : stageNew visited stage (head :: nodes) =
        stageNew visited (if head ∈ visited then stage else stage.insert head) nodes := rfl
    rw [hstep, ih]
    by_cases hhead : head ∈ visited
    · rw [if_pos hhead, mem_cons]
      refine or_congr_right (and_congr_left fun hnot => (or_iff_right ?_).symm)
      rintro rfl
      exact hnot hhead
    · have hnew : node = head → node ∉ visited := fun heq => heq ▸ hhead
      rw [if_neg hhead, mem_insert_iff, mem_cons, or_and_right, and_iff_left_of_imp hnew,
        or_assoc, or_left_comm]

theorem length_le_stageNew : stage.length ≤ (stageNew visited stage nodes).length := by
  refine foldlRecOn (motive := (stage.length ≤ length ·)) nodes _ (Nat.le_refl _) fun staged h node
    _ => Nat.le_trans h ?_
  split
  · exact Nat.le_refl _
  · exact length_le_length_insert

theorem nodup_stageNew (hstage : stage.Nodup) : (stageNew visited stage nodes).Nodup := by
  refine foldlRecOn nodes _ hstage fun staged h node _ => ?_
  split
  · exact h
  · exact h.insert

variable {next}

/-- What holds between two rounds of the search in a finite graph. -/
structure SearchInv (next : α → List α) (nodes stage visited : List α) : Prop where
  stage_nodup : stage.Nodup
  visited_nodup : visited.Nodup
  disjoint : ∀ node ∈ stage, node ∉ visited
  stage_mem : ∀ node ∈ stage, node ∈ nodes
  visited_mem : ∀ node ∈ visited, node ∈ nodes
  closed : ∀ node ∈ visited, ∀ succ ∈ next node, succ ∈ visited ∨ succ ∈ stage

omit [DecidableEq α] in
theorem SearchInv.perm {stage' : List α} (h : SearchInv next nodes stage visited)
    (hperm : stage'.Perm stage) : SearchInv next nodes stage' visited where
  stage_nodup := hperm.nodup_iff.mpr h.stage_nodup
  visited_nodup := h.visited_nodup
  disjoint := fun node hnode => h.disjoint node (hperm.mem_iff.mp hnode)
  stage_mem := fun node hnode => h.stage_mem node (hperm.mem_iff.mp hnode)
  visited_mem := h.visited_mem
  closed := fun node hnode succ hsucc => (h.closed node hnode succ hsucc).imp_right
    hperm.mem_iff.mpr

omit [DecidableEq α] in
/-- When every node was visited, none is staged. -/
theorem SearchInv.stage_eq_nil (h : SearchInv next nodes stage visited)
    (hall : nodes.length ≤ visited.length) : stage = [] := by
  have hperm := (h.visited_nodup.subperm h.visited_mem).perm_of_length_le hall
  refine eq_nil_iff_forall_not_mem.mpr fun node hnode => ?_
  exact h.disjoint node hnode (hperm.mem_iff.mpr (h.stage_mem node hnode))

omit [DecidableEq α] in
/-- Without a staged node all is visited. -/
theorem SearchInv.found_perm (h : SearchInv next nodes [] visited) (hfound : found.Nodup)
    (hreach : ∀ node, node ∈ found ↔ node ∈ visited ∨ ∃ start ∈ ([] : List α),
      ReflTransGen (fun node succ => succ ∈ next node) start node) : visited.Perm found :=
  (perm_ext_iff_of_nodup h.visited_nodup hfound).mpr fun node =>
    ((hreach node).trans (or_iff_left fun ⟨_, hstart, _⟩ => not_mem_nil hstart)).symm

/-- Without a staged node the search is over. -/
theorem search_nil (fuel : Nat) (visited : List α) : search next fuel [] visited = visited := by
  cases fuel <;> rfl

variable (hnext : ∀ node ∈ nodes, ∀ succ ∈ next node, succ ∈ nodes)
include hnext

omit [DecidableEq α] in
/-- The successor lists have the paths of the relation that they stand for. -/
theorem reflTransGen_next_iff {R : α → α → Prop} (hrel : ∀ node ∈ nodes, ∀ succ,
    succ ∈ next node ↔ R node succ) {first last : α} (hfirst : first ∈ nodes) :
    ReflTransGen (fun node succ => succ ∈ next node) first last ↔ ReflTransGen R first last := by
  suffices hmem : ∀ {last}, ReflTransGen R first last →
      ReflTransGen (fun node succ => succ ∈ next node) first last ∧ last ∈ nodes by
    refine ⟨fun hpath => ?_, fun hpath => (hmem hpath).1⟩
    induction hpath with
    | refl => exact .refl
    | tail _ hstep ih => exact ih.tail ((hrel _ (hmem ih).2 _).mp hstep)
  intro last hpath
  induction hpath with
  | refl => exact ⟨.refl, hfirst⟩
  | tail _ hstep ih =>
    have hsucc := (hrel _ ih.2 _).mpr hstep
    exact ⟨ih.1.tail hsucc, hnext _ ih.2 _ hsucc⟩

theorem SearchInv.step {stage visited : List α} {node : α}
    (h : SearchInv next nodes (node :: stage) visited) :
    SearchInv next nodes (stageNew (visited.insert node) stage (next node))
      (visited.insert node) := by
  have hnotStage : node ∉ stage := (nodup_cons.mp h.stage_nodup).1
  have hmem := h.stage_mem node mem_cons_self
  refine ⟨nodup_stageNew (nodup_cons.mp h.stage_nodup).2, h.visited_nodup.insert, ?_, ?_, ?_, ?_⟩
  · intro other hother
    rcases mem_stageNew.mp hother with hold | ⟨-, hnot⟩
    · rw [mem_insert_iff, not_or]
      exact ⟨ne_of_mem_of_not_mem hold hnotStage, h.disjoint other (mem_cons_of_mem _ hold)⟩
    · exact hnot
  · intro other hother
    rcases mem_stageNew.mp hother with hold | ⟨hsucc, -⟩
    · exact h.stage_mem other (mem_cons_of_mem _ hold)
    · exact hnext node hmem other hsucc
  · intro other hother
    rcases mem_insert_iff.mp hother with rfl | hold
    · exact hmem
    · exact h.visited_mem other hold
  · intro other hother succ hsucc
    rw [mem_stageNew]
    by_cases hvisited : succ ∈ visited.insert node
    · exact .inl hvisited
    rcases mem_insert_iff.mp hother with rfl | hold
    · exact .inr (.inr ⟨hsucc, hvisited⟩)
    rcases h.closed other hold succ hsucc with hmem | hmem
    · exact .inl (mem_insert_of_mem hmem)
    rcases mem_cons.mp hmem with rfl | hmem
    · exact absurd mem_insert_self hvisited
    · exact .inr (.inl hmem)

omit [DecidableEq α] hnext in
/-- What a visited node leads to was visited or comes from a staged node. -/
theorem SearchInv.path {first last : α} (h : SearchInv next nodes stage visited)
    (hfirst : first ∈ visited) (hpath : ReflTransGen (fun node succ => succ ∈ next node) first last)
      :
    last ∈ visited ∨
      ∃ start ∈ stage, ReflTransGen (fun node succ => succ ∈ next node) start last := by
  induction hpath with
  | refl => exact .inl hfirst
  | tail _ hstep ih =>
    rcases ih with hmem | ⟨start, hstart, hpath⟩
    · exact (h.closed _ hmem _ hstep).imp_right fun hmem => ⟨_, hmem, .refl⟩
    · exact .inr ⟨start, hstart, hpath.tail hstep⟩

/-- A step does not change what is visited or comes from a staged node. -/
theorem SearchInv.reach_step {head : α} (h : SearchInv next nodes (head :: stage) visited) :
    (node ∈ visited.insert head ∨ ∃ start ∈ stageNew (visited.insert head) stage (next head),
        ReflTransGen (fun node succ => succ ∈ next node) start node) ↔
      node ∈ visited ∨ ∃ start ∈ head :: stage, ReflTransGen (fun node succ => succ ∈ next node)
        start node := by
  constructor
  · rintro (hmem | ⟨start, hstart, hpath⟩)
    · rcases mem_insert_iff.mp hmem with rfl | hmem
      · exact .inr ⟨node, mem_cons_self, .refl⟩
      · exact .inl hmem
    rcases mem_stageNew.mp hstart with hold | ⟨hsucc, -⟩
    · exact .inr ⟨start, mem_cons_of_mem _ hold, hpath⟩
    · exact .inr ⟨head, mem_cons_self, .head hsucc hpath⟩
  rintro (hmem | ⟨start, hstart, hpath⟩)
  · exact .inl (mem_insert_of_mem hmem)
  rcases mem_cons.mp hstart with rfl | hstart
  · exact (h.step hnext).path mem_insert_self hpath
  · exact .inr ⟨start, mem_stageNew.mpr (.inl hstart), hpath⟩

/-- As many rounds as there are nodes left suffice: the search finds exactly the visited nodes and
those that staged nodes lead to. -/
theorem search_spec : ∀ {fuel : Nat} {stage visited : List α}, SearchInv next nodes stage visited →
      nodes.length ≤ fuel + visited.length → (search next fuel stage visited).Nodup ∧
      ∀ node, node ∈ search next fuel stage visited ↔ node ∈ visited ∨
        ∃ start ∈ stage, ReflTransGen (fun node succ => succ ∈ next node) start node := by
  intro fuel
  induction fuel with
  | zero =>
    intro stage visited h hfuel
    obtain rfl := h.stage_eq_nil (by omega)
    exact ⟨h.visited_nodup, fun node => (or_iff_left fun ⟨_, hstart, _⟩ => not_mem_nil hstart).symm⟩
  | succ fuel ih =>
    intro stage visited h hfuel
    cases stage with
    | nil =>
      exact ⟨h.visited_nodup,
        fun node => (or_iff_left fun ⟨_, hstart, _⟩ => not_mem_nil hstart).symm⟩
    | cons head stage =>
      have hlength : (visited.insert head).length = visited.length + 1 := by
        rw [insert_of_not_mem (h.disjoint head mem_cons_self), length_cons]
      obtain ⟨hnodup, hiff⟩ := ih (h.step hnext) (by omega)
      exact ⟨hnodup, fun node => (hiff node).trans (h.reach_step hnext)⟩

end Search

section CachedSearch

variable [DecidableEq α] (next : α → List α) (cache : α → List α)

/-- Stage those of the given nodes that were not found, but for those with an entry in the
cache: what follows from these is found. -/
def stageCached (state : List α × List α) (nodes : List α) : List α × List α :=
  nodes.foldl (fun state node =>
    if cache node ≠ [] then (state.1, cache node ∪ state.2)
    else if node ∈ state.2 then state else (state.1.insert node, state.2)) state

/-- A search that does not go through the nodes with an entry in the cache. -/
def searchCached : Nat → List α → List α → List α
  | 0, _, found => found
  | _ + 1, [], found => found
  | fuel + 1, node :: stage, found =>
    let state := stageCached cache (stage, found.insert node) (next node)
    searchCached fuel state.1 state.2

variable {next cache}

/-- A node that was found or will be, or whose entry in the cache was. -/
def Reached (cache : α → List α) (state : List α × List α) (node : α) : Prop :=
  node ∈ state.2 ∨ node ∈ state.1 ∨ cache node ≠ [] ∧ ∀ other ∈ cache node, other ∈ state.2

/-- What staging does to a state. -/
structure Staged (cache : α → List α) (nodes : List α) (state after : List α × List α) : Prop where
  stage_nodup : state.1.Nodup → after.1.Nodup
  found_nodup : state.2.Nodup → after.2.Nodup
  stage : ∀ node ∈ state.1, node ∈ after.1
  found : ∀ node ∈ state.2, node ∈ after.2
  reached : ∀ node ∈ nodes, Reached cache after node
  cached : ∀ node ∈ nodes, ∀ other ∈ cache node, other ∈ after.2
  stage_mem : ∀ node ∈ after.1, node ∈ state.1 ∨ node ∈ nodes ∧ node ∉ state.2
  found_mem : ∀ node ∈ after.2, node ∈ state.2 ∨ ∃ other ∈ nodes, node ∈ cache other

omit [DecidableEq α] in
theorem Reached.mono {state after : List α × List α} (h : Reached cache state node)
    (hstage : ∀ node ∈ state.1, node ∈ after.2 ∨ node ∈ after.1) (hfound : ∀ node ∈ state.2,
      node ∈ after.2) : Reached cache after node := by
  rcases h with hmem | hmem | ⟨hcached, hall⟩
  · exact .inl (hfound node hmem)
  · exact (hstage node hmem).imp_right .inl
  · exact .inr (.inr ⟨hcached, fun other hother => hfound other (hall other hother)⟩)

/-- One more node is staged if it has no entry in the cache and was not found, and its entry is
found. -/
theorem stageCached_concat (state : List α × List α) (nodes : List α) (last : α) :
    ∃ middle after, stageCached cache state nodes = middle ∧
      stageCached cache state (nodes ++ [last]) = after ∧
      after.2 = cache last ∪ middle.2 ∧ (middle.1.Nodup → after.1.Nodup) ∧
      ∀ node, node ∈ after.1 ↔ node ∈ middle.1 ∨ node = last ∧ cache last = [] ∧
      last ∉ middle.2 := by
  refine ⟨_, _, rfl, rfl, ?_⟩
  unfold stageCached
  rw [foldl_append, foldl_cons, foldl_nil]
  split
  · next hcached => exact ⟨rfl, id, fun node => (or_iff_left fun h => hcached h.2.1).symm⟩
  next hempty =>
  rw [not_ne_iff.mp hempty]
  split
  · next hthere => exact ⟨rfl, id, fun node => (or_iff_left fun h => h.2.2 hthere).symm⟩
  · next hnew =>
    refine ⟨rfl, fun h => h.insert, fun node => ?_⟩
    rw [mem_insert_iff, or_comm, and_iff_left ⟨rfl, hnew⟩]

theorem staged_stageCached {nodes : List α} {state : List α × List α} :
    Staged cache nodes state (stageCached cache state nodes) := by
  induction nodes using reverseRecOn with
  | nil =>
    exact ⟨id, id, fun _ h => h, fun _ h => h, nofun, nofun, fun _ => .inl, fun _ => .inl⟩
  | append_singleton nodes last ih =>
    obtain ⟨middle, after, hmiddle, hafter, hsnd, hnodup, hstage⟩ :=
      @stageCached_concat _ _ cache state nodes last
    rw [hmiddle] at ih
    rw [hafter]
    have hfound : ∀ node, node ∈ after.2 ↔ node ∈ cache last ∨ node ∈ middle.2 := fun node => by
      rw [hsnd, mem_union_iff]
    have hkept : ∀ node ∈ middle.1, node ∈ after.1 := fun node h => (hstage node).mpr (.inl h)
    have hold : ∀ node ∈ middle.2, node ∈ after.2 := fun node h => (hfound node).mpr (.inr h)
    refine ⟨fun h => hnodup (ih.stage_nodup h), fun h => hsnd ▸ (ih.found_nodup h).union _,
      fun node h => hkept node (ih.stage node h), fun node h => hold node (ih.found node h),
      ?_, ?_, ?_, ?_⟩
    · rw [forall_mem_append, forall_mem_singleton]
      refine ⟨fun node h => (ih.reached node h).mono (fun node h => .inr (hkept node h)) hold, ?_⟩
      by_cases hempty : cache last = []
      · by_cases hthere : last ∈ middle.2
        · exact .inl (hold last hthere)
        · exact .inr (.inl ((hstage last).mpr (.inr ⟨rfl, hempty, hthere⟩)))
      · exact .inr (.inr ⟨hempty, fun other h => (hfound other).mpr (.inl h)⟩)
    · rw [forall_mem_append, forall_mem_singleton]
      exact ⟨fun node h other hother => hold other (ih.cached node h other hother),
        fun other h => (hfound other).mpr (.inl h)⟩
    · intro node h
      rcases (hstage node).mp h with h | ⟨rfl, -, hnot⟩
      · exact (ih.stage_mem node h).imp_right (.imp_left (mem_append_left _))
      · exact .inr ⟨mem_append_right _ mem_cons_self, fun h => hnot (ih.found node h)⟩
    · intro node h
      rcases (hfound node).mp h with h | h
      · exact .inr ⟨last, mem_append_right _ mem_cons_self, h⟩
      · exact (ih.found_mem node h).imp_right fun ⟨other, hother, h⟩ => ⟨other,
          mem_append_left _ hother, h⟩

/-- A cache is right for the nodes to keep: its entries are for nodes that are not kept, and
contain just the kept nodes that follow. -/
structure CacheRight (next cache : α → List α) (nodes : List α) (keep : α → Prop) : Prop where
  skipped : ∀ node, cache node ≠ [] → ¬ keep node
  mem_nodes : ∀ node, ∀ other ∈ cache node, other ∈ nodes
  sound : ∀ node, ∀ other ∈ cache node, TransGen (fun node succ => succ ∈ next node) node other
  complete : ∀ node, cache node ≠ [] → ∀ other, keep other →
    TransGen (fun node succ => succ ∈ next node) node other → other ∈ cache node

/-- What holds between two rounds of the search that began with the successors of a node.
The nodes that were taken from the stage are counted; more may have been found. -/
structure CachedInv (next cache : α → List α) (nodes : List α) (keep : α → Prop) (start : α)
    (taken : List α) (state : List α × List α) : Prop where
  stage_nodup : state.1.Nodup
  found_nodup : state.2.Nodup
  taken_nodup : taken.Nodup
  taken_found : ∀ node ∈ taken, node ∈ state.2
  disjoint : ∀ node ∈ state.1, node ∉ taken
  stage_mem : ∀ node ∈ state.1, node ∈ nodes
  found_mem : ∀ node ∈ state.2, node ∈ nodes
  stage_sound : ∀ node ∈ state.1, TransGen (fun node succ => succ ∈ next node) start node
  found_sound : ∀ node ∈ state.2, TransGen (fun node succ => succ ∈ next node) start node
  begun : ∀ node ∈ next start, Reached cache state node
  covered : ∀ node ∈ state.2,
    (∀ other, keep other → TransGen (fun node succ => succ ∈ next node) node other →
      other ∈ state.2) ∨ ∀ succ ∈ next node, Reached cache state succ

variable {nodes : List α} {keep : α → Prop} {start : α} (hcache : CacheRight next cache nodes keep)
include hcache

omit [DecidableEq α] in
/-- When no node is staged, all that is kept and follows was found. -/
theorem CachedInv.complete {taken : List α}
    (h : CachedInv next cache nodes keep start taken ([], found)) {last : α} (hlast : keep last)
    (hpath : TransGen (fun node succ => succ ∈ next node) start last) : last ∈ found := by
  have hreached : ∀ node, ReflTransGen (fun node succ => succ ∈ next node) node last →
      Reached cache ([], found) node → last ∈ found := by
    intro node hreach
    induction hreach using ReflTransGen.head_induction_on with
    | refl =>
      rintro (hmem | hmem | ⟨hcached, -⟩)
      · exact hmem
      · cases hmem
      · exact absurd hlast (hcache.skipped last hcached)
    | head hstep hrest ih =>
      rintro (hmem | hmem | ⟨hcached, hall⟩)
      · rcases h.covered _ hmem with hall | hsuccs
        · exact hall last hlast (.head' hstep hrest)
        · exact ih (hsuccs _ hstep)
      · cases hmem
      · exact hall last (hcache.complete _ hcached last hlast (.head' hstep hrest))
  obtain ⟨succ, hstep, hrest⟩ := TransGen.head'_iff.mp hpath
  exact hreached succ hrest (h.begun succ hstep)

variable (hnext : ∀ node ∈ nodes, ∀ succ ∈ next node, succ ∈ nodes)
include hnext

theorem CachedInv.step {taken stage found : List α} {node : α}
    (h : CachedInv next cache nodes keep start taken (node :: stage, found)) :
    CachedInv next cache nodes keep start (node :: taken)
      (stageCached cache (stage, found.insert node) (next node)) := by
  have hstaged := @staged_stageCached α _ cache (next node) (stage, found.insert node)
  generalize stageCached cache (stage, found.insert node) (next node) = after at hstaged
  obtain ⟨hnotStage, hstageNodup⟩ := nodup_cons.mp h.stage_nodup
  have hnode := And.intro (h.stage_mem node mem_cons_self) (h.stage_sound node mem_cons_self)
  have hkeepStage : ∀ other ∈ stage, other ∈ after.1 := hstaged.stage
  have hkeepFound : ∀ other ∈ found, other ∈ after.2 := fun other hother =>
    hstaged.found other (mem_insert_of_mem hother)
  have hself : node ∈ after.2 := hstaged.found node mem_insert_self
  have hreached : ∀ other, Reached cache (node :: stage, found) other → Reached cache after other :=
    fun other h =>
    h.mono (forall_mem_cons.mpr ⟨.inl hself, fun other hother => .inr (hkeepStage other hother)⟩)
      hkeepFound
  have hstage : ∀ other ∈ after.1, other ∈ nodes ∧
      TransGen (fun node succ => succ ∈ next node) start other := by
    intro other hother
    rcases hstaged.stage_mem other hother with hold | ⟨hsucc, -⟩
    · exact ⟨h.stage_mem other (mem_cons_of_mem _ hold),
        h.stage_sound other (mem_cons_of_mem _ hold)⟩
    · exact ⟨hnext node hnode.1 other hsucc, hnode.2.tail hsucc⟩
  have hfound : ∀ other ∈ after.2, other ∈ nodes ∧
      TransGen (fun node succ => succ ∈ next node) start other := by
    intro other hother
    rcases hstaged.found_mem other hother with hold | ⟨succ, hsucc, hcached⟩
    · rcases mem_insert_iff.mp hold with rfl | hold
      · exact hnode
      · exact ⟨h.found_mem other hold, h.found_sound other hold⟩
    · exact ⟨hcache.mem_nodes succ other hcached,
        (hnode.2.tail hsucc).trans (hcache.sound succ other hcached)⟩
  refine ⟨hstaged.stage_nodup hstageNodup, hstaged.found_nodup h.found_nodup.insert, ?_, ?_, ?_,
    fun other hother => (hstage other hother).1, fun other hother => (hfound other hother).1,
    fun other hother => (hstage other hother).2,
    fun other hother => (hfound other hother).2, ?_, ?_⟩
  · exact nodup_cons.mpr ⟨h.disjoint node mem_cons_self, h.taken_nodup⟩
  · exact forall_mem_cons.mpr
      ⟨hself, fun other hother => hkeepFound other (h.taken_found other hother)⟩
  · intro other hother hmem
    rcases hstaged.stage_mem other hother with hold | ⟨-, hnot⟩
    · rcases mem_cons.mp hmem with rfl | hmem
      · exact hnotStage hold
      · exact h.disjoint other (mem_cons_of_mem _ hold) hmem
    rcases mem_cons.mp hmem with rfl | hmem
    · exact hnot mem_insert_self
    · exact hnot (mem_insert_of_mem (h.taken_found other hmem))
  · exact fun succ hsucc => hreached succ (h.begun succ hsucc)
  · intro other hother
    rcases hstaged.found_mem other hother with hold | ⟨succ, hsucc, hcached⟩
    · rcases mem_insert_iff.mp hold with rfl | hold
      · exact .inr hstaged.reached
      rcases h.covered other hold with hall | hsuccs
      · exact .inl fun d hd hpath => hkeepFound d (hall d hd hpath)
      · exact .inr fun succ hsucc => hreached succ (hsuccs succ hsucc)
    · refine .inl fun d hd hpath => ?_
      have hne : cache succ ≠ [] := ne_nil_of_mem hcached
      have hentry := hcache.complete succ hne d hd ((hcache.sound succ other hcached).trans hpath)
      exact hstaged.cached succ hsucc d hentry

/-- The search finds exactly the kept nodes that follow from its start. -/
theorem searchCached_spec : ∀ {fuel : Nat} {taken : List α} {state : List α × List α},
      CachedInv next cache nodes keep start taken state → nodes.length ≤ fuel + taken.length →
      (searchCached next cache fuel state.1 state.2).Nodup ∧
      (∀ node ∈ searchCached next cache fuel state.1 state.2, node ∈ nodes ∧
        TransGen (fun node succ => succ ∈ next node) start node) ∧
      ∀ node, keep node → TransGen (fun node succ => succ ∈ next node) start node →
        node ∈ searchCached next cache fuel state.1 state.2 := by
  intro fuel
  induction fuel with
  | zero =>
    intro taken state h hfuel
    have hperm := (h.taken_nodup.subperm fun node hnode =>
      h.found_mem node (h.taken_found node hnode)).perm_of_length_le (by omega)
    have hempty : state.1 = [] := eq_nil_iff_forall_not_mem.mpr fun node hnode =>
      h.disjoint node hnode (hperm.mem_iff.mpr (h.stage_mem node hnode))
    obtain ⟨stage, found⟩ := state
    obtain rfl : stage = [] := hempty
    exact ⟨h.found_nodup, fun node hnode => ⟨h.found_mem node hnode, h.found_sound node hnode⟩,
      fun node => h.complete hcache⟩
  | succ fuel ih =>
    intro taken state h hfuel
    obtain ⟨stage, found⟩ := state
    cases stage with
    | nil =>
      exact ⟨h.found_nodup, fun node hnode => ⟨h.found_mem node hnode, h.found_sound node hnode⟩,
        fun node => h.complete hcache⟩
    | cons node stage => exact ih (h.step hcache hnext) (by rw [length_cons]; omega)

/-- The search from the successors of a node. -/
theorem mem_searchCached_iff {fuel : Nat} (hstart : start ∈ nodes) (hnodup : (next start).Nodup)
    (hfuel : nodes.length ≤ fuel) :
    (searchCached next cache fuel (next start) []).Nodup ∧
    (∀ node ∈ searchCached next cache fuel (next start) [], node ∈ nodes) ∧
    ∀ node, keep node → (node ∈ searchCached next cache fuel (next start) [] ↔
      TransGen (fun node succ => succ ∈ next node) start node) := by
  have hinv : CachedInv next cache nodes keep start [] (next start, []) := by
    refine ⟨hnodup, nodup_nil, nodup_nil, nofun, fun _ _ => not_mem_nil, hnext start hstart, nofun,
      fun node hnode => .single hnode, nofun, fun node hnode => .inr (.inl hnode), nofun⟩
  have hrounds : nodes.length ≤ fuel + ([] : List α).length := hfuel
  obtain ⟨hresult, hsound, hcomplete⟩ := searchCached_spec hcache hnext hinv hrounds
  exact ⟨hresult, fun node hnode => (hsound node hnode).1, fun node hkeep =>
    ⟨fun hnode => (hsound node hnode).2, hcomplete node hkeep⟩⟩

end CachedSearch

section Paths

variable {r : α → α → Prop} {cut : α → Prop} {first last : α}

/-- A path to a node outside a set that is closed under successors stays outside. -/
theorem transGen_iff_avoid_of_succ (hcut : ∀ a b, cut a → r a b → cut b) (hlast : ¬ cut last) :
    TransGen r first last ↔ TransGen (fun a b => r a b ∧ ¬ cut a ∧ ¬ cut b) first last := by
  constructor
  · intro hpath
    induction hpath with
    | single hstep => exact .single ⟨hstep, fun h => hlast (hcut _ _ h hstep), hlast⟩
    | tail _ hstep ih =>
      have hmiddle := fun h => hlast (hcut _ _ h hstep)
      exact (ih hmiddle).tail ⟨hstep, hmiddle, hlast⟩
  · exact fun hpath => .mono (fun _ _ => And.left) first last hpath

/-- A path from a node outside a set that is closed under predecessors stays outside. -/
theorem transGen_iff_avoid_of_pred (hcut : ∀ a b, cut b → r a b → cut a) (hfirst : ¬ cut first) :
    TransGen r first last ↔ TransGen (fun a b => r a b ∧ ¬ cut a ∧ ¬ cut b) first last := by
  have hback := @transGen_iff_avoid_of_succ α (Function.swap r) cut last first
    (fun a b => hcut b a) hfirst
  have hswap : Function.swap (fun a b => Function.swap r a b ∧ ¬ cut a ∧ ¬ cut b) = fun a b =>
      r a b ∧ ¬ cut a ∧ ¬ cut b := funext₂ fun a b => propext (and_congr_right' and_comm)
  rw [← hswap]
  exact transGen_swap.symm.trans (hback.trans transGen_swap.symm)

variable {r' : α → α → Prop}

/-- A node without successors is added: the new paths are those that end in it. -/
theorem transGen_sink {pred : α → Prop}
    (hr' : ∀ a b, r' a b ↔ r a b ∨ b = node ∧ pred a) (hsink : ∀ b, ¬ r node b)
    (hpred : ¬ pred node) :
    TransGen r' first last ↔ TransGen r first last ∨ last = node ∧ ∃ a, pred a ∧
    ReflTransGen r first a := by
  constructor
  · intro hpath
    induction hpath with
    | single hstep =>
      rcases (hr' _ _).mp hstep with hold | ⟨hlast, hnew⟩
      · exact .inl (.single hold)
      · exact .inr ⟨hlast, first, hnew, .refl⟩
    | tail _ hstep ih =>
      rcases ih with hbefore | ⟨rfl, -⟩
      · rcases (hr' _ _).mp hstep with hold | ⟨hlast, hnew⟩
        · exact .inl (hbefore.tail hold)
        · exact .inr ⟨hlast, _, hnew, hbefore.to_reflTransGen⟩
      rcases (hr' _ _).mp hstep with hold | ⟨-, hnew⟩
      · exact absurd hold (hsink _)
      · exact absurd hnew hpred
  · have hold : ∀ a b, r a b → r' a b := fun a b hstep => (hr' a b).mpr (.inl hstep)
    rintro (hpath | ⟨rfl, a, hnew, hpath⟩)
    · exact .mono hold first last hpath
    · exact .tail' (.mono hold first a hpath) ((hr' a last).mpr (.inr ⟨rfl, hnew⟩))

section

variable (new : α → Prop) (hold : ∀ a b, r' a b → ¬ new b → r a b ∧ ¬ new a)

include new hold

/-- Nodes are added that no old node follows: a path to an old node is an old path. -/
theorem transGen_old (hpath : TransGen r' first last)
    (hlast : ¬ new last) : TransGen r first last ∧ ¬ new first := by
  induction hpath with
  | single hstep => exact (hold _ _ hstep hlast).imp_left .single
  | tail _ hstep ih =>
    obtain ⟨hedge, hmiddle⟩ := hold _ _ hstep hlast
    exact (ih hmiddle).imp_left fun hbefore => hbefore.tail hedge

/-- A path from an old node is an old path, or leaves the old nodes at some point. -/
theorem transGen_graft (hfirst : ¬ new first)
    (hpath : TransGen r' first last) :
    (TransGen r first last ∧ ¬ new last) ∨
      ∃ a b, ReflTransGen r first a ∧ ¬ new a ∧ r' a b ∧ new b ∧ ReflTransGen r' b last := by
  induction hpath with
  | @single last hstep =>
    by_cases hlast : new last
    · exact .inr ⟨first, last, .refl, hfirst, hstep, hlast, .refl⟩
    · exact .inl ⟨.single (hold _ _ hstep hlast).1, hlast⟩
  | @tail middle last _ hstep ih =>
    rcases ih with ⟨hbefore, hmiddle⟩ | ⟨a, b, hbefore, ha, hedge, hb, hafter⟩
    · by_cases hlast : new last
      · exact .inr ⟨middle, last, hbefore.to_reflTransGen, hmiddle, hstep, hlast, .refl⟩
      · exact .inl ⟨hbefore.tail (hold _ _ hstep hlast).1, hlast⟩
    · exact .inr ⟨a, b, hbefore, ha, hedge, hb, hafter.tail hstep⟩

end

end Paths

end BtcSharp.Math
