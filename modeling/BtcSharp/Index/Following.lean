/-
# The index stays on the active chain

The calls of the derived index follow one block after the other: it appends a child of the
block it is at, and goes back to an ancestor. After the hand-over to notifications, what the
queue will lead to is at least the active tip, whatever of the backlog is ignored: if one block
of the backlog is taken, all that follow are.

`Sync` moves its cursor ahead of `m_best_block_index` between two commits. When the active chain
leaves the cursor in such a moment, the assertion of `Rewind` fails.
-/

import BtcSharp.Index.BaseIndex

namespace BtcSharp

open BaseIndex List Relation.ReflTransGen

/-! ## The next block -/

namespace CChain

variable {tip pindex fork : CBlockIndex}

theorem contains_iff (hne : pindex ≠ []) : contains tip pindex = true ↔ pindex <:+ tip := by
  rw [contains, beq_iff_eq, CBlockIndex.getAncestor_eq_iff hne]

/-- The block after one of the chain is its child there, or it is the tip. -/
theorem next_suffix (hne : pindex ≠ []) (hsuffix : pindex <:+ tip) :
    next tip pindex = [] ∧ pindex = tip ∨
      next tip pindex ≠ [] ∧ next tip pindex <:+ tip ∧ (next tip pindex).pprev = pindex := by
  obtain ⟨before, rfl⟩ := hsuffix
  have hpos := length_pos_iff.mpr hne
  rw [next, if_pos ((contains_iff hne).mpr (suffix_append before pindex))]
  unfold CBlockIndex.getAncestor CBlockIndex.nHeight
  rw [length_append, Nat.sub_add_cancel hpos]
  rcases eq_nil_or_concat before with rfl | ⟨front, _, rfl⟩
  · left
    rw [length_nil, Nat.zero_add, if_neg (Nat.lt_irrefl _)]
    exact ⟨rfl, rfl⟩
  right
  rw [concat_eq_append, length_append, length_singleton, if_pos (by omega)]
  have hdrop : front.length + 1 + pindex.length - 1 - pindex.length = front.length := by omega
  rw [hdrop, append_assoc, drop_left]
  exact ⟨cons_ne_nil _ _, suffix_append _ _, rfl⟩

theorem walkToFork_suffix (tip pindex : CBlockIndex) : walkToFork tip pindex <:+ pindex := by
  induction pindex with
  | nil => exact suffix_rfl
  | cons hash pprev ih =>
    rw [walkToFork]
    split
    · exact suffix_rfl
    · exact ih.trans (suffix_cons hash pprev)

/-- Two chains with one genesis block have a fork. -/
theorem walkToFork_spec (htip : tip ≠ []) (hne : pindex ≠ [])
    (hsame : pindex.getLast? = tip.getLast?) :
    walkToFork tip pindex ≠ [] ∧ walkToFork tip pindex <:+ tip := by
  induction pindex with
  | nil => exact absurd rfl hne
  | cons hash pprev ih =>
    rw [walkToFork]
    split
    · next hcontains => exact ⟨hne, (contains_iff hne).mp hcontains⟩
    next hcontains =>
    have hlonger : pprev ≠ [] := by
      rintro rfl
      obtain ⟨before, rfl⟩ := getLast?_eq_some_iff.mp (hsame.symm.trans rfl)
      exact hcontains ((contains_iff hne).mpr (suffix_append before [hash]))
    apply ih hlonger
    rw [← hsame, getLast?_cons_of_ne_nil hlonger]

theorem findFork_suffix (tip pindex : CBlockIndex) : findFork tip pindex <:+ pindex := by
  refine (walkToFork_suffix _ _).trans ?_
  split
  case isTrue hlonger =>
    split
    case isTrue => exact nil_suffix
    case isFalse =>
      apply (getAncestor_spec _).1
      exact Nat.lt_of_le_of_lt (Nat.sub_le _ _) hlonger
  case isFalse => exact suffix_rfl

theorem findFork_spec (htip : tip ≠ []) (hne : pindex ≠ [])
    (hsame : pindex.getLast? = tip.getLast?) :
    findFork tip pindex ≠ [] ∧ findFork tip pindex <:+ tip := by
  unfold findFork
  split
  case isTrue hlonger =>
    obtain ⟨-, hlength, hlast⟩ := @getAncestor_spec pindex tip.nHeight
      (Nat.lt_of_le_of_lt (Nat.sub_le _ _) hlonger)
    exact walkToFork_spec htip (length_pos_iff.mp (by omega)) (hlast.trans hsame)
  case isFalse => exact walkToFork_spec htip hne hsame

end CChain

/-- Two blocks of one tree: they have a genesis block in common, or one of them is null. -/
def SameTree (first second : CBlockIndex) : Prop :=
  first ≠ [] → second ≠ [] → first.getLast? = second.getLast?

theorem SameTree.of_suffix {first second block : CBlockIndex} (h : SameTree first block)
    (hsuffix : second <:+ block) : SameTree first second := by
  intro hfirst hsecond
  obtain ⟨before, rfl⟩ := hsuffix
  rw [h hfirst (append_ne_nil_of_right_ne_nil before hsecond),
    getLast?_append_of_ne_nil before hsecond]

/-- The block that `Sync` goes on with is a child of an ancestor of its cursor; with none, the
cursor is or descends from the tip. -/
theorem nextSyncBlock_spec {pindex tip : CBlockIndex} (htip : tip ≠ [])
    (hsame : SameTree pindex tip) : nextSyncBlock pindex tip = [] ∧ tip <:+ pindex ∨
      nextSyncBlock pindex tip ≠ [] ∧ nextSyncBlock pindex tip <:+ tip ∧
        (nextSyncBlock pindex tip).pprev <:+ pindex ∧
        ((nextSyncBlock pindex tip).pprev ≠ [] ∨ (nextSyncBlock pindex tip).pprev = pindex) := by
  unfold nextSyncBlock
  split
  · next hstart =>
    obtain ⟨hsuffix, hlength, -⟩ := @getAncestor_spec tip 0 (length_pos_iff.mpr htip)
    obtain ⟨_, hgenesis⟩ := length_eq_one_iff.mp hlength
    rw [hgenesis] at hsuffix ⊢
    exact .inr ⟨cons_ne_nil _ _, hsuffix, nil_suffix, .inr hstart.symm⟩
  next hstart =>
  by_cases hnext : CChain.next tip pindex = []
  · obtain ⟨hfork, hsuffix⟩ := CChain.findFork_spec htip hstart (hsame hstart htip)
    have hback := CChain.findFork_suffix tip pindex
    rw [if_neg (not_not.mpr hnext)]
    rcases CChain.next_suffix hfork hsuffix with ⟨hnone, heq⟩ | ⟨hsome, hchain, hprev⟩
    · exact .inl ⟨hnone, heq ▸ hback⟩
    refine .inr ⟨hsome, hchain, ?_, .inl ?_⟩
    · rw [hprev]
      exact hback
    · rw [hprev]
      exact hfork
  · have hsuffix : pindex <:+ tip := by
      by_contra hnot
      exact hnext (if_neg fun h => hnot ((CChain.contains_iff hstart).mp h))
    rw [if_pos hnext]
    rcases CChain.next_suffix hstart hsuffix with ⟨hnone, -⟩ | ⟨hsome, hchain, hprev⟩
    · exact absurd hnone hnext
    · refine .inr ⟨hsome, hchain, ?_, .inr hprev⟩
      rw [hprev]

/-! ## What the index was told -/

/-- The calls lead from one block to another: only a child is appended, the index goes back only
to an ancestor, and what is committed is a block whose data it holds. -/
inductive Follows (start : CBlockIndex) : List IndexCall → CBlockIndex → Prop
  | start : Follows start [] start
  | append {calls : List IndexCall} {last pindex : CBlockIndex} (h : Follows start calls last)
      (hsome : pindex ≠ []) (hchild : pindex.pprev = last) :
      Follows start (calls ++ [.append pindex]) pindex
  | rewind {calls : List IndexCall} {last new_tip : CBlockIndex} (h : Follows start calls last)
      (hancestor : new_tip <:+ last) : Follows start (calls ++ [.rewind last new_tip]) new_tip
  | commit {calls : List IndexCall} {last best : CBlockIndex} (h : Follows start calls last)
      (hheld : best <:+ last) : Follows start (calls ++ [.commit best]) last

theorem Follows.of_commit {calls : List IndexCall} {start best_block last : CBlockIndex}
    (h : Follows start (calls ++ [.commit best_block]) last) : Follows start calls last := by
  generalize hmore : calls ++ [IndexCall.commit best_block] = more at h
  cases h with
  | start => simp at hmore
  | append h | rewind h => simp at hmore
  | commit h =>
    obtain ⟨rfl, -⟩ := append_inj' hmore rfl
    exact h

/-- What was done before a failure follows as well. -/
theorem Follows.of_isPrefix {calls more : List IndexCall} {start last : CBlockIndex}
    (h : Follows start more last) (hle : calls <+: more) : ∃ last', Follows start calls last' := by
  induction h with
  | start => exact ⟨start, prefix_nil.mp hle ▸ .start⟩
  | append h hsome hchild ih =>
    rcases prefix_concat_iff.mp hle with rfl | hle
    · exact ⟨_, .append h hsome hchild⟩
    · exact ih hle
  | rewind h hancestor ih =>
    rcases prefix_concat_iff.mp hle with rfl | hle
    · exact ⟨_, .rewind h hancestor⟩
    · exact ih hle
  | commit h hheld ih =>
    rcases prefix_concat_iff.mp hle with rfl | hle
    · exact ⟨_, .commit h hheld⟩
    · exact ih hle

namespace BaseIndex

/-- The block that a notification leads to. -/
def accept (best : CBlockIndex) : Notification → CBlockIndex
  | .blockConnected pindex => if pindex.pprev <:+ best then pindex else best
  | .chainStateFlushed _ => best

/-- The block that the queue leads to. -/
def drain (best : CBlockIndex) (queue : List Notification) : CBlockIndex := queue.foldl accept best

/-- No notification is about the genesis block. -/
def NoGenesis (queue : List Notification) : Prop :=
  ∀ pindex, .blockConnected pindex ∈ queue → pindex.pprev ≠ []

/-- What is left of the queue at any time leads to the tip or a descendant, unless all of it is
ignored. -/
def Backlog (tip : CBlockIndex) (queue : List Notification) : Prop :=
  ∀ rest, rest <:+ queue → ∀ best, drain best rest = best ∨ tip <:+ drain best rest

variable {tip best : CBlockIndex} {queue : List Notification}

theorem drain_append (notification : Notification) :
    drain best (queue ++ [notification]) = accept (drain best queue) notification := by
  rw [drain, foldl_append]
  rfl

theorem accept_child {hash : Uint256} (h : tip <:+ best) :
    accept best (.blockConnected (hash :: tip)) = hash :: tip := if_pos h

theorem Backlog.connect (h : Backlog tip queue) (hash : Uint256) :
    Backlog (hash :: tip) (queue ++ [.blockConnected (hash :: tip)]) := by
  intro rest hrest best
  rcases suffix_concat_iff.mp hrest with rfl | ⟨front, rfl, hfront⟩
  · exact .inl rfl
  rw [drain_append]
  rcases h front hfront best with heq | htip
  · rw [heq]
    show (if _ then _ else _) = best ∨ _ <:+ (if _ then _ else _)
    split
    · exact .inr suffix_rfl
    · exact .inl rfl
  · rw [accept_child htip]
    exact .inr suffix_rfl

theorem Backlog.disconnect (h : Backlog tip queue) : Backlog tip.pprev queue :=
  fun rest hrest best => (h rest hrest best).imp_right ((tail_suffix tip).trans ·)

theorem Backlog.flush (h : Backlog tip queue) (locator_tip : CBlockIndex) :
    Backlog tip (queue ++ [.chainStateFlushed locator_tip]) := by
  intro rest hrest best
  rcases suffix_concat_iff.mp hrest with rfl | ⟨front, rfl, hfront⟩
  · exact .inl rfl
  · rw [drain_append]
    exact h front hfront best

theorem Backlog.tail {notification : Notification} (h : Backlog tip (notification :: queue)) :
    Backlog tip queue :=
  fun rest hrest => h rest (hrest.trans (suffix_cons _ _))

/-! ## The invariant -/

/-- The block that the index is at. -/
def position (s : BaseIndex) : CBlockIndex :=
  match s.point with
  | .rewound pindex_next => pindex_next.pprev
  | .finished => s.m_best_block_index
  | _ => s.pindex

/-- What `Sync` knows at a point. -/
def Knows (s : BaseIndex) : Prop :=
  match s.point with
  | .committed => s.m_best_block_index = s.pindex
  | .found pindex_next => pindex_next ≠ [] ∧ pindex_next.pprev <:+ s.pindex ∧
      (pindex_next.pprev ≠ [] ∨ pindex_next.pprev = s.pindex)
  | .rewound pindex_next => pindex_next ≠ [] ∧ s.m_best_block_index = pindex_next.pprev
  | _ => True

/-- While the index is empty, the genesis block comes first. -/
inductive GenesisFirst (best tip : CBlockIndex) (queue : List Notification) : Prop
  | started (hbest : best ≠ []) (htip : tip ≠ []) (hqueue : NoGenesis queue)
  | nothing (hbest : best = []) (htip : tip = []) (hqueue : queue = [])
  | waiting {genesis : Uint256} {rest : List Notification} (hbest : best = []) (htip : tip ≠ [])
      (hqueue : queue = .blockConnected [genesis] :: rest) (hrest : NoGenesis rest)

/-- What holds until the hand-over to notifications. -/
structure Syncing (s : BaseIndex) : Prop where
  tip : s.tip ≠ []
  tree : SameTree s.pindex s.tip
  next : ∀ pindex_next, s.point = .found pindex_next ∨ s.point = .rewound pindex_next →
    SameTree pindex_next s.tip
  backlog : Backlog s.tip s.queue
  noGenesis : NoGenesis s.queue

/-- What holds between steps. -/
structure Inv (start : CBlockIndex) (s : BaseIndex) : Prop where
  alive : s.assertFailed = false
  follows : Follows start s.calls s.position
  synced : s.m_synced = true ↔ s.point = .finished
  knows : s.Knows
  syncing : s.m_synced = false → Syncing s
  following : s.m_synced = true → s.tip <:+ drain s.m_best_block_index s.queue ∧
    GenesisFirst s.m_best_block_index s.tip s.queue

variable {start : CBlockIndex} {s : BaseIndex}

theorem NoGenesis.append {notification : Notification} (h : NoGenesis queue)
    (hnew : ∀ pindex, notification = .blockConnected pindex → pindex.pprev ≠ []) :
    NoGenesis (queue ++ [notification]) := by
  intro pindex hmem
  rcases mem_append.mp hmem with hold | hlast
  · exact h pindex hold
  · exact hnew pindex (mem_singleton.mp hlast).symm

theorem NoGenesis.tail {notification : Notification} (h : NoGenesis (notification :: queue)) :
    NoGenesis queue := fun pindex hmem => h pindex (mem_cons_of_mem _ hmem)

section

variable (h : GenesisFirst best tip queue)

include h

theorem GenesisFirst.connect (hash : Uint256) :
    GenesisFirst best (hash :: tip) (queue ++ [.blockConnected (hash :: tip)]) := by
  have hnew : ∀ {tip : CBlockIndex}, tip ≠ [] → ∀ pindex,
      Notification.blockConnected (hash :: tip) = .blockConnected pindex → pindex.pprev ≠ [] := by
    rintro tip htip pindex heq
    obtain rfl := Notification.blockConnected.inj heq
    exact htip
  cases h with
  | started hbest htip hqueue => exact .started hbest (cons_ne_nil _ _) (hqueue.append (hnew htip))
  | nothing hbest htip hqueue =>
    rw [htip, hqueue]
    exact .waiting hbest (cons_ne_nil _ _) rfl nofun
  | waiting hbest htip hqueue hrest =>
    rw [hqueue]
    exact .waiting hbest (cons_ne_nil _ _) rfl (hrest.append (hnew htip))

theorem GenesisFirst.disconnect (hnext : tip.pprev ≠ []) : GenesisFirst best tip.pprev queue := by
  cases h with
  | started hbest htip hqueue => exact .started hbest hnext hqueue
  | nothing hbest htip hqueue =>
    rw [htip] at hnext
    exact absurd rfl hnext
  | waiting hbest htip hqueue hrest => exact .waiting hbest hnext hqueue hrest

theorem GenesisFirst.flush (htip : tip ≠ []) (locator_tip : CBlockIndex) :
    GenesisFirst best tip (queue ++ [.chainStateFlushed locator_tip]) := by
  have hnew : ∀ pindex, Notification.chainStateFlushed locator_tip = .blockConnected pindex →
      pindex.pprev ≠ [] := nofun
  cases h with
  | started hbest htip hqueue => exact .started hbest htip (hqueue.append hnew)
  | nothing hbest hnone hqueue => exact absurd hnone htip
  | waiting hbest htip hqueue hrest =>
    rw [hqueue]
    exact .waiting hbest htip rfl (hrest.append hnew)

end

theorem sameTree_connect {first : CBlockIndex} (h : SameTree first tip) (htip : tip ≠ [])
    (hash : Uint256) : SameTree first (hash :: tip) :=
  fun hfirst _ => (h hfirst htip).trans (getLast?_cons_of_ne_nil htip).symm

/-! ## Single calls -/

/-- `Commit` only tells the index. -/
theorem commit_eq (s : BaseIndex) : s.commit = { s with calls := s.commit.calls } := by
  unfold commit
  split <;> rfl

theorem not_ready (hsynced : s.m_synced = true) : ¬ (!s.m_synced) = true := by
  rw [hsynced]
  decide

/-- What is committed is a block that the index is at or has gone past. -/
theorem follows_commit {last : CBlockIndex} (h : Follows start s.calls last)
    (hheld : s.m_best_block_index <:+ last) : Follows start s.commit.calls last := by
  unfold commit
  split
  · exact h
  · exact .commit h hheld

variable {new_tip : CBlockIndex} {t : BaseIndex} {notification : Notification}

/-- `Rewind` from the best block to an ancestor. -/
theorem rewind_eq (hne : new_tip ≠ []) (hancestor : new_tip <:+ s.m_best_block_index) :
    s.rewind s.m_best_block_index new_tip =
      (setBestBlockIndex { s with calls := s.calls ++ [.rewind s.m_best_block_index new_tip] }
        new_tip).commit :=
  if_pos ⟨rfl, hne, (CBlockIndex.getAncestor_eq_iff hne).mpr hancestor⟩

theorem follows_rewind (h : Follows start s.calls s.m_best_block_index)
    (hne : new_tip ≠ []) (hancestor : new_tip <:+ s.m_best_block_index) :
    Follows start (s.rewind s.m_best_block_index new_tip).calls new_tip := by
  rw [rewind_eq hne hancestor]
  apply follows_commit
  · exact .rewind h hancestor
  · exact suffix_rfl

/-! ## The node -/

theorem Syncing.connect (h : Syncing s) (hash : Uint256) : Syncing { s with
      tip := hash :: s.tip
      queue := s.queue ++ [.blockConnected (hash :: s.tip)] } where
  tip := cons_ne_nil _ _
  tree := sameTree_connect h.tree h.tip hash
  next := fun pindex_next hpoint => sameTree_connect (h.next pindex_next hpoint) h.tip hash
  backlog := h.backlog.connect hash
  noGenesis := h.noGenesis.append fun pindex heq => by
    obtain rfl := Notification.blockConnected.inj heq
    exact h.tip

theorem Inv.connect (h : Inv start s) (hash : Uint256) : Inv start { s with
      tip := hash :: s.tip
      queue := s.queue ++ [.blockConnected (hash :: s.tip)] } := by
  refine {
    h with syncing := fun hsyncing => (h.syncing hsyncing).connect hash, following :=
    fun hsynced => ?_ }
  obtain ⟨hdrain, hfirst⟩ := h.following hsynced
  refine ⟨?_, hfirst.connect hash⟩
  rw [drain_append, accept_child hdrain]

theorem Inv.disconnect (h : Inv start s) (hgenesis : s.tip.pprev ≠ []) :
    Inv start { s with tip := s.tip.pprev } := by
  have hsuffix := tail_suffix s.tip
  refine { h with syncing := fun hsyncing => ?_, following := fun hsynced => ?_ }
  · have hbefore := h.syncing hsyncing
    exact ⟨hgenesis, hbefore.tree.of_suffix hsuffix,
      fun pindex_next hpoint => (hbefore.next pindex_next hpoint).of_suffix hsuffix,
      hbefore.backlog.disconnect, hbefore.noGenesis⟩
  · obtain ⟨hdrain, hfirst⟩ := h.following hsynced
    exact ⟨hsuffix.trans hdrain, hfirst.disconnect hgenesis⟩

theorem Inv.flush (h : Inv start s) (htip : s.tip ≠ []) (locator_tip : CBlockIndex) :
    Inv start { s with queue := s.queue ++ [.chainStateFlushed locator_tip] } := by
  refine { h with syncing := fun hsyncing => ?_, following := fun hsynced => ?_ }
  · have hbefore := h.syncing hsyncing
    exact { hbefore with
      backlog := hbefore.backlog.flush locator_tip
      noGenesis := hbefore.noGenesis.append fun pindex heq => nomatch heq }
  obtain ⟨hdrain, hfirst⟩ := h.following hsynced
  refine ⟨?_, hfirst.flush htip locator_tip⟩
  rw [drain_append]
  exact hdrain

/-! ## Notifications -/

variable {rest : List Notification}

theorem position_of_synced (h : Inv start s) (hsynced : s.m_synced = true) :
    s.position = s.m_best_block_index := by
  unfold position
  rw [h.synced.mp hsynced]

/-- The index is in sync and has gone to another block. -/
theorem inv_of_synced (halive : t.assertFailed = false) (hsynced : t.m_synced = true)
    (hpoint : t.point = .finished) (hfollows : Follows start t.calls t.m_best_block_index)
    (hdrain : t.tip <:+ drain t.m_best_block_index t.queue)
    (hfirst : GenesisFirst t.m_best_block_index t.tip t.queue) : Inv start t where
  alive := halive
  follows := by
    unfold position
    rw [hpoint]
    exact hfollows
  synced := ⟨fun _ => hpoint, fun _ => hsynced⟩
  knows := by
    unfold Knows
    rw [hpoint]
    trivial
  syncing := fun hsyncing => absurd (hsynced.symm.trans hsyncing) (by decide)
  following := fun _ => ⟨hdrain, hfirst⟩

/-- Before the hand-over notifications are ignored. -/
theorem Inv.ignore (h : Inv start s) (hsyncing : s.m_synced = false)
    (hqueue : s.queue = notification :: rest) : Inv start { s with queue := rest } := by
  have hbefore := h.syncing hsyncing
  refine {
    h with syncing := fun _ => ?_, following :=
    fun hsynced => Bool.noConfusion (hsyncing.symm.trans hsynced) }
  exact { hbefore with
    backlog := (hqueue ▸ hbefore.backlog).tail
    noGenesis := (hqueue ▸ hbefore.noGenesis).tail }

variable {pindex pindex_next : CBlockIndex}

theorem ne_nil_of_pprev (h : pindex.pprev ≠ []) : pindex ≠ [] := by
  intro hnil
  rw [hnil] at h
  exact h rfl

theorem nHeight_pprev (h : pindex.pprev ≠ []) :
    pindex.nHeight ≠ 0 ∧ pindex.nHeight - 1 = pindex.pprev.nHeight := by
  have hpos := length_pos_iff.mpr h
  have hlength : pindex.pprev.length = pindex.length - 1 := length_tail
  unfold CBlockIndex.nHeight
  omega

theorem blockConnected_genesis (hsynced : s.m_synced = true) (hbest : s.m_best_block_index = [])
    (genesis : Uint256) :
    s.blockConnected [genesis] = (s.customAppend [genesis]).setBestBlockIndex [genesis] := by
  unfold blockConnected
  rw [if_neg (not_ready hsynced), if_pos hbest]
  exact if_neg (not_not.mpr rfl)

theorem blockConnected_ignored (hsynced : s.m_synced = true)
    (hbest : s.m_best_block_index ≠ []) (hprev : pindex.pprev ≠ [])
    (hother : ¬ pindex.pprev <:+ s.m_best_block_index) : s.blockConnected pindex = s := by
  obtain ⟨hheight, hheights⟩ := nHeight_pprev hprev
  unfold blockConnected
  rw [if_neg (not_ready hsynced), if_neg hbest, if_neg hheight, hheights]
  exact if_pos fun heq => hother ((CBlockIndex.getAncestor_eq_iff hprev).mp heq)

/-- The index has gone to another block and nothing else has changed. -/
structure Moved (start pindex : CBlockIndex) (s t : BaseIndex) : Prop where
  tip : t.tip = s.tip
  queue : t.queue = s.queue
  synced : t.m_synced = s.m_synced
  best : t.m_best_block_index = pindex
  point : t.point = s.point
  alive : t.assertFailed = s.assertFailed
  follows : Follows start t.calls pindex

theorem blockConnected_next (hsynced : s.m_synced = true) (halive : s.assertFailed = false)
    (hbest : s.m_best_block_index ≠ []) (hprev : pindex.pprev ≠ [])
    (hnext : pindex.pprev <:+ s.m_best_block_index)
      (hfollows : Follows start s.calls s.m_best_block_index) :
    Moved start pindex s (s.blockConnected pindex) := by
  have hsome := ne_nil_of_pprev hprev
  obtain ⟨hheight, hheights⟩ := nHeight_pprev hprev
  have htest := (CBlockIndex.getAncestor_eq_iff hprev).mpr hnext
  unfold blockConnected
  rw [if_neg (not_ready hsynced), if_neg hbest, if_neg hheight, hheights,
    if_neg (not_not.mpr htest)]
  by_cases hdirect : s.m_best_block_index = pindex.pprev
  · rw [if_neg (not_not.mpr hdirect)]
    rw [if_neg (Bool.not_eq_true _ ▸ halive)]
    exact ⟨rfl, rfl, rfl, rfl, rfl, rfl, .append hfollows hsome hdirect.symm⟩
  have hrewind := follows_rewind hfollows hprev hnext
  rw [if_pos hdirect]
  rw [rewind_eq hprev hnext] at hrewind ⊢
  rw [commit_eq] at hrewind ⊢
  rw [if_neg (Bool.not_eq_true _ ▸ halive)]
  exact ⟨rfl, rfl, rfl, rfl, rfl, rfl, hrewind.append hsome rfl⟩

theorem Inv.blockConnected (h : Inv start s) (hsynced : s.m_synced = true)
    (hqueue : s.queue = .blockConnected pindex :: rest) :
    Inv start (BaseIndex.blockConnected { s with queue := rest } pindex) := by
  obtain ⟨hdrain, hfirst⟩ := h.following hsynced
  have hfollows := h.follows
  rw [position_of_synced h hsynced] at hfollows
  rw [hqueue] at hdrain hfirst
  have hpoint := h.synced.mp hsynced
  cases hfirst with
  | @waiting genesis _ hbest hsome hhead hrest =>
    obtain ⟨hpindex, rfl⟩ := cons.inj hhead
    obtain rfl := Notification.blockConnected.inj hpindex
    rw [hbest] at hdrain hfollows
    rw [blockConnected_genesis (s := { s with queue := rest }) hsynced hbest]
    exact inv_of_synced h.alive hsynced hpoint (hfollows.append (cons_ne_nil _ _) rfl) hdrain
      (.started (cons_ne_nil _ _) hsome hrest)
  | nothing hbest hsome hhead => exact absurd hhead (cons_ne_nil _ _)
  | started hne hsome hno =>
    have hprev := hno pindex mem_cons_self
    rw [drain, foldl_cons] at hdrain
    by_cases hnext : pindex.pprev <:+ s.m_best_block_index
    · have hmoved : Moved start pindex { s with queue := rest }
          (.blockConnected { s with queue := rest } pindex) :=
        blockConnected_next hsynced h.alive hne hprev hnext hfollows
      have haccept : accept s.m_best_block_index (.blockConnected pindex) = pindex := if_pos hnext
      rw [haccept] at hdrain
      apply inv_of_synced (hmoved.alive.trans h.alive) (hmoved.synced.trans hsynced)
        (hmoved.point.trans hpoint)
      · rw [hmoved.best]
        exact hmoved.follows
      · rw [hmoved.best, hmoved.tip, hmoved.queue]
        exact hdrain
      · rw [hmoved.best, hmoved.tip, hmoved.queue]
        exact .started (ne_nil_of_pprev hprev) hsome hno.tail
    · have haccept : accept s.m_best_block_index (.blockConnected pindex) = s.m_best_block_index :=
        if_neg hnext
      rw [haccept] at hdrain
      rw [blockConnected_ignored (s := { s with queue := rest }) hsynced hne hprev hnext]
      exact inv_of_synced h.alive hsynced hpoint hfollows hdrain (.started hne hsome hno.tail)

theorem Inv.chainStateFlushed {locator_tip : CBlockIndex} (h : Inv start s)
    (hsynced : s.m_synced = true) (hqueue : s.queue = .chainStateFlushed locator_tip :: rest) :
    Inv start (BaseIndex.chainStateFlushed { s with queue := rest } locator_tip) := by
  obtain ⟨hdrain, hfirst⟩ := h.following hsynced
  have hfollows := h.follows
  rw [position_of_synced h hsynced] at hfollows
  rw [hqueue] at hdrain hfirst
  have hpoint := h.synced.mp hsynced
  cases hfirst with
  | nothing hbest hsome hhead => exact absurd hhead (cons_ne_nil _ _)
  | waiting hbest hsome hhead hrest => exact nomatch (cons.inj hhead).1
  | started hne hsome hno =>
    have hsame : GenesisFirst s.m_best_block_index s.tip rest := .started hne hsome hno.tail
    unfold BaseIndex.chainStateFlushed
    rw [if_neg (not_ready hsynced), if_neg hne]
    split
    · exact inv_of_synced h.alive hsynced hpoint hfollows hdrain hsame
    rw [commit_eq]
    exact inv_of_synced h.alive hsynced hpoint (follows_commit hfollows suffix_rfl) hdrain hsame

theorem Inv.deliver (h : Inv start s) (hqueue : s.queue = notification :: rest) :
    Inv start (BaseIndex.deliver { s with queue := rest } notification) := by
  by_cases hsynced : s.m_synced = true
  · cases notification with
    | blockConnected pindex => exact h.blockConnected hsynced hqueue
    | chainStateFlushed locator_tip => exact h.chainStateFlushed hsynced hqueue
  have hsyncing := (Bool.not_eq_true _).mp hsynced
  have hready : (!s.m_synced) = true := by
    rw [hsyncing]
    rfl
  have hsame : .deliver { s with queue := rest } notification = { s with queue := rest } := by
    cases notification <;> exact if_pos hready
  rw [hsame]
  exact h.ignore hsyncing hqueue

/-! ## The sync thread -/

/-- The cursor is committed before a reorganisation is noticed. -/
def Committed (s : BaseIndex) : Prop :=
  ∀ pindex_next, s.point = .found pindex_next → pindex_next.pprev ≠ s.pindex →
    s.m_best_block_index = s.pindex

/-- A step of `Sync` that leaves the node alone and does not end the loop. -/
theorem Inv.resume (h : Inv start s) (hsyncing : s.m_synced = false) (htip : t.tip = s.tip)
    (hqueue : t.queue = s.queue) (hsame : t.m_synced = s.m_synced) (halive : t.assertFailed = false)
    (hpoint : t.point ≠ .finished) (hfollows : Follows start t.calls t.position) (hknows : t.Knows)
    (htree : SameTree t.pindex s.tip)
    (hnext : ∀ pindex_next, t.point = .found pindex_next ∨ t.point = .rewound pindex_next →
      SameTree pindex_next s.tip) : Inv start t := by
  have hbefore := h.syncing hsyncing
  have hstill := hsame.trans hsyncing
  refine ⟨halive, hfollows, ?_, hknows, fun _ => ?_, fun hsynced => ?_⟩
  · rw [hstill]
    exact ⟨Bool.noConfusion, fun hend => absurd hend hpoint⟩
  · rw [← htip] at htree hnext
    exact ⟨htip ▸ hbefore.tip, htree, hnext, by rw [htip, hqueue]; exact hbefore.backlog,
      hqueue ▸ hbefore.noGenesis⟩
  · exact Bool.noConfusion (hstill.symm.trans hsynced)

theorem sameTree_of_suffix (h : pindex <:+ tip) : SameTree pindex tip := by
  intro hne _
  obtain ⟨before, rfl⟩ := h
  exact (getLast?_append_of_ne_nil before hne).symm

section

variable (h : Inv start s) (hsyncing : s.m_synced = false) (hposition : s.position = s.pindex)

include h hsyncing hposition

/-- The search for the next block, when the end of the loop is no problem. -/
theorem Inv.afterSearch {atEnd : BaseIndex} (hend : s.tip <:+ s.pindex → Inv start atEnd) :
    Inv start (s.afterSearch atEnd) := by
  have hbefore := h.syncing hsyncing
  unfold BaseIndex.afterSearch
  rcases nextSyncBlock_spec hbefore.tip hbefore.tree with ⟨hnone, htip⟩ | ⟨hsome,
    hchain, hback, hroot⟩
  · rw [if_pos hnone]
    exact hend htip
  rw [if_neg hsome]
  refine h.resume hsyncing rfl rfl rfl h.alive nofun (hposition ▸ h.follows) ⟨hsome, hback, hroot⟩
    hbefore.tree ?_
  rintro _ (heq | heq)
  · obtain rfl := SyncPoint.found.inj heq
    exact sameTree_of_suffix hchain
  · cases heq

/-- `Commit` of the cursor, which is the block that the index is at. -/
theorem Inv.commitCursor {point : SyncPoint}
    (hafter : position { (s.setBestBlockIndex s.pindex).commit with point := point } = s.pindex)
    (hknows : Knows { (s.setBestBlockIndex s.pindex).commit with point := point })
    (hpoint : point ≠ .finished) (hnext : ∀ pindex_next, point ≠ .found pindex_next ∧
      point ≠ .rewound pindex_next) :
    Inv start { (s.setBestBlockIndex s.pindex).commit with point := point } := by
  have hfollows :=
    follows_commit (s := s.setBestBlockIndex s.pindex) (hposition ▸ h.follows) suffix_rfl
  rw [commit_eq] at hafter hknows ⊢
  refine h.resume hsyncing rfl rfl rfl h.alive hpoint (hafter.symm ▸ hfollows) hknows
    (h.syncing hsyncing).tree ?_
  rintro pindex_next (heq | heq)
  · exact absurd heq (hnext pindex_next).1
  · exact absurd heq (hnext pindex_next).2

end

variable {point : SyncPoint}

theorem Inv.syncing_of_point (h : Inv start s) (hpoint : s.point = point)
    (hne : point ≠ .finished) :
    s.m_synced = false ∧ s.position = { s with point := point }.position ∧
    Knows { s with point := point } := by
  subst hpoint
  exact ⟨(Bool.not_eq_true _).mp fun hsynced => hne (h.synced.mp hsynced), rfl, h.knows⟩

section

variable {m_interrupt write_locator : Bool} (h : Inv start s)

include h

theorem Inv.sync_head (hpoint : s.point = .head) :
    Inv start (s.sync m_interrupt write_locator) := by
  obtain ⟨hsyncing, hposition, -⟩ := h.syncing_of_point hpoint nofun
  unfold sync
  rw [hpoint]
  show Inv start (if m_interrupt = true then _ else _)
  split
  · exact h.commitCursor hsyncing hposition (by rw [commit_eq]; rfl) trivial nofun
      fun _ => ⟨nofun, nofun⟩
  apply h.afterSearch hsyncing hposition
  intro _
  exact h.resume hsyncing rfl rfl rfl h.alive nofun (hposition ▸ h.follows) trivial
    (h.syncing hsyncing).tree (by rintro _ (heq | heq) <;> exact nomatch heq)

theorem Inv.sync_atTip (hpoint : s.point = .atTip) :
    Inv start (s.sync m_interrupt write_locator) := by
  obtain ⟨hsyncing, hposition, -⟩ := h.syncing_of_point hpoint nofun
  unfold sync
  rw [hpoint]
  refine h.commitCursor hsyncing hposition (by rw [commit_eq]; rfl) ?_ nofun fun _ => ⟨nofun, nofun⟩
  rw [commit_eq]
  rfl

/-- The hand-over: the cursor is committed and no block comes after it, so that the index is at the
tip or at a descendant, and so is where the backlog leads. -/
theorem Inv.sync_committed (hpoint : s.point = .committed) :
    Inv start (s.sync m_interrupt write_locator) := by
  obtain ⟨hsyncing, (hposition : _ = s.pindex), (hknows : _ = s.pindex)⟩ :=
    h.syncing_of_point hpoint nofun
  unfold sync
  rw [hpoint]
  apply h.afterSearch hsyncing hposition
  intro htip
  have hbefore := h.syncing hsyncing
  have hbest : s.tip <:+ s.m_best_block_index := hknows ▸ htip
  refine inv_of_synced h.alive rfl rfl ?_ ?_ ?_
  · rw [hknows]
    exact hposition ▸ h.follows
  · rcases hbefore.backlog s.queue suffix_rfl s.m_best_block_index with hsame | hlead
    · rw [hsame]
      exact hbest
    · exact hlead
  · refine .started (fun hnil => ?_) hbefore.tip hbefore.noGenesis
    rw [hnil] at hbest
    exact hbefore.tip (suffix_nil.mp hbest)

/-- A block is appended to the block that the index is at. -/
theorem Inv.appendNext (hsyncing : s.m_synced = false)
    (hpoint : s.point = .found pindex_next ∨ s.point = .rewound pindex_next)
      (hsome : pindex_next ≠ [])
    (hposition : s.position = pindex_next.pprev) :
    Inv start { s.customAppend pindex_next with
      pindex := pindex_next
      point := .appended } := by
  refine h.resume hsyncing rfl rfl rfl h.alive nofun ?_ ?_ ?_ ?_
  · exact .append h.follows hsome hposition.symm
  · trivial
  · exact (h.syncing hsyncing).next pindex_next hpoint
  · rintro _ (heq | heq) <;> cases heq

theorem Inv.sync_found (hpoint : s.point = .found pindex_next) (hcommitted : s.Committed) :
    Inv start (s.sync m_interrupt write_locator) := by
  obtain ⟨hsyncing, hposition, hsome, (hback : _ <:+ s.pindex), hroot⟩ :=
    h.syncing_of_point hpoint nofun
  unfold sync
  rw [hpoint]
  show Inv start (if pindex_next.pprev ≠ s.pindex then _ else _)
  by_cases hdirect : pindex_next.pprev = s.pindex
  · rw [if_neg (not_not.mpr hdirect)]
    exact h.appendNext hsyncing (.inl hpoint) hsome (hposition.trans hdirect.symm)
  have hbest := hcommitted pindex_next hpoint hdirect
  have hne := hroot.resolve_right hdirect
  have hfollows := h.follows
  rw [hposition, ← hbest] at hfollows
  have hrewind := follows_rewind hfollows hne (hbest ▸ hback)
  have heq := rewind_eq hne (hbest ▸ hback)
  rw [if_pos hdirect, ← hbest]
  rw [heq] at hrewind ⊢
  rw [commit_eq] at hrewind ⊢
  refine h.resume hsyncing rfl rfl rfl h.alive nofun hrewind ⟨hsome, rfl⟩
    (h.syncing hsyncing).tree ?_
  rintro _ (hother | hother)
  · cases hother
  · obtain rfl := SyncPoint.rewound.inj hother
    exact (h.syncing hsyncing).next pindex_next (.inl hpoint)

theorem Inv.sync_rewound (hpoint : s.point = .rewound pindex_next) :
    Inv start (s.sync m_interrupt write_locator) := by
  obtain ⟨hsyncing, hposition, hknows⟩ := h.syncing_of_point hpoint nofun
  unfold sync
  rw [hpoint]
  exact h.appendNext hsyncing (.inr hpoint) hknows.1 hposition

theorem Inv.sync_appended (hpoint : s.point = .appended) :
    Inv start (s.sync m_interrupt write_locator) := by
  obtain ⟨hsyncing, hposition, -⟩ := h.syncing_of_point hpoint nofun
  unfold sync
  rw [hpoint]
  cases write_locator with
  | true =>
    exact h.commitCursor hsyncing hposition (by rw [commit_eq]; rfl) trivial nofun
      fun _ => ⟨nofun, nofun⟩
  | false =>
    have hfollows := h.follows
    rw [hposition] at hfollows
    exact h.resume hsyncing rfl rfl rfl h.alive nofun hfollows trivial
      (h.syncing hsyncing).tree (by rintro _ (heq | heq) <;> exact nomatch heq)

theorem Inv.sync (hcommitted : s.Committed) : Inv start (s.sync m_interrupt write_locator) := by
  match hpoint : s.point with
  | .head => exact h.sync_head hpoint
  | .atTip => exact h.sync_atTip hpoint
  | .committed => exact h.sync_committed hpoint
  | .found pindex_next => exact h.sync_found hpoint hcommitted
  | .rewound pindex_next => exact h.sync_rewound hpoint
  | .appended => exact h.sync_appended hpoint
  | .finished | .interrupted =>
    unfold BaseIndex.sync
    rw [hpoint]
    exact h

/-- The assertions of `Rewind` hold in a step of `Sync` exactly if the cursor is committed. -/
theorem Inv.sync_alive_iff : (s.sync m_interrupt write_locator).assertFailed = false ↔
    s.Committed := by
  refine ⟨fun halive pindex_next hpoint hfork => ?_, fun hcommitted =>
    (h.sync hcommitted).alive⟩
  by_contra hbehind
  unfold BaseIndex.sync at halive
  rw [hpoint] at halive
  have hstep : (if pindex_next.pprev ≠ s.pindex then
      { s.rewind s.pindex pindex_next.pprev with point := .rewound pindex_next }
      else { s.customAppend
        pindex_next with pindex := pindex_next, point := .appended }).assertFailed =
      false := halive
  rw [if_pos hfork] at hstep
  have hfail : s.rewind s.pindex pindex_next.pprev = { s with assertFailed := true } :=
    if_neg fun hassert => hbehind hassert.1.symm
  rw [hfail] at hstep
  cases hstep

end

/-! ## Runs -/

/-- If the step is one of `Sync`, the cursor is committed. -/
def CursorCommitted (s t : BaseIndex) : Prop :=
  ∀ m_interrupt write_locator, t = s.sync m_interrupt write_locator → s.Committed

theorem Inv.works {t : BaseIndex} (h : Inv start s) (hstep : Works s t)
    (hcommitted : CursorCommitted s t) : Inv start t := by
  cases hstep with
  | connect hash halive => exact h.connect hash
  | disconnect halive hgenesis => exact h.disconnect hgenesis
  | flush halive htip => exact h.flush htip s.tip
  | deliver halive hqueue => exact h.deliver hqueue
  | sync halive m_interrupt write_locator =>
    exact h.sync (hcommitted m_interrupt write_locator rfl)

/-- A step that is only a commit does not depend on the cursor. -/
theorem cursorCommitted_of_commit {t : BaseIndex} {best_block : CBlockIndex}
    (hcommit : t.calls = s.calls ++ [.commit best_block]) : CursorCommitted s t := by
  rintro m_interrupt write_locator rfl pindex_next hpoint hfork
  by_contra hbehind
  have hfail : s.rewind s.pindex pindex_next.pprev = { s with assertFailed := true } :=
    if_neg fun hassert => hbehind hassert.1.symm
  unfold BaseIndex.sync at hcommit
  rw [hpoint] at hcommit
  simp [hfork, hfail] at hcommit

/-- The index starts at a block of the tree, and at none if there is no chain. -/
theorem inv_init (htree : SameTree start tip) (hempty : tip = [] → start = []) :
    Inv start (init tip start) := by
  by_cases hsynced : start = tip
  · subst hsynced
    have hpoint : (init start start).point = .finished := if_pos rfl
    refine inv_of_synced rfl (beq_self_eq_true start) hpoint .start suffix_rfl ?_
    by_cases hnil : start = []
    · exact .nothing hnil hnil rfl
    · exact .started hnil hnil nofun
  have hpoint : (init tip start).point = .head := if_neg hsynced
  have hsyncing : (init tip start).m_synced = false := beq_eq_false_iff_ne.mpr hsynced
  refine ⟨rfl, ?_, ?_, ?_, fun _ => ?_, fun hfalse => Bool.noConfusion (hsyncing.symm.trans hfalse)⟩
  · unfold position
    rw [hpoint]
    exact .start
  · rw [hsyncing, hpoint]
    exact ⟨nofun, nofun⟩
  · unfold Knows
    rw [hpoint]
    trivial
  · refine ⟨fun hnil => hsynced ((hempty hnil).trans hnil.symm), htree, ?_, ?_, ?_⟩
    · rw [hpoint]
      rintro _ (heq | heq) <;> cases heq
    · rintro _ hrest _
      obtain rfl := suffix_nil.mp hrest
      exact .inl rfl
    · exact nofun

/-- The states that the node and an index that starts at a block of its tree get to, where `Sync`
has committed its cursor whenever it notices a reorganisation. -/
inductive Reaches (start : CBlockIndex) : BaseIndex → Prop
  | init {tip : CBlockIndex} (htree : SameTree start tip) (hempty : tip = [] → start = []) :
      Reaches start (BaseIndex.init tip start)
  | step {s t : BaseIndex} (hbefore : Reaches start s) (hstep : Step s t)
      (hcommitted : CursorCommitted s t) : Reaches start t

/-- What is asked of an index in a state. -/
structure OnChain (start : CBlockIndex) (s : BaseIndex) : Prop where
  alive : s.assertFailed = false
  follows : ∃ last, Follows start s.calls last
  drained : s.fatalError = false → s.m_synced = true → s.queue = [] →
    s.tip <:+ s.m_best_block_index

theorem Inv.onChain (h : Inv start s) : OnChain start s where
  alive := h.alive
  follows := ⟨s.position, h.follows⟩
  drained := fun _ hsynced hqueue => by
    have hdrain := (h.following hsynced).1
    rw [hqueue] at hdrain
    exact hdrain

/-- A step keeps the invariant, or shuts the node down. -/
theorem Inv.step {t : BaseIndex} (h : Inv start s) (hstep : Step s t)
    (hcommitted : CursorCommitted s t) : Inv start t ∨ t.fatalError = true ∧ OnChain start t := by
  cases hstep with
  | works hworks => exact .inl (h.works hworks hcommitted)
  | missed hworks hcommit =>
    have hafter := h.works hworks (cursorCommitted_of_commit hcommit)
    have hfollows := hafter.follows
    rw [hcommit] at hfollows
    exact .inl { hafter with
      follows := hfollows.of_commit
      syncing := fun hsyncing => { hafter.syncing hsyncing with } }
  | fatal hworks halive hmore hle =>
    have hafter := h.works hworks fun m_interrupt write_locator heq =>
      h.sync_alive_iff.mp (heq ▸ halive)
    exact .inr ⟨rfl, h.alive, hafter.follows.of_isPrefix hle, nofun⟩

theorem Works.running {t : BaseIndex} (h : Works s t) : s.running = true := by
  cases h <;> assumption

theorem Step.running {t : BaseIndex} (h : Step s t) : s.running = true := by
  cases h with
  | works h | missed h | fatal h => exact h.running

theorem Reaches.inv (h : Reaches start s) :
    Inv start s ∨ s.fatalError = true ∧ OnChain start s := by
  induction h with
  | init htree hempty => exact .inl (inv_init htree hempty)
  | step hbefore hstep hcommitted ih =>
    rcases ih with hinv | ⟨hfatal, -⟩
    · exact hinv.step hstep hcommitted
    · have hrunning := hstep.running
      simp [BaseIndex.running, hfatal] at hrunning

/-- A step of `Sync` that works on the next block. -/
theorem Reaches.sync (h : Reaches start s) (write_locator : Bool) (halive : s.running = true)
    (hcommitted : s.Committed) : Reaches start (s.sync false write_locator) :=
  h.step (.works (.sync halive false write_locator)) fun _ _ _ => hcommitted

end BaseIndex

end BtcSharp
