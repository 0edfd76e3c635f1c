import GoServices.Raft.Server
import Mathlib.Data.Fin.VecNotation
import Mathlib.Data.List.Sort
import Mathlib.Order.Bounds.Defs

/-! Log replication and compaction (`raft_replication.go`, `raft_compaction.go`). -/

namespace GoServices.Consensus

variable {n : ℕ} {C : Type}

/-- The arguments of `AppendEntries`. -/
structure AppendEntriesArgs (n : ℕ) (C : Type) where
  term : ℕ
  leaderId : Fin n
  prevLogIndex : ℕ
  prevLogTerm : ℕ
  entries : List (LogEntry C)
  leaderCommit : ℕ
  deriving DecidableEq

/-- The answer to `AppendEntries`. -/
structure AppendEntriesReply where
  term : ℕ
  success : Bool
  confilictIndex : ℕ
  confilictTerm : ℕ
  deriving DecidableEq

/-- The arguments of `InstallSnapshot`. -/
structure InstallSnapshotArgs (n : ℕ) where
  term : ℕ
  leaderId : Fin n
  lastIncludedIndex : ℕ
  lastIncludedTerm : ℕ
  snapshot : List UInt8
  deriving DecidableEq

/-- The answer to `InstallSnapshot`. -/
structure InstallSnapshotReply where
  term : ℕ
  deriving DecidableEq

/-- What one round of `startReplication` sends to one peer. -/
inductive Round (n : ℕ) (C : Type) where
  | appendEntries (args : AppendEntriesArgs n C)
  | installSnapshot (args : InstallSnapshotArgs n)
  deriving DecidableEq

namespace Raft

/-! ### Follower side -/

/-- The follower has taken over `log` from an accepted request: it persists, then looks at the
    leader's commit index. -/
def acceptEntries (rf : Raft n C) (log : RaftLog C) (leaderCommit : ℕ) : Raft n C :=
  let rf := persistLocked { rf with log := log }
  if rf.commitIndex < leaderCommit then signal { rf with commitIndex := leaderCommit } else rf

/-- Besides the log, an accepted request moves the commit index and wakes the ticker. -/
theorem acceptEntries_eq (rf : Raft n C) (log : RaftLog C) (leaderCommit : ℕ) :
    ∃ ticker, (ticker = rf.ticker ∨ ticker = rf.signal.ticker) ∧
      rf.acceptEntries log leaderCommit = { persistLocked { rf with log := log } with
        commitIndex := max rf.commitIndex leaderCommit, ticker := ticker } := by
  by_cases hlt : rf.commitIndex < leaderCommit
  · refine ⟨rf.signal.ticker, Or.inr rfl, ?_⟩
    rw [Nat.max_eq_right (le_of_lt hlt)]
    exact if_pos hlt
  · refine ⟨rf.ticker, Or.inl rfl, ?_⟩
    rw [Nat.max_eq_left (Nat.le_of_not_lt hlt)]
    exact if_neg hlt

/-- The `AppendEntries` handler. -/
def appendEntries (rf : Raft n C) (args : AppendEntriesArgs n C) :
    Option (Raft n C × AppendEntriesReply) :=
  let term := rf.currentTerm
  if args.term < rf.currentTerm then some (rf, ⟨term, false, 0, 0⟩)
  else
    let rf := rf.becomeFollowerLocked args.term
    if rf.log.size ≤ args.prevLogIndex then
      some (rf, ⟨term, false, rf.log.size, invalidTerm⟩)
    else if args.prevLogIndex < rf.log.snapLastIdx then
      some (rf, ⟨term, false, rf.log.snapLastIdx, rf.log.snapLastTerm⟩)
    else
      (rf.log.entryAt args.prevLogIndex).bind fun prev =>
        if prev.term ≠ args.prevLogTerm then
          some (rf, ⟨term, false, rf.log.firstFor prev.term, prev.term⟩)
        else
          (rf.log.appendFrom args.prevLogIndex args.entries).map fun log =>
            (rf.acceptEntries log args.leaderCommit, ⟨term, true, 0, 0⟩)

/-- The follower has taken over a snapshot: it persists and leaves the delivery to the ticker. -/
def acceptSnapshot (rf : Raft n C) (args : InstallSnapshotArgs n) : Raft n C :=
  let log := rf.log.installSnapshot args.lastIncludedIndex args.lastIncludedTerm args.snapshot
  signal (persistLocked { rf with log := log, snapPending := true })

/-- The `InstallSnapshot` handler. -/
def installSnapshot (rf : Raft n C) (args : InstallSnapshotArgs n) :
    Raft n C × InstallSnapshotReply :=
  let term := rf.currentTerm
  if args.term < rf.currentTerm then (rf, ⟨term⟩)
  else
    let rf := rf.becomeFollowerLocked args.term
    if args.lastIncludedIndex ≤ rf.log.snapLastIdx then (rf, ⟨term⟩)
    else (rf.acceptSnapshot args, ⟨term⟩)

/-- `Snapshot`: the service has captured everything up to `index`. -/
def snapshot (rf : Raft n C) (index : ℕ) (snapshot : List UInt8) : Option (Raft n C) :=
  if rf.commitIndex < index then some rf
  else if index ≤ rf.log.snapLastIdx then some rf
  else (rf.log.doSnapshot index snapshot).map fun log => persistLocked { rf with log := log }

/-! ### Leader side -/

/-- The request for one peer; `prevIdx` may be `-1` in the source, hence the integers. -/
def roundFor (me : Fin n) (rf : Raft n C) (peer : Fin n) : Option (Round n C) :=
  if (rf.nextIndex peer : ℤ) - 1 < rf.log.snapLastIdx then
    some (.installSnapshot
      ⟨rf.currentTerm, me, rf.log.snapLastIdx, rf.log.snapLastTerm, rf.log.snapshot⟩)
  else
    let prevIdx := rf.nextIndex peer - 1
    (rf.log.entryAt prevIdx).bind fun prev =>
      (rf.log.tail (prevIdx + 1)).map fun entries =>
        .appendEntries ⟨rf.currentTerm, me, prevIdx, prev.term, entries, rf.commitIndex⟩

/-- The loop of `startReplication` over the peers. -/
def replicationLoop (me : Fin n) : List (Fin n) → Raft n C → List (Fin n × Round n C) →
    Option (Raft n C × List (Fin n × Round n C))
  | [], rf, sent => some (rf, sent)
  | peer :: peers, rf, sent =>
    if peer = me then
      replicationLoop me peers
        { rf with
          matchIndex := Function.update rf.matchIndex peer (rf.log.size - 1)
          nextIndex := Function.update rf.nextIndex peer rf.log.size } sent
    else
      (rf.roundFor me peer).bind fun round => replicationLoop me peers rf (sent ++ [(peer, round)])

/-- The locked section of `startReplication`; it returns false when leadership is lost. -/
def startReplication (me : Fin n) (rf : Raft n C) (term : ℕ) :
    Option (Raft n C × List (Fin n × Round n C) × Bool) :=
  if rf.contextLostLocked .leader term then some (rf, [], false)
  else (replicationLoop me (List.finRange n) rf []).map fun (rf', sent) => (rf', sent, true)

/-- The largest index that a majority has matched. -/
def getMajorityIndexLocked (matchIndex : Fin n → ℕ) : Option ℕ :=
  ((List.ofFn matchIndex).insertionSort (· ≤ ·))[(n - 1) / 2]?

theorem countP_ofFn (f : Fin n → ℕ) (m : ℕ) :
    (List.ofFn f).countP (m ≤ ·) = (Finset.univ.filter fun p => m ≤ f p).card := by
  rw [List.ofFn_eq_map, List.countP_map, List.countP_eq_length_filter]
  rfl

/-- In a sorted list everything from a place on is at least what stands there. -/
theorem le_countP_of_sorted {l : List ℕ} (hs : l.Pairwise (· ≤ ·)) {k m : ℕ} (hk : l[k]? = some m) :
    l.length - k ≤ l.countP (m ≤ ·) := by
  obtain ⟨hlt, hm⟩ := List.getElem?_eq_some_iff.mp hk
  have hall : ∀ x ∈ l.drop k, m ≤ x := by
    have hd := hs.drop (i := k)
    rw [List.drop_eq_getElem_cons hlt, hm] at hd ⊢
    intro x hx
    rcases List.mem_cons.mp hx with rfl | hx
    · exact le_refl _
    · exact (List.pairwise_cons.mp hd).1 x hx
  have hcount : (l.drop k).countP (m ≤ ·) = l.length - k := by
    rw [List.countP_eq_length.mpr (by simpa using hall), List.length_drop]
  rw [← hcount]
  exact (List.drop_sublist _ _).countP_le

/-- What is larger than the entry at a place of a sorted list stands behind that place. -/
theorem countP_le_of_sorted {l : List ℕ} (hs : l.Pairwise (· ≤ ·)) {k m N : ℕ} (hk : l[k]? = some m)
    (hN : m < N) : l.countP (N ≤ ·) ≤ l.length - (k + 1) := by
  obtain ⟨hlt, hm⟩ := List.getElem?_eq_some_iff.mp hk
  have hnone : (l.take (k + 1)).countP (N ≤ ·) = 0 := by
    rw [List.countP_eq_zero]
    intro x hx
    rw [← List.take_append_drop k l, List.pairwise_append] at hs
    rw [List.take_add_one, hk, Option.toList_some, List.mem_append, List.mem_singleton] at hx
    have hle : x ≤ m := by
      rcases hx with hx | rfl
      · exact hs.2.2 x hx m (by rw [List.drop_eq_getElem_cons hlt, hm]; exact List.mem_cons_self)
      · exact le_refl _
    simpa using hle.trans_lt hN
  rw [← List.take_append_drop (k + 1) l, List.countP_append, hnone, Nat.zero_add,
    List.take_append_drop, ← List.length_drop]
  exact List.countP_le_length

/-- The majority index stands in the middle of the sorted indexes. -/
theorem exists_sorted_of_majority {f : Fin n → ℕ} {m : ℕ} (h : getMajorityIndexLocked f = some m) :
    ∃ l : List ℕ, l.Pairwise (· ≤ ·) ∧ l.length = n ∧ l[(n - 1) / 2]? = some m ∧
      ∀ N, l.countP (N ≤ ·) = (Finset.univ.filter fun p => N ≤ f p).card := by
  have hperm : ((List.ofFn f).insertionSort (· ≤ ·)).Perm (List.ofFn f) := List.perm_insertionSort _ _
  refine ⟨_, List.pairwise_insertionSort _ _, by rw [hperm.length_eq, List.length_ofFn], h, ?_⟩
  intro N
  rw [hperm.countP_eq, countP_ofFn]

/-- More than half of the servers have matched the majority index. -/
theorem quorum_of_majority {f : Fin n → ℕ} {m : ℕ} (h : getMajorityIndexLocked f = some m) :
    n < 2 * (Finset.univ.filter fun p => m ≤ f p).card := by
  obtain ⟨l, hs, hlen, hm, hcount⟩ := exists_sorted_of_majority h
  have hlt := (List.getElem?_eq_some_iff.mp hm).1
  have hle := le_countP_of_sorted hs hm
  rw [hcount, hlen] at hle
  omega

/-- An index that more than half of the servers have matched is not above the majority index. -/
theorem le_majority_of_quorum {f : Fin n → ℕ} {m N : ℕ} (h : getMajorityIndexLocked f = some m)
    (hN : n < 2 * (Finset.univ.filter fun p => N ≤ f p).card) : N ≤ m := by
  obtain ⟨l, hs, hlen, hm, hcount⟩ := exists_sorted_of_majority h
  by_contra hlt
  have hle := countP_le_of_sorted hs hm (Nat.lt_of_not_le hlt)
  rw [hcount, hlen] at hle
  omega

/-- The majority index is what some peer has matched. -/
theorem majority_mem (f : Fin n → ℕ) (p : Fin n) : ∃ q, getMajorityIndexLocked f = some (f q) := by
  have hperm : ((List.ofFn f).insertionSort (· ≤ ·)).Perm (List.ofFn f) := List.perm_insertionSort _ _
  have hlt : (n - 1) / 2 < ((List.ofFn f).insertionSort (· ≤ ·)).length := by
    rw [hperm.length_eq, List.length_ofFn]
    have := p.pos
    omega
  obtain ⟨q, hq⟩ := List.mem_ofFn.mp (hperm.mem_iff.mp (List.getElem_mem hlt))
  refine ⟨q, ?_⟩
  rw [getMajorityIndexLocked, List.getElem?_eq_getElem hlt, ← hq]

/-- The majority index is the largest index that strictly more than half of the servers have matched. -/
theorem majority_isGreatest (hn : 1 ≤ n) (matchIndex : Fin n → ℕ) :
    ∃ m, getMajorityIndexLocked matchIndex = some m ∧
      IsGreatest {N | n < 2 * (Finset.univ.filter fun p => N ≤ matchIndex p).card} m := by
  obtain ⟨q, hq⟩ := majority_mem matchIndex ⟨0, hn⟩
  exact ⟨_, hq, quorum_of_majority hq, fun N hN => le_majority_of_quorum hq hN⟩

/-- Of four servers at least three must have matched; two of them share the index 7. -/
theorem majority_isGreatest_four : getMajorityIndexLocked ![9, 7, 3, 7] = some 7 ∧
    IsGreatest {N | 4 < 2 * (Finset.univ.filter fun p => N ≤ (![9, 7, 3, 7] : Fin 4 → ℕ) p).card} 7 := by
  obtain ⟨m, hm, hg⟩ := majority_isGreatest (by decide) (![9, 7, 3, 7] : Fin 4 → ℕ)
  have h7 : getMajorityIndexLocked (![9, 7, 3, 7] : Fin 4 → ℕ) = some 7 := by decide
  obtain rfl : m = 7 := Option.some.inj (hm.symm.trans h7)
  exact ⟨h7, hg⟩

/-- Back-off of `nextIndex` after a rejected request. -/
def backOff (rf : Raft n C) (peer : Fin n) (reply : AppendEntriesReply) : ℕ :=
  let prevIndex := rf.nextIndex peer
  let next :=
    if reply.confilictTerm = invalidTerm then reply.confilictIndex
    else
      let firstIndex := rf.log.firstFor reply.confilictTerm
      if firstIndex ≠ invalidIndex then firstIndex else reply.confilictIndex
  if prevIndex < next then prevIndex else next

/-- Back-off goes to the index that was reported, or to where the reported term starts here, and
    never forward. -/
theorem backOff_cases (rf : Raft n C) (peer : Fin n) (reply : AppendEntriesReply) :
    ∃ x, rf.backOff peer reply = min (rf.nextIndex peer) x ∧ (x = reply.confilictIndex ∨
      reply.confilictTerm ≠ invalidTerm ∧ x = rf.log.firstFor reply.confilictTerm ∧
        x ≠ invalidIndex) := by
  refine ⟨_, (min_def_lt _ _).symm, ?_⟩
  dsimp only
  split_ifs with hterm hfirst
  · exact Or.inl rfl
  · exact Or.inr ⟨hterm, rfl, hfirst⟩
  · exact Or.inl rfl

/-- The peer is known to hold the log up to `matched`. -/
def recordMatch (rf : Raft n C) (peer : Fin n) (matched : ℕ) : Raft n C :=
  { rf with
    matchIndex := Function.update rf.matchIndex peer matched
    nextIndex := Function.update rf.nextIndex peer (matched + 1) }

/-- `replicateToPeer` after its call returned. -/
def replicateToPeer (rf : Raft n C) (term : ℕ) (peer : Fin n) (args : AppendEntriesArgs n C)
    (reply : AppendEntriesReply) : Option (Raft n C) :=
  if rf.currentTerm < reply.term then some (rf.becomeFollowerLocked reply.term)
  else if rf.contextLostLocked .leader term then some rf
  else if !reply.success then
    let rf' := { rf with nextIndex := Function.update rf.nextIndex peer (rf.backOff peer reply) }
    -- the term at the next `prevIdx` is only logged, but reading it may panic
    if (rf'.log.snapLastIdx : ℤ) ≤ rf'.nextIndex peer - 1 then
      (rf'.log.entryAt (rf'.nextIndex peer - 1)).map fun _ => rf'
    else some rf'
  else
    let rf' := rf.recordMatch peer (args.prevLogIndex + args.entries.length)
    (getMajorityIndexLocked rf'.matchIndex).bind fun majorityMatched =>
      if rf'.commitIndex < majorityMatched then
        (rf'.log.entryAt majorityMatched).map fun e =>
          if e.term = rf'.currentTerm then signal { rf' with commitIndex := majorityMatched }
          else rf'
      else some rf'

/-- `installToPeer` after its call returned. -/
def installToPeer (rf : Raft n C) (term : ℕ) (peer : Fin n) (args : InstallSnapshotArgs n)
    (reply : InstallSnapshotReply) : Raft n C :=
  if rf.currentTerm < reply.term then rf.becomeFollowerLocked reply.term
  else if rf.contextLostLocked .leader term then rf
  else if rf.matchIndex peer < args.lastIncludedIndex then
    rf.recordMatch peer args.lastIncludedIndex
  else rf

/-! ### What the handlers can do -/

theorem appendEntries_cases {rf rf' : Raft n C} {args : AppendEntriesArgs n C}
    {reply : AppendEntriesReply} (h : rf.appendEntries args = some (rf', reply)) :
    reply.term = rf.currentTerm ∧
    ((args.term < rf.currentTerm ∧ rf' = rf ∧ reply.success = false) ∨
    (rf.currentTerm ≤ args.term ∧ rf' = rf.becomeFollowerLocked args.term ∧
      reply.success = false) ∨
    (rf.currentTerm ≤ args.term ∧ reply.success = true ∧
      args.prevLogIndex < (rf.becomeFollowerLocked args.term).log.size ∧
      (rf.becomeFollowerLocked args.term).log.snapLastIdx ≤ args.prevLogIndex ∧
      ∃ prev log, (rf.becomeFollowerLocked args.term).log.entryAt args.prevLogIndex = some prev ∧
        prev.term = args.prevLogTerm ∧
        (rf.becomeFollowerLocked args.term).log.appendFrom args.prevLogIndex args.entries = some log ∧
        rf' = (rf.becomeFollowerLocked args.term).acceptEntries log args.leaderCommit)) := by
  unfold appendEntries at h
  dsimp only at h
  by_cases hterm : args.term < rf.currentTerm
  · rw [if_pos hterm, Option.some.injEq, Prod.mk.injEq] at h
    obtain ⟨rfl, rfl⟩ := h
    exact ⟨rfl, Or.inl ⟨hterm, rfl, rfl⟩⟩
  rw [if_neg hterm] at h
  generalize hg : rf.becomeFollowerLocked args.term = g at h ⊢
  by_cases hsize : g.log.size ≤ args.prevLogIndex
  · rw [if_pos hsize, Option.some.injEq, Prod.mk.injEq] at h
    obtain ⟨rfl, rfl⟩ := h
    exact ⟨rfl, Or.inr (Or.inl ⟨by omega, rfl, rfl⟩)⟩
  rw [if_neg hsize] at h
  by_cases hsnap : args.prevLogIndex < g.log.snapLastIdx
  · rw [if_pos hsnap, Option.some.injEq, Prod.mk.injEq] at h
    obtain ⟨rfl, rfl⟩ := h
    exact ⟨rfl, Or.inr (Or.inl ⟨by omega, rfl, rfl⟩)⟩
  rw [if_neg hsnap] at h
  cases hprev : g.log.entryAt args.prevLogIndex with
  | none => simp [hprev] at h
  | some prev =>
    rw [hprev, Option.bind_some] at h
    by_cases hpt : prev.term = args.prevLogTerm
    · rw [if_neg (not_not_intro hpt)] at h
      cases hlog : g.log.appendFrom args.prevLogIndex args.entries with
      | none => simp [hlog] at h
      | some log =>
        rw [hlog, Option.map_some, Option.some.injEq, Prod.mk.injEq] at h
        obtain ⟨rfl, rfl⟩ := h
        exact ⟨rfl, Or.inr (Or.inr ⟨by omega, rfl, by omega, by omega, prev, log, rfl, hpt, rfl,
          rfl⟩)⟩
    · rw [if_pos hpt, Option.some.injEq, Prod.mk.injEq] at h
      obtain ⟨rfl, rfl⟩ := h
      exact ⟨rfl, Or.inr (Or.inl ⟨by omega, rfl, rfl⟩)⟩

/-- Why a request is refused, and what the reply says about it. -/
theorem appendEntries_refused {rf rf' : Raft n C} {args : AppendEntriesArgs n C}
    {reply : AppendEntriesReply} (h : rf.appendEntries args = some (rf', reply))
    (hno : reply.success = false) :
    args.term < rf.currentTerm ∨
    (rf.log.size ≤ args.prevLogIndex ∧
      reply.confilictIndex = rf.log.size ∧ reply.confilictTerm = invalidTerm) ∨
    (args.prevLogIndex < rf.log.snapLastIdx ∧
      reply.confilictIndex = rf.log.snapLastIdx ∧ reply.confilictTerm = rf.log.snapLastTerm) ∨
    ∃ prev, rf.log.entryAt args.prevLogIndex = some prev ∧ prev.term ≠ args.prevLogTerm ∧
      reply.confilictIndex = rf.log.firstFor prev.term ∧ reply.confilictTerm = prev.term := by
  unfold appendEntries at h
  simp only [becomeFollowerLocked_log] at h
  by_cases hterm : args.term < rf.currentTerm
  · exact Or.inl hterm
  refine Or.inr ?_
  rw [if_neg hterm] at h
  split_ifs at h with hsize hsnap
  · obtain ⟨-, rfl⟩ := Prod.mk.inj (Option.some.inj h)
    exact Or.inl ⟨hsize, rfl, rfl⟩
  · obtain ⟨-, rfl⟩ := Prod.mk.inj (Option.some.inj h)
    exact Or.inr (Or.inl ⟨hsnap, rfl, rfl⟩)
  · obtain ⟨prev, hprev, h⟩ := Option.bind_eq_some_iff.mp h
    split_ifs at h with hpt
    · obtain ⟨-, rfl⟩ := Prod.mk.inj (Option.some.inj h)
      exact Or.inr (Or.inr ⟨prev, hprev, hpt, rfl, rfl⟩)
    · -- an accepted request is not refused
      obtain ⟨log, -, h⟩ := Option.map_eq_some_iff.mp h
      obtain ⟨-, rfl⟩ := Prod.mk.inj h
      exact absurd hno (by simp)

/-- The handler never panics. -/
theorem appendEntries_total {rf : Raft n C} {X : List (LogEntry C)} (h : Repr rf.log X)
    (args : AppendEntriesArgs n C) : ∃ rf' reply, rf.appendEntries args = some (rf', reply) := by
  have hsize := h.size
  unfold appendEntries
  simp only [becomeFollowerLocked_log]
  split_ifs with hterm hshort hsnap
  · exact ⟨_, _, rfl⟩
  · exact ⟨_, _, rfl⟩
  · exact ⟨_, _, rfl⟩
  · obtain ⟨prev, hprev, -⟩ := h.entryAt_term (i := args.prevLogIndex) (by omega) (by omega)
    obtain ⟨log, hlog, -⟩ := h.appendFrom (Nat.le_of_not_lt hsnap) (by omega) args.entries
    rw [hprev, Option.bind_some, hlog]
    split_ifs
    · exact ⟨_, _, rfl⟩
    · exact ⟨_, _, rfl⟩

theorem installSnapshot_cases (rf : Raft n C) (args : InstallSnapshotArgs n) :
    (rf.installSnapshot args).2.term = rf.currentTerm ∧
    ((args.term < rf.currentTerm ∧ (rf.installSnapshot args).1 = rf) ∨
    (rf.currentTerm ≤ args.term ∧
      args.lastIncludedIndex ≤ (rf.becomeFollowerLocked args.term).log.snapLastIdx ∧
      (rf.installSnapshot args).1 = rf.becomeFollowerLocked args.term) ∨
    (rf.currentTerm ≤ args.term ∧
      (rf.becomeFollowerLocked args.term).log.snapLastIdx < args.lastIncludedIndex ∧
      (rf.installSnapshot args).1 = (rf.becomeFollowerLocked args.term).acceptSnapshot args)) := by
  unfold installSnapshot
  dsimp only
  by_cases hterm : args.term < rf.currentTerm
  · rw [if_pos hterm]; exact ⟨rfl, Or.inl ⟨hterm, rfl⟩⟩
  rw [if_neg hterm]
  by_cases hsnap : args.lastIncludedIndex ≤ (rf.becomeFollowerLocked args.term).log.snapLastIdx
  · rw [if_pos hsnap]; exact ⟨rfl, Or.inr (Or.inl ⟨by omega, hsnap, rfl⟩)⟩
  · rw [if_neg hsnap]; exact ⟨rfl, Or.inr (Or.inr ⟨by omega, by omega, rfl⟩)⟩

/-- A follower that is not ahead of the leader takes over its term and loses no snapshot. -/
theorem installSnapshot_follows {rf : Raft n C} {args : InstallSnapshotArgs n}
    (h : rf.currentTerm ≤ args.term) : (rf.installSnapshot args).1.currentTerm = args.term ∧
      rf.log.snapLastIdx ≤ (rf.installSnapshot args).1.log.snapLastIdx := by
  have hterm := becomeFollowerLocked_currentTerm rf args.term h
  obtain ⟨-, ⟨hold, -⟩ | ⟨-, -, heq⟩ | ⟨-, hsnap, heq⟩⟩ := rf.installSnapshot_cases args
  · exact absurd hold (Nat.not_lt_of_le h)
  · rw [heq, becomeFollowerLocked_log]
    exact ⟨hterm, le_refl _⟩
  · rw [becomeFollowerLocked_log] at hsnap
    rw [heq]
    exact ⟨hterm, le_of_lt hsnap⟩

theorem snapshot_cases {rf rf' : Raft n C} {index : ℕ} {bytes : List UInt8}
    (h : rf.snapshot index bytes = some rf') :
    rf' = rf ∨ (index ≤ rf.commitIndex ∧ rf.log.snapLastIdx < index ∧
      ∃ log, rf.log.doSnapshot index bytes = some log ∧
        rf' = persistLocked { rf with log := log }) := by
  unfold snapshot at h
  by_cases hcommit : rf.commitIndex < index
  · rw [if_pos hcommit] at h; exact Or.inl (Option.some.inj h).symm
  rw [if_neg hcommit] at h
  by_cases hsnap : index ≤ rf.log.snapLastIdx
  · rw [if_pos hsnap] at h; exact Or.inl (Option.some.inj h).symm
  rw [if_neg hsnap] at h
  cases hlog : rf.log.doSnapshot index bytes with
  | none => simp [hlog] at h
  | some log =>
    rw [hlog, Option.map_some] at h
    exact Or.inr ⟨by omega, by omega, log, rfl, (Option.some.inj h).symm⟩

theorem replicateToPeer_cases {rf rf' : Raft n C} {term : ℕ} {peer : Fin n}
    {args : AppendEntriesArgs n C} {reply : AppendEntriesReply}
    (h : rf.replicateToPeer term peer args reply = some rf') :
    (rf.currentTerm < reply.term ∧ rf' = rf.becomeFollowerLocked reply.term) ∨
    (∃ next, rf' = { rf with nextIndex := next }) ∨
    (rf.role = .leader ∧ rf.currentTerm = term ∧ reply.success = true ∧
      reply.term ≤ rf.currentTerm ∧
      ∃ g, g = rf.recordMatch peer (args.prevLogIndex + args.entries.length) ∧
      (rf' = g ∨ ∃ m e, getMajorityIndexLocked g.matchIndex = some m ∧ rf.commitIndex < m ∧
        rf.log.entryAt m = some e ∧ e.term = rf.currentTerm ∧
        rf' = signal { g with commitIndex := m })) := by
  unfold replicateToPeer at h
  dsimp only at h
  by_cases hterm : rf.currentTerm < reply.term
  · rw [if_pos hterm] at h; exact Or.inl ⟨hterm, (Option.some.inj h).symm⟩
  rw [if_neg hterm] at h
  by_cases hctx : rf.contextLostLocked .leader term = true
  · rw [if_pos hctx] at h
    exact Or.inr (Or.inl ⟨rf.nextIndex, (Option.some.inj h).symm⟩)
  rw [if_neg hctx] at h
  have hrole : rf.currentTerm = term ∧ rf.role = .leader := by
    simpa [contextLostLocked] using hctx
  by_cases hs : reply.success = true
  · rw [if_neg (by simp [hs])] at h
    refine Or.inr (Or.inr ⟨hrole.2, hrole.1, hs, by omega, _, rfl, ?_⟩)
    obtain ⟨m, hm, h⟩ := Option.bind_eq_some_iff.mp h
    split_ifs at h with hcommit
    · obtain ⟨e, he, h⟩ := Option.map_eq_some_iff.mp h
      split_ifs at h with het
      · exact Or.inr ⟨m, e, hm, hcommit, he, het, h.symm⟩
      · exact Or.inl h.symm
    · exact Or.inl (Option.some.inj h).symm
  · rw [if_pos (by simp [hs])] at h
    refine Or.inr (Or.inl ⟨Function.update rf.nextIndex peer (rf.backOff peer reply), ?_⟩)
    split_ifs at h with hsnap
    · obtain ⟨e, -, h⟩ := Option.map_eq_some_iff.mp h
      exact h.symm
    · exact (Option.some.inj h).symm

theorem installToPeer_cases (rf : Raft n C) (term : ℕ) (peer : Fin n) (args : InstallSnapshotArgs n)
    (reply : InstallSnapshotReply) :
    (rf.currentTerm < reply.term ∧
      rf.installToPeer term peer args reply = rf.becomeFollowerLocked reply.term) ∨
    rf.installToPeer term peer args reply = rf ∨
    (rf.role = .leader ∧ rf.currentTerm = term ∧ reply.term ≤ rf.currentTerm ∧
      rf.installToPeer term peer args reply = rf.recordMatch peer args.lastIncludedIndex) := by
  unfold installToPeer
  by_cases hterm : rf.currentTerm < reply.term
  · exact Or.inl ⟨hterm, if_pos hterm⟩
  rw [if_neg hterm]
  by_cases hctx : rf.contextLostLocked .leader term = true
  · exact Or.inr (Or.inl (if_pos hctx))
  rw [if_neg hctx]
  have hrole : rf.currentTerm = term ∧ rf.role = .leader := by
    simpa [contextLostLocked] using hctx
  split_ifs with hmatch
  · exact Or.inr (Or.inr ⟨hrole.2, hrole.1, by omega, rfl⟩)
  · exact Or.inr (Or.inl rfl)

/-- A leader that still counts takes a snapshot for received, unless the peer had it already. -/
theorem installToPeer_eq {rf : Raft n C} (hrole : rf.role = .leader) (peer : Fin n)
    (args : InstallSnapshotArgs n) {reply : InstallSnapshotReply} (hterm : reply.term ≤ rf.currentTerm) :
    rf.installToPeer rf.currentTerm peer args reply =
      if rf.matchIndex peer < args.lastIncludedIndex then rf.recordMatch peer args.lastIncludedIndex
      else rf := by
  rw [installToPeer, if_neg (Nat.not_lt_of_le hterm), if_neg (by simp [contextLostLocked, hrole])]

/-- The loop sends rounds to other peers only and touches no index but the leader's own. -/
theorem replicationLoop_cases {me : Fin n} {peers : List (Fin n)} {rf rf' : Raft n C}
    {sent sent' : List (Fin n × Round n C)}
    (h : replicationLoop me peers rf sent = some (rf', sent')) :
    (∃ m next, (m = rf.matchIndex me ∨ m = rf.log.size - 1) ∧
      rf' = { rf with matchIndex := Function.update rf.matchIndex me m, nextIndex := next }) ∧
    ∀ p round, (p, round) ∈ sent' → (p, round) ∈ sent ∨
      p ≠ me ∧ rf.roundFor me p = some round := by
  induction peers generalizing rf sent with
  | nil =>
    obtain ⟨rfl, rfl⟩ := Prod.mk.inj (Option.some.inj h)
    exact ⟨⟨rf.matchIndex me, rf.nextIndex, Or.inl rfl, by rw [Function.update_eq_self]⟩,
      fun p round hp => Or.inl hp⟩
  | cons peer peers ih =>
    unfold replicationLoop at h
    split_ifs at h with hme
    · subst hme
      obtain ⟨⟨m, next, hm, hrf⟩, hsent⟩ := ih h
      refine ⟨⟨m, next, ?_, by rw [hrf, Function.update_idem]⟩, fun p round hp => ?_⟩
      · simp only [Function.update_self, or_self] at hm
        exact Or.inr hm
      · refine (hsent p round hp).imp_right fun ⟨hne, hround⟩ => ⟨hne, ?_⟩
        simpa only [roundFor, Function.update_of_ne hne] using hround
    · obtain ⟨r, hr, h⟩ := Option.bind_eq_some_iff.mp h
      obtain ⟨hrf, hsent⟩ := ih h
      refine ⟨hrf, fun p round hp => ?_⟩
      rcases hsent p round hp with hold | hnew
      · rcases List.mem_append.mp hold with hold | hlast
        · exact Or.inl hold
        · obtain ⟨rfl, rfl⟩ := Prod.mk.inj (List.mem_singleton.mp hlast)
          exact Or.inr ⟨hme, hr⟩
      · exact Or.inr hnew

theorem startReplication_cases {me : Fin n} {rf rf' : Raft n C} {term : ℕ} {ok : Bool}
    {sent : List (Fin n × Round n C)} (h : rf.startReplication me term = some (rf', sent, ok)) :
    (ok = false ∧ rf' = rf ∧ sent = []) ∨
    (ok = true ∧ rf.role = .leader ∧ rf.currentTerm = term ∧
      (∃ m next, (m = rf.matchIndex me ∨ m = rf.log.size - 1) ∧
        rf' = { rf with matchIndex := Function.update rf.matchIndex me m, nextIndex := next }) ∧
      ∀ p round, (p, round) ∈ sent → p ≠ me ∧ rf.roundFor me p = some round) := by
  unfold startReplication at h
  by_cases hctx : rf.currentTerm = term ∧ rf.role = .leader
  · rw [if_neg (by simp [contextLostLocked, hctx])] at h
    obtain ⟨⟨g, out⟩, hloop, h⟩ := Option.map_eq_some_iff.mp h
    simp only [Prod.mk.injEq] at h
    obtain ⟨rfl, rfl, rfl⟩ := h
    obtain ⟨hrf, hsent⟩ := replicationLoop_cases hloop
    exact Or.inr ⟨rfl, hctx.2, hctx.1, hrf, fun p round hp =>
      (hsent p round hp).resolve_left (by simp)⟩
  · rw [if_pos (by simpa [contextLostLocked] using not_and_or.mp hctx)] at h
    simp only [Option.some.injEq, Prod.mk.injEq] at h
    exact Or.inl ⟨h.2.2.symm, h.1.symm, h.2.1.symm⟩

/-- Inside the log a request can be built: a snapshot below it, everything after `prevIdx` above. -/
theorem roundFor_eq {rf : Raft n C} {X : List (LogEntry C)} (h : Repr rf.log X) (me : Fin n)
    {peer : Fin n} (hlo : 1 ≤ rf.nextIndex peer) (hhi : rf.nextIndex peer ≤ rf.log.size) :
    (rf.nextIndex peer ≤ rf.log.snapLastIdx ∧ rf.roundFor me peer = some (.installSnapshot
      ⟨rf.currentTerm, me, rf.log.snapLastIdx, rf.log.snapLastTerm, rf.log.snapshot⟩)) ∨
    (rf.log.snapLastIdx < rf.nextIndex peer ∧ rf.roundFor me peer = some (.appendEntries
      ⟨rf.currentTerm, me, rf.nextIndex peer - 1, termAt X (rf.nextIndex peer - 1),
        X.drop (rf.nextIndex peer - 1), rf.commitIndex⟩)) := by
  rw [h.size] at hhi
  unfold roundFor
  by_cases hsnap : rf.nextIndex peer ≤ rf.log.snapLastIdx
  · exact Or.inl ⟨hsnap, if_pos (by omega)⟩
  · obtain ⟨prev, hprev, hterm⟩ := h.entryAt_term (i := rf.nextIndex peer - 1) (by omega) (by omega)
    have htail := h.tail_eq (i := rf.nextIndex peer - 1 + 1) (by omega)
    refine Or.inr ⟨by omega, ?_⟩
    rw [if_neg (by omega)]
    dsimp only
    rw [hprev, Option.bind_some, htail, Option.map_some, hterm, Nat.add_sub_cancel]

theorem roundFor_cases {me peer : Fin n} {rf : Raft n C} {round : Round n C}
    (h : rf.roundFor me peer = some round) :
    round = .installSnapshot
      ⟨rf.currentTerm, me, rf.log.snapLastIdx, rf.log.snapLastTerm, rf.log.snapshot⟩ ∨
    ∃ prevIdx prev entries, rf.log.snapLastIdx ≤ prevIdx ∧ rf.log.entryAt prevIdx = some prev ∧
      rf.log.tail (prevIdx + 1) = some entries ∧
      round = .appendEntries ⟨rf.currentTerm, me, prevIdx, prev.term, entries, rf.commitIndex⟩ := by
  unfold roundFor at h
  split_ifs at h with hsnap
  · exact Or.inl (Option.some.inj h).symm
  · obtain ⟨prev, hprev, h⟩ := Option.bind_eq_some_iff.mp h
    obtain ⟨entries, hentries, h⟩ := Option.map_eq_some_iff.mp h
    exact Or.inr ⟨_, prev, entries, by omega, hprev, hentries, h.symm⟩

/-- The leader has matched its own log. -/
def own (me : Fin n) (rf : Raft n C) : Raft n C :=
  { rf with
    matchIndex := Function.update rf.matchIndex me (rf.log.size - 1)
    nextIndex := Function.update rf.nextIndex me rf.log.size }

theorem roundFor_own {me peer : Fin n} (h : peer ≠ me) (rf : Raft n C) :
    (rf.own me).roundFor me peer = rf.roundFor me peer := by
  simp only [roundFor, own, Function.update_of_ne h]

theorem backOff_own {me peer : Fin n} (h : peer ≠ me) (rf : Raft n C) (reply : AppendEntriesReply) :
    (rf.own me).backOff peer reply = rf.backOff peer reply := by
  have hnext : (rf.own me).nextIndex peer = rf.nextIndex peer := Function.update_of_ne h _ _
  rw [backOff, hnext]
  rfl

/-- A loop whose requests can all be built sends one to every other peer. -/
theorem replicationLoop_eq {me : Fin n} (peers : List (Fin n)) (rf : Raft n C)
    (hround : ∀ p, p ≠ me → ∃ round, rf.roundFor me p = some round)
    (sent : List (Fin n × Round n C)) :
    ∃ rounds, replicationLoop me peers rf sent =
        some (if me ∈ peers then rf.own me else rf, sent ++ rounds) ∧
      rounds.map Prod.fst = peers.filter (· ≠ me) ∧
      ∀ p round, (p, round) ∈ rounds → rf.roundFor me p = some round := by
  induction peers generalizing rf sent with
  | nil => exact ⟨[], by simp [replicationLoop], rfl, fun p round hp => by simp at hp⟩
  | cons peer peers ih =>
    by_cases hme : peer = me
    · subst hme
      obtain ⟨rounds, heq, hfst, hall⟩ :=
        ih (rf.own peer) (fun p hp => roundFor_own hp rf ▸ hround p hp) sent
      have hnot : peer ∉ rounds.map Prod.fst := by
        rw [hfst]
        simp
      refine ⟨rounds, ?_, by rw [hfst, List.filter_cons_of_neg (by simp)], fun p round hp => ?_⟩
      · rw [replicationLoop, if_pos rfl, if_pos List.mem_cons_self]
        refine heq.trans ?_
        simp only [own, Function.update_idem, ite_self]
      · have hp' : p ≠ peer := by
          rintro rfl
          exact hnot (List.mem_map_of_mem hp)
        exact roundFor_own hp' rf ▸ hall p round hp
    · obtain ⟨round, hr⟩ := hround peer hme
      obtain ⟨rounds, heq, hfst, hall⟩ := ih rf hround (sent ++ [(peer, round)])
      refine ⟨(peer, round) :: rounds, ?_, ?_, ?_⟩
      · rw [replicationLoop, if_neg hme, hr, Option.bind_some, heq, List.append_assoc,
          List.singleton_append]
        simp only [List.mem_cons, Ne.symm hme, false_or]
      · rw [List.map_cons, hfst, List.filter_cons_of_pos (by simpa using hme)]
      · intro p r hp
        rcases List.mem_cons.mp hp with heq | hp
        · obtain ⟨rfl, rfl⟩ := Prod.mk.inj heq
          exact hr
        · exact hall p r hp

/-- A leader whose requests can all be built sends one to every other peer. -/
theorem startReplication_eq (me : Fin n) {rf : Raft n C} (hrole : rf.role = .leader)
    (hround : ∀ p, p ≠ me → ∃ round, rf.roundFor me p = some round) :
    ∃ rounds, rf.startReplication me rf.currentTerm = some (rf.own me, rounds, true) ∧
      rounds.map Prod.fst = (List.finRange n).filter (· ≠ me) ∧
      ∀ p round, (p, round) ∈ rounds → rf.roundFor me p = some round := by
  obtain ⟨rounds, heq, hfst, hall⟩ := replicationLoop_eq (List.finRange n) rf hround []
  refine ⟨rounds, ?_, hfst, hall⟩
  rw [startReplication, if_neg (by simp [contextLostLocked, hrole]), heq,
    if_pos (List.mem_finRange me), Option.map_some, List.nil_append]

end Raft

end GoServices.Consensus
