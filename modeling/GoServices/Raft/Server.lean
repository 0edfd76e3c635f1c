import GoServices.Raft.Log

/-! One Raft server (`raft.go`, `raft_persistence.go`): its state, the three role changes, the
    persister, and `Start`.

    Every function below is one section of code that runs under `rf.mu`; between two of them the
    lock is free and anything may happen. Besides the fields of the Go struct the state holds what
    the server's goroutines keep while they are not running: where `applicationTicker` stands, which
    `startElection` and `replicationTicker` goroutines exist, and the `votes` counter that the
    closure of each `startElection` shares (one per election term). Election timers are left out: a
    timeout may strike at any moment. -/

namespace GoServices.Consensus

/-- The role of a server. -/
inductive Role where | follower | candidate | leader
  deriving DecidableEq

/-- What `persistLocked` encodes (gob decoding is taken to invert encoding). -/
structure RaftState (n : ℕ) (C : Type) where
  currentTerm : ℕ
  votedFor : Option (Fin n)
  snapLastIdx : ℕ
  snapLastTerm : ℕ
  tailLog : List (LogEntry C)

/-- Stable storage; `raftstate` is `none` before the first save. -/
structure Persister (n : ℕ) (C : Type) where
  raftstate : Option (RaftState n C)
  snapshot : List UInt8

/-- A message on `applyCh`. -/
structure ApplyMsg (C : Type) where
  commandValid : Bool
  command : Option C
  commandIndex : ℕ
  snapshotValid : Bool
  snapshot : List UInt8
  snapshotTerm : ℕ
  snapshotIndex : ℕ
  deriving DecidableEq

/-- Where the goroutine `applicationTicker` stands while it does not hold the lock. -/
inductive Ticker (C : Type) where
  /-- about to take the lock and call `applyCond.Wait` -/
  | idle
  /-- asleep in `applyCond.Wait` -/
  | waiting
  /-- signalled, about to run the first locked section -/
  | woken
  /-- about to send `entries[i]`, or, when all are sent, to take the lock again -/
  | sendEntries (entries : List (LogEntry C)) (i : ℕ)
  /-- about to read `rf.log.snapshot`, then the index, then the term, all without the lock -/
  | readSnapshot
  | readIndex (snapshot : List UInt8)
  | readTerm (snapshot : List UInt8) (index : ℕ)
  | sendSnapshot (snapshot : List UInt8) (index term : ℕ)
  /-- the snapshot is sent, the second locked section is next -/
  | snapshotSent
  deriving DecidableEq

/-- A Raft server; `votedFor = none` is the source's `-1`. -/
structure Raft (n : ℕ) (C : Type) where
  role : Role
  currentTerm : ℕ
  votedFor : Option (Fin n)
  log : RaftLog C
  nextIndex : Fin n → ℕ
  matchIndex : Fin n → ℕ
  commitIndex : ℕ
  lastApplied : ℕ
  snapPending : Bool
  persister : Persister n C
  ticker : Ticker C
  elections : List ℕ
  votes : ℕ → ℕ
  replicators : List ℕ

variable {n : ℕ} {C : Type}

namespace Raft

/-- The term, the vote and the log are saved. -/
def persistLocked (rf : Raft n C) : Raft n C :=
  { rf with
    persister :=
      { raftstate := some
          { currentTerm := rf.currentTerm
            votedFor := rf.votedFor
            snapLastIdx := rf.log.snapLastIdx
            snapLastTerm := rf.log.snapLastTerm
            tailLog := rf.log.tailLog }
        snapshot := rf.log.snapshot } }

/-- What was saved is read back. -/
def readPersist (rf : Raft n C) : Raft n C :=
  match rf.persister.raftstate with
  | none => rf
  | some st =>
    let rf' : Raft n C :=
      { rf with
        currentTerm := st.currentTerm
        votedFor := st.votedFor
        log :=
          { snapLastIdx := st.snapLastIdx
            snapLastTerm := st.snapLastTerm
            snapshot := rf.persister.snapshot
            tailLog := st.tailLog } }
    if rf'.commitIndex < rf'.log.snapLastIdx then
      { rf' with commitIndex := rf'.log.snapLastIdx, lastApplied := rf'.log.snapLastIdx }
    else rf'

/-- `Make`: a new server on top of what the persister holds. -/
def make (persister : Persister n C) : Raft n C :=
  readPersist
    { role := .follower
      currentTerm := 1
      votedFor := none
      log := newLog invalidIndex invalidTerm [] []
      nextIndex := fun _ => 0
      matchIndex := fun _ => 0
      commitIndex := 0
      lastApplied := 0
      snapPending := false
      persister := persister
      ticker := .idle
      elections := []
      votes := fun _ => 0
      replicators := [] }

/-- A new server counts exactly its snapshot as committed and applied. -/
theorem make_progress (p : Persister n C) :
    (make p).commitIndex = (make p).log.snapLastIdx ∧
    (make p).lastApplied = (make p).log.snapLastIdx ∧ (make p).ticker = .idle := by
  unfold make readPersist
  split
  · exact ⟨rfl, rfl, rfl⟩
  · dsimp only
    split_ifs with hlt
    · exact ⟨rfl, rfl, rfl⟩
    · have h0 := Nat.eq_zero_of_not_pos hlt
      exact ⟨h0.symm, h0.symm, rfl⟩

/-- A new server follows and has no goroutine of an election. -/
theorem make_idle (p : Persister n C) : (make p).role = .follower ∧ (make p).elections = [] := by
  unfold make readPersist
  split
  · exact ⟨rfl, rfl⟩
  · dsimp only
    split_ifs <;> exact ⟨rfl, rfl⟩

/-- The server follows; a later term clears its vote. -/
def becomeFollowerLocked (rf : Raft n C) (term : ℕ) : Raft n C :=
  if term < rf.currentTerm then rf
  else
    let rf' : Raft n C :=
      { rf with
        role := .follower
        votedFor := if rf.currentTerm < term then none else rf.votedFor
        currentTerm := term }
    if rf.currentTerm ≠ term then rf'.persistLocked else rf'

/-- The server starts a new term and votes for itself. -/
def becomeCandidateLocked (me : Fin n) (rf : Raft n C) : Raft n C :=
  if rf.role = .leader then rf
  else
    persistLocked
      { rf with
        currentTerm := rf.currentTerm + 1
        role := .candidate
        votedFor := some me }

/-- A candidate leads; all its peers count as up to date and unconfirmed. -/
def becomeLeaderLocked (rf : Raft n C) : Raft n C :=
  if rf.role ≠ .candidate then rf
  else
    { rf with
      role := .leader
      nextIndex := fun _ => rf.log.size
      matchIndex := fun _ => 0 }

/-- `applyCond.Signal`: wakes the ticker if it is waiting, is lost otherwise. -/
def signal (rf : Raft n C) : Raft n C :=
  { rf with ticker := if rf.ticker matches .waiting then .woken else rf.ticker }

/-- Whether the server has left this role or this term. -/
def contextLostLocked (rf : Raft n C) (role : Role) (term : ℕ) : Bool :=
  !(rf.currentTerm == term && decide (rf.role = role))

section BecomeFollower

variable (rf : Raft n C) (t : ℕ)

theorem becomeFollowerLocked_role (h : rf.currentTerm ≤ t) :
    (rf.becomeFollowerLocked t).role = .follower := by
  unfold becomeFollowerLocked; rw [if_neg (by omega)]; split_ifs <;> rfl

theorem becomeFollowerLocked_currentTerm (h : rf.currentTerm ≤ t) :
    (rf.becomeFollowerLocked t).currentTerm = t := by
  unfold becomeFollowerLocked; rw [if_neg (by omega)]; split_ifs <;> rfl

@[simp] theorem becomeFollowerLocked_log : (rf.becomeFollowerLocked t).log = rf.log := by
  unfold becomeFollowerLocked; split_ifs <;> rfl

@[simp] theorem becomeFollowerLocked_elections :
    (rf.becomeFollowerLocked t).elections = rf.elections := by
  unfold becomeFollowerLocked; split_ifs <;> rfl

@[simp] theorem becomeFollowerLocked_commitIndex :
    (rf.becomeFollowerLocked t).commitIndex = rf.commitIndex := by
  unfold becomeFollowerLocked; split_ifs <;> rfl

@[simp] theorem becomeFollowerLocked_lastApplied :
    (rf.becomeFollowerLocked t).lastApplied = rf.lastApplied := by
  unfold becomeFollowerLocked; split_ifs <;> rfl

@[simp] theorem becomeFollowerLocked_ticker :
    (rf.becomeFollowerLocked t).ticker = rf.ticker := by
  unfold becomeFollowerLocked; split_ifs <;> rfl

@[simp] theorem becomeFollowerLocked_snapPending :
    (rf.becomeFollowerLocked t).snapPending = rf.snapPending := by
  unfold becomeFollowerLocked; split_ifs <;> rfl

end BecomeFollower

/-- A signal never puts the ticker into the middle of its work. -/
theorem signal_ticker {rf : Raft n C} {es : List (LogEntry C)} {i : ℕ}
    (h : rf.signal.ticker = .sendEntries es i) : rf.ticker = .sendEntries es i := by
  unfold signal at h
  dsimp only at h
  split_ifs at h with hw
  exact h

/-- `Start`: the new state and the returned index, term and leadership. -/
def start (rf : Raft n C) (command : Option C) : Raft n C × ℕ × ℕ × Bool :=
  if rf.role ≠ .leader then (rf, 0, 0, false)
  else
    let rf' := persistLocked { rf with log := rf.log.append ⟨rf.currentTerm, true, command⟩ }
    (rf', rf'.log.size - 1, rf'.currentTerm, true)

end Raft

end GoServices.Consensus
