import GoServices.Raft.Server

/-! Leader election (`raft_election.go`). -/

namespace GoServices.Consensus

variable {n : ℕ} {C : Type}

/-- The arguments of `RequestVote`. -/
structure RequestVoteArgs (n : ℕ) where
  term : ℕ
  candidateId : Fin n
  lastLogIndex : ℕ
  lastLogTerm : ℕ
  deriving DecidableEq

/-- The answer to `RequestVote`. -/
structure RequestVoteReply where
  term : ℕ
  voteGranted : Bool
  deriving DecidableEq

namespace Raft

/-- Is this server's log more up to date than the candidate's? -/
def isMoreUpToDateLocked (rf : Raft n C) (candidateIndex candidateTerm : ℕ) : Option Bool :=
  rf.log.last.map fun (lastIndex, lastTerm) =>
    if lastTerm ≠ candidateTerm then decide (candidateTerm < lastTerm)
    else decide (candidateIndex < lastIndex)

/-- The server after it has seen a vote request that is not outdated. -/
def adopt (rf : Raft n C) (term : ℕ) : Raft n C :=
  if rf.currentTerm < term then rf.becomeFollowerLocked term else rf

/-- The `RequestVote` handler. The reply's term is read before the server adopts the new one. -/
def requestVote (rf : Raft n C) (args : RequestVoteArgs n) :
    Option (Raft n C × RequestVoteReply) :=
  if args.term < rf.currentTerm then some (rf, ⟨rf.currentTerm, false⟩)
  else
    let rf' := rf.adopt args.term
    if rf'.votedFor ≠ none then some (rf', ⟨rf.currentTerm, false⟩)
    else
      (rf'.isMoreUpToDateLocked args.lastLogIndex args.lastLogTerm).map fun
        | true => (rf', ⟨rf.currentTerm, false⟩)
        | false =>
          (persistLocked { rf' with votedFor := some args.candidateId }, ⟨rf.currentTerm, true⟩)

/-- The locked section of `electionTicker` when the timeout has struck. -/
def electionTimeout (me : Fin n) (rf : Raft n C) : Raft n C :=
  if rf.role = .leader then rf
  else
    let rf' := rf.becomeCandidateLocked me
    { rf' with elections := rf'.elections ++ [rf'.currentTerm] }

/-- The locked section of `startElection`: count the own vote, ask every other peer. -/
def startElection (me : Fin n) (rf : Raft n C) (term : ℕ) :
    Option (Raft n C × List (Fin n × RequestVoteArgs n)) :=
  let rf := { rf with elections := rf.elections.erase term }
  if rf.contextLostLocked .candidate term then some (rf, [])
  else
    rf.log.last.map fun (lastIdx, lastTerm) =>
      ({ rf with votes := Function.update rf.votes term 1 },
        ((List.finRange n).filter (· ≠ me)).map fun peer =>
          (peer, ⟨rf.currentTerm, me, lastIdx, lastTerm⟩))

/-- `askVoteFromPeer` after its call returned: the election of `term` got a reply. -/
def askVoteFromPeer (rf : Raft n C) (term : ℕ) (reply : RequestVoteReply) : Raft n C :=
  if rf.currentTerm < reply.term then rf.becomeFollowerLocked reply.term
  else if rf.contextLostLocked .candidate term then rf
  else if reply.voteGranted then
    let rf' := { rf with votes := Function.update rf.votes term (rf.votes term + 1) }
    if n / 2 < rf'.votes term then
      let rf'' := rf'.becomeLeaderLocked
      { rf'' with replicators := rf''.replicators ++ [term] }
    else rf'
  else rf

/-! ### What the handlers can do -/

theorem requestVote_cases {rf rf' : Raft n C} {args : RequestVoteArgs n} {reply : RequestVoteReply}
    (h : rf.requestVote args = some (rf', reply)) :
    (args.term < rf.currentTerm ∧ rf' = rf ∧ reply = ⟨rf.currentTerm, false⟩) ∨
    (rf.currentTerm ≤ args.term ∧ rf' = rf.adopt args.term ∧ reply = ⟨rf.currentTerm, false⟩) ∨
    (rf.currentTerm ≤ args.term ∧ (rf.adopt args.term).votedFor = none ∧
      (rf.adopt args.term).isMoreUpToDateLocked args.lastLogIndex args.lastLogTerm = some false ∧
      rf' = persistLocked { rf.adopt args.term with votedFor := some args.candidateId } ∧
      reply = ⟨rf.currentTerm, true⟩) := by
  unfold requestVote at h
  by_cases hterm : args.term < rf.currentTerm
  · rw [if_pos hterm, Option.some.injEq, Prod.mk.injEq] at h
    exact Or.inl ⟨hterm, h.1.symm, h.2.symm⟩
  rw [if_neg hterm] at h
  refine Or.inr ?_
  by_cases hvoted : (rf.adopt args.term).votedFor = none
  · dsimp only at h
    rw [if_neg (not_not_intro hvoted)] at h
    cases hm : (rf.adopt args.term).isMoreUpToDateLocked args.lastLogIndex args.lastLogTerm with
    | none => simp [hm] at h
    | some m =>
      rw [hm, Option.map_some, Option.some.injEq] at h
      cases m with
      | true =>
        rw [Prod.mk.injEq] at h
        exact Or.inl ⟨by omega, h.1.symm, h.2.symm⟩
      | false =>
        rw [Prod.mk.injEq] at h
        exact Or.inr ⟨by omega, hvoted, rfl, h.1.symm, h.2.symm⟩
  · dsimp only at h
    rw [if_pos hvoted, Option.some.injEq, Prod.mk.injEq] at h
    exact Or.inl ⟨by omega, h.1.symm, h.2.symm⟩

theorem askVoteFromPeer_cases (rf : Raft n C) (term : ℕ) (reply : RequestVoteReply) :
    (rf.currentTerm < reply.term ∧
      rf.askVoteFromPeer term reply = rf.becomeFollowerLocked reply.term) ∨
    rf.askVoteFromPeer term reply = rf ∨
    (rf.role = .candidate ∧ rf.currentTerm = term ∧ reply.voteGranted = true ∧
      rf.askVoteFromPeer term reply =
        { rf with votes := Function.update rf.votes term (rf.votes term + 1) }) ∨
    (rf.role = .candidate ∧ rf.currentTerm = term ∧ reply.voteGranted = true ∧
      n / 2 < rf.votes term + 1 ∧
      rf.askVoteFromPeer term reply =
        { rf with
          votes := Function.update rf.votes term (rf.votes term + 1)
          role := .leader
          nextIndex := fun _ => rf.log.size
          matchIndex := fun _ => 0
          replicators := rf.replicators ++ [term] }) := by
  unfold askVoteFromPeer
  by_cases hterm : rf.currentTerm < reply.term
  · exact Or.inl ⟨hterm, if_pos hterm⟩
  rw [if_neg hterm]
  by_cases hctx : rf.contextLostLocked .candidate term = true
  · exact Or.inr (Or.inl (if_pos hctx))
  rw [if_neg hctx]
  have hrole : rf.currentTerm = term ∧ rf.role = .candidate := by
    simpa [contextLostLocked] using hctx
  by_cases hg : reply.voteGranted = true
  · rw [if_pos hg]
    simp only [Function.update_self]
    split_ifs with hmaj
    · refine Or.inr (Or.inr (Or.inr ⟨hrole.2, hrole.1, hg, hmaj, ?_⟩))
      rw [becomeLeaderLocked, if_neg (by simp [hrole.2])]
    · exact Or.inr (Or.inr (Or.inl ⟨hrole.2, hrole.1, hg, rfl⟩))
  · exact Or.inr (Or.inl (if_neg hg))

theorem startElection_cases {me : Fin n} {rf rf' : Raft n C} {term : ℕ}
    {calls : List (Fin n × RequestVoteArgs n)}
    (h : rf.startElection me term = some (rf', calls)) :
    ((rf.role ≠ .candidate ∨ rf.currentTerm ≠ term) ∧
      rf' = { rf with elections := rf.elections.erase term } ∧ calls = []) ∨
    (rf.role = .candidate ∧ rf.currentTerm = term ∧
      rf' = { rf with
        elections := rf.elections.erase term
        votes := Function.update rf.votes term 1 } ∧
      ∃ lastIdx lastTerm, rf.log.last = some (lastIdx, lastTerm) ∧
        calls = ((List.finRange n).filter (· ≠ me)).map fun peer =>
          (peer, ⟨rf.currentTerm, me, lastIdx, lastTerm⟩)) := by
  unfold startElection at h
  by_cases hctx : rf.currentTerm = term ∧ rf.role = .candidate
  · rw [if_neg (by simp [contextLostLocked, hctx])] at h
    cases hl : rf.log.last with
    | none => simp [hl] at h
    | some p =>
      obtain ⟨lastIdx, lastTerm⟩ := p
      simp only [hl, Option.map_some, Option.some.injEq, Prod.mk.injEq] at h
      exact Or.inr ⟨hctx.2, hctx.1, h.1.symm, lastIdx, lastTerm, rfl, h.2.symm⟩
  · have hlost := not_and_or.mp hctx
    rw [if_pos (by simpa [contextLostLocked] using hlost)] at h
    simp only [Option.some.injEq, Prod.mk.injEq] at h
    exact Or.inl ⟨hlost.symm, h.1.symm, h.2.symm⟩

end Raft

end GoServices.Consensus
