import GoServices.Raft.ApplyStream
import GoServices.Raft.Simulation

/-! What a crash leaves behind.

    One server again faces an environment that may call any handler with any arguments. Whenever the
    lock is free, the persister holds the present term, vote, log and snapshot (`Synced`), so that
    `Make` on top of it brings all of them back. A handler either leaves these fields alone or ends
    with `persistLocked`; only `becomeFollowerLocked` decides by itself, and it saves exactly when
    the term has moved. -/

namespace GoServices.Consensus

open Runs

variable {n : ℕ} {C : Type}

/-- The fields that have to survive a crash. -/
def Raft.durable (rf : Raft n C) : ℕ × Option (Fin n) × ℕ × ℕ × List (LogEntry C) × List UInt8 :=
  (rf.currentTerm, rf.votedFor, rf.log.snapLastIdx, rf.log.snapLastTerm, rf.log.tailLog,
    rf.log.snapshot)

namespace Synced

variable {rf rf' : Raft n C}

/-- Whatever else a handler does, these fields decide. -/
theorem keep (h : Synced rf) (hterm : rf'.currentTerm = rf.currentTerm)
    (hvote : rf'.votedFor = rf.votedFor) (hlog : rf'.log = rf.log)
    (hper : rf'.persister = rf.persister) : Synced rf' := by
  unfold Synced Raft.persistLocked at *
  rw [hterm, hvote, hlog, hper]
  exact h

/-! ### The handlers -/

theorem follow (h : Synced rf) (t : ℕ) : Synced (rf.becomeFollowerLocked t) := by
  unfold Raft.becomeFollowerLocked
  by_cases hlt : t < rf.currentTerm
  · rw [if_pos hlt]; exact h
  rw [if_neg hlt]
  by_cases hne : rf.currentTerm = t
  · -- the term stays, hence so does the vote
    subst hne
    simp only [lt_irrefl, if_false, ne_eq, not_true_eq_false]
    exact h.keep rfl rfl rfl rfl
  · simp only [ne_eq, hne, not_false_eq_true, if_true]
    exact synced_persistLocked _

theorem adopt (h : Synced rf) (t : ℕ) : Synced (rf.adopt t) := by
  unfold Raft.adopt
  split_ifs
  · exact h.follow t
  · exact h

theorem requestVote (h : Synced rf) {args : RequestVoteArgs n} {reply : RequestVoteReply}
    (hr : rf.requestVote args = some (rf', reply)) : Synced rf' := by
  rcases Raft.requestVote_cases hr with ⟨-, rfl, -⟩ | ⟨-, rfl, -⟩ | ⟨-, -, -, rfl, -⟩
  · exact h
  · exact h.adopt _
  · exact synced_persistLocked _

theorem appendEntries (h : Synced rf) {args : AppendEntriesArgs n C} {reply : AppendEntriesReply}
    (hr : rf.appendEntries args = some (rf', reply)) : Synced rf' := by
  obtain ⟨-, ⟨-, rfl, -⟩ | ⟨-, rfl, -⟩ | ⟨-, -, -, -, prev, log, -, -, -, rfl⟩⟩ :=
    Raft.appendEntries_cases hr
  · exact h
  · exact h.follow _
  · obtain ⟨ticker, -, hrf⟩ :=
      (rf.becomeFollowerLocked args.term).acceptEntries_eq log args.leaderCommit
    rw [hrf]
    exact (synced_persistLocked _).keep rfl rfl rfl rfl

theorem installSnapshot (h : Synced rf) (args : InstallSnapshotArgs n) :
    Synced (rf.installSnapshot args).1 := by
  obtain ⟨-, ⟨-, hrf⟩ | ⟨-, -, hrf⟩ | ⟨-, -, hrf⟩⟩ := Raft.installSnapshot_cases rf args <;> rw [hrf]
  · exact h
  · exact h.follow _
  · exact (synced_persistLocked _).keep rfl rfl rfl rfl

theorem snapshot (h : Synced rf) {index : ℕ} {bytes : List UInt8}
    (hr : rf.snapshot index bytes = some rf') : Synced rf' := by
  rcases Raft.snapshot_cases hr with rfl | ⟨-, -, log, -, rfl⟩
  · exact h
  · exact synced_persistLocked _

theorem start (h : Synced rf) (command : Option C) : Synced (rf.start command).1 := by
  unfold Raft.start
  split_ifs
  · exact h
  · exact synced_persistLocked _

theorem electionTimeout (h : Synced rf) (me : Fin n) : Synced (rf.electionTimeout me) := by
  unfold Raft.electionTimeout Raft.becomeCandidateLocked
  split_ifs with hrole
  · exact h
  · exact (synced_persistLocked _).keep rfl rfl rfl rfl

theorem startElection (h : Synced rf) {me : Fin n} {term : ℕ}
    {calls : List (Fin n × RequestVoteArgs n)}
    (hr : rf.startElection me term = some (rf', calls)) : Synced rf' := by
  rcases Raft.startElection_cases hr with ⟨-, rfl, -⟩ | ⟨-, -, rfl, -⟩ <;>
    exact h.keep rfl rfl rfl rfl

theorem askVoteFromPeer (h : Synced rf) (term : ℕ) (reply : RequestVoteReply) :
    Synced (rf.askVoteFromPeer term reply) := by
  rcases rf.askVoteFromPeer_cases term reply with ⟨-, hrf⟩ | hrf | ⟨-, -, -, hrf⟩ |
    ⟨-, -, -, -, hrf⟩ <;> rw [hrf]
  · exact h.follow _
  · exact h
  all_goals exact h.keep rfl rfl rfl rfl

theorem startReplication (h : Synced rf) {me : Fin n} {term : ℕ}
    {sent : List (Fin n × Round n C) × Bool}
    (hr : rf.startReplication me term = some (rf', sent)) : Synced rf' := by
  obtain ⟨rounds, ok⟩ := sent
  rcases Raft.startReplication_cases hr with ⟨-, rfl, -⟩ | ⟨-, -, -, ⟨m, next, -, rfl⟩, -⟩
  · exact h
  · exact h.keep rfl rfl rfl rfl

theorem replicateToPeer (h : Synced rf) {term : ℕ} {peer : Fin n} {args : AppendEntriesArgs n C}
    {reply : AppendEntriesReply} (hr : rf.replicateToPeer term peer args reply = some rf') :
    Synced rf' := by
  rcases Raft.replicateToPeer_cases hr with ⟨-, rfl⟩ | ⟨next, rfl⟩ |
    ⟨-, -, -, -, g, rfl, rfl | ⟨m, e, -, -, -, -, rfl⟩⟩
  · exact h.follow _
  all_goals exact h.keep rfl rfl rfl rfl

theorem installToPeer (h : Synced rf) (term : ℕ) (peer : Fin n) (args : InstallSnapshotArgs n)
    (reply : InstallSnapshotReply) : Synced (rf.installToPeer term peer args reply) := by
  rcases rf.installToPeer_cases term peer args reply with ⟨-, hrf⟩ | hrf | ⟨-, -, -, hrf⟩ <;> rw [hrf]
  · exact h.follow _
  · exact h
  · exact h.keep rfl rfl rfl rfl

theorem applicationTicker (h : Synced rf) {msg : Option (ApplyMsg C)}
    (hr : rf.applicationTicker = some (rf', msg)) : Synced rf' := by
  obtain ⟨_, _, _, _, rfl⟩ := Raft.applicationTicker_frame hr
  exact h.keep rfl rfl rfl rfl

theorem make (h : Synced rf) : Synced (Raft.make rf.persister) := by
  have hc := core_make h
  simp only [core, Prod.mk.injEq] at hc
  obtain ⟨-, hterm, hvote, hlog, hper⟩ := hc
  exact h.keep hterm hvote hlog hper

/-! ### Runs -/

variable {x x' : Applier n C}

theorem after (h : Synced x.rf) {r : Option (Raft n C)} (hr : ∀ rf', r = some rf' → Synced rf') :
    Synced (x.after r).rf := by
  cases r with
  | none => exact h.make
  | some rf' => exact hr rf' rfl

theorem step (h : Synced x.rf) {me : Fin n} {ev : Event n C} (hs : x.step me ev = some x') :
    Synced x'.rf := by
  -- a handler whose result carries a reply as well
  have fst : ∀ {β : Type} {r : Option (Raft n C × β)},
      (∀ rf' b, r = some (rf', b) → Synced rf') → Synced (x.after (r.map Prod.fst)).rf := by
    intro β r hr
    refine h.after fun rf' hrf' => ?_
    obtain ⟨⟨g, b⟩, hg, rfl⟩ := Option.map_eq_some_iff.mp hrf'
    exact hr g b hg
  cases ev with
  | requestVote args => exact Option.some.inj hs ▸ fst fun _ _ hr => h.requestVote hr
  | appendEntries args => exact Option.some.inj hs ▸ fst fun _ _ hr => h.appendEntries hr
  | installSnapshot args => exact Option.some.inj hs ▸ h.installSnapshot args
  | snapshot index bytes => exact Option.some.inj hs ▸ h.after fun _ hr => h.snapshot hr
  | start command => exact Option.some.inj hs ▸ h.start command
  | electionTimeout => exact Option.some.inj hs ▸ h.electionTimeout me
  | startElection term => exact Option.some.inj hs ▸ fst fun _ _ hr => h.startElection hr
  | voteReply term reply => exact Option.some.inj hs ▸ h.askVoteFromPeer term reply
  | startReplication term => exact Option.some.inj hs ▸ fst fun _ _ hr => h.startReplication hr
  | appendReply term peer args reply =>
    exact Option.some.inj hs ▸ h.after fun _ hr => h.replicateToPeer hr
  | installReply term peer args reply =>
    exact Option.some.inj hs ▸ h.installToPeer term peer args reply
  | tick =>
    simp only [Applier.step] at hs
    split at hs
    · exact Option.some.inj hs ▸ h.applicationTicker ‹_›
    · exact Option.some.inj hs ▸ h.make
  | restart => exact Option.some.inj hs ▸ h.make

/-- Decoding what the persister holds, on top of any state. -/
theorem readPersist (h : Synced rf) (hst : rf.persister.raftstate ≠ none) {g : Raft n C}
    (hg : g.persister = rf.persister) : g.readPersist.durable = rf.durable := by
  rcases h with ⟨hnone, -⟩ | hper
  · exact absurd hnone hst
  · rw [hper] at hg
    simp only [Raft.readPersist, hg, Raft.persistLocked]
    split_ifs <;> rfl

end Synced

/-- Whenever the lock is free, the persister holds the durable fields, or it is empty and they have
    the values of `Make`; a crash loses none of them, and everything up to the snapshot counts as
    committed and applied afterwards. -/
theorem crash_durability (me : Fin n) {evs : List (Event n C)} {x : Applier n C}
    (hx : Run (Applier.step me) Any (Applier.make ⟨none, []⟩) evs x) :
    ((x.rf.persister = ⟨none, []⟩ ∧ x.rf.durable = (Raft.make ⟨none, []⟩ : Raft n C).durable) ∨
      x.rf.persister.raftstate ≠ none ∧
        ∀ g : Raft n C, g.persister = x.rf.persister → g.readPersist.durable = x.rf.durable) ∧
    (Raft.make x.rf.persister).durable = x.rf.durable ∧
    x.rf.log.snapLastIdx ≤ (Raft.make x.rf.persister).commitIndex ∧
    x.rf.log.snapLastIdx ≤ (Raft.make x.rf.persister).lastApplied := by
  have h : Synced x.rf := hx.preserves (I := fun y => Synced y.rf)
    (fun _ _ _ hs _ hst => hs.step hst) (Or.inl ⟨rfl, rfl, rfl, rfl, rfl⟩)
  have hc := core_make h
  simp only [core, Prod.mk.injEq] at hc
  obtain ⟨-, hterm, hvote, hlog, -⟩ := hc
  have hmake : (Raft.make x.rf.persister).durable = x.rf.durable := by
    simp only [Raft.durable, hterm, hvote, hlog]
  obtain ⟨hcommit, happlied, -⟩ := Raft.make_progress x.rf.persister
  rw [hlog] at hcommit happlied
  refine ⟨?_, hmake, le_of_eq hcommit.symm, le_of_eq happlied.symm⟩
  rcases h with ⟨hst, hsnap, -⟩ | hper
  · have hempty : x.rf.persister = ⟨none, []⟩ := by
      cases hp : x.rf.persister with
      | mk st snap => rw [hp] at hst hsnap; exact congrArg₂ Persister.mk hst hsnap
    exact Or.inl ⟨hempty, by rw [← hmake, hempty]⟩
  · have hst : x.rf.persister.raftstate ≠ none := by rw [hper]; exact Option.some_ne_none _
    exact Or.inr ⟨hst, fun g hg => Synced.readPersist (Or.inr hper) hst hg⟩

/-- The server votes, follows a leader's entries, takes a snapshot of them and stands itself. -/
def saved : List (Event 7 ℕ) :=
  [.requestVote ⟨2, 1, 0, 0⟩, .appendEntries ⟨2, 1, 0, 0, [⟨2, true, some 7⟩, ⟨2, true, some 8⟩], 1⟩,
    .snapshot 1 [5], .electionTimeout]

theorem crash_durability_saved : ∃ x : Applier 7 ℕ,
    Run (Applier.step 0) Any (Applier.make ⟨none, []⟩) saved x ∧
    (x.rf.currentTerm = 3 ∧ x.rf.votedFor = some 0 ∧
      x.rf.log = ⟨1, 2, [5], [⟨2, false, none⟩, ⟨2, true, some 8⟩]⟩) ∧
    (Raft.make x.rf.persister).durable = x.rf.durable := by
  obtain ⟨x, hx, hq⟩ := exists_run (Applier.step 0) Any (Applier.make ⟨none, []⟩) saved
    (fun x : Applier 7 ℕ => decide (x.rf.currentTerm = 3 ∧ x.rf.votedFor = some 0 ∧
      x.rf.log = ⟨1, 2, [5], [⟨2, false, none⟩, ⟨2, true, some 8⟩]⟩)) (by decide +kernel)
  exact ⟨x, hx, of_decide_eq_true hq, (crash_durability 0 hx).2.1⟩

end GoServices.Consensus
