import GoServices.Raft.Cluster

/-! What a step of the cluster can do.

    `Effect c act c'` lists the outcomes of an action with everything that is known when they occur;
    `step_effect` reads them off the step function once, so that no proof about steps has to open
    the handlers again. -/

namespace GoServices.Consensus

variable {n : ℕ} {C : Type}

/-- The calls by which `s` asks everyone else for their vote. -/
def asked (c : Cluster n C) (s : Fin n) (args : RequestVoteArgs n) : List (Call n C) :=
  ((List.finRange n).filter (· ≠ s)).map fun peer =>
    ⟨s, c.epochs s, peer, args.term, .requestVote args none⟩

/-- All that an action can do. -/
inductive Effect (c : Cluster n C) : Action n C → Cluster n C → Prop where
  /-- nothing happens -/
  | stay (act : Action n C) : Effect c act c
  | lose (k : ℕ) : Effect c (.lose k) { c with net := c.net.eraseIdx k }
  /-- a crash or a panic; the call that was being handled is lost -/
  | restart (act : Action n C) (s : Fin n) (net : List (Call n C)) (hnet : net.Sublist c.net) :
      Effect c act { c.restart s with net := net }
  | timeout (s : Fin n) (hrole : (c.servers s).role ≠ .leader) :
      Effect c (.timeout s) (c.put s ((c.servers s).electionTimeout s))
  | skipElection (s : Fin n) (term : ℕ)
      (hlost : (c.servers s).role ≠ .candidate ∨ (c.servers s).currentTerm ≠ term) :
      Effect c (.startElection s term)
        (c.put s { c.servers s with elections := (c.servers s).elections.erase term })
  | startElection (s : Fin n) (lastIdx lastTerm : ℕ) (hrole : (c.servers s).role = .candidate)
      (hmem : (c.servers s).currentTerm ∈ (c.servers s).elections)
      (hlast : (c.servers s).log.last = some (lastIdx, lastTerm)) :
      Effect c (.startElection s (c.servers s).currentTerm)
        { c.put s { c.servers s with
            elections := (c.servers s).elections.erase (c.servers s).currentTerm
            votes := Function.update (c.servers s).votes (c.servers s).currentTerm 1 } with
          net := c.net ++ asked c s ⟨(c.servers s).currentTerm, s, lastIdx, lastTerm⟩ }
  | startReplication (s : Fin n) (m : ℕ) (next : Fin n → ℕ) (rounds : List (Fin n × Round n C))
      (hrole : (c.servers s).role = .leader)
      (hm : m = (c.servers s).matchIndex s ∨ m = (c.servers s).log.size - 1)
      (hrounds : ∀ p round, (p, round) ∈ rounds →
        p ≠ s ∧ (c.servers s).roundFor s p = some round) :
      Effect c (.startReplication s (c.servers s).currentTerm)
        ((c.put s { c.servers s with
            matchIndex := Function.update (c.servers s).matchIndex s m
            nextIndex := next }).send s (c.servers s).currentTerm
          (rounds.map fun (peer, round) => (peer, round.rpc)))
  | endReplication (s : Fin n) (term : ℕ) : Effect c (.startReplication s term)
      (c.put s { c.servers s with replicators := (c.servers s).replicators.erase term })
  | serveVote (k : ℕ) (call : Call n C) (args : RequestVoteArgs n) (rf : Raft n C)
      (reply : RequestVoteReply) (hk : c.net[k]? = some call)
      (hrpc : call.rpc = .requestVote args none)
      (hreq : (c.servers call.peer).requestVote args = some (rf, reply)) :
      Effect c (.serve k) { c.put call.peer rf with
        net := c.net.set k { call with rpc := .requestVote args (some reply) } }
  | refuseAppend (k : ℕ) (call : Call n C) (args : AppendEntriesArgs n C) (rf : Raft n C)
      (reply : AppendEntriesReply) (hk : c.net[k]? = some call)
      (hrpc : call.rpc = .appendEntries args none)
      (hrf : rf = c.servers call.peer ∨ (c.servers call.peer).currentTerm ≤ args.term ∧
        rf = (c.servers call.peer).becomeFollowerLocked args.term)
      (hno : reply.success = false) :
      Effect c (.serve k) { c.put call.peer rf with
        net := c.net.set k { call with rpc := .appendEntries args (some reply) } }
  | acceptAppend (k : ℕ) (call : Call n C) (args : AppendEntriesArgs n C) (prev : LogEntry C)
      (log : RaftLog C) (reply : AppendEntriesReply) (hk : c.net[k]? = some call)
      (hrpc : call.rpc = .appendEntries args none)
      (ht : (c.servers call.peer).currentTerm ≤ args.term)
      (hsnap : (c.servers call.peer).log.snapLastIdx ≤ args.prevLogIndex)
      (hprev : (c.servers call.peer).log.entryAt args.prevLogIndex = some prev)
      (hpt : prev.term = args.prevLogTerm)
      (hlog : (c.servers call.peer).log.appendFrom args.prevLogIndex args.entries = some log) :
      Effect c (.serve k)
        { c.put call.peer (((c.servers call.peer).becomeFollowerLocked args.term).acceptEntries log
            args.leaderCommit) with
          net := c.net.set k { call with rpc := .appendEntries args (some reply) } }
  | staleInstall (k : ℕ) (call : Call n C) (args : InstallSnapshotArgs n)
      (reply : InstallSnapshotReply) (hk : c.net[k]? = some call)
      (hrpc : call.rpc = .installSnapshot args none)
      (ht : args.term < (c.servers call.peer).currentTerm)
      (hre : reply.term = (c.servers call.peer).currentTerm) :
      Effect c (.serve k) { c.put call.peer (c.servers call.peer) with
        net := c.net.set k { call with rpc := .installSnapshot args (some reply) } }
  | coveredInstall (k : ℕ) (call : Call n C) (args : InstallSnapshotArgs n)
      (reply : InstallSnapshotReply) (hk : c.net[k]? = some call)
      (hrpc : call.rpc = .installSnapshot args none)
      (ht : (c.servers call.peer).currentTerm ≤ args.term)
      (hsnap : args.lastIncludedIndex ≤ (c.servers call.peer).log.snapLastIdx) :
      Effect c (.serve k) { c.put call.peer ((c.servers call.peer).becomeFollowerLocked args.term) with
        net := c.net.set k { call with rpc := .installSnapshot args (some reply) } }
  | acceptInstall (k : ℕ) (call : Call n C) (args : InstallSnapshotArgs n)
      (reply : InstallSnapshotReply) (hk : c.net[k]? = some call)
      (hrpc : call.rpc = .installSnapshot args none)
      (ht : (c.servers call.peer).currentTerm ≤ args.term)
      (hsnap : (c.servers call.peer).log.snapLastIdx < args.lastIncludedIndex) :
      Effect c (.serve k) { c.put call.peer
          (((c.servers call.peer).becomeFollowerLocked args.term).acceptSnapshot args) with
        net := c.net.set k { call with rpc := .installSnapshot args (some reply) } }
  | receiveVote (k : ℕ) (call : Call n C) (args : RequestVoteArgs n) (reply : RequestVoteReply)
      (hk : c.net[k]? = some call) (hrpc : call.rpc = .requestVote args (some reply))
      (hep : c.epochs call.caller = call.epoch) :
      Effect c (.return k) { c.put call.caller
          ((c.servers call.caller).askVoteFromPeer call.term reply) with
        net := c.net.eraseIdx k }
  /-- the reply of a replication call carries a later term -/
  | follow (k : ℕ) (s : Fin n) (t : ℕ) (ht : (c.servers s).currentTerm ≤ t) :
      Effect c (.return k) { c.put s ((c.servers s).becomeFollowerLocked t) with
        net := c.net.eraseIdx k }
  | backOff (k : ℕ) (s : Fin n) (next : Fin n → ℕ) :
      Effect c (.return k) { c.put s { c.servers s with nextIndex := next } with
        net := c.net.eraseIdx k }
  | recordAppend (k : ℕ) (call : Call n C) (args : AppendEntriesArgs n C)
      (reply : AppendEntriesReply) (rf : Raft n C) (hk : c.net[k]? = some call)
      (hrpc : call.rpc = .appendEntries args (some reply)) (hyes : reply.success = true)
      (hrole : (c.servers call.caller).role = .leader)
      (hterm : (c.servers call.caller).currentTerm = call.term)
      (g : Raft n C) (hg : g = (c.servers call.caller).recordMatch call.peer
        (args.prevLogIndex + args.entries.length))
      (hrf : rf = g ∨ ∃ m e, Raft.getMajorityIndexLocked g.matchIndex = some m ∧
        (c.servers call.caller).log.entryAt m = some e ∧
        e.term = (c.servers call.caller).currentTerm ∧
        (c.servers call.caller).commitIndex < m ∧
        rf = Raft.signal { g with commitIndex := m }) :
      Effect c (.return k) { c.put call.caller rf with net := c.net.eraseIdx k }
  | recordInstall (k : ℕ) (call : Call n C) (args : InstallSnapshotArgs n)
      (reply : InstallSnapshotReply) (hk : c.net[k]? = some call)
      (hrpc : call.rpc = .installSnapshot args (some reply))
      (hrole : (c.servers call.caller).role = .leader)
      (hterm : (c.servers call.caller).currentTerm = call.term)
      (hre : reply.term ≤ (c.servers call.caller).currentTerm) :
      Effect c (.return k) { c.put call.caller
          ((c.servers call.caller).recordMatch call.peer args.lastIncludedIndex) with
        net := c.net.eraseIdx k }
  | start (s : Fin n) (command : Option C) (hrole : (c.servers s).role = .leader) :
      Effect c (.start s command) (c.put s ((c.servers s).start command).1)
  | compact (s : Fin n) (index : ℕ) (bytes : List UInt8) (log : RaftLog C)
      (hdel : c.hasDelivered s index = true) (hcommit : index ≤ (c.servers s).commitIndex)
      (hsnap : (c.servers s).log.snapLastIdx < index)
      (hlog : (c.servers s).log.doSnapshot index bytes = some log) :
      Effect c (.snapshot s index bytes)
        (c.put s (Raft.persistLocked { c.servers s with log := log }))
  | tick (s : Fin n) (rf : Raft n C) (msg : Option (ApplyMsg C))
      (hrf : (c.servers s).applicationTicker = some (rf, msg)) :
      Effect c (.tick s) { c.put s rf with
        applyCh := Function.update c.applyCh s (c.applyCh s ++ msg.toList) }

variable {c c' : Cluster n C}

theorem Cluster.put_self (c : Cluster n C) (s : Fin n) : c.put s (c.servers s) = c := by
  rw [Cluster.put, Function.update_eq_self]

theorem serve_effect {k : ℕ} {call : Call n C} (hk : c.net[k]? = some call)
    (h : c.serve k call = some c') : Effect c (.serve k) c' := by
  have hsub := List.eraseIdx_sublist c.net k
  unfold Cluster.serve at h
  dsimp only at h
  split at h
  case h_1 args hrpc =>
    split at h
    · exact Option.some.inj h ▸ Effect.serveVote k call args _ _ hk hrpc ‹_›
    · exact Option.some.inj h ▸ Effect.restart _ _ _ hsub
  case h_2 args hrpc =>
    split at h
    case h_1 rf reply hreq =>
      rw [← Option.some.inj h]
      obtain ⟨-, ⟨-, hrf, hno⟩ | ⟨ht, hrf, hno⟩ | ⟨ht, -, -, hsnap, prev, log, hprev, hpt, hlog, rfl⟩⟩ :=
        Raft.appendEntries_cases hreq
      · exact Effect.refuseAppend k call args _ _ hk hrpc (Or.inl hrf) hno
      · exact Effect.refuseAppend k call args _ _ hk hrpc (Or.inr ⟨ht, hrf⟩) hno
      · rw [Raft.becomeFollowerLocked_log] at hsnap hprev hlog
        exact Effect.acceptAppend k call args prev log _ hk hrpc ht hsnap hprev hpt hlog
    · exact Option.some.inj h ▸ Effect.restart _ _ _ hsub
  case h_3 args hrpc =>
    rw [← Option.some.inj h]
    obtain ⟨hre, ⟨ht, hrf⟩ | ⟨ht, hsnap, hrf⟩ | ⟨ht, hsnap, hrf⟩⟩ :=
      Raft.installSnapshot_cases (c.servers call.peer) args <;> rw [hrf]
    · exact Effect.staleInstall k call args _ hk hrpc ht hre
    · rw [Raft.becomeFollowerLocked_log] at hsnap
      exact Effect.coveredInstall k call args _ hk hrpc ht hsnap
    · rw [Raft.becomeFollowerLocked_log] at hsnap
      exact Effect.acceptInstall k call args _ hk hrpc ht hsnap
  case h_4 => simp at h

theorem receive_effect {k : ℕ} {call : Call n C} (hk : c.net[k]? = some call)
    (h : c.receive k call = some c') : Effect c (.return k) c' := by
  have hsub := List.eraseIdx_sublist c.net k
  unfold Cluster.receive at h
  dsimp only at h
  split_ifs at h with hep
  rw [not_not] at hep
  split at h
  case h_1 args reply hrpc => exact Option.some.inj h ▸ Effect.receiveVote k call args reply hk hrpc hep
  case h_2 args reply hrpc =>
    rw [← Option.some.inj h]
    cases hrf : (c.servers call.caller).replicateToPeer call.term call.peer args reply with
    | none => exact Effect.restart _ _ _ hsub
    | some rf =>
      rcases Raft.replicateToPeer_cases hrf with ⟨ht, rfl⟩ | ⟨next, rfl⟩ |
        ⟨hrole, hterm, hyes, -, g, hg, hrf⟩
      · exact Effect.follow k _ _ (le_of_lt ht)
      · exact Effect.backOff k _ next
      · refine Effect.recordAppend k call args reply rf hk hrpc hyes hrole hterm g hg ?_
        refine hrf.imp_right ?_
        rintro ⟨m, e, hm, hlt, he, het, rfl⟩
        exact ⟨m, e, hm, he, het, hlt, rfl⟩
  case h_3 args reply hrpc =>
    rw [← Option.some.inj h]
    rcases Raft.installToPeer_cases (c.servers call.caller) call.term call.peer args reply with
      ⟨ht, hrf⟩ | hrf | ⟨hrole, hterm, hre, hrf⟩ <;> rw [hrf]
    · exact Effect.follow k _ _ (le_of_lt ht)
    · exact Effect.backOff k _ (c.servers call.caller).nextIndex
    · exact Effect.recordInstall k call args reply hk hrpc hrole hterm hre
  case h_4 => simp at h

theorem step_effect {act : Action n C} (h : c.step act = some c') : Effect c act c' := by
  cases act with
  | timeout s =>
    rw [← Option.some.inj h]
    by_cases hrole : (c.servers s).role = .leader
    · rw [Raft.electionTimeout, if_pos hrole, Cluster.put_self]; exact Effect.stay _
    · exact Effect.timeout s hrole
  | startElection s term =>
    simp only [Cluster.step] at h
    split_ifs at h with hmem
    split at h
    case h_1 rf calls hrf =>
      rw [← Option.some.inj h]
      rcases Raft.startElection_cases hrf with ⟨hlost, rfl, rfl⟩ |
        ⟨hrole, rfl, rfl, lastIdx, lastTerm, hlast, rfl⟩
      · have := Effect.skipElection (c := c) s term hlost
        simpa only [Cluster.send, List.map_nil, List.append_nil] using this
      · rw [Cluster.send, List.map_map, List.map_map]
        exact Effect.startElection s lastIdx lastTerm hrole hmem hlast
    · exact Option.some.inj h ▸ Effect.restart _ s c.net (List.Sublist.refl _)
  | startReplication s term =>
    simp only [Cluster.step] at h
    split_ifs at h with hmem
    split at h
    case h_1 rf rounds hrf =>
      rw [← Option.some.inj h]
      obtain ⟨hx, -⟩ | ⟨-, hrole, rfl, ⟨m, next, hm, rfl⟩, hrounds⟩ := Raft.startReplication_cases hrf
      · exact absurd hx (by decide)
      · exact Effect.startReplication s m next rounds hrole hm hrounds
    case h_2 rf rounds hrf =>
      rw [← Option.some.inj h]
      obtain ⟨-, rfl, -⟩ | ⟨hx, -⟩ := Raft.startReplication_cases hrf
      · exact Effect.endReplication s term
      · exact absurd hx (by decide)
    · exact Option.some.inj h ▸ Effect.restart _ s c.net (List.Sublist.refl _)
  | serve k =>
    obtain ⟨call, hk, h⟩ := Option.bind_eq_some_iff.mp h
    exact serve_effect hk h
  | «return» k =>
    obtain ⟨call, hk, h⟩ := Option.bind_eq_some_iff.mp h
    exact receive_effect hk h
  | lose k =>
    obtain ⟨call, -, h⟩ := Option.map_eq_some_iff.mp h
    exact h ▸ Effect.lose k
  | start s command =>
    rw [← Option.some.inj h]
    by_cases hrole : (c.servers s).role = .leader
    · exact Effect.start s command hrole
    · rw [Raft.start, if_pos hrole, Cluster.put_self]; exact Effect.stay _
  | snapshot s index bytes =>
    simp only [Cluster.step] at h
    split_ifs at h with hdel
    rw [← Option.some.inj h]
    cases hrf : (c.servers s).snapshot index bytes with
    | none => exact Effect.restart _ s c.net (List.Sublist.refl _)
    | some rf =>
      rcases Raft.snapshot_cases hrf with rfl | ⟨hcommit, hsnap, log, hlog, rfl⟩
      · rw [Cluster.after, Cluster.put_self]; exact Effect.stay _
      · exact Effect.compact s index bytes log hdel hcommit hsnap hlog
  | tick s =>
    simp only [Cluster.step] at h
    split at h
    · exact Option.some.inj h ▸ Effect.tick s _ _ ‹_›
    · exact Option.some.inj h ▸ Effect.restart _ s c.net (List.Sublist.refl _)
  | restart s => exact Option.some.inj h ▸ Effect.restart _ s c.net (List.Sublist.refl _)

end GoServices.Consensus
