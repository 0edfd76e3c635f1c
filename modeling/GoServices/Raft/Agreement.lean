import GoServices.Raft.Steps

/-! State machine safety.

    On top of the simulation, `ack s t` records how far server `s` has confirmed the leader log of
    term `t`. What a server counts as committed or applied is chosen (`TermLog.Chosen`), a leader's
    `matchIndex` never exceeds the acknowledgements, and every delivered command was chosen at its
    index; chosen entries agree.

    Two handlers can break this. `AppendEntries` drops everything after `PrevLogIndex`, so a delayed
    request removes entries that its receiver has confirmed since; `InstallSnapshot` drops the whole
    log, including entries after the snapshot. `Gentle` excludes exactly these deliveries. -/

namespace GoServices.Consensus

open TermLog Runs

variable {n : ℕ} {C : Type}

/-! ### The condition on deliveries -/

/-- The follower would accept the request. -/
def Raft.Accepts (rf : Raft n C) (args : AppendEntriesArgs n C) : Prop :=
  rf.currentTerm ≤ args.term ∧ rf.log.snapLastIdx ≤ args.prevLogIndex ∧
    (rf.log.entryAt args.prevLogIndex).map LogEntry.term = some args.prevLogTerm

/-- Accepting the request would cut off entries of the request's own term. -/
def Raft.CutsOwnTerm (rf : Raft n C) (args : AppendEntriesArgs n C) : Prop :=
  rf.Accepts args ∧ args.prevLogIndex + args.entries.length + 1 < rf.log.size ∧
    rf.log.last.map Prod.snd = some args.term

/-- Installing the snapshot would drop entries after the snapshot's last one, which the log holds. -/
def Raft.DropsSuffix (rf : Raft n C) (args : InstallSnapshotArgs n) : Prop :=
  rf.currentTerm ≤ args.term ∧ rf.log.snapLastIdx < args.lastIncludedIndex ∧
    args.lastIncludedIndex + 1 < rf.log.size ∧
    (rf.log.entryAt args.lastIncludedIndex).map LogEntry.term = some args.lastIncludedTerm

instance (rf : Raft n C) (args : AppendEntriesArgs n C) : Decidable (rf.CutsOwnTerm args) :=
  inferInstanceAs (Decidable ((_ ∧ _ ∧ _) ∧ _ ∧ _))

instance (rf : Raft n C) (args : InstallSnapshotArgs n) : Decidable (rf.DropsSuffix args) :=
  inferInstanceAs (Decidable (_ ∧ _ ∧ _ ∧ _))

/-- Handling the request removes nothing that its receiver may have confirmed. -/
def Rpc.Gentle (rf : Raft n C) : Rpc n C → Prop
  | .appendEntries args none => ¬ rf.CutsOwnTerm args
  | .installSnapshot args none => ¬ rf.DropsSuffix args
  | _ => True

instance (rf : Raft n C) : (rpc : Rpc n C) → Decidable (rpc.Gentle rf)
  | .appendEntries _ none => inferInstanceAs (Decidable (¬ _))
  | .installSnapshot _ none => inferInstanceAs (Decidable (¬ _))
  | .appendEntries _ (some _) | .installSnapshot _ (some _) | .requestVote _ _ => .isTrue trivial

/-- No request that is served drops entries behind a snapshot. -/
def Gentle (c : Cluster n C) : Action n C → Prop
  | .serve k => ∀ call ∈ c.net[k]?, call.rpc.Gentle (c.servers call.peer)
  | _ => True

instance (c : Cluster n C) : (act : Action n C) → Decidable (Gentle c act)
  | .serve k => inferInstanceAs (Decidable (∀ call ∈ c.net[k]?, call.rpc.Gentle (c.servers call.peer)))
  | .timeout _ | .startElection _ _ | .startReplication _ _ | .return _ | .lose _ | .start _ _
  | .snapshot _ _ _ | .tick _ | .restart _ => .isTrue trivial

/-! ### What is chosen -/

section Facts

variable (a : Abs n C) (ack : Fin n → ℕ → ℕ)

/-- What a server has committed, applied or counted is chosen. -/
structure CommitOk (s : Fin n) (rf : Raft n C) : Prop where
  snap : Chosen LogEntry.term a ack rf.currentTerm (a.log s) rf.log.snapLastIdx
  commit : Chosen LogEntry.term a ack rf.currentTerm (a.log s) rf.commitIndex
  applied : Chosen LogEntry.term a ack rf.currentTerm (a.log s) rf.lastApplied
  matched : rf.role = .leader → ∀ p, rf.matchIndex p ≤ ack p rf.currentTerm
  sending : ∀ es i, rf.ticker = .sendEntries es i →
    (∀ j e, es[j]? = some e → ChosenAt LogEntry.term a ack (rf.lastApplied + 1 + j) e) ∧
    Chosen LogEntry.term a ack rf.currentTerm (a.log s) (rf.lastApplied + es.length)

/-- What is behind an AppendEntries request and its answer. -/
structure AppendSent (call : Call n C) (args : AppendEntriesArgs n C)
    (reply : Option AppendEntriesReply) : Prop where
  commitLe : args.leaderCommit ≤ args.prevLogIndex + args.entries.length
  commit : Chosen LogEntry.term a ack call.term (a.tlog call.term) args.leaderCommit
  acked : ∀ r, reply = some r → r.success = true →
    args.prevLogIndex + args.entries.length ≤ ack call.peer call.term

/-- What is behind an InstallSnapshot request and its answer. -/
structure InstallSent (call : Call n C) (args : InstallSnapshotArgs n)
    (reply : Option InstallSnapshotReply) : Prop where
  chosen : Chosen LogEntry.term a ack call.term (a.tlog call.term) args.lastIncludedIndex
  acked : ∀ r, reply = some r → r.term ≤ call.term →
    args.lastIncludedIndex ≤ ack call.peer call.term

/-- What is behind a request and its answer. -/
def SentOk (call : Call n C) : Prop :=
  match call.rpc with
  | .requestVote _ _ => True
  | .appendEntries args reply => AppendSent a ack call args reply
  | .installSnapshot args reply => InstallSent a ack call args reply

/-- The command in `m` was chosen at its index. -/
def DeliveredOk (m : ApplyMsg C) : Prop :=
  m.commandValid = true →
    ∃ e, ChosenAt LogEntry.term a ack m.commandIndex e ∧ e.command = m.command

end Facts

/-- The cluster is simulated, and everything it relies on is chosen. -/
structure Safe (c : Cluster n C) (a : Abs n C) (ack : Fin n → ℕ → ℕ) : Prop where
  sim : Sim c a
  kept : Kept LogEntry.term a ack
  servers : ∀ s, CommitOk a ack s (c.servers s)
  calls : ∀ call ∈ c.net, SentOk a ack call
  delivered : ∀ s, ∀ m ∈ c.applyCh s, DeliveredOk a ack m

/-! ### What is chosen stays chosen -/

variable {a b : Abs n C} {ack ack' : Fin n → ℕ → ℕ} {s r : Fin n} {rf rf' : Raft n C}

/-- A chosen part of a log that only grows. -/
theorem Chosen.grow {T T' i : ℕ} {X Y : List (LogEntry C)}
    (h : Chosen LogEntry.term a ack T X i) (he : Ext a b) (hack : ∀ s t, ack s t ≤ ack' s t)
    (hT : T ≤ T') (hXY : X <+: Y) : Chosen LogEntry.term b ack' T' Y i :=
  (h.mono he hack hT).of_take_eq (take_prefix_take hXY h.le_length).symm

theorem SentOk.mono (he : Ext a b) (hack : ∀ s t, ack s t ≤ ack' s t) {call : Call n C}
    (h : SentOk a ack call) : SentOk b ack' call := by
  unfold SentOk at *
  cases hrpc : call.rpc with
  | requestVote args reply => trivial
  | appendEntries args reply =>
    simp only [hrpc] at h ⊢
    exact ⟨h.commitLe, Chosen.grow h.commit he hack (le_refl _) (he.tlog _),
      fun r hr hs => le_trans (h.acked r hr hs) (hack _ _)⟩
  | installSnapshot args reply =>
    simp only [hrpc] at h ⊢
    exact ⟨Chosen.grow h.chosen he hack (le_refl _) (he.tlog _),
      fun r hr hs => le_trans (h.acked r hr hs) (hack _ _)⟩

theorem DeliveredOk.mono (he : Ext a b) (hack : ∀ s t, ack s t ≤ ack' s t) {m : ApplyMsg C}
    (h : DeliveredOk a ack m) : DeliveredOk b ack' m := by
  intro hv
  obtain ⟨e, hat, hcmd⟩ := h hv
  exact ⟨e, hat.mono he hack, hcmd⟩

/-- The fields in which a server keeps how far it has come. -/
structure SameProgress (rf rf' : Raft n C) : Prop where
  cur : rf.currentTerm ≤ rf'.currentTerm
  snap : rf'.log.snapLastIdx = rf.log.snapLastIdx
  commit : rf'.commitIndex = rf.commitIndex
  applied : rf'.lastApplied = rf.lastApplied
  ticker : ∀ es i, rf'.ticker = .sendEntries es i → rf.ticker = .sendEntries es i

namespace SameProgress

theorem refl (rf : Raft n C) : SameProgress rf rf := ⟨le_refl _, rfl, rfl, rfl, fun _ _ ht => ht⟩

theorem follow (rf : Raft n C) {t : ℕ} (ht : rf.currentTerm ≤ t) :
    SameProgress rf (rf.becomeFollowerLocked t) where
  cur := by rw [Raft.becomeFollowerLocked_currentTerm _ _ ht]; exact ht
  snap := by rw [Raft.becomeFollowerLocked_log]
  commit := Raft.becomeFollowerLocked_commitIndex _ _
  applied := Raft.becomeFollowerLocked_lastApplied _ _
  ticker := by intro es i; rw [Raft.becomeFollowerLocked_ticker]; exact id

end SameProgress

namespace CommitOk

/-- The server's log at most grows and its progress stays as it is. -/
theorem keep (h : CommitOk a ack s rf) (he : Ext a b) (hack : ∀ s t, ack s t ≤ ack' s t)
    (hlog : a.log s <+: b.log s) (hp : SameProgress rf rf')
    (hm : rf'.role = .leader → ∀ p, rf'.matchIndex p ≤ ack' p rf'.currentTerm) :
    CommitOk b ack' s rf' := by
  refine ⟨?_, ?_, ?_, hm, fun es i ht => ?_⟩
  · rw [hp.snap]; exact Chosen.grow h.snap he hack hp.cur hlog
  · rw [hp.commit]; exact Chosen.grow h.commit he hack hp.cur hlog
  · rw [hp.applied]; exact Chosen.grow h.applied he hack hp.cur hlog
  · obtain ⟨hes, hlen⟩ := h.sending es i (hp.ticker es i ht)
    rw [hp.applied]
    exact ⟨fun j e hj => (hes j e hj).mono he hack, Chosen.grow hlen he hack hp.cur hlog⟩

/-- A step of another server. -/
theorem frame (h : CommitOk a ack r rf) (hf : Frame s a b) (hack : ∀ s t, ack s t ≤ ack' s t)
    (hr : r ≠ s) : CommitOk b ack' r rf :=
  h.keep hf.ext hack (by rw [hf.log r hr]) ⟨le_refl _, rfl, rfl, rfl, fun _ _ ht => ht⟩
    fun hrole p => le_trans (h.matched hrole p) (hack _ _)

/-- A place of the ticker where it holds no entries. -/
theorem place (h : CommitOk a ack s rf) {t : Ticker C} (ht : ∀ es i, t ≠ .sendEntries es i) :
    CommitOk a ack s { rf with ticker := t } :=
  ⟨h.snap, h.commit, h.applied, h.matched, fun es i hx => absurd hx (ht es i)⟩

end CommitOk

namespace Safe

variable {c c' : Cluster n C}

/-- A step of one server, with what it delivers and which calls it makes. -/
theorem act (h : Safe c a ack) (hsim : Sim c' b) (hkept : Kept LogEntry.term b ack')
    (hf : Frame s a b) (hack : ∀ s t, ack s t ≤ ack' s t)
    (hserv : ∀ r, r ≠ s → c'.servers r = c.servers r) (hs : CommitOk b ack' s (c'.servers s))
    (hcalls : ∀ call ∈ c'.net, call ∈ c.net ∨ SentOk b ack' call)
    (hdel : ∀ r, ∀ m ∈ c'.applyCh r, m ∈ c.applyCh r ∨ DeliveredOk b ack' m) : Safe c' b ack' where
  sim := hsim
  kept := hkept
  servers := by
    intro r
    rcases eq_or_ne r s with rfl | hr
    · exact hs
    · rw [hserv r hr]; exact (h.servers r).frame hf hack hr
  calls := fun call hcall => (hcalls call hcall).elim
    (fun hold => (h.calls call hold).mono hf.ext hack) id
  delivered := fun r m hm => (hdel r m hm).elim
    (fun hold => (h.delivered r m hold).mono hf.ext hack) id

/-- A step of one server that delivers nothing. -/
theorem put (h : Safe c a ack) {net : List (Call n C)}
    (hsim : Sim { c.put s rf' with net := net } b) (hkept : Kept LogEntry.term b ack')
    (hf : Frame s a b) (hack : ∀ s t, ack s t ≤ ack' s t) (hs : CommitOk b ack' s rf')
    (hcalls : ∀ call ∈ net, call ∈ c.net ∨ SentOk b ack' call) :
    Safe { c.put s rf' with net := net } b ack' := by
  refine h.act hsim hkept hf hack (fun r hr => Function.update_of_ne hr _ _) ?_ hcalls
    (fun _ _ hm => Or.inl hm)
  rw [show ({ c.put s rf' with net := net } : Cluster n C).servers s = rf' from
    Function.update_self _ _ _]
  exact hs

/-- A step that touches no log and no progress. -/
theorem move (h : Safe c a ack) {net : List (Call n C)} (hm : LogFree LogEntry.term s a b)
    (hsim : Sim { c.put s rf' with net := net } b) (hp : SameProgress (c.servers s) rf')
    (hmatch : rf'.role = .leader → ∀ p, rf'.matchIndex p ≤ ack p rf'.currentTerm)
    (hcalls : ∀ call ∈ net, call ∈ c.net ∨ SentOk b ack call) :
    Safe { c.put s rf' with net := net } b ack :=
  h.put hsim (hm.kept ack h.sim.inv h.kept) hm.frame (fun _ _ => le_refl _)
    ((h.servers s).keep hm.frame.ext (fun _ _ => le_refl _) (by rw [hm.log]) hp hmatch) hcalls

/-- The same, when not even the record changes. -/
theorem rest (h : Safe c a ack) {net : List (Call n C)}
    (hsim : Sim { c.put s rf' with net := net } a) (hp : SameProgress (c.servers s) rf')
    (hmatch : rf'.role = .leader → ∀ p, rf'.matchIndex p ≤ ack p rf'.currentTerm)
    (hcalls : ∀ call ∈ net, call ∈ c.net ∨ SentOk a ack call) :
    Safe { c.put s rf' with net := net } a ack :=
  h.move (LogFree.refl s a) hsim hp hmatch hcalls

theorem lose (h : Safe c a ack) (k : ℕ) : Safe { c with net := c.net.eraseIdx k } a ack where
  sim := h.sim.lose k
  kept := h.kept
  servers := h.servers
  calls := fun call hcall => h.calls call ((List.eraseIdx_sublist _ _).subset hcall)
  delivered := h.delivered

theorem restart (h : Safe c a ack) (s : Fin n) {net : List (Call n C)} (hnet : net.Sublist c.net) :
    Safe { c.restart s with net := net } a ack := by
  have hsim := h.sim.restart s hnet
  have hself : ({ c.restart s with net := net } : Cluster n C).servers s =
      Raft.make (c.servers s).persister := Function.update_self _ _ _
  have hcore := core_make (h.sim.servers s).synced
  obtain ⟨hcommit, happlied, hticker⟩ := Raft.make_progress (c.servers s).persister
  simp only [core, Prod.mk.injEq] at hcore
  obtain ⟨hrole, hterm, -, hlog, -⟩ := hcore
  refine h.act hsim h.kept (Frame.refl s a) (fun _ _ => le_refl _)
    (fun r hr => Function.update_of_ne hr _ _) ?_ (fun call hcall => Or.inl (hnet.subset hcall))
    (fun _ _ hm => Or.inl hm)
  have hsnap := (h.servers s).snap
  rw [hself]
  refine ⟨?_, ?_, ?_, ?_, ?_⟩
  · rw [hterm, hlog]; exact hsnap
  · rw [hterm, hcommit, hlog]; exact hsnap
  · rw [hterm, happlied, hlog]; exact hsnap
  · intro hx; rw [hrole] at hx; exact absurd hx (by decide)
  · intro es i ht; rw [hticker] at ht; exact absurd ht (by simp)

/-- A server that became a follower has no matches to answer for. -/
theorem no_match {t : ℕ} (ht : rf.currentTerm ≤ t) (hx : (rf.becomeFollowerLocked t).role = .leader)
    (p : Fin n) : (rf.becomeFollowerLocked t).matchIndex p ≤
      ack p (rf.becomeFollowerLocked t).currentTerm := by
  rw [Raft.becomeFollowerLocked_role _ _ ht] at hx
  exact absurd hx (by decide)

theorem follow (h : Safe c a ack) (k : ℕ) {t : ℕ} (ht : (c.servers s).currentTerm ≤ t) :
    ∃ b, Safe { c.put s ((c.servers s).becomeFollowerLocked t) with net := c.net.eraseIdx k }
      b ack := by
  obtain ⟨b, hm, hsim⟩ := h.sim.follow ht (List.eraseIdx_sublist c.net k)
  exact ⟨b, h.move hm hsim (SameProgress.follow _ ht) (no_match ht)
    (fun call hcall => Or.inl ((List.eraseIdx_sublist _ _).subset hcall))⟩

/-! ### Elections -/

theorem timeout (h : Safe c a ack) (hrole : (c.servers s).role ≠ .leader) :
    ∃ b, Safe (c.put s ((c.servers s).electionTimeout s)) b ack := by
  obtain ⟨b, hm, hsim⟩ := h.sim.timeout hrole
  have hrf : (c.servers s).electionTimeout s = { c.servers s with
      currentTerm := (c.servers s).currentTerm + 1
      role := .candidate
      votedFor := some s
      persister := ((c.servers s).becomeCandidateLocked s).persister
      elections := (c.servers s).elections ++ [(c.servers s).currentTerm + 1] } := by
    rw [Raft.electionTimeout, if_neg hrole, Raft.becomeCandidateLocked, if_neg hrole]
    rfl
  refine ⟨b, h.move hm hsim ?_ ?_ (fun _ hcall => Or.inl hcall)⟩
  · rw [hrf]; exact ⟨Nat.le_succ _, rfl, rfl, rfl, fun _ _ ht => ht⟩
  · rw [hrf]; exact fun hx : Role.candidate = Role.leader => absurd hx (by decide)

theorem serveVote (h : Safe c a ack) {k : ℕ} {call : Call n C} {args : RequestVoteArgs n}
    {reply : RequestVoteReply} (hk : c.net[k]? = some call)
    (hrpc : call.rpc = .requestVote args none)
    (hreq : (c.servers call.peer).requestVote args = some (rf', reply)) :
    ∃ b, Safe { c.put call.peer rf' with
      net := c.net.set k { call with rpc := .requestVote args (some reply) } } b ack := by
  obtain ⟨b, hm, hsim⟩ := h.sim.serveVote hk hrpc hreq
  have hcommit := h.servers call.peer
  have hadopt : ∀ {t}, (c.servers call.peer).currentTerm ≤ t →
      SameProgress (c.servers call.peer) ((c.servers call.peer).adopt t) ∧
      (((c.servers call.peer).adopt t).role = .leader → ∀ p,
        ((c.servers call.peer).adopt t).matchIndex p ≤
          ack p ((c.servers call.peer).adopt t).currentTerm) := by
    intro t ht
    unfold Raft.adopt
    split_ifs with hlt
    · exact ⟨SameProgress.follow _ ht, no_match ht⟩
    · exact ⟨SameProgress.refl _, hcommit.matched⟩
  have hfin : SameProgress (c.servers call.peer) rf' ∧
      (rf'.role = .leader → ∀ p, rf'.matchIndex p ≤ ack p rf'.currentTerm) := by
    rcases Raft.requestVote_cases hreq with ⟨-, rfl, -⟩ | ⟨ht, rfl, -⟩ | ⟨ht, -, -, rfl, -⟩
    · exact ⟨SameProgress.refl _, hcommit.matched⟩
    · exact hadopt ht
    · obtain ⟨hp, hmatch⟩ := hadopt ht
      exact ⟨⟨hp.cur, hp.snap, hp.commit, hp.applied, hp.ticker⟩, hmatch⟩
  refine ⟨b, h.move hm hsim hfin.1 hfin.2 fun x hx => ?_⟩
  rcases List.mem_or_eq_of_mem_set hx with hold | rfl
  · exact Or.inl hold
  · exact Or.inr trivial

theorem receiveVote (h : Safe c a ack) {k : ℕ} {call : Call n C} {args : RequestVoteArgs n}
    {reply : RequestVoteReply} (hk : c.net[k]? = some call)
    (hrpc : call.rpc = .requestVote args (some reply))
    (hep : c.epochs call.caller = call.epoch) :
    ∃ b, Safe { c.put call.caller ((c.servers call.caller).askVoteFromPeer call.term reply) with
      net := c.net.eraseIdx k } b ack := by
  obtain ⟨b, hm, hsim⟩ := h.sim.receiveVote hk hrpc hep
  refine ⟨b, h.move hm hsim ?_ ?_
    (fun call hcall => Or.inl ((List.eraseIdx_sublist _ _).subset hcall))⟩
  all_goals
    rcases Raft.askVoteFromPeer_cases (c.servers call.caller) call.term reply with
      ⟨ht, hrf⟩ | hrf | ⟨hrole, -, -, hrf⟩ | ⟨-, -, -, -, hrf⟩ <;> rw [hrf]
  · exact SameProgress.follow _ (le_of_lt ht)
  · exact SameProgress.refl _
  · exact ⟨le_refl _, rfl, rfl, rfl, fun _ _ ht => ht⟩
  · exact ⟨le_refl _, rfl, rfl, rfl, fun _ _ ht => ht⟩
  · exact no_match (le_of_lt ht)
  · exact (h.servers _).matched
  · exact (h.servers _).matched
  · exact fun _ _ => Nat.zero_le _

/-! ### The leader's side of replication -/

theorem start (h : Safe c a ack) (hrole : (c.servers s).role = .leader) (command : Option C) :
    ∃ b, Safe (c.put s ((c.servers s).start command).1) b ack := by
  have hl := ((h.sim.servers s).lead hrole).1
  have hf := frame_extend a (⟨(c.servers s).currentTerm, true, command⟩ : LogEntry C) hl
  refine ⟨_, h.put (h.sim.start hrole command) (h.kept.extend hl) hf (fun _ _ => le_refl _)
    ((h.servers s).keep hf.ext (fun _ _ => le_refl _) ?_ ?_ ?_) (fun _ hcall => Or.inl hcall)⟩
  · rw [extend_log, if_pos rfl]; exact List.prefix_append _ _
  all_goals rw [Raft.start, if_neg (by rw [hrole]; decide)]
  · exact ⟨le_refl _, rfl, rfl, rfl, fun _ _ ht => ht⟩
  · exact fun _ => (h.servers s).matched hrole

/-- What the leader sends in one round is chosen as far as it says so. -/
theorem round_sent (h : Safe c a ack) {peer : Fin n} {round : Round n C}
    (hrole : (c.servers s).role = .leader)
    (hround : (c.servers s).roundFor s peer = some round) (epoch : ℕ) :
    SentOk a ack ⟨s, epoch, peer, (c.servers s).currentTerm, round.rpc⟩ := by
  have hcommit := h.servers s
  have hok := h.sim.servers s
  have hlog := (hok.lead hrole).2
  rcases Raft.roundFor_cases hround with rfl | ⟨prevIdx, prev, entries, hsnap, hprev, htail, rfl⟩
  · refine ⟨?_, fun r hr => absurd hr (by simp)⟩
    have := hcommit.snap
    rwa [hlog] at this
  · have hin := (hok.log.of_entryAt hprev).2
    rw [hok.log.tail_eq (by omega), Nat.add_sub_cancel] at htail
    obtain rfl := Option.some.inj htail
    refine ⟨?_, ?_, fun r hr => absurd hr (by simp)⟩
    · have := hcommit.commit.le_length
      dsimp only
      rw [List.length_drop]
      omega
    · have := hcommit.commit
      rwa [hlog] at this

/-- The leader confirms its own log when it starts a round. -/
theorem startReplication (h : Safe c a ack) {m : ℕ} {next : Fin n → ℕ}
    {rounds : List (Fin n × Round n C)} (hrole : (c.servers s).role = .leader)
    (hm : m = (c.servers s).matchIndex s ∨ m = (c.servers s).log.size - 1)
    (hrounds : ∀ p round, (p, round) ∈ rounds → p ≠ s ∧ (c.servers s).roundFor s p = some round) :
    ∃ ack', Safe ((c.put s { c.servers s with
        matchIndex := Function.update (c.servers s).matchIndex s m
        nextIndex := next }).send s (c.servers s).currentTerm
      (rounds.map fun (peer, round) => (peer, round.rpc))) a ack' := by
  have hok := h.sim.servers s
  obtain ⟨hl, hlog⟩ := hok.lead hrole
  have hsim := h.sim.startReplication (Function.update (c.servers s).matchIndex s m) next hrole hrounds
  generalize hT : (c.servers s).currentTerm = T at *
  have hsize := hok.log.size
  have hack := le_acknowledge ack s T (a.tlog T).length
  have hkept : Kept LogEntry.term a (acknowledge ack s T (a.tlog T).length) :=
    h.kept.acknowledge h.sim.inv (hok.cur.symm.trans hT) (by rw [hlog]; exact List.take_prefix _ _) (le_refl _)
  refine ⟨_, h.put hsim hkept (Frame.refl s a) hack ((h.servers s).keep (Ext.refl a) hack
    (List.prefix_refl _) ⟨le_refl _, rfl, rfl, rfl, fun _ _ ht => ht⟩ fun _ p => ?_) fun x hx => ?_⟩
  · dsimp only
    rcases eq_or_ne p s with rfl | hp
    · rw [Function.update_self]
      rcases hm with rfl | rfl
      · exact le_trans ((h.servers p).matched hrole p) (hack _ _)
      · rw [hsize, hlog, hT]; exact acknowledge_self _ _ _ _
    · rw [Function.update_of_ne hp]
      exact le_trans ((h.servers s).matched hrole p) (hack _ _)
  · rcases List.mem_append.mp hx with hold | hnew
    · exact Or.inl hold
    · rw [List.map_map] at hnew
      obtain ⟨⟨p, round⟩, hp, rfl⟩ := List.mem_map.mp hnew
      have := h.round_sent hrole (hrounds p round hp).2 (c.epochs s)
      rw [hT] at this
      exact Or.inr (this.mono (Ext.refl a) hack)

/-- An index that a majority has matched and that holds an entry of the leader's term is decided. -/
theorem decided_of_majority (h : Safe c a ack) {m : ℕ} {e : LogEntry C} {f : Fin n → ℕ}
    (hrole : (c.servers s).role = .leader) (hpos : 0 < m)
    (hmaj : Raft.getMajorityIndexLocked f = some m)
    (hf : ∀ p, f p ≤ ack p (c.servers s).currentTerm)
    (he : (c.servers s).log.entryAt m = some e) (het : e.term = (c.servers s).currentTerm) :
    Decided LogEntry.term a ack (c.servers s).currentTerm m := by
  have hok := h.sim.servers s
  obtain ⟨-, hlog⟩ := hok.lead hrole
  obtain ⟨-, hhi, het'⟩ := hok.log.term_of_entryAt he
  rw [hlog] at hhi het'
  obtain ⟨x, hx, hxt⟩ := exists_getElem? hpos hhi
  refine ⟨⟨hpos, x, hx, by rw [hxt, ← het', het]⟩,
    Finset.univ.filter fun p => m ≤ f p, ?_, fun p hp => ?_⟩
  · rw [IsQuorum, Fintype.card_fin]; exact Raft.quorum_of_majority hmaj
  · exact le_trans (Finset.mem_filter.mp hp).2 (hf p)

/-- A successful reply tells the leader what the peer has confirmed. -/
theorem recordMatch (h : Safe c a ack) {k matched : ℕ} {peer : Fin n} {rf : Raft n C}
    (hrole : (c.servers s).role = .leader)
    (hmatch : matched ≤ ack peer (c.servers s).currentTerm) (g : Raft n C)
    (hg : g = (c.servers s).recordMatch peer matched)
    (hrf : rf = g ∨ ∃ m e, Raft.getMajorityIndexLocked g.matchIndex = some m ∧
      (c.servers s).log.entryAt m = some e ∧ e.term = (c.servers s).currentTerm ∧
      (c.servers s).commitIndex < m ∧ rf = Raft.signal { g with commitIndex := m }) :
    Safe { c.put s rf with net := c.net.eraseIdx k } a ack := by
  have hsub := List.eraseIdx_sublist c.net k
  have hcommit := h.servers s
  have hnew : ∀ p, g.matchIndex p ≤ ack p (c.servers s).currentTerm := by
    intro p
    rw [hg, Raft.recordMatch]
    dsimp only
    rcases eq_or_ne p peer with rfl | hp
    · rw [Function.update_self]; exact hmatch
    · rw [Function.update_of_ne hp]; exact hcommit.matched hrole p
  have hcalls : ∀ call ∈ c.net.eraseIdx k, call ∈ c.net ∨ SentOk a ack call :=
    fun call hcall => Or.inl (hsub.subset hcall)
  rcases hrf with rfl | ⟨m, e, hmaj, he, het, hlt, rfl⟩
  · subst hg
    exact h.rest (h.sim.keep (by rfl) (by rfl) hsub) ⟨le_refl _, rfl, rfl, rfl, fun _ _ ht => ht⟩
      (fun _ => hnew) hcalls
  · have hdec := h.decided_of_majority hrole (by omega) hmaj hnew he het
    have hlog := ((h.sim.servers s).lead hrole).2
    have hchosen : Chosen LogEntry.term a ack (c.servers s).currentTerm (a.log s) m :=
      Or.inr ⟨_, m, le_refl _, le_refl _, hdec, by rw [hlog]⟩
    subst hg
    exact h.put (h.sim.keep (by rfl) (by rfl) hsub) h.kept (Frame.refl s a) (fun _ _ => le_refl _)
      ⟨hcommit.snap, hchosen, hcommit.applied, fun _ => hnew,
        fun es i ht => hcommit.sending es i (Raft.signal_ticker ht)⟩ hcalls

theorem compact (h : Safe c a ack) {index : ℕ} {bytes : List UInt8} {log : RaftLog C}
    (hle : index ≤ (c.servers s).commitIndex) (hsnap : (c.servers s).log.snapLastIdx < index)
    (hlog : (c.servers s).log.doSnapshot index bytes = some log) :
    Safe (c.put s (Raft.persistLocked { c.servers s with log := log })) a ack := by
  have hcommit := h.servers s
  have hidx : log.snapLastIdx = index := by
    obtain ⟨i, -, hlog⟩ := Option.bind_eq_some_iff.mp hlog
    obtain ⟨e, -, rfl⟩ := Option.map_eq_some_iff.mp hlog
    rfl
  refine h.put (h.sim.compact hsnap hlog) h.kept (Frame.refl s a) (fun _ _ => le_refl _)
    ⟨?_, hcommit.commit, hcommit.applied, hcommit.matched, hcommit.sending⟩
    (fun _ hcall => Or.inl hcall)
  rw [show (Raft.persistLocked { c.servers s with log := log }).log.snapLastIdx = index from hidx]
  exact hcommit.commit.down hle

/-! ### The follower's side of replication -/

theorem sent (h : Safe c a ack) {k : ℕ} {call : Call n C} {args : AppendEntriesArgs n C}
    {reply : Option AppendEntriesReply} (hk : c.net[k]? = some call)
    (hrpc : call.rpc = .appendEntries args reply) : AppendSent a ack call args reply := by
  have := h.calls call (List.mem_of_getElem? hk)
  simpa only [SentOk, hrpc] using this

theorem sent_install (h : Safe c a ack) {k : ℕ} {call : Call n C} {args : InstallSnapshotArgs n}
    {reply : Option InstallSnapshotReply} (hk : c.net[k]? = some call)
    (hrpc : call.rpc = .installSnapshot args reply) : InstallSent a ack call args reply := by
  have := h.calls call (List.mem_of_getElem? hk)
  simpa only [SentOk, hrpc] using this

/-- A gentle request cuts off nothing that agrees with the leader's log. -/
theorem careful_append (h : Safe c a ack) {call : Call n C} {args : AppendEntriesArgs n C}
    (hcall : AppendCallOk a call args) (hacc : (c.servers s).Accepts args)
    (hgentle : ¬ (c.servers s).CutsOwnTerm args) :
    Careful a s args.term (args.prevLogIndex + args.entries.length) := by
  have hok := h.sim.servers s
  have hlead := hcall.lead
  have hbase := hcall.base
  rw [← hcall.term] at hlead hbase
  refine careful_of_end h.sim.inv hlead hbase fun j e hj he het => hgentle ⟨hacc, ?_, ?_⟩
  · have := (List.getElem?_eq_some_iff.mp he).1
    rw [hok.log.size]; omega
  · -- the last entry is at least as late as `e`, and no later than the request
    have hlt := (List.getElem?_eq_some_iff.mp he).1
    obtain ⟨y, hy, hyt⟩ := exists_getElem? (X := a.log s) (by omega) (le_refl _)
    have hsorted := h.sim.inv.sorted (h.sim.inv.logOk s) (i := j) (by omega) he hy
    have hle := h.sim.inv.logLe s y (List.mem_of_getElem? hy)
    rw [← hok.cur] at hle
    have := hacc.1
    rw [hok.log.last, Option.map_some, Option.some.injEq, ← hyt]
    omega

/-- A gentle snapshot drops nothing that agrees with the leader's log. -/
theorem careful_install (h : Safe c a ack) {call : Call n C} {args : InstallSnapshotArgs n}
    (hcall : InstallCallOk a call args) (ht : (c.servers s).currentTerm ≤ args.term)
    (hsnap : (c.servers s).log.snapLastIdx < args.lastIncludedIndex)
    (hgentle : ¬ (c.servers s).DropsSuffix args) :
    Careful a s args.term args.lastIncludedIndex := by
  have hok := h.sim.servers s
  refine careful_of_differ LogEntry.term (by omega) fun d e hd he hde => ?_
  by_contra hlt
  have hin := (List.getElem?_eq_some_iff.mp hd).1
  refine hgentle ⟨ht, hsnap, by rw [hok.log.size]; omega, ?_⟩
  rw [hok.log.entryAt hsnap (by omega), hd, Option.map_some, hde, hcall.lastTerm, ← hcall.term]
  exact congrArg some (termAt_of_getElem? (by omega) he).symm

section Accept

variable {x : Fin n} {t k : ℕ}

/-- The record after `s` has taken over `k` entries of term `t` and confirmed them. -/
theorem kept_accept (h : Safe c a ack) (ht : (c.servers s).currentTerm ≤ t)
    (hl : a.lead t = some x) (hcare : Careful a s t k) (hk : k ≤ (a.tlog t).length) :
    Kept LogEntry.term ((a.bump s t).accept s t k) (acknowledge ack s t k) := by
  have hcur : a.cur s ≤ t := (h.sim.servers s).cur ▸ ht
  have hinv : Inv LogEntry.term (a.bump s t) := h.sim.inv.bump hcur
  have hself : (a.bump s t).cur s = t := by rw [bump_cur, if_pos rfl]
  have hkept := (h.kept.bump hcur).accept hinv hl hself hcare
  refine hkept.acknowledge (hinv.accept (le_of_eq hself.symm)) hself ?_ hk
  rw [accept_log, if_pos rfl]
  exact List.prefix_refl _

/-- What was chosen in the log of `s` survives. -/
theorem chosen_accept (h : Safe c a ack) (ht : (c.servers s).currentTerm ≤ t)
    (hl : a.lead t = some x) (hcare : Careful a s t k) {i : ℕ}
    (hc : Chosen LogEntry.term a ack (c.servers s).currentTerm (a.log s) i) :
    Chosen LogEntry.term ((a.bump s t).accept s t k) (acknowledge ack s t k) t
      (((a.bump s t).accept s t k).log s) i := by
  have hcur : a.cur s ≤ t := (h.sim.servers s).cur ▸ ht
  have hbump : Chosen LogEntry.term (a.bump s t) ack (c.servers s).currentTerm (a.log s) i :=
    hc.mono (frame_bump a hcur).ext (fun _ _ => le_refl _) (le_refl _)
  have hacc := Chosen.accept (h.kept.bump hcur) (h.sim.inv.bump hcur) hl ht hcare hbump
  exact hacc.mono (Ext.refl _) (le_acknowledge _ _ _ _) (le_refl _)

/-- What was chosen in the part taken over is chosen in the new log. -/
theorem chosen_taken (hcur : a.cur s ≤ t) {i : ℕ} (hik : i ≤ k)
    (hc : Chosen LogEntry.term a ack t (a.tlog t) i) :
    Chosen LogEntry.term ((a.bump s t).accept s t k) (acknowledge ack s t k) t
      (((a.bump s t).accept s t k).log s) i := by
  have hext := (frame_bump a hcur).ext.trans (frame_accept (a.bump s t) s t k).ext
  refine (hc.mono hext (le_acknowledge ack s t k) (le_refl _)).of_take_eq ?_
  rw [accept_log, if_pos rfl, List.take_take, Nat.min_eq_left hik]
  rfl

theorem commitOk_accept (h : Safe c a ack) (ht : (c.servers s).currentTerm ≤ t)
    (hl : a.lead t = some x) (hcare : Careful a s t k)
    (hterm : rf'.currentTerm = t) (hrole : rf'.role = .follower)
    (happ : rf'.lastApplied = (c.servers s).lastApplied)
    (htick : ∀ es i, rf'.ticker = .sendEntries es i → (c.servers s).ticker = .sendEntries es i)
    (hsnap : Chosen LogEntry.term ((a.bump s t).accept s t k) (acknowledge ack s t k) t
      (((a.bump s t).accept s t k).log s) rf'.log.snapLastIdx)
    (hcommit : Chosen LogEntry.term ((a.bump s t).accept s t k) (acknowledge ack s t k) t
      (((a.bump s t).accept s t k).log s) rf'.commitIndex) :
    CommitOk ((a.bump s t).accept s t k) (acknowledge ack s t k) s rf' := by
  have hcur : a.cur s ≤ t := (h.sim.servers s).cur ▸ ht
  have hext := (frame_bump a hcur).ext.trans (frame_accept (a.bump s t) s t k).ext
  refine ⟨hterm.symm ▸ hsnap, hterm.symm ▸ hcommit, ?_, ?_, fun es i htk => ?_⟩
  · rw [hterm, happ]; exact h.chosen_accept ht hl hcare (h.servers s).applied
  · intro hx; rw [hrole] at hx; exact absurd hx (by decide)
  · obtain ⟨hes, hlen⟩ := (h.servers s).sending es i (htick es i htk)
    rw [hterm, happ]
    exact ⟨fun j e hj => (hes j e hj).mono hext (le_acknowledge _ _ _ _),
      h.chosen_accept ht hl hcare hlen⟩

end Accept

/-- A refused request changes at most the term; the call's record must stay true. -/
theorem refuse (h : Safe c a ack) {k t : ℕ} {call call' : Call n C} (hk : c.net[k]? = some call)
    (hcall : ∀ {b}, Ext a b → CallOk b call') (hbal : call'.ballot = call.ballot)
    (hsent : SentOk a ack call')
    (hrf : rf' = c.servers call.peer ∨ (c.servers call.peer).currentTerm ≤ t ∧
      rf' = (c.servers call.peer).becomeFollowerLocked t) :
    ∃ b, Safe { c.put call.peer rf' with net := c.net.set k call' } b ack := by
  obtain ⟨b, hm, hsim⟩ := h.sim.refuse hk hcall hbal hrf
  refine ⟨b, h.move hm hsim ?_ ?_ fun x hx => ?_⟩
  · rcases hrf with rfl | ⟨ht, rfl⟩
    · exact SameProgress.refl _
    · exact SameProgress.follow _ ht
  · rcases hrf with rfl | ⟨ht, rfl⟩
    · exact (h.servers _).matched
    · exact no_match ht
  · rcases List.mem_or_eq_of_mem_set hx with hold | rfl
    · exact Or.inl hold
    · exact Or.inr (hsent.mono hm.frame.ext fun _ _ => le_refl _)

theorem acceptAppend (h : Safe c a ack) {k : ℕ} {call : Call n C} {args : AppendEntriesArgs n C}
    {reply : AppendEntriesReply} {prev : LogEntry C} {log : RaftLog C}
    (hk : c.net[k]? = some call) (hrpc : call.rpc = .appendEntries args none)
    (ht : (c.servers call.peer).currentTerm ≤ args.term)
    (hsnap : (c.servers call.peer).log.snapLastIdx ≤ args.prevLogIndex)
    (hprev : (c.servers call.peer).log.entryAt args.prevLogIndex = some prev)
    (hpt : prev.term = args.prevLogTerm)
    (hlog : (c.servers call.peer).log.appendFrom args.prevLogIndex args.entries = some log)
    (hgentle : ¬ (c.servers call.peer).CutsOwnTerm args) :
    ∃ b ack', Safe { c.put call.peer
        (((c.servers call.peer).becomeFollowerLocked args.term).acceptEntries log args.leaderCommit) with
      net := c.net.set k { call with rpc := .appendEntries args (some reply) } } b ack' := by
  have hcall := h.sim.appendCall hk hrpc
  have hsent := h.sent hk hrpc
  obtain ⟨-, hidx, hsim⟩ := h.sim.acceptAppend reply hk hrpc ht hsnap hprev hpt hlog
  have hcare := h.careful_append hcall ⟨ht, hsnap, by rw [hprev, Option.map_some, hpt]⟩ hgentle
  have hlead := hcall.lead
  have hle := hcall.le
  have hchosen := hsent.commit
  rw [← hcall.term] at hlead hle hchosen
  have hcur : a.cur call.peer ≤ args.term := (h.sim.servers _).cur ▸ ht
  have hframe := (frame_bump a hcur).trans (frame_accept (a.bump call.peer args.term) call.peer
    args.term (args.prevLogIndex + args.entries.length))
  have hack := le_acknowledge ack call.peer args.term (args.prevLogIndex + args.entries.length)
  obtain ⟨ticker, htick, hrf⟩ := Raft.acceptEntries_eq
    ((c.servers call.peer).becomeFollowerLocked args.term) log args.leaderCommit
  refine ⟨_, _, h.put hsim (h.kept_accept ht hlead hcare hle) hframe hack ?_ fun x hx => ?_⟩
  · rw [hrf]
    refine h.commitOk_accept ht hlead hcare (Raft.becomeFollowerLocked_currentTerm _ _ ht)
      (Raft.becomeFollowerLocked_role _ _ ht) (Raft.becomeFollowerLocked_lastApplied _ _) ?_ ?_ ?_
    · intro es i hes
      rw [← Raft.becomeFollowerLocked_ticker _ args.term]
      rcases htick with rfl | rfl
      · exact hes
      · exact Raft.signal_ticker hes
    · rw [show (Raft.persistLocked { (c.servers call.peer).becomeFollowerLocked args.term with
        log := log }).log.snapLastIdx = _ from hidx]
      exact h.chosen_accept ht hlead hcare (h.servers _).snap
    · dsimp only
      rw [Raft.becomeFollowerLocked_commitIndex]
      rcases Nat.le_total args.leaderCommit (c.servers call.peer).commitIndex with hc | hc
      · rw [Nat.max_eq_left hc]; exact h.chosen_accept ht hlead hcare (h.servers _).commit
      · rw [Nat.max_eq_right hc]; exact chosen_taken hcur hsent.commitLe hchosen
  · rcases List.mem_or_eq_of_mem_set hx with hold | rfl
    · exact Or.inl hold
    · refine Or.inr ⟨hsent.commitLe, Chosen.grow hsent.commit hframe.ext hack (le_refl _)
        (hframe.ext.tlog _), fun r hr _ => ?_⟩
      rw [← hcall.term]; exact acknowledge_self _ _ _ _

/-- A snapshot the peer already covers is confirmed by what the peer knows to be chosen. -/
theorem coveredInstall (h : Safe c a ack) {k : ℕ} {call : Call n C} {args : InstallSnapshotArgs n}
    {reply : InstallSnapshotReply} (hk : c.net[k]? = some call)
    (hrpc : call.rpc = .installSnapshot args none)
    (ht : (c.servers call.peer).currentTerm ≤ args.term)
    (hsnap : args.lastIncludedIndex ≤ (c.servers call.peer).log.snapLastIdx) :
    ∃ b ack', Safe { c.put call.peer ((c.servers call.peer).becomeFollowerLocked args.term) with
      net := c.net.set k { call with rpc := .installSnapshot args (some reply) } } b ack' := by
  have hcall := h.sim.installCall hk hrpc
  have hsent := h.sent_install hk hrpc
  have hlead := hcall.lead
  have hle := hcall.le
  rw [← hcall.term] at hlead hle
  have hcur : a.cur call.peer ≤ args.term := (h.sim.servers _).cur ▸ ht
  have hm : LogFree LogEntry.term call.peer a (a.bump call.peer args.term) := LogFree.bump hcur
  have hinv := hm.inv h.sim.inv
  have hkept := hm.kept ack h.sim.inv h.kept
  have hself : (a.bump call.peer args.term).cur call.peer = args.term := by
    rw [bump_cur, if_pos rfl]
  -- the peer's own snapshot is chosen, so it lies in the leader log
  have hpre : ((a.bump call.peer args.term).tlog args.term).take args.lastIncludedIndex <+:
      (a.bump call.peer args.term).log call.peer := by
    have hchosen := ((h.servers call.peer).snap.down hsnap)
    have htl := hchosen.prefix_tlog h.kept h.sim.inv hlead ht
    have heq := take_prefix_take htl (k := args.lastIncludedIndex)
      (by have := hchosen.le_length; rw [List.length_take]; omega)
    rw [List.take_take, Nat.min_self] at heq
    exact heq ▸ List.take_prefix _ _
  have hack := le_acknowledge ack call.peer args.term args.lastIncludedIndex
  refine ⟨_, _, h.put (h.sim.served hk hm.frame hinv ((h.sim.servers _).become_follower h.sim.inv ht)
    (h.sim.install_served hk hrpc hm.frame.ext) (by simp only [Call.ballot, hrpc])
    ((h.sim.tally _).become_follower ht)) (hkept.acknowledge hinv hself hpre hle) hm.frame hack
    ((h.servers _).keep hm.frame.ext hack (List.prefix_refl _) (SameProgress.follow _ ht)
      (no_match ht)) fun x hx => ?_⟩
  rcases List.mem_or_eq_of_mem_set hx with hold | rfl
  · exact Or.inl hold
  · refine Or.inr ⟨Chosen.grow hsent.chosen hm.frame.ext hack (le_refl _) (hm.frame.ext.tlog _),
      fun r hr _ => ?_⟩
    rw [← hcall.term]; exact acknowledge_self _ _ _ _

theorem acceptInstall (h : Safe c a ack) {k : ℕ} {call : Call n C} {args : InstallSnapshotArgs n}
    {reply : InstallSnapshotReply} (hk : c.net[k]? = some call)
    (hrpc : call.rpc = .installSnapshot args none)
    (ht : (c.servers call.peer).currentTerm ≤ args.term)
    (hsnap : (c.servers call.peer).log.snapLastIdx < args.lastIncludedIndex)
    (hgentle : ¬ (c.servers call.peer).DropsSuffix args) :
    ∃ b ack', Safe { c.put call.peer
        (((c.servers call.peer).becomeFollowerLocked args.term).acceptSnapshot args) with
      net := c.net.set k { call with rpc := .installSnapshot args (some reply) } } b ack' := by
  have hcall := h.sim.installCall hk hrpc
  have hsent := h.sent_install hk hrpc
  have hcare := h.careful_install hcall ht hsnap hgentle
  have hlead := hcall.lead
  have hle := hcall.le
  have hchosen := hsent.chosen
  rw [← hcall.term] at hlead hle hchosen
  have hcur : a.cur call.peer ≤ args.term := (h.sim.servers _).cur ▸ ht
  have hframe := (frame_bump a hcur).trans (frame_accept (a.bump call.peer args.term) call.peer
    args.term args.lastIncludedIndex)
  have hack := le_acknowledge ack call.peer args.term args.lastIncludedIndex
  refine ⟨_, _, h.put (h.sim.acceptInstall reply hk hrpc ht) (h.kept_accept ht hlead hcare hle)
    hframe hack ?_ fun x hx => ?_⟩
  · refine h.commitOk_accept ht hlead hcare (Raft.becomeFollowerLocked_currentTerm _ _ ht)
      (Raft.becomeFollowerLocked_role _ _ ht) (Raft.becomeFollowerLocked_lastApplied _ _) ?_ ?_ ?_
    · intro es i hes
      rw [← Raft.becomeFollowerLocked_ticker _ args.term]
      exact Raft.signal_ticker hes
    · exact chosen_taken hcur (le_refl _) hchosen
    · have := h.chosen_accept ht hlead hcare (h.servers call.peer).commit
      rwa [← Raft.becomeFollowerLocked_commitIndex _ args.term] at this
  · rcases List.mem_or_eq_of_mem_set hx with hold | rfl
    · exact Or.inl hold
    · refine Or.inr ⟨Chosen.grow hsent.chosen hframe.ext hack (le_refl _) (hframe.ext.tlog _),
        fun r hr _ => ?_⟩
      rw [← hcall.term]; exact acknowledge_self _ _ _ _

/-! ### The apply loop -/

theorem collect_ok (h : Safe c a ack) {es : List (LogEntry C)}
    (hes : collect (c.servers s).log
      (max (c.servers s).lastApplied (c.servers s).log.snapLastIdx + 1)
      (min (c.servers s).commitIndex ((c.servers s).log.size - 1)) = some es) :
    CommitOk a ack s { c.servers s with
      lastApplied := max (c.servers s).lastApplied (c.servers s).log.snapLastIdx
      ticker := .sendEntries es 0 } := by
  have hcommit := h.servers s
  have hrepr := (h.sim.servers s).log
  obtain ⟨hlen, hget⟩ := collect_spec hes
  have hstart : Chosen LogEntry.term a ack (c.servers s).currentTerm (a.log s)
      (max (c.servers s).lastApplied (c.servers s).log.snapLastIdx) := by
    rcases Nat.le_total (c.servers s).lastApplied (c.servers s).log.snapLastIdx with hle | hle
    · rw [Nat.max_eq_right hle]; exact hcommit.snap
    · rw [Nat.max_eq_left hle]; exact hcommit.applied
  refine ⟨hcommit.snap, hcommit.commit, hstart, hcommit.matched, fun es' i ht => ?_⟩
  injection ht with ht _
  subst ht
  refine ⟨fun j e hj => ?_, ?_⟩
  · have hlt := (List.getElem?_eq_some_iff.mp hj).1
    have he := hget j e hj
    obtain ⟨-, hhi⟩ := hrepr.of_entryAt he
    rw [hrepr.entryAt (by omega) hhi] at he
    dsimp only
    exact hcommit.commit.at_ (by omega) (by omega) he
  · -- nothing was collected, or everything up to the commit index
    dsimp only
    rcases es.length.eq_zero_or_pos with h0 | hpos
    · rw [h0]; exact hstart
    · exact hcommit.commit.down (by omega)

/-- What the apply loop leaves behind, and the message it sends on the way. -/
theorem tick_ok (h : Safe c a ack) {msg : Option (ApplyMsg C)}
    (hrf : (c.servers s).applicationTicker = some (rf', msg)) :
    CommitOk a ack s rf' ∧ ∀ m ∈ msg, DeliveredOk a ack m := by
  have hcommit := h.servers s
  have hsilent : ∀ m ∈ (none : Option (ApplyMsg C)), DeliveredOk a ack m := by simp
  unfold Raft.applicationTicker at hrf
  split at hrf
  case h_3 =>
    obtain ⟨g, hg, hrf⟩ := Option.map_eq_some_iff.mp hrf
    obtain ⟨rfl, rfl⟩ := Prod.mk.inj hrf
    refine ⟨?_, hsilent⟩
    rcases Raft.collectEntries_cases hg with ⟨-, rfl⟩ | ⟨-, es, hes, rfl⟩
    · exact hcommit.place (by simp)
    · exact h.collect_ok hes
  case h_4 es i htick =>
    obtain ⟨hes, hlen⟩ := hcommit.sending es i htick
    split at hrf
    case h_1 e he =>
      obtain ⟨rfl, rfl⟩ := Prod.mk.inj (Option.some.inj hrf)
      refine ⟨⟨hcommit.snap, hcommit.commit, hcommit.applied, hcommit.matched, fun es' i' hx => ?_⟩,
        fun m hm _ => ?_⟩
      · injection hx with hx _
        subst hx
        exact ⟨hes, hlen⟩
      · obtain rfl := Option.some.inj hm
        exact ⟨e, hes i e he, rfl⟩
    · obtain ⟨rfl, rfl⟩ := Prod.mk.inj (Option.some.inj hrf)
      exact ⟨⟨hcommit.snap, hcommit.commit, hlen, hcommit.matched,
        fun _ _ (hx : (Ticker.idle : Ticker C) = _) => by cases hx⟩, hsilent⟩
  case h_8 =>
    obtain ⟨rfl, rfl⟩ := Prod.mk.inj (Option.some.inj hrf)
    refine ⟨hcommit.place (by simp), fun m hm hv => ?_⟩
    obtain rfl := Option.some.inj hm
    exact absurd hv (by simp)
  case h_9 =>
    obtain ⟨rfl, rfl⟩ := Prod.mk.inj (Option.some.inj hrf)
    refine ⟨⟨hcommit.snap, ?_, hcommit.snap, hcommit.matched,
      fun _ _ (hx : (Ticker.idle : Ticker C) = _) => by cases hx⟩, hsilent⟩
    unfold Raft.finishSnapshot
    dsimp only
    split_ifs with hlt
    · exact hcommit.snap
    · exact hcommit.commit
  all_goals
    obtain ⟨rfl, rfl⟩ := Prod.mk.inj (Option.some.inj hrf)
    refine ⟨?_, hsilent⟩
    first
      | exact hcommit
      | exact hcommit.place (by simp)

theorem tick (h : Safe c a ack) {msg : Option (ApplyMsg C)}
    (hrf : (c.servers s).applicationTicker = some (rf', msg)) :
    Safe { c.put s rf' with
      applyCh := Function.update c.applyCh s (c.applyCh s ++ msg.toList) } a ack := by
  obtain ⟨hserver, hmsg⟩ := h.tick_ok hrf
  have hsim : Sim { c.put s rf' with
      applyCh := Function.update c.applyCh s (c.applyCh s ++ msg.toList) } a := by
    obtain ⟨_, _, _, _, rfl⟩ := Raft.applicationTicker_frame hrf
    exact (h.sim.keep (by rfl) (by rfl) (List.Sublist.refl _)).deliver _
  refine h.act hsim h.kept (Frame.refl s a) (fun _ _ => le_refl _)
    (fun r hr => Function.update_of_ne hr _ _) ?_ (fun _ hcall => Or.inl hcall) fun r m hm => ?_
  · rw [show ({ c.put s rf' with applyCh := _ } : Cluster n C).servers s = rf' from
      Function.update_self _ _ _]
    exact hserver
  · dsimp only at hm
    rcases eq_or_ne r s with rfl | hr
    · rw [Function.update_self, List.mem_append] at hm
      exact hm.imp_right fun hm => hmsg m (Option.mem_toList.mp hm)
    · rw [Function.update_of_ne hr] at hm; exact Or.inl hm

/-! ### Every gentle step -/

theorem effect (h : Safe c a ack) {act : Action n C} (hg : Gentle c act) (he : Effect c act c') :
    ∃ b ack', Safe c' b ack' := by
  have same : ∀ {c₁ : Cluster n C} {b₁ ack₁}, Safe c₁ b₁ ack₁ → ∃ b ack', Safe c₁ b ack' :=
    fun hs => ⟨_, _, hs⟩
  have moved : ∀ {c₁ : Cluster n C}, (∃ b, Safe c₁ b ack) → ∃ b ack', Safe c₁ b ack' :=
    fun ⟨b, hs⟩ => ⟨b, ack, hs⟩
  cases he with
  | stay => exact same h
  | lose k => exact same (h.lose k)
  | restart _ s net hnet => exact same (h.restart s hnet)
  | timeout s hrole => exact moved (h.timeout hrole)
  | skipElection s term hlost =>
    exact same (h.rest (h.sim.skipElection hlost) ⟨le_refl _, rfl, rfl, rfl, fun _ _ ht => ht⟩
      (h.servers s).matched fun _ hcall => Or.inl hcall)
  | startElection s lastIdx lastTerm hrole hmem hlast =>
    refine same (h.rest (h.sim.startElection hrole hmem hlast)
      ⟨le_refl _, rfl, rfl, rfl, fun _ _ ht => ht⟩ (h.servers s).matched fun call hcall => ?_)
    rcases List.mem_append.mp hcall with hold | hnew
    · exact Or.inl hold
    · obtain ⟨peer, -, rfl⟩ := List.mem_map.mp hnew
      exact Or.inr trivial
  | startReplication s m next rounds hrole hm hrounds =>
    obtain ⟨ack', hs⟩ := h.startReplication hrole hm hrounds
    exact same hs
  | endReplication s term =>
    exact same (h.rest (h.sim.keep (by rfl) (by rfl) (List.Sublist.refl _))
      ⟨le_refl _, rfl, rfl, rfl, fun _ _ ht => ht⟩ (h.servers s).matched fun _ hcall => Or.inl hcall)
  | serveVote k call args rf reply hk hrpc hreq => exact moved (h.serveVote hk hrpc hreq)
  | refuseAppend k call args rf reply hk hrpc hrf hno =>
    have hsent := h.sent hk hrpc
    refine moved (h.refuse hk (h.sim.append_served hk hrpc) (by simp only [Call.ballot, hrpc])
      ⟨hsent.commitLe, hsent.commit, fun r hr hyes => ?_⟩ hrf)
    rw [← Option.some.inj hr, hno] at hyes
    exact absurd hyes (by decide)
  | acceptAppend k call args prev log reply hk hrpc ht hsnap hprev hpt hlog =>
    have hgentle := hg call hk
    rw [hrpc] at hgentle
    exact h.acceptAppend hk hrpc ht hsnap hprev hpt hlog hgentle
  | staleInstall k call args reply hk hrpc ht hre =>
    have hsent := h.sent_install hk hrpc
    have hterm := (h.sim.installCall hk hrpc).term
    refine moved (h.refuse hk (h.sim.install_served hk hrpc) (by simp only [Call.ballot, hrpc])
      ⟨hsent.chosen, fun r hr hle => ?_⟩ (t := args.term) (Or.inl rfl))
    rw [← Option.some.inj hr] at hle
    dsimp only at hle
    omega
  | coveredInstall k call args reply hk hrpc ht hsnap => exact h.coveredInstall hk hrpc ht hsnap
  | acceptInstall k call args reply hk hrpc ht hsnap =>
    have hgentle := hg call hk
    rw [hrpc] at hgentle
    exact h.acceptInstall hk hrpc ht hsnap hgentle
  | receiveVote k call args reply hk hrpc hep => exact moved (h.receiveVote hk hrpc hep)
  | follow k s t ht => exact moved (h.follow k ht)
  | backOff k s next =>
    exact same (h.rest (h.sim.keep (by rfl) (by rfl) (List.eraseIdx_sublist _ _))
      ⟨le_refl _, rfl, rfl, rfl, fun _ _ ht => ht⟩ (h.servers s).matched
      fun _ hcall => Or.inl ((List.eraseIdx_sublist _ _).subset hcall))
  | recordAppend k call args reply rf hk hrpc hyes hrole hterm g hg' hrf =>
    have hacked := (h.sent hk hrpc).acked reply rfl hyes
    exact same (h.recordMatch hrole (hterm ▸ hacked) g hg' hrf)
  | recordInstall k call args reply hk hrpc hrole hterm hre =>
    have hacked := (h.sent_install hk hrpc).acked reply rfl (hterm ▸ hre)
    exact same (h.recordMatch hrole (hterm ▸ hacked) _ rfl (Or.inl rfl))
  | start s command hrole => exact moved (h.start hrole command)
  | compact s index bytes log hdel hcommit hsnap hlog => exact same (h.compact hcommit hsnap hlog)
  | tick s rf msg hrf => exact same (h.tick hrf)

end Safe

theorem safe_init : Safe (Cluster.init : Cluster n C) (State.init 1) fun _ _ => 0 where
  sim := sim_init
  kept := kept_init 1
  servers := fun _ => ⟨Or.inl rfl, Or.inl rfl, Or.inl rfl, fun _ _ => Nat.zero_le _,
    fun _ _ (hx : (Ticker.idle : Ticker C) = _) => by cases hx⟩
  calls := by intro call h; simp [Cluster.init] at h
  delivered := by intro s m h; simp [Cluster.init] at h

theorem safe_run {c : Cluster n C} {acts : List (Action n C)}
    (hc : Run Cluster.step Gentle Cluster.init acts c) : ∃ a ack, Safe c a ack := by
  refine hc.preserves (I := fun d => ∃ a ack, Safe d a ack) ?_ ⟨_, _, safe_init⟩
  rintro d act d' ⟨a, ack, h⟩ hg hs
  exact h.effect hg (step_effect hs)

/-- In a run of gentle steps, commands delivered at one index are the same everywhere. -/
theorem state_machine_safety {c : Cluster n C} {acts : List (Action n C)}
    (hc : Run Cluster.step Gentle Cluster.init acts c) {s r : Fin n} {m m' : ApplyMsg C}
    (hm : m ∈ c.applyCh s) (hm' : m' ∈ c.applyCh r) (hv : m.commandValid = true)
    (hv' : m'.commandValid = true) (hidx : m.commandIndex = m'.commandIndex) :
    m.command = m'.command := by
  obtain ⟨a, ack, h⟩ := safe_run hc
  obtain ⟨e, he, hcmd⟩ := h.delivered s m hm hv
  obtain ⟨e', he', hcmd'⟩ := h.delivered r m' hm' hv'
  rw [← hidx] at he'
  rw [← hcmd, ← hcmd', ChosenAt.unique h.kept h.sim.inv he he']

/-- The messages of two servers that carry the same index, with their commands. -/
def deliveredTogether (c : Cluster n C) (s r : Fin n) : List (ApplyMsg C × ApplyMsg C) :=
  ((c.applyCh s).product (c.applyCh r)).filter fun (m, m') =>
    m.commandValid && m'.commandValid && m.commandIndex == m'.commandIndex

theorem mem_deliveredTogether {c : Cluster n C} {s r : Fin n} {m m' : ApplyMsg C}
    (h : (m, m') ∈ deliveredTogether c s r) : m ∈ c.applyCh s ∧ m' ∈ c.applyCh r ∧
      m.commandValid = true ∧ m'.commandValid = true ∧ m.commandIndex = m'.commandIndex := by
  obtain ⟨hmem, hp⟩ := List.mem_filter.mp h
  obtain ⟨hm, hm'⟩ := List.pair_mem_product.mp hmem
  simp only [Bool.and_eq_true, beq_iff_eq] at hp
  exact ⟨hm, hm', hp.1.1, hp.1.2, hp.2⟩

/-- Server 0 wins term 2 and commits a command on servers 0 and 1, both of which deliver it. -/
def committing : List (Action 3 ℕ) :=
  [.tick 0, .tick 1, .timeout 0, .startElection 0 2, .serve 0, .return 0, .start 0 (some 10),
    .startReplication 0 2, .serve 1, .return 1, .tick 0, .tick 0, .startReplication 0 2, .serve 2,
    .tick 1, .tick 1]

theorem state_machine_safety_committed : ∃ c : Cluster 3 ℕ,
    Run Cluster.step Gentle Cluster.init committing c ∧ ∃ m m', m ∈ c.applyCh 0 ∧
      m' ∈ c.applyCh 1 ∧ m.commandValid = true ∧ m'.commandValid = true ∧
      m.commandIndex = m'.commandIndex ∧ m.command = m'.command := by
  obtain ⟨c, hc, hq⟩ := exists_run Cluster.step Gentle Cluster.init committing
    (fun c : Cluster 3 ℕ => !(deliveredTogether c 0 1).isEmpty) (by decide +kernel)
  obtain ⟨⟨m, m'⟩, hmem⟩ := List.exists_mem_of_ne_nil (deliveredTogether c 0 1) (by simpa using hq)
  obtain ⟨hm, hm', hv, hv', hidx⟩ := mem_deliveredTogether hmem
  exact ⟨c, hc, m, m', hm, hm', hv, hv', hidx, state_machine_safety hc hm hm' hv hv' hidx⟩

/-- A request that arrives late: server 0 sends command 10 alone, then 10 and 20; server 1 confirms
    both, 20 is committed and delivered, and only then the first request reaches server 1 and cuts
    off 20. Server 1 then wins term 3 without it and commits 30 at index 2. -/
def overtaken : List (Action 3 ℕ) :=
  [.tick 0, .tick 1, .timeout 0, .startElection 0 2, .serve 0, .return 0,
    .start 0 (some 10), .startReplication 0 2, .start 0 (some 20), .startReplication 0 2,
    .serve 3, .return 3, .tick 0, .tick 0, .tick 0, .serve 1, .serve 2,
    .timeout 1, .startElection 1 3, .serve 5, .return 5, .start 1 (some 30), .startReplication 1 3,
    .serve 6, .return 6, .tick 1, .tick 1, .tick 1]

theorem state_machine_unsafe : ∃ c : Cluster 3 ℕ,
    Run Cluster.step Any Cluster.init overtaken c ∧ ∃ m m', m ∈ c.applyCh 0 ∧
      m' ∈ c.applyCh 1 ∧ m.commandValid = true ∧ m'.commandValid = true ∧
      m.commandIndex = m'.commandIndex ∧ m.command ≠ m'.command := by
  obtain ⟨c, hc, hq⟩ := exists_run Cluster.step Any Cluster.init overtaken
    (fun c : Cluster 3 ℕ => (deliveredTogether c 0 1).any fun (m, m') => m.command != m'.command)
    (by decide +kernel)
  obtain ⟨⟨m, m'⟩, hmem, hne⟩ := List.any_eq_true.mp hq
  obtain ⟨hm, hm', hv, hv', hidx⟩ := mem_deliveredTogether hmem
  exact ⟨c, hc, m, m', hm, hm', hv, hv', hidx, by simpa using hne⟩

end GoServices.Consensus
