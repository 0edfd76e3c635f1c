import GoServices.Raft.Cluster
import GoServices.Schemes.TermLog

/-! The cluster simulates terms, votes and leader logs.

    `Sim c a` relates a cluster to a `TermLog.State`: server `s` holds the term, the vote and (up to
    compaction) the log that `a` has for it, the persister would restore exactly these, leaders and
    candidates are what `a` says, and every call in flight speaks of things that are on record in
    `a`. What a call says stays true (`Ext`), so a step only has to be looked at for the server that
    takes it and for the calls it makes. -/

namespace GoServices.Consensus

open TermLog

variable {n : ℕ} {C : Type}

/-- The state of the abstract protocol. -/
abbrev Abs (n : ℕ) (C : Type) := State (Fin n) (LogEntry C)

/-! ### One server -/

/-- A restart would bring back the present term, vote and log. -/
def Synced (rf : Raft n C) : Prop :=
  (rf.persister.raftstate = none ∧ rf.persister.snapshot = [] ∧ rf.currentTerm = 1 ∧
    rf.votedFor = none ∧ rf.log = newLog invalidIndex invalidTerm [] []) ∨
  rf.persister = rf.persistLocked.persister

/-- A server agrees with the abstract protocol. -/
structure ServerOk (a : Abs n C) (s : Fin n) (rf : Raft n C) : Prop where
  cur : rf.currentTerm = a.cur s
  vote : rf.votedFor = a.vote rf.currentTerm s
  log : Repr rf.log (a.log s)
  synced : Synced rf
  lead : rf.role = .leader → a.lead rf.currentTerm = some s ∧ a.log s = a.tlog rf.currentTerm
  cand : rf.role = .candidate → a.vote rf.currentTerm s = some s ∧
    a.log s = a.clog rf.currentTerm s ∧ a.lead rf.currentTerm ≠ some s

/-- The fields that the simulation looks at. -/
def core (rf : Raft n C) : Role × ℕ × Option (Fin n) × RaftLog C × Persister n C :=
  (rf.role, rf.currentTerm, rf.votedFor, rf.log, rf.persister)

theorem Synced.of_core {rf rf' : Raft n C} (h : Synced rf) (hc : core rf' = core rf) :
    Synced rf' := by
  simp only [core, Prod.mk.injEq] at hc
  obtain ⟨-, hterm, hvote, hlog, hper⟩ := hc
  unfold Synced Raft.persistLocked at *
  rw [hterm, hvote, hlog, hper]
  exact h

theorem synced_persistLocked (rf : Raft n C) : Synced rf.persistLocked := Or.inr rfl

theorem core_make {rf : Raft n C} (h : Synced rf) :
    core (Raft.make rf.persister) = (.follower, rf.currentTerm, rf.votedFor, rf.log, rf.persister) := by
  rcases h with ⟨hst, hsnap, hterm, hvote, hlog⟩ | hper
  · simp only [core, Raft.make, Raft.readPersist, hst, hterm, hvote, hlog]
  · rw [hper]
    simp only [core, Raft.make, Raft.readPersist, Raft.persistLocked]
    split_ifs <;> rfl

namespace ServerOk

variable {a b : Abs n C} {s r : Fin n} {rf rf' : Raft n C}

theorem of_core (h : ServerOk a s rf) (hc : core rf' = core rf) : ServerOk a s rf' := by
  have hsync := h.synced.of_core hc
  simp only [core, Prod.mk.injEq] at hc
  obtain ⟨hrole, hterm, hvote, hlog, -⟩ := hc
  refine ⟨by rw [hterm]; exact h.cur, by rw [hvote, hterm]; exact h.vote, by rw [hlog]; exact h.log,
    hsync, ?_, ?_⟩
  · rw [hrole, hterm]; exact h.lead
  · rw [hrole, hterm]; exact h.cand

/-- A step of another server leaves this one as it was. -/
theorem frame (h : ServerOk a r rf) (hf : Frame s a b) (hr : r ≠ s) : ServerOk b r rf := by
  refine ⟨by rw [hf.cur r hr]; exact h.cur, by rw [hf.vote _ r hr]; exact h.vote,
    by rw [hf.log r hr]; exact h.log, h.synced, ?_, ?_⟩
  · intro hrole
    obtain ⟨hl, hlog⟩ := h.lead hrole
    exact ⟨(hf.lead _ r hr).mpr hl, by rw [hf.log r hr, hf.tlog _ r hr hl]; exact hlog⟩
  · intro hrole
    obtain ⟨hv, hlog, hl⟩ := h.cand hrole
    exact ⟨hf.ext.vote _ r r hv, by rw [hf.log r hr, hf.ext.clog _ r hv]; exact hlog,
      fun hx => hl ((hf.lead _ r hr).mp hx)⟩

/-- A follower with the same term, vote and log, persisted. -/
theorem follower (hcur : rf.currentTerm = a.cur s) (hvote : rf.votedFor = a.vote rf.currentTerm s)
    (hlog : Repr rf.log (a.log s)) (hsync : Synced rf) (hrole : rf.role = .follower) :
    ServerOk a s rf :=
  ⟨hcur, hvote, hlog, hsync, fun h => by rw [hrole] at h; exact absurd h (by decide),
    fun h => by rw [hrole] at h; exact absurd h (by decide)⟩

theorem restart (h : ServerOk a s rf) : ServerOk a s (Raft.make rf.persister) := by
  have hc := core_make h.synced
  have hsync : Synced ({ rf with role := .follower } : Raft n C) := h.synced
  simp only [core, Prod.mk.injEq] at hc
  obtain ⟨hrole, hterm, hvote, hlog, hper⟩ := hc
  refine follower (by rw [hterm]; exact h.cur) (by rw [hvote, hterm]; exact h.vote)
    (by rw [hlog]; exact h.log) (hsync.of_core ?_) hrole
  simp only [core, hrole, hterm, hvote, hlog, hper]

/-- `becomeFollowerLocked` with a term that is not older. -/
theorem become_follower (hi : Inv LogEntry.term a) (h : ServerOk a s rf) {t : ℕ}
    (ht : rf.currentTerm ≤ t) : ServerOk (a.bump s t) s (rf.becomeFollowerLocked t) := by
  rw [Raft.becomeFollowerLocked, if_neg (by omega)]
  have hcur : (a.bump s t).cur s = t := by rw [bump_cur, if_pos rfl]
  rcases Nat.lt_or_eq_of_le ht with hlt | rfl
  · have hnone : a.vote t s = none := by
      cases hv : a.vote t s with
      | none => rfl
      | some c => exact absurd (hi.voteLe t s c hv) (by rw [← h.cur]; omega)
    simp only [if_pos hlt, ne_eq, if_pos (Nat.ne_of_lt hlt)]
    exact follower hcur.symm hnone.symm h.log (synced_persistLocked _) rfl
  · simp only [lt_irrefl, if_false, ne_eq, not_true_eq_false]
    exact follower hcur.symm h.vote h.log h.synced rfl

theorem time_out (hi : Inv LogEntry.term a) (h : ServerOk a s rf) (hrole : rf.role ≠ .leader) :
    ServerOk (a.stand s (rf.currentTerm + 1)) s (rf.electionTimeout s) := by
  rw [Raft.electionTimeout, if_neg hrole, Raft.becomeCandidateLocked, if_neg hrole]
  have hcand : (a.stand s (rf.currentTerm + 1)).vote (rf.currentTerm + 1) s = some s := by
    rw [stand_vote, if_pos ⟨rfl, rfl⟩]
  refine ⟨?_, hcand.symm, h.log, Or.inr rfl, fun hx : Role.candidate = Role.leader =>
    absurd hx (by decide), fun _ => ⟨hcand, ?_, ?_⟩⟩
  · rw [stand_cur, if_pos rfl]; rfl
  · exact (stand_clog a s s _ _).trans (if_pos ⟨rfl, rfl⟩) |>.symm
  · intro hx
    have := hi.voteLe _ _ _ (hi.lead_vote (show a.lead (rf.currentTerm + 1) = some s from hx))
    rw [← h.cur] at this; omega

/-- A server that has not voted leads nothing and does not stand. -/
theorem role_of_no_vote (hi : Inv LogEntry.term a) (h : ServerOk a s rf) (hv : rf.votedFor = none) :
    rf.role = .follower := by
  have hnone : a.vote rf.currentTerm s = none := h.vote.symm.trans hv
  cases hrole : rf.role with
  | follower => rfl
  | candidate =>
    have := (h.cand hrole).1
    rw [hnone] at this; exact absurd this (by simp)
  | leader =>
    have := hi.lead_vote (h.lead hrole).1
    rw [hnone] at this; exact absurd this (by simp)

theorem grant (hi : Inv LogEntry.term a) (h : ServerOk a s rf) (hv : rf.votedFor = none)
    (c : Fin n) {t : ℕ} (ht : rf.currentTerm = t) :
    ServerOk (a.cast s c t) s (Raft.persistLocked { rf with votedFor := some c }) := by
  subst ht
  have hrole := h.role_of_no_vote hi hv
  refine follower h.cur ?_ h.log (synced_persistLocked _) hrole
  exact ((cast_vote a s c s _ _).trans (if_pos ⟨rfl, rfl⟩)).symm

theorem elect (h : ServerOk a s rf) (hrole : rf'.role = .leader)
    (hc : core rf' = (.leader, rf.currentTerm, rf.votedFor, rf.log, rf.persister)) :
    ServerOk (a.elect s rf.currentTerm) s rf' := by
  have hsync : Synced ({ rf with role := .leader } : Raft n C) := h.synced
  simp only [core, Prod.mk.injEq] at hc
  obtain ⟨-, hterm, hvote, hlog, hper⟩ := hc
  refine ⟨by rw [hterm]; exact h.cur, by rw [hvote, hterm]; exact h.vote, by rw [hlog]; exact h.log,
    hsync.of_core (by simp only [core, hrole, hterm, hvote, hlog, hper]), fun _ => ?_, ?_⟩
  · rw [hterm, elect_lead, if_pos rfl, elect_tlog, if_pos rfl]
    exact ⟨rfl, rfl⟩
  · intro hx; rw [hrole] at hx; exact absurd hx (by decide)

theorem extend (h : ServerOk a s rf) (hrole : rf.role = .leader) (command : Option C) :
    ServerOk (a.extend s rf.currentTerm ⟨rf.currentTerm, true, command⟩) s (rf.start command).1 := by
  rw [Raft.start, if_neg (by rw [hrole]; decide)]
  obtain ⟨hl, hlog⟩ := h.lead hrole
  refine ⟨h.cur, h.vote, ?_, synced_persistLocked _, fun _ => ⟨hl, ?_⟩, ?_⟩
  · rw [extend_log, if_pos rfl]; exact h.log.append _
  · rw [extend_log, if_pos rfl]
    exact ((extend_tlog a s _ _ _).trans (if_pos rfl)).trans (by rw [hlog]) |>.symm
  · intro hx
    rw [show (Raft.persistLocked
      { rf with log := rf.log.append ⟨rf.currentTerm, true, command⟩ }).role = rf.role from rfl,
      hrole] at hx
    exact absurd hx (by decide)

/-- A follower whose log becomes a part of the leader log of `t`. -/
theorem accept (h : ServerOk a s rf) (hrole : rf.role = .follower) {t k : ℕ} {log : RaftLog C}
    (hlog : Repr log ((a.tlog t).take k)) :
    ServerOk (a.accept s t k) s (Raft.persistLocked { rf with log := log }) := by
  refine follower h.cur h.vote ?_ (synced_persistLocked _) hrole
  rw [accept_log, if_pos rfl]; exact hlog

/-- Compaction leaves the full log alone. -/
theorem compact (h : ServerOk a s rf) {log : RaftLog C} (hlog : Repr log (a.log s)) :
    ServerOk a s (Raft.persistLocked { rf with log := log }) :=
  ⟨h.cur, h.vote, hlog, synced_persistLocked _, h.lead, h.cand⟩

end ServerOk

/-! ### Calls in flight -/

/-- What a vote call says agrees with the abstract protocol. -/
structure VoteCallOk (a : Abs n C) (call : Call n C) (args : RequestVoteArgs n)
    (reply : Option RequestVoteReply) : Prop where
  term : args.term = call.term
  cand : args.candidateId = call.caller
  ne : call.peer ≠ call.caller
  stood : a.vote call.term call.caller = some call.caller
  lastIndex : args.lastLogIndex = (a.clog call.term call.caller).length
  lastTerm : args.lastLogTerm = termAt (a.clog call.term call.caller) args.lastLogIndex
  granted : ∀ r, reply = some r → r.voteGranted = true →
    a.vote call.term call.peer = some call.caller

/-- What an AppendEntries call says agrees with the abstract protocol. -/
structure AppendCallOk (a : Abs n C) (call : Call n C) (args : AppendEntriesArgs n C) : Prop where
  term : args.term = call.term
  ne : call.peer ≠ call.caller
  lead : a.lead call.term = some call.caller
  base : (a.clog call.term call.caller).length ≤ args.prevLogIndex + args.entries.length
  le : args.prevLogIndex + args.entries.length ≤ (a.tlog call.term).length
  prevTerm : args.prevLogTerm = termAt (a.tlog call.term) args.prevLogIndex
  entries : (a.tlog call.term).take (args.prevLogIndex + args.entries.length) =
    (a.tlog call.term).take args.prevLogIndex ++ args.entries

/-- What an InstallSnapshot call says agrees with the abstract protocol. -/
structure InstallCallOk (a : Abs n C) (call : Call n C) (args : InstallSnapshotArgs n) : Prop where
  term : args.term = call.term
  ne : call.peer ≠ call.caller
  lead : a.lead call.term = some call.caller
  le : args.lastIncludedIndex ≤ (a.tlog call.term).length
  lastTerm : args.lastIncludedTerm = termAt (a.tlog call.term) args.lastIncludedIndex

/-- What a call in flight says is on record. -/
def CallOk (a : Abs n C) (call : Call n C) : Prop :=
  match call.rpc with
  | .requestVote args reply => VoteCallOk a call args reply
  | .appendEntries args _ => AppendCallOk a call args
  | .installSnapshot args _ => InstallCallOk a call args

theorem termAt_ext {X Y : List (LogEntry C)} (h : X <+: Y) {i : ℕ} (hi : i ≤ X.length) :
    termAt X i = termAt Y i :=
  termAt_prefix (take_prefix_take h hi)

/-- Log matching in terms of `termAt`. -/
theorem take_eq_of_termAt {a : Abs n C} {X Y : List (LogEntry C)}
    (hX : Grounded LogEntry.term a X) (hY : Grounded LogEntry.term a Y) {i : ℕ}
    (hiX : i ≤ X.length) (hiY : i ≤ Y.length) (ht : termAt X i = termAt Y i) :
    X.take i = Y.take i := by
  cases i with
  | zero => rfl
  | succ j =>
    obtain ⟨d, hd, hdt⟩ := exists_getElem? (Nat.succ_pos j) hiX
    obtain ⟨e, he, het⟩ := exists_getElem? (Nat.succ_pos j) hiY
    exact hX.matching hY hd he (by rw [hdt, het]; exact ht)

/-- The entries of one term stand at the same places in every log: a log that has the term of `Y` at
    `i` at a later place has it at `i` too. -/
theorem termAt_eq_of_later {a : Abs n C} {X Y : List (LogEntry C)}
    (hX : Grounded LogEntry.term a X) (hY : Grounded LogEntry.term a Y) {i j : ℕ} (hi : 0 < i)
    (hij : i ≤ j) (hiY : i ≤ Y.length) (hjX : j ≤ X.length) (ht : termAt X j = termAt Y i) :
    termAt X i = termAt Y i := by
  obtain ⟨d, hd, hdt⟩ := exists_getElem? (Nat.lt_of_lt_of_le hi hij) hjX
  obtain ⟨e, he, het⟩ := exists_getElem? hi hiY
  have hXd := hX _ _ hd
  have hYe := hY _ _ he
  rw [Nat.sub_add_cancel (by omega), hdt, ht] at hXd
  rw [Nat.sub_add_cancel hi, het] at hYe
  have hpre := prefix_total hYe hXd (by rw [List.length_take, List.length_take]; omega)
  refine termAt_prefix ?_
  have htake := take_prefix_take hpre (k := i) (by rw [List.length_take]; omega)
  rw [List.take_take, List.take_take, Nat.min_self, Nat.min_eq_left hij] at htake
  exact htake.symm

theorem CallOk.mono {a b : Abs n C} (hi : Inv LogEntry.term a) (he : Ext a b) {call : Call n C}
    (h : CallOk a call) : CallOk b call := by
  unfold CallOk at *
  cases hrpc : call.rpc with
  | requestVote args reply =>
    simp only [hrpc] at h ⊢
    have hclog := he.clog _ _ h.stood
    refine ⟨h.term, h.cand, h.ne, he.vote _ _ _ h.stood, ?_, ?_, fun r hr hg => ?_⟩
    · rw [hclog]; exact h.lastIndex
    · rw [hclog]; exact h.lastTerm
    · exact he.vote _ _ _ (h.granted r hr hg)
  | appendEntries args reply =>
    simp only [hrpc] at h ⊢
    have hpre := he.tlog call.term
    have hle := h.le
    refine ⟨h.term, h.ne, he.lead _ _ h.lead, ?_, le_trans hle hpre.length_le, ?_, ?_⟩
    · rw [he.clog _ _ (hi.lead_vote h.lead)]; exact h.base
    · rw [← termAt_ext hpre (by omega)]; exact h.prevTerm
    · rw [← take_prefix_take hpre hle, ← take_prefix_take hpre (by omega)]; exact h.entries
  | installSnapshot args reply =>
    simp only [hrpc] at h ⊢
    have hpre := he.tlog call.term
    refine ⟨h.term, h.ne, he.lead _ _ h.lead, le_trans h.le hpre.length_le, ?_⟩
    rw [← termAt_ext hpre h.le]; exact h.lastTerm

/-! ### Ballots -/

/-- The ballot behind a vote request: candidate, incarnation, term and voter. -/
def Call.ballot (call : Call n C) : Option (Fin n × ℕ × ℕ × Fin n) :=
  match call.rpc with
  | .requestVote _ _ => some (call.caller, call.epoch, call.term, call.peer)
  | _ => none

/-- The votes that are still under way. -/
def ballots (net : List (Call n C)) : List (Fin n × ℕ × ℕ × Fin n) := net.filterMap Call.ballot

/-- The counter of an election counts distinct voters, none of whom has a ballot still out. -/
structure TallyOk (a : Abs n C) (out : List (Fin n × ℕ × ℕ × Fin n)) (epoch : ℕ) (s : Fin n)
    (rf : Raft n C) : Prop where
  nodup : rf.elections.Nodup
  le : ∀ t ∈ rf.elections, t ≤ rf.currentTerm
  fresh : rf.role = .candidate → rf.currentTerm ∈ rf.elections →
    ∀ p, (s, epoch, rf.currentTerm, p) ∉ out
  counted : rf.role = .candidate → rf.currentTerm ∉ rf.elections →
    ∃ W : Finset (Fin n), W.card = rf.votes rf.currentTerm ∧
      (∀ v ∈ W, a.vote rf.currentTerm v = some s) ∧
      ∀ p, (s, epoch, rf.currentTerm, p) ∈ out → p ∉ W

/-- The fields that the tally looks at. -/
def poll (rf : Raft n C) : Role × ℕ × List ℕ × (ℕ → ℕ) :=
  (rf.role, rf.currentTerm, rf.elections, rf.votes)

namespace TallyOk

variable {a b : Abs n C} {out out' : List (Fin n × ℕ × ℕ × Fin n)} {epoch : ℕ} {s : Fin n}
  {rf rf' : Raft n C}

theorem keep (h : TallyOk a out epoch s rf) (he : Ext a b)
    (hsub : ∀ t p, (s, epoch, t, p) ∈ out' → (s, epoch, t, p) ∈ out) (hp : poll rf' = poll rf) :
    TallyOk b out' epoch s rf' := by
  simp only [poll, Prod.mk.injEq] at hp
  obtain ⟨hrole, hterm, hel, hvotes⟩ := hp
  refine ⟨by rw [hel]; exact h.nodup, by rw [hel, hterm]; exact h.le, ?_, ?_⟩
  · rw [hrole, hterm, hel]
    exact fun hr ht p hout => h.fresh hr ht p (hsub _ _ hout)
  · rw [hrole, hterm, hel, hvotes]
    intro hr ht
    obtain ⟨W, hcard, hW, hout⟩ := h.counted hr ht
    exact ⟨W, hcard, fun v hv => he.vote _ _ _ (hW v hv), fun p hp => hout p (hsub _ _ hp)⟩

/-- Only candidates count votes. -/
theorem of_not_candidate (hrole : rf.role ≠ .candidate) (hnodup : rf.elections.Nodup)
    (hle : ∀ t ∈ rf.elections, t ≤ rf.currentTerm) : TallyOk a out epoch s rf :=
  ⟨hnodup, hle, fun h => absurd h hrole, fun h => absurd h hrole⟩

end TallyOk

/-! ### The simulation -/

/-- The cluster agrees with the abstract protocol. -/
structure Sim (c : Cluster n C) (a : Abs n C) : Prop where
  inv : Inv LogEntry.term a
  servers : ∀ s, ServerOk a s (c.servers s)
  calls : ∀ call ∈ c.net, CallOk a call
  tally : ∀ s, TallyOk a (ballots c.net) (c.epochs s) s (c.servers s)
  nodup : (ballots c.net).Nodup

theorem sim_init : Sim (Cluster.init : Cluster n C) (State.init 1) where
  inv := inv_init 1
  servers := fun _ => ServerOk.follower rfl rfl Repr.new (Or.inl ⟨rfl, rfl, rfl, rfl, rfl⟩) rfl
  calls := by intro call h; simp [Cluster.init] at h
  tally := fun _ => TallyOk.of_not_candidate (fun h : Role.follower = Role.candidate =>
    absurd h (by decide)) List.nodup_nil (by
    intro t ht; simp [Cluster.init, Raft.make, Raft.readPersist] at ht)
  nodup := List.nodup_nil

theorem filterMap_set {α β : Type} {f : α → Option β} {l : List α} {k : ℕ} {x y : α}
    (hk : l[k]? = some x) (hf : f y = f x) : (l.set k y).filterMap f = l.filterMap f := by
  induction l generalizing k with
  | nil => simp at hk
  | cons z zs ih =>
    cases k with
    | zero =>
      obtain rfl : z = x := Option.some.inj hk
      simp only [List.set_cons_zero, List.filterMap_cons, hf]
    | succ k => simp only [List.set_cons_succ, List.filterMap_cons, ih hk]

theorem ballots_set {net : List (Call n C)} {k : ℕ} {call call' : Call n C}
    (hk : net[k]? = some call) (hb : call'.ballot = call.ballot) :
    ballots (net.set k call') = ballots net := filterMap_set hk hb

theorem ballots_erase (net : List (Call n C)) (k : ℕ) :
    (ballots (net.eraseIdx k)).Sublist (ballots net) :=
  (List.eraseIdx_sublist net k).filterMap _

/-- Ballots are only out for terms that the candidate has reached. -/
theorem Sim.ballot_le {c : Cluster n C} {a : Abs n C} (h : Sim c a) {s p : Fin n} {e t : ℕ}
    (hb : (s, e, t, p) ∈ ballots c.net) : t ≤ (c.servers s).currentTerm := by
  obtain ⟨call, hcall, hbal⟩ := List.mem_filterMap.mp hb
  have hok := h.calls call hcall
  unfold Call.ballot at hbal
  unfold CallOk at hok
  cases hrpc : call.rpc with
  | requestVote args reply =>
    simp only [hrpc, Option.some.injEq, Prod.mk.injEq] at hbal hok
    obtain ⟨rfl, -, rfl, -⟩ := hbal
    rw [(h.servers _).cur]
    exact h.inv.voteLe _ _ _ hok.stood
  | appendEntries args reply => simp [hrpc] at hbal
  | installSnapshot args reply => simp [hrpc] at hbal

/-- A step of one server that makes no new calls. -/
theorem Sim.act {c c' : Cluster n C} {a b : Abs n C} (h : Sim c a) {s : Fin n} (hf : Frame s a b)
    (hi : Inv LogEntry.term b) (hserv : ∀ r, r ≠ s → c'.servers r = c.servers r)
    (hep : ∀ r, r ≠ s → c'.epochs r = c.epochs r) (hs : ServerOk b s (c'.servers s))
    (hcalls : ∀ call ∈ c'.net, call ∈ c.net ∨ CallOk b call)
    (hout : ∀ r, r ≠ s → ∀ e t p, (r, e, t, p) ∈ ballots c'.net → (r, e, t, p) ∈ ballots c.net)
    (hnodup : (ballots c'.net).Nodup)
    (ht : TallyOk b (ballots c'.net) (c'.epochs s) s (c'.servers s)) : Sim c' b where
  inv := hi
  servers := by
    intro r
    rcases eq_or_ne r s with rfl | hr
    · exact hs
    · rw [hserv r hr]; exact (h.servers r).frame hf hr
  calls := by
    intro call hcall
    rcases hcalls call hcall with hold | hnew
    · exact (h.calls call hold).mono h.inv hf.ext
    · exact hnew
  tally := by
    intro r
    rcases eq_or_ne r s with rfl | hr
    · exact ht
    · rw [hserv r hr, hep r hr]
      exact (h.tally r).keep hf.ext (fun t p hp => hout r hr _ t p hp) rfl
  nodup := hnodup

/-- A step of one server that makes no calls and at most ends some. -/
theorem Sim.quiet {c c' : Cluster n C} {a b : Abs n C} (h : Sim c a) {s : Fin n} (hf : Frame s a b)
    (hi : Inv LogEntry.term b) (hserv : ∀ r, r ≠ s → c'.servers r = c.servers r)
    (hep : ∀ r, r ≠ s → c'.epochs r = c.epochs r) (hs : ServerOk b s (c'.servers s))
    (hnet : c'.net.Sublist c.net)
    (ht : TallyOk b (ballots c'.net) (c'.epochs s) s (c'.servers s)) : Sim c' b :=
  have hsub : (ballots c'.net).Sublist (ballots c.net) := hnet.filterMap _
  h.act hf hi hserv hep hs (fun _ hcall => Or.inl (hnet.subset hcall))
    (fun _ _ _ _ _ hp => hsub.subset hp) (hsub.nodup h.nodup) ht

end GoServices.Consensus
