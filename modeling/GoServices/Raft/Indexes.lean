import GoServices.Raft.Steps

/-! The indexes that a leader keeps for its peers.

    `nextIndex` and `matchIndex` stay inside the log although they are set from old requests and from
    what followers report. Three things make this work. Entries carry the term of a leader, which is
    never 0, and terms never decrease along a log, so that the index in a refusal is positive. The
    index that an accepted request confirms lies in the leader's log, which only grows. And
    `at(majorityMatched)` never looks below the snapshot: `Snapshot` compacts committed entries only,
    and as long as a snapshot from before the election is ahead of `commitIndex` everything that is
    matched in this term lies above it (`IndexOk.covered`). -/

namespace GoServices.Consensus

open TermLog Runs

variable {n : ℕ} {C : Type}

/-! ### Positive terms -/

/-- Every index but 0 has a positive term. -/
def RaftLog.Termed (rl : RaftLog C) : Prop := ∀ i e, 0 < i → rl.entryAt i = some e → 0 < e.term

namespace RaftLog.Termed

variable {rl rl' : RaftLog C}

theorem new : (newLog 0 0 [] [] : RaftLog C).Termed := by
  intro i e hi he
  obtain ⟨j, hij, hj⟩ := entryAt_eq_some.mp he
  cases j with
  | zero => exact absurd (hij ▸ hi) (lt_irrefl 0)
  | succ j => simp [newLog] at hj

/-- Entries after the first place of `tailLog` stand at positive indexes. -/
theorem of_tail (h : rl.Termed) {j : ℕ} {e : LogEntry C} (he : rl.tailLog[j]? = some e)
    (hj : 0 < j + rl.snapLastIdx) : 0 < e.term :=
  h _ e hj (entryAt_eq_some.mpr ⟨j, rfl, he⟩)

theorem append (h : rl.Termed) {e : LogEntry C} (he : 0 < e.term) : (rl.append e).Termed := by
  intro i d hi hd
  obtain ⟨j, rfl, hj⟩ := entryAt_eq_some.mp hd
  rw [RaftLog.append, List.getElem?_append] at hj
  split_ifs at hj with hlt
  · exact h.of_tail hj hi
  · rw [List.mem_singleton.mp (List.mem_of_getElem? hj)]
    exact he

theorem appendFrom (h : rl.Termed) {prev : ℕ} {es : List (LogEntry C)} (hes : ∀ e ∈ es, 0 < e.term)
    (hlog : rl.appendFrom prev es = some rl') : rl'.Termed := by
  obtain ⟨k, -, rfl⟩ := Option.map_eq_some_iff.mp hlog
  intro i d hi hd
  obtain ⟨j, rfl, hj⟩ := entryAt_eq_some.mp hd
  rw [List.getElem?_append] at hj
  split_ifs at hj with hlt
  · exact h.of_tail (prefix_get_some (List.take_prefix _ _) hj) hi
  · exact hes d (List.mem_of_getElem? hj)

theorem doSnapshot (h : rl.Termed) {index : ℕ} {bytes : List UInt8}
    (hlog : rl.doSnapshot index bytes = some rl') : rl'.Termed := by
  obtain ⟨k, hk, hlog⟩ := Option.bind_eq_some_iff.mp hlog
  obtain ⟨e, he, rfl⟩ := Option.map_eq_some_iff.mp hlog
  have hat : rl.entryAt index = some e := by rw [entryAt, hk, Option.bind_some, he]
  intro i d hi hd
  obtain ⟨j, rfl, hj⟩ := entryAt_eq_some.mp hd
  cases j with
  | zero =>
    obtain rfl : dummy e.term = d := Option.some.inj hj
    exact h _ e (by simpa using hi) hat
  | succ j =>
    rw [List.getElem?_cons_succ, List.getElem?_drop] at hj
    exact h.of_tail hj (by omega)

theorem installSnapshot (rl : RaftLog C) {index term : ℕ} (hpos : 0 < index → 0 < term)
    (bytes : List UInt8) : (rl.installSnapshot index term bytes).Termed := by
  intro i d hi hd
  obtain ⟨j, rfl, hj⟩ := entryAt_eq_some.mp hd
  cases j with
  | zero =>
    obtain rfl : dummy term = d := Option.some.inj hj
    exact hpos (by simpa [RaftLog.installSnapshot] using hi)
  | succ j => simp [RaftLog.installSnapshot] at hj

/-- The first entry of a term that occurs above index 0 stands above index 0. -/
theorem firstFor_pos (h : rl.Termed) {X : List (LogEntry C)} (hX : Repr rl X)
    (hs : X.Pairwise (·.term ≤ ·.term)) {i : ℕ} {e : LogEntry C} (hi : 0 < i)
    (he : rl.entryAt i = some e) : 0 < rl.firstFor e.term := by
  obtain ⟨-, d, hd, hdt⟩ := rl.firstFor_le (hX.pairwise hs) he
  refine Nat.pos_of_ne_zero fun h0 => ?_
  rw [h0] at hd
  -- index 0 has term 0
  have ht := (hX.term_of_entryAt hd).2.2
  exact absurd (h i e hi he) (by rw [← hdt, ht]; exact lt_irrefl 0)

end RaftLog.Termed

/-- Requests carry positive terms, and a refusal reports a positive index. -/
def Rpc.Termed : Rpc n C → Prop
  | .requestVote _ _ => True
  | .appendEntries args reply => (∀ e ∈ args.entries, 0 < e.term) ∧
      ∀ r, reply = some r → r.success = false → r.term ≤ args.term → 0 < r.confilictIndex
  | .installSnapshot args _ => 0 < args.lastIncludedIndex → 0 < args.lastIncludedTerm

/-! ### The indexes of one leader -/

/-- The index that a replication request confirms if it is accepted. -/
def Rpc.progress : Rpc n C → Option ℕ
  | .requestVote _ _ => none
  | .appendEntries args _ => some (args.prevLogIndex + args.entries.length)
  | .installSnapshot args _ => some args.lastIncludedIndex

/-- The caller, the term and the index that the answer to a call would confirm. -/
def Call.progress (call : Call n C) : Option (Fin n × ℕ × ℕ) :=
  call.rpc.progress.map fun i => (call.caller, call.term, i)

/-- Who may hear that which index is confirmed, and for which term. -/
def progress (net : List (Call n C)) : List (Fin n × ℕ × ℕ) := net.filterMap Call.progress

/-- The indexes of a leader lie in its log. `covered`: a snapshot that `commitIndex` does not know of
    is older than everything that is or will be matched. -/
structure IndexOk (out : List (Fin n × ℕ × ℕ)) (s : Fin n) (rf : Raft n C) : Prop where
  next : ∀ p, 1 ≤ rf.nextIndex p ∧ rf.nextIndex p ≤ rf.log.size
  matched : ∀ p, rf.matchIndex p < rf.log.size
  covered : rf.log.snapLastIdx ≤ rf.commitIndex ∨
    (∀ p, rf.matchIndex p = 0 ∨ rf.log.snapLastIdx ≤ rf.matchIndex p) ∧
      ∀ i, (s, rf.currentTerm, i) ∈ out → rf.log.snapLastIdx ≤ i
  running : rf.currentTerm ∈ rf.replicators

/-- What the indexes depend on, `commitIndex` apart. -/
def pace (rf : Raft n C) : Role × ℕ × RaftLog C × (Fin n → ℕ) × (Fin n → ℕ) × List ℕ :=
  (rf.role, rf.currentTerm, rf.log, rf.nextIndex, rf.matchIndex, rf.replicators)

theorem role_of_pace {rf rf' : Raft n C} (h : pace rf' = pace rf) : rf'.role = rf.role :=
  congrArg Prod.fst h

theorem log_of_pace {rf rf' : Raft n C} (h : pace rf' = pace rf) : rf'.log = rf.log :=
  congrArg (fun x => x.2.2.1) h

theorem matchIndex_of_pace {rf rf' : Raft n C} (h : pace rf' = pace rf) :
    rf'.matchIndex = rf.matchIndex := congrArg (fun x => x.2.2.2.2.1) h

namespace IndexOk

variable {out out' : List (Fin n × ℕ × ℕ)} {s peer : Fin n} {rf rf' : Raft n C}
  {X : List (LogEntry C)}

theorem keep (h : IndexOk out s rf) (hp : pace rf' = pace rf) (hc : rf.commitIndex ≤ rf'.commitIndex)
    (hsub : ∀ t i, (s, t, i) ∈ out' → (s, t, i) ∈ out) : IndexOk out' s rf' := by
  simp only [pace, Prod.mk.injEq] at hp
  obtain ⟨-, hterm, hlog, hnext, hmatch, hrepl⟩ := hp
  refine ⟨by rw [hnext, hlog]; exact h.next, by rw [hmatch, hlog]; exact h.matched, ?_,
    by rw [hterm, hrepl]; exact h.running⟩
  rw [hterm, hlog, hmatch]
  rcases h.covered with hle | ⟨hmatched, hcalls⟩
  · exact Or.inl (hle.trans hc)
  · exact Or.inr ⟨hmatched, fun i hi => hcalls i (hsub _ i hi)⟩

/-- A new leader has matched nothing, and nobody answers to it yet. -/
theorem elected (hrepr : Repr rf.log X) (hterm : rf'.currentTerm = rf.currentTerm)
    (hlog : rf'.log = rf.log) (hnext : rf'.nextIndex = fun _ => rf.log.size)
    (hmatch : rf'.matchIndex = fun _ => 0) (hrepl : rf.currentTerm ∈ rf'.replicators)
    (hnew : ∀ i, (s, rf.currentTerm, i) ∉ out) : IndexOk out s rf' := by
  have hsize := hrepr.size
  refine ⟨fun p => ?_, fun p => ?_, Or.inr ⟨fun p => ?_, fun i hi => ?_⟩, hterm ▸ hrepl⟩
  · rw [hnext, hlog]
    exact ⟨by dsimp only; omega, le_refl _⟩
  · rw [hmatch, hlog]
    dsimp only
    omega
  · rw [hmatch]
    exact Or.inl rfl
  · rw [hterm] at hi
    exact absurd hi (hnew i)

/-- The log grows. -/
theorem start (h : IndexOk out s rf) (hrole : rf.role = .leader) (command : Option C) :
    IndexOk out s (rf.start command).1 := by
  rw [Raft.start, if_neg (by rw [hrole]; decide)]
  have hsize : (rf.log.append ⟨rf.currentTerm, true, command⟩).size = rf.log.size + 1 := by
    simp [RaftLog.size, RaftLog.append, Nat.add_assoc]
  refine ⟨fun p => ?_, fun p => ?_, h.covered, h.running⟩
  · show 1 ≤ rf.nextIndex p ∧ rf.nextIndex p ≤ (rf.log.append _).size
    rw [hsize]
    exact ⟨(h.next p).1, Nat.le_succ_of_le (h.next p).2⟩
  · show rf.matchIndex p < (rf.log.append _).size
    rw [hsize]
    exact Nat.lt_succ_of_lt (h.matched p)

/-- Committed entries are compacted. -/
theorem compact (h : IndexOk out s rf) {log : RaftLog C} (hsize : log.size = rf.log.size)
    (hsnap : log.snapLastIdx ≤ rf.commitIndex) :
    IndexOk out s (Raft.persistLocked { rf with log := log }) :=
  ⟨fun p => by show _ ∧ _ ≤ log.size; rw [hsize]; exact h.next p,
    fun p => by show _ < log.size; rw [hsize]; exact h.matched p, Or.inl hsnap, h.running⟩

/-- The leader matches its own log and sends requests that confirm no less than its snapshot. -/
theorem own (h : IndexOk out s rf) (hrepr : Repr rf.log X)
    (hnew : ∀ i, (s, rf.currentTerm, i) ∈ out' → (s, rf.currentTerm, i) ∈ out ∨ rf.log.snapLastIdx ≤ i) :
    IndexOk out' s (rf.own s) := by
  have hsize := hrepr.size
  have hle := hrepr.le
  refine ⟨fun p => ?_, fun p => ?_, ?_, h.running⟩
  · show 1 ≤ Function.update rf.nextIndex s rf.log.size p ∧
      Function.update rf.nextIndex s rf.log.size p ≤ rf.log.size
    rw [Function.update_apply]
    split_ifs
    · exact ⟨by omega, le_refl _⟩
    · exact h.next p
  · show Function.update rf.matchIndex s (rf.log.size - 1) p < rf.log.size
    rw [Function.update_apply]
    split_ifs
    · omega
    · exact h.matched p
  · rcases h.covered with hcommit | ⟨hmatched, hcalls⟩
    · exact Or.inl hcommit
    · refine Or.inr ⟨fun p => ?_, fun i hi => (hnew i hi).elim (hcalls i) id⟩
      show Function.update rf.matchIndex s (rf.log.size - 1) p = 0 ∨
        rf.log.snapLastIdx ≤ Function.update rf.matchIndex s (rf.log.size - 1) p
      rw [Function.update_apply]
      split_ifs
      · exact Or.inr (by omega)
      · exact hmatched p

/-- A peer confirms an index of the log. -/
theorem recordMatch (h : IndexOk out s rf) (peer : Fin n) {i : ℕ} (hi : i < rf.log.size)
    (hout : (s, rf.currentTerm, i) ∈ out) : IndexOk out s (rf.recordMatch peer i) := by
  refine ⟨fun p => ?_, fun p => ?_, ?_, h.running⟩
  · show 1 ≤ Function.update rf.nextIndex peer (i + 1) p ∧
      Function.update rf.nextIndex peer (i + 1) p ≤ rf.log.size
    rw [Function.update_apply]
    split_ifs
    · exact ⟨Nat.succ_le_succ (Nat.zero_le i), hi⟩
    · exact h.next p
  · show Function.update rf.matchIndex peer i p < rf.log.size
    rw [Function.update_apply]
    split_ifs
    · exact hi
    · exact h.matched p
  · rcases h.covered with hcommit | ⟨hmatched, hcalls⟩
    · exact Or.inl hcommit
    · refine Or.inr ⟨fun p => ?_, hcalls⟩
      show Function.update rf.matchIndex peer i p = 0 ∨
        rf.log.snapLastIdx ≤ Function.update rf.matchIndex peer i p
      rw [Function.update_apply]
      split_ifs
      · exact Or.inr (hcalls i hout)
      · exact hmatched p

/-- A refusal takes `nextIndex` back, but not to 0. -/
theorem backOff_bounds (h : IndexOk out s rf) (peer : Fin n) {reply : AppendEntriesReply}
    (hpos : 0 < reply.confilictIndex) :
    1 ≤ rf.backOff peer reply ∧ rf.backOff peer reply ≤ rf.nextIndex peer := by
  have hnext := (h.next peer).1
  obtain ⟨x, hx, hback⟩ := rf.backOff_cases peer reply
  have hx1 : 1 ≤ x := by
    rcases hback with rfl | ⟨-, -, hne⟩
    · exact hpos
    · exact Nat.pos_of_ne_zero hne
  rw [hx]
  exact ⟨le_min hnext hx1, min_le_left _ _⟩

theorem backOff (h : IndexOk out s rf) (peer : Fin n) {reply : AppendEntriesReply}
    (hpos : 0 < reply.confilictIndex) :
    IndexOk out s
      { rf with nextIndex := Function.update rf.nextIndex peer (rf.backOff peer reply) } := by
  refine ⟨fun p => ?_, h.matched, h.covered, h.running⟩
  show 1 ≤ Function.update rf.nextIndex peer (rf.backOff peer reply) p ∧
    Function.update rf.nextIndex peer (rf.backOff peer reply) p ≤ rf.log.size
  obtain ⟨hlo, hhi⟩ := h.backOff_bounds peer hpos
  rw [Function.update_apply]
  split_ifs
  · exact ⟨hlo, hhi.trans (h.next peer).2⟩
  · exact h.next p

/-- The commit index moves up to what a majority has matched; `at` finds its entry. -/
theorem majority (h : IndexOk out s rf) (hrepr : Repr rf.log X) {p : Fin n}
    (hlt : rf.commitIndex < rf.matchIndex p) :
    rf.log.snapLastIdx ≤ rf.matchIndex p ∧ rf.matchIndex p ≤ X.length := by
  have hsize := hrepr.size
  have hmatched := h.matched p
  refine ⟨?_, by omega⟩
  rcases h.covered with hcommit | ⟨hcov, -⟩
  · omega
  · exact (hcov p).resolve_left (by omega)

/-! ### No panic -/

theorem exists_round (h : IndexOk out s rf) (hrepr : Repr rf.log X) (p : Fin n) :
    ∃ round, rf.roundFor s p = some round := by
  obtain ⟨hlo, hhi⟩ := h.next p
  rcases Raft.roundFor_eq hrepr s hlo hhi with ⟨-, hround⟩ | ⟨-, hround⟩ <;> exact ⟨_, hround⟩

/-- A request confirms no less than the leader's snapshot. -/
theorem round_progress (h : IndexOk out s rf) (hrepr : Repr rf.log X) {p : Fin n} {round : Round n C}
    (hround : rf.roundFor s p = some round) {i : ℕ} (hi : round.rpc.progress = some i) :
    rf.log.snapLastIdx ≤ i := by
  obtain ⟨hlo, hhi⟩ := h.next p
  have hle := hrepr.le
  rcases Raft.roundFor_eq hrepr s hlo hhi with ⟨-, heq⟩ | ⟨-, heq⟩
  · obtain rfl := Option.some.inj (hround.symm.trans heq)
    exact le_of_eq (Option.some.inj hi)
  · obtain rfl := Option.some.inj (hround.symm.trans heq)
    rw [← Option.some.inj hi]
    dsimp only
    rw [List.length_drop]
    omega

/-- The entries and the snapshot of a request come from the leader's log. -/
theorem round_termed (h : IndexOk out s rf) (hrepr : Repr rf.log X) (hlog : rf.log.Termed) {p : Fin n}
    {round : Round n C} (hround : rf.roundFor s p = some round) : round.rpc.Termed := by
  obtain ⟨hlo, hhi⟩ := h.next p
  rcases Raft.roundFor_eq hrepr s hlo hhi with ⟨-, heq⟩ | ⟨hsnap, heq⟩
  · obtain rfl := Option.some.inj (hround.symm.trans heq)
    intro hpos
    exact hlog _ _ hpos hrepr.entryAt_snap
  · obtain rfl := Option.some.inj (hround.symm.trans heq)
    refine ⟨fun e he => ?_, fun r hr => absurd hr (by simp)⟩
    obtain ⟨j, hj⟩ := List.mem_iff_getElem?.mp he
    dsimp only at hj
    rw [List.getElem?_drop] at hj
    have hlen := (List.getElem?_eq_some_iff.mp hj).1
    have hat := hrepr.entryAt (i := rf.nextIndex p - 1 + j + 1) (by omega) (by omega)
    rw [Nat.add_sub_cancel, hj] at hat
    exact hlog _ _ (Nat.succ_pos _) hat

/-- The leader handles a refusal. -/
theorem refused (h : IndexOk out s rf) (peer : Fin n) (hrepr : Repr rf.log X) (hrole : rf.role = .leader)
    {args : AppendEntriesArgs n C} {reply : AppendEntriesReply} (hterm : reply.term ≤ rf.currentTerm)
    (hs : reply.success = false) (hpos : 0 < reply.confilictIndex) :
    rf.replicateToPeer rf.currentTerm peer args reply =
      some { rf with nextIndex := Function.update rf.nextIndex peer (rf.backOff peer reply) } := by
  have hsize := hrepr.size
  have hnext := (h.backOff peer hpos).next peer
  unfold Raft.replicateToPeer
  rw [if_neg (Nat.not_lt_of_le hterm), if_neg (by simp [Raft.contextLostLocked, hrole]), hs,
    Bool.not_false, if_pos rfl]
  dsimp only at hnext ⊢
  split_ifs with hsnap
  · obtain ⟨e, he, -⟩ := hrepr.entryAt_term
      (i := Function.update rf.nextIndex peer (rf.backOff peer reply) peer - 1) (by omega) (by omega)
    rw [he, Option.map_some]
  · rfl

/-- The leader handles a confirmation: `at(majorityMatched)` finds its entry. -/
theorem accepted (h : IndexOk out s rf) (peer : Fin n) (hrepr : Repr rf.log X) (hrole : rf.role = .leader)
    {args : AppendEntriesArgs n C} {reply : AppendEntriesReply} (hterm : reply.term ≤ rf.currentTerm)
    (hs : reply.success = true)
    (hout : (s, rf.currentTerm, args.prevLogIndex + args.entries.length) ∈ out)
    (hlt : args.prevLogIndex + args.entries.length < rf.log.size) :
    ∃ rf', rf.replicateToPeer rf.currentTerm peer args reply = some rf' ∧
      pace rf' = pace (rf.recordMatch peer (args.prevLogIndex + args.entries.length)) ∧
      rf.commitIndex ≤ rf'.commitIndex := by
  have hrec := h.recordMatch peer hlt hout
  unfold Raft.replicateToPeer
  rw [if_neg (Nat.not_lt_of_le hterm), if_neg (by simp [Raft.contextLostLocked, hrole]), hs,
    Bool.not_true, if_neg (by decide)]
  dsimp only
  obtain ⟨g, hg⟩ : ∃ g, rf.recordMatch peer (args.prevLogIndex + args.entries.length) = g := ⟨_, rfl⟩
  have hcommit : rf.commitIndex = g.commitIndex := hg ▸ rfl
  have hrepr' : Repr g.log X := hg ▸ hrepr
  rw [hg] at hrec ⊢
  obtain ⟨q, hq⟩ := Raft.majority_mem g.matchIndex peer
  rw [hq, Option.bind_some]
  split_ifs with hlt
  · obtain ⟨hlo, hhi⟩ := hrec.majority hrepr' hlt
    obtain ⟨e, he, -⟩ := hrepr'.entryAt_term hlo hhi
    rw [he, Option.map_some]
    split_ifs
    · exact ⟨_, rfl, rfl, hcommit ▸ le_of_lt hlt⟩
    · exact ⟨g, rfl, rfl, le_of_eq hcommit⟩
  · exact ⟨g, rfl, rfl, le_of_eq hcommit⟩

/-- The handler of an `AppendEntries` reply stays inside the log, and so do the indexes it sets. -/
theorem replicateToPeer (h : rf.role = .leader → IndexOk out s rf) (hrepr : Repr rf.log X) {term : ℕ}
    {args : AppendEntriesArgs n C} {reply : AppendEntriesReply}
    (hcall : rf.role = .leader → rf.currentTerm = term →
      (s, term, args.prevLogIndex + args.entries.length) ∈ out ∧
        args.prevLogIndex + args.entries.length < rf.log.size)
    (hno : reply.success = false → reply.term ≤ term → 0 < reply.confilictIndex) :
    ∃ rf', rf.replicateToPeer term peer args reply = some rf' ∧ rf'.log = rf.log ∧
      (rf'.role = .leader → IndexOk out s rf') := by
  by_cases hterm : rf.currentTerm < reply.term
  · refine ⟨_, if_pos hterm, Raft.becomeFollowerLocked_log _ _, fun hrole => ?_⟩
    rw [Raft.becomeFollowerLocked_role _ _ (le_of_lt hterm)] at hrole
    exact absurd hrole (by decide)
  by_cases hctx : rf.contextLostLocked .leader term = true
  · refine ⟨rf, ?_, rfl, h⟩
    rw [Raft.replicateToPeer, if_neg hterm, if_pos hctx]
  obtain ⟨rfl, hrole⟩ : rf.currentTerm = term ∧ rf.role = .leader := by
    simpa [Raft.contextLostLocked] using hctx
  have hok := h hrole
  have hle := Nat.le_of_not_lt hterm
  cases hs : reply.success with
  | false =>
    have hpos := hno hs hle
    exact ⟨_, hok.refused peer hrepr hrole hle hs hpos, rfl, fun _ => hok.backOff peer hpos⟩
  | true =>
    obtain ⟨hout, hlt⟩ := hcall hrole rfl
    obtain ⟨rf', heq, hpace, hcommit⟩ := hok.accepted peer hrepr hrole hle hs hout hlt
    have hlog := log_of_pace hpace
    exact ⟨rf', heq, hlog, fun _ =>
      (hok.recordMatch peer hlt hout).keep hpace hcommit fun _ _ hi => hi⟩

end IndexOk

/-! ### All servers -/

/-- All terms are positive, and the indexes of every leader lie in its log. -/
structure Tracked (c : Cluster n C) : Prop where
  logs : ∀ s, (c.servers s).log.Termed
  leaders : ∀ s, (c.servers s).role = .leader → IndexOk (progress c.net) s (c.servers s)
  calls : ∀ call ∈ c.net, call.rpc.Termed

section Facts

variable {c : Cluster n C} {a : Abs n C} {s : Fin n}

/-- Only leaders replicate, so nobody answers to a candidate of this term. -/
theorem Sim.no_progress (h : Sim c a) (hrole : (c.servers s).role = .candidate) (i : ℕ) :
    (s, (c.servers s).currentTerm, i) ∉ progress c.net := by
  intro hi
  obtain ⟨call, hcall, hp⟩ := List.mem_filterMap.mp hi
  obtain ⟨j, hj, heq⟩ := Option.map_eq_some_iff.mp hp
  obtain ⟨rfl, hterm, -⟩ : call.caller = s ∧ call.term = (c.servers s).currentTerm ∧ j = i := by
    simpa using heq
  have hok := h.calls call hcall
  have hno := ((h.servers call.caller).cand hrole).2.2
  rw [← hterm] at hno
  unfold CallOk at hok
  cases hrpc : call.rpc with
  | requestVote args reply => simp [hrpc, Rpc.progress] at hj
  | appendEntries args reply =>
    simp only [hrpc] at hok
    exact hno hok.lead
  | installSnapshot args reply =>
    simp only [hrpc] at hok
    exact hno hok.lead

/-- What a call may confirm lies in the log of its leader. -/
theorem Sim.progress_lt (h : Sim c a) (hrole : (c.servers s).role = .leader) {i : ℕ}
    (hi : (s, (c.servers s).currentTerm, i) ∈ progress c.net) : i < (c.servers s).log.size := by
  obtain ⟨call, hcall, hp⟩ := List.mem_filterMap.mp hi
  obtain ⟨j, hj, heq⟩ := Option.map_eq_some_iff.mp hp
  obtain ⟨rfl, hterm, rfl⟩ : call.caller = s ∧ call.term = (c.servers s).currentTerm ∧ j = i := by
    simpa using heq
  have hok := h.calls call hcall
  have hlog := ((h.servers call.caller).lead hrole).2
  rw [(h.servers call.caller).log.size, hlog, ← hterm]
  unfold CallOk at hok
  cases hrpc : call.rpc with
  | requestVote args reply => simp [hrpc, Rpc.progress] at hj
  | appendEntries args reply =>
    simp only [hrpc, Rpc.progress, Option.some.injEq] at hok hj
    exact hj ▸ Nat.lt_succ_of_le hok.le
  | installSnapshot args reply =>
    simp only [hrpc, Rpc.progress, Option.some.injEq] at hok hj
    exact hj ▸ Nat.lt_succ_of_le hok.le

/-- A refused request reports a positive index to a leader that still counts. -/
theorem Tracked.refusal_pos (h : Tracked c) (hsim : Sim c a) {args : AppendEntriesArgs n C}
    (hprev0 : args.prevLogIndex = 0 → args.prevLogTerm = 0) {rf : Raft n C} {reply : AppendEntriesReply}
    (hreq : (c.servers s).appendEntries args = some (rf, reply))
    (hno : reply.success = false) (hle : reply.term ≤ args.term) : 0 < reply.confilictIndex := by
  have hrepr := (hsim.servers s).log
  have hterm := (Raft.appendEntries_cases hreq).1
  rcases Raft.appendEntries_refused hreq hno with hold | ⟨-, hidx, -⟩ | ⟨hsnap, hidx, -⟩ |
    ⟨prev, hprev, hne, hidx, -⟩
  · omega
  · rw [hidx, hrepr.size]
    exact Nat.succ_pos _
  · rw [hidx]
    exact Nat.lt_of_le_of_lt (Nat.zero_le _) hsnap
  · rw [hidx]
    refine (h.logs s).firstFor_pos hrepr (hsim.inv.pairwise (hsim.inv.logOk s)) ?_ hprev
    -- at index 0 both logs have term 0
    refine Nat.pos_of_ne_zero fun h0 => hne ?_
    rw [(hrepr.term_of_entryAt hprev).2.2, hprev0 h0, h0]
    rfl

end Facts

namespace Tracked

variable {c c' : Cluster n C} {a : Abs n C} {s : Fin n} {rf : Raft n C}

theorem act (h : Tracked c) (hserv : ∀ r, r ≠ s → c'.servers r = c.servers r)
    (hlog : (c'.servers s).log.Termed)
    (hlead : (c'.servers s).role = .leader → IndexOk (progress c'.net) s (c'.servers s))
    (hcalls : ∀ call ∈ c'.net, call ∈ c.net ∨ call.rpc.Termed)
    (hout : ∀ r, r ≠ s → ∀ t i, (r, t, i) ∈ progress c'.net → (r, t, i) ∈ progress c.net) :
    Tracked c' where
  logs := by
    intro r
    rcases eq_or_ne r s with rfl | hr
    · exact hlog
    · rw [hserv r hr]
      exact h.logs r
  leaders := by
    intro r hrole
    rcases eq_or_ne r s with rfl | hr
    · exact hlead hrole
    · rw [hserv r hr] at hrole ⊢
      exact (h.leaders r hrole).keep rfl (le_refl _) (hout r hr)
  calls := fun call hcall => (hcalls call hcall).elim (h.calls call) id

/-- One server moves on; calls may come to an end or be answered. -/
theorem put (h : Tracked c) {net : List (Call n C)} (hlog : rf.log.Termed)
    (hlead : rf.role = .leader → IndexOk (progress c.net) s rf)
    (hcalls : ∀ call ∈ net, call ∈ c.net ∨ call.rpc.Termed)
    (hsub : progress net ⊆ progress c.net) : Tracked { c.put s rf with net := net } := by
  have hself : ({ c.put s rf with net := net } : Cluster n C).servers s = rf := Function.update_self _ _ _
  refine h.act (fun r hr => Function.update_of_ne hr _ _) (by rw [hself]; exact hlog) ?_ hcalls
    fun _ _ _ _ hi => hsub hi
  rw [hself]
  exact fun hrole => (hlead hrole).keep rfl (le_refl _) fun _ _ hi => hsub hi

/-- As `put`, when no call is answered. -/
theorem rest (h : Tracked c) {net : List (Call n C)} (hlog : rf.log.Termed)
    (hlead : rf.role = .leader → IndexOk (progress c.net) s rf) (hnet : net.Sublist c.net) :
    Tracked { c.put s rf with net := net } :=
  h.put hlog hlead (fun _ hcall => Or.inl (hnet.subset hcall)) (hnet.filterMap _).subset

/-- As `put`, when the `k`-th call is answered. -/
theorem served (h : Tracked c) {k : ℕ} {call call' : Call n C} (hk : c.net[k]? = some call)
    (hlog : rf.log.Termed) (hlead : rf.role = .leader → IndexOk (progress c.net) s rf)
    (hcall : call'.rpc.Termed) (hp : call'.progress = call.progress) :
    Tracked { c.put s rf with net := c.net.set k call' } := by
  refine h.put hlog hlead (fun x hx => ?_) (by rw [progress, filterMap_set hk hp]; exact fun _ hi => hi)
  rcases List.mem_or_eq_of_mem_set hx with hold | rfl
  · exact Or.inl hold
  · exact Or.inr hcall

theorem restart (h : Tracked c) (hsim : Sim c a) (s : Fin n) {net : List (Call n C)}
    (hnet : net.Sublist c.net) : Tracked { c.restart s with net := net } := by
  have hlog : (Raft.make (c.servers s).persister).log = (c.servers s).log :=
    congrArg (fun x => x.2.2.2.1) (core_make (hsim.servers s).synced)
  have hself : ({ c.restart s with net := net } : Cluster n C).servers s =
      Raft.make (c.servers s).persister := Function.update_self _ _ _
  refine h.act (fun r hr => Function.update_of_ne hr _ _) ?_ ?_
    (fun _ hcall => Or.inl (hnet.subset hcall)) fun _ _ _ _ hi => (hnet.filterMap _).subset hi
  · rw [hself, hlog]
    exact h.logs s
  · rw [hself, (Raft.make_idle _).1]
    exact fun hx => absurd hx (by decide)

theorem follow (h : Tracked c) {t : ℕ} (ht : (c.servers s).currentTerm ≤ t) {net : List (Call n C)}
    (hnet : net.Sublist c.net) :
    Tracked { c.put s ((c.servers s).becomeFollowerLocked t) with net := net } := by
  refine h.rest (by rw [Raft.becomeFollowerLocked_log]; exact h.logs s) (fun hrole => ?_) hnet
  rw [Raft.becomeFollowerLocked_role _ _ ht] at hrole
  exact absurd hrole (by decide)

/-- A server changes nothing that the indexes depend on. -/
theorem keep (h : Tracked c) (hp : pace rf = pace (c.servers s))
    (hcommit : (c.servers s).commitIndex ≤ rf.commitIndex) {net : List (Call n C)}
    (hnet : net.Sublist c.net) : Tracked { c.put s rf with net := net } := by
  refine h.rest (log_of_pace hp ▸ h.logs s) (fun hrole => ?_) hnet
  exact (h.leaders s (role_of_pace hp ▸ hrole)).keep hp hcommit fun _ _ hi => hi

/-! ### Elections -/

theorem timeout (h : Tracked c) : Tracked (c.put s ((c.servers s).electionTimeout s)) := by
  by_cases hrole : (c.servers s).role = .leader
  · rw [Raft.electionTimeout, if_pos hrole, Cluster.put_self]
    exact h
  · rw [Raft.electionTimeout, if_neg hrole, Raft.becomeCandidateLocked, if_neg hrole]
    exact h.rest (h.logs s) (fun hx => absurd hx (by simp [Raft.persistLocked])) (List.Sublist.refl _)

theorem startElection (h : Tracked c) {term : ℕ} {calls : List (Fin n × RequestVoteArgs n)}
    (hrf : (c.servers s).startElection s term = some (rf, calls)) :
    Tracked ((c.put s rf).send s term
      (calls.map fun (peer, args) => (peer, .requestVote args none))) := by
  have hp : pace rf = pace (c.servers s) ∧ rf.commitIndex = (c.servers s).commitIndex := by
    rcases Raft.startElection_cases hrf with ⟨-, rfl, -⟩ | ⟨-, -, rfl, -⟩ <;> exact ⟨rfl, rfl⟩
  have hput : Tracked (c.put s rf) := h.keep hp.1 (le_of_eq hp.2.symm) (List.Sublist.refl _)
  -- vote requests confirm no index
  have hnone : progress ((c.put s rf).send s term
      (calls.map fun (peer, args) => (peer, .requestVote args none))).net = progress c.net := by
    have hnil : (calls.map fun (peer, args) => (peer, (.requestVote args none : Rpc n C))).filterMap
        (fun x => Call.progress ⟨s, (c.put s rf).epochs s, x.1, term, x.2⟩) = [] := by
      refine List.filterMap_eq_nil_iff.mpr fun x hx => ?_
      obtain ⟨y, -, rfl⟩ := List.mem_map.mp hx
      rfl
    simp only [Cluster.send, progress, List.filterMap_append]
    rw [List.filterMap_map]
    exact (congrArg (progress c.net ++ ·) hnil).trans (List.append_nil _)
  refine hput.act (s := s) (fun _ _ => rfl) (hput.logs s) (fun hrole => ?_) (fun call hcall => ?_)
    fun _ _ _ _ hi => hnone ▸ hi
  · rw [hnone]
    exact hput.leaders s hrole
  · rcases List.mem_append.mp hcall with hold | hnew
    · exact Or.inl hold
    · simp only [List.map_map, List.mem_map] at hnew
      obtain ⟨x, -, rfl⟩ := hnew
      exact Or.inr trivial

theorem serveVote (h : Tracked c) {k : ℕ} {call : Call n C} {args : RequestVoteArgs n}
    {reply : RequestVoteReply} (hk : c.net[k]? = some call) (hrpc : call.rpc = .requestVote args none)
    (hreq : (c.servers call.peer).requestVote args = some (rf, reply)) :
    Tracked { c.put call.peer rf with
      net := c.net.set k { call with rpc := .requestVote args (some reply) } } := by
  have hadopt : pace ((c.servers call.peer).adopt args.term) = pace (c.servers call.peer) ∧
        ((c.servers call.peer).adopt args.term).commitIndex = (c.servers call.peer).commitIndex ∨
      ((c.servers call.peer).adopt args.term).log = (c.servers call.peer).log ∧
        ((c.servers call.peer).adopt args.term).role ≠ .leader := by
    unfold Raft.adopt
    split_ifs with hlt
    · refine Or.inr ⟨Raft.becomeFollowerLocked_log _ _, ?_⟩
      rw [Raft.becomeFollowerLocked_role _ _ (le_of_lt hlt)]
      decide
    · exact Or.inl ⟨rfl, rfl⟩
  -- the vote itself does not matter here
  have hrf : pace rf = pace (c.servers call.peer) ∧
        rf.commitIndex = (c.servers call.peer).commitIndex ∨
      rf.log = (c.servers call.peer).log ∧ rf.role ≠ .leader := by
    rcases Raft.requestVote_cases hreq with ⟨-, rfl, -⟩ | ⟨-, rfl, -⟩ | ⟨-, -, -, rfl, -⟩
    · exact Or.inl ⟨rfl, rfl⟩
    · exact hadopt
    · exact hadopt
  have hp : ({ call with rpc := .requestVote args (some reply) } : Call n C).progress =
      call.progress := by simp only [Call.progress, hrpc, Rpc.progress]
  rcases hrf with ⟨hpace, hcommit⟩ | ⟨hlog, hrole⟩
  · refine h.served hk (log_of_pace hpace ▸ h.logs _) (fun hrole => ?_) trivial hp
    exact (h.leaders _ (role_of_pace hpace ▸ hrole)).keep hpace (le_of_eq hcommit.symm) fun _ _ hi => hi
  · exact h.served hk (hlog ▸ h.logs _) (fun hx => absurd hx hrole) trivial hp

theorem receiveVote (h : Tracked c) (hsim : Sim c a) (k term : ℕ) (reply : RequestVoteReply) :
    Tracked { c.put s ((c.servers s).askVoteFromPeer term reply) with net := c.net.eraseIdx k } := by
  have hsub := List.eraseIdx_sublist c.net k
  rcases (c.servers s).askVoteFromPeer_cases term reply with ⟨ht, heq⟩ | heq | ⟨-, -, -, heq⟩ |
    ⟨hrole, hterm, -, -, heq⟩
  · rw [heq]
    exact h.follow (le_of_lt ht) hsub
  · rw [heq]
    exact h.keep rfl (le_refl _) hsub
  · rw [heq]
    exact h.rest (h.logs s) (fun hrole => (h.leaders s hrole).keep rfl (le_refl _) fun _ _ hi => hi) hsub
  · rw [heq]
    refine h.rest (h.logs s) (fun _ => ?_) hsub
    refine IndexOk.elected (hsim.servers s).log (by rfl) rfl rfl rfl ?_ (hsim.no_progress hrole)
    exact hterm ▸ List.mem_append_right _ List.mem_cons_self

/-! ### Replication -/

theorem startReplication (h : Tracked c) (hsim : Sim c a) (hrole : (c.servers s).role = .leader)
    {rounds : List (Fin n × Round n C)}
    (hrounds : ∀ p round, (p, round) ∈ rounds → (c.servers s).roundFor s p = some round) :
    Tracked ((c.put s ((c.servers s).own s)).send s (c.servers s).currentTerm
      (rounds.map fun (peer, round) => (peer, round.rpc))) := by
  have hok := h.leaders s hrole
  have hrepr := (hsim.servers s).log
  have hself : (c.put s ((c.servers s).own s)).servers s = (c.servers s).own s :=
    Function.update_self _ _ _
  -- what is new in the network comes from `s` and lies above its snapshot
  have hnew : ∀ r t i, (r, t, i) ∈ progress ((c.put s ((c.servers s).own s)).send s
      (c.servers s).currentTerm (rounds.map fun (peer, round) => (peer, round.rpc))).net →
      (r, t, i) ∈ progress c.net ∨ r = s ∧ (c.servers s).log.snapLastIdx ≤ i := by
    intro r t i hi
    simp only [Cluster.send, progress, List.filterMap_append, List.mem_append, List.map_map] at hi
    refine hi.imp_right fun hi => ?_
    obtain ⟨call, hcall, hp⟩ := List.mem_filterMap.mp hi
    obtain ⟨⟨p, round⟩, hmem, rfl⟩ := List.mem_map.mp hcall
    obtain ⟨j, hj, heq⟩ := Option.map_eq_some_iff.mp hp
    obtain ⟨rfl, -, rfl⟩ : s = r ∧ _ ∧ j = i := by simpa using heq
    exact ⟨rfl, hok.round_progress hrepr (hrounds p round hmem) hj⟩
  refine h.act (s := s) (fun r hr => Function.update_of_ne hr _ _) ?_ (fun _ => ?_) (fun call hcall => ?_)
    fun r hr t i hi => (hnew r t i hi).resolve_right fun hx => hr hx.1
  · show ((c.put s ((c.servers s).own s)).servers s).log.Termed
    rw [hself]
    exact h.logs s
  · show IndexOk _ s ((c.put s ((c.servers s).own s)).servers s)
    rw [hself]
    exact hok.own hrepr fun i hi => (hnew s _ i hi).imp_right And.right
  · rcases List.mem_append.mp hcall with hold | hcall
    · exact Or.inl hold
    · simp only [List.map_map, List.mem_map] at hcall
      obtain ⟨⟨p, round⟩, hmem, rfl⟩ := hcall
      exact Or.inr (hok.round_termed hrepr (h.logs s) (hrounds p round hmem))

theorem serveAppend (h : Tracked c) (hsim : Sim c a) {k : ℕ} {call : Call n C}
    {args : AppendEntriesArgs n C} {reply : AppendEntriesReply} (hk : c.net[k]? = some call)
    (hrpc : call.rpc = .appendEntries args none)
    (hreq : (c.servers call.peer).appendEntries args = some (rf, reply)) :
    Tracked { c.put call.peer rf with
      net := c.net.set k { call with rpc := .appendEntries args (some reply) } } := by
  have hcall := h.calls call (List.mem_of_getElem? hk)
  rw [hrpc] at hcall
  have hp : ({ call with rpc := .appendEntries args (some reply) } : Call n C).progress =
      call.progress := by simp only [Call.progress, hrpc, Rpc.progress]
  have hreply : (Rpc.appendEntries args (some reply) : Rpc n C).Termed := by
    refine ⟨hcall.1, fun r hr hno hle => ?_⟩
    obtain rfl := Option.some.inj hr
    have hprev := (hsim.appendCall hk hrpc).prevTerm
    exact h.refusal_pos hsim (fun h0 => hprev.trans (by rw [h0]; rfl)) hreq hno hle
  obtain ⟨-, ⟨-, rfl, -⟩ | ⟨ht, rfl, -⟩ | ⟨ht, -, -, -, prev, log, -, -, hlog, rfl⟩⟩ :=
    Raft.appendEntries_cases hreq
  · exact h.served hk (h.logs _) (h.leaders _) hreply hp
  · refine h.served hk (by rw [Raft.becomeFollowerLocked_log]; exact h.logs _) (fun hx => ?_) hreply hp
    rw [Raft.becomeFollowerLocked_role _ _ ht] at hx
    exact absurd hx (by decide)
  · rw [Raft.becomeFollowerLocked_log] at hlog
    obtain ⟨ticker, -, heq⟩ := ((c.servers call.peer).becomeFollowerLocked args.term).acceptEntries_eq
      log args.leaderCommit
    rw [heq]
    refine h.served hk ((h.logs _).appendFrom hcall.1 hlog) (fun hx => ?_) hreply hp
    have hrole := Raft.becomeFollowerLocked_role _ _ ht
    exact absurd (hrole.symm.trans hx) (by decide)

theorem serveInstall (h : Tracked c) {k : ℕ} {call : Call n C} {args : InstallSnapshotArgs n}
    (hk : c.net[k]? = some call) (hrpc : call.rpc = .installSnapshot args none)
    (reply : InstallSnapshotReply) :
    Tracked { c.put call.peer ((c.servers call.peer).installSnapshot args).1 with
      net := c.net.set k { call with rpc := .installSnapshot args (some reply) } } := by
  have hcall := h.calls call (List.mem_of_getElem? hk)
  rw [hrpc] at hcall
  have hp : ({ call with rpc := .installSnapshot args (some reply) } : Call n C).progress =
      call.progress := by simp only [Call.progress, hrpc, Rpc.progress]
  have hrole := fun ht => Raft.becomeFollowerLocked_role (c.servers call.peer) args.term ht
  obtain ⟨-, ⟨-, hrf⟩ | ⟨ht, -, hrf⟩ | ⟨ht, -, hrf⟩⟩ :=
    Raft.installSnapshot_cases (c.servers call.peer) args <;> rw [hrf]
  · exact h.served hk (h.logs _) (h.leaders _) hcall hp
  · exact h.served hk (by rw [Raft.becomeFollowerLocked_log]; exact h.logs _)
      (fun hx => absurd ((hrole ht).symm.trans hx) (by decide)) hcall hp
  · have hlog := RaftLog.Termed.installSnapshot (c.servers call.peer).log hcall args.snapshot
    exact h.served hk (by simpa [Raft.acceptSnapshot, Raft.persistLocked, Raft.signal] using hlog)
      (fun hx => absurd ((hrole ht).symm.trans hx) (by decide)) hcall hp

/-- The replies that a server handles confirm indexes of its log, or report a positive one. -/
theorem replicateToPeer (h : Tracked c) (hsim : Sim c a) {call : Call n C} (hcall : call ∈ c.net)
    {args : AppendEntriesArgs n C} {reply : AppendEntriesReply}
    (hrpc : call.rpc = .appendEntries args (some reply)) :
    ∃ rf', (c.servers call.caller).replicateToPeer call.term call.peer args reply = some rf' ∧
      rf'.log = (c.servers call.caller).log ∧
      (rf'.role = .leader → IndexOk (progress c.net) call.caller rf') := by
  refine IndexOk.replicateToPeer (h.leaders call.caller) (hsim.servers _).log
    (fun hrole hterm => ?_) fun hno hle => ?_
  · have hmem : (call.caller, call.term, args.prevLogIndex + args.entries.length) ∈ progress c.net :=
      List.mem_filterMap.mpr ⟨call, hcall, by
        simp only [Call.progress, hrpc, Rpc.progress, Option.map_some]⟩
    exact ⟨hmem, hsim.progress_lt hrole (hterm ▸ hmem)⟩
  · have hok := hsim.calls call hcall
    have htermed := h.calls call hcall
    simp only [CallOk, hrpc] at hok htermed
    exact htermed.2 reply rfl hno (hok.term ▸ hle)

theorem receiveInstall (h : Tracked c) (hsim : Sim c a) {k : ℕ} {call : Call n C}
    {args : InstallSnapshotArgs n} {reply : InstallSnapshotReply} (hk : c.net[k]? = some call)
    (hrpc : call.rpc = .installSnapshot args (some reply)) :
    Tracked { c.put call.caller
        ((c.servers call.caller).installToPeer call.term call.peer args reply) with
      net := c.net.eraseIdx k } := by
  have hsub := List.eraseIdx_sublist c.net k
  rcases (c.servers call.caller).installToPeer_cases call.term call.peer args reply with
    ⟨ht, heq⟩ | heq | ⟨hrole, hterm, -, heq⟩ <;> rw [heq]
  · exact h.follow (le_of_lt ht) hsub
  · exact h.keep rfl (le_refl _) hsub
  · have hmem : (call.caller, (c.servers call.caller).currentTerm, args.lastIncludedIndex) ∈
        progress c.net := by
      refine List.mem_filterMap.mpr ⟨call, List.mem_of_getElem? hk, ?_⟩
      simp only [Call.progress, hrpc, Rpc.progress, Option.map_some, hterm]
    have hlt := hsim.progress_lt hrole hmem
    exact h.rest (h.logs _) (fun _ => (h.leaders _ hrole).recordMatch call.peer hlt hmem) hsub

/-! ### Every step -/

theorem compact (h : Tracked c) (hsim : Sim c a) {index : ℕ} {bytes : List UInt8}
    (hrf : (c.servers s).snapshot index bytes = some rf) : Tracked (c.put s rf) := by
  rcases Raft.snapshot_cases hrf with rfl | ⟨hcommit, hsnap, log, hlog, rfl⟩
  · rw [Cluster.put_self]
    exact h
  · have hrepr := (hsim.servers s).log
    obtain ⟨b, -, hb⟩ := Option.bind_eq_some_iff.mp hlog
    have hle : index ≤ (a.log s).length := by
      obtain ⟨k, hk, -⟩ := Option.bind_eq_some_iff.mp hlog
      rw [RaftLog.idx, hrepr.size] at hk
      split_ifs at hk with hi
      omega
    obtain ⟨log', hlog', hrepr', hidx⟩ := hrepr.doSnapshot (le_of_lt hsnap) hle bytes
    obtain rfl := Option.some.inj (hlog.symm.trans hlog')
    refine h.rest ((h.logs s).doSnapshot hlog) (fun hrole => ?_) (List.Sublist.refl _)
    exact (h.leaders s hrole).compact (hrepr'.size.trans hrepr.size.symm) (hidx ▸ hcommit)

theorem start (h : Tracked c) (hpos : 0 < (c.servers s).currentTerm) (command : Option C) :
    Tracked (c.put s ((c.servers s).start command).1) := by
  by_cases hrole : (c.servers s).role = .leader
  · refine h.rest ?_ (fun _ => (h.leaders s hrole).start hrole command) (List.Sublist.refl _)
    rw [Raft.start, if_neg (by rw [hrole]; decide)]
    exact (h.logs s).append hpos
  · rw [Raft.start, if_pos hrole, Cluster.put_self]
    exact h

theorem serve (h : Tracked c) (hsim : Sim c a) {k : ℕ} {call : Call n C} (hk : c.net[k]? = some call)
    (hs : c.serve k call = some c') : Tracked c' := by
  have hsub := List.eraseIdx_sublist c.net k
  unfold Cluster.serve at hs
  dsimp only at hs
  split at hs
  case h_1 args hrpc =>
    split at hs
    · exact Option.some.inj hs ▸ h.serveVote hk hrpc ‹_›
    · exact Option.some.inj hs ▸ h.restart hsim _ hsub
  case h_2 args hrpc =>
    split at hs
    · exact Option.some.inj hs ▸ h.serveAppend hsim hk hrpc ‹_›
    · exact Option.some.inj hs ▸ h.restart hsim _ hsub
  case h_3 args hrpc => exact Option.some.inj hs ▸ h.serveInstall hk hrpc _
  case h_4 => simp at hs

theorem receive (h : Tracked c) (hsim : Sim c a) {k : ℕ} {call : Call n C}
    (hk : c.net[k]? = some call) (hs : c.receive k call = some c') : Tracked c' := by
  unfold Cluster.receive at hs
  dsimp only at hs
  split_ifs at hs
  split at hs
  case h_1 args reply hrpc => exact Option.some.inj hs ▸ h.receiveVote hsim k call.term reply
  case h_2 args reply hrpc =>
    obtain ⟨rf', heq, hlog, hlead⟩ := h.replicateToPeer hsim (List.mem_of_getElem? hk) hrpc
    rw [heq] at hs
    exact Option.some.inj hs ▸ h.rest (hlog ▸ h.logs _) hlead (List.eraseIdx_sublist _ _)
  case h_3 args reply hrpc => exact Option.some.inj hs ▸ h.receiveInstall hsim hk hrpc
  case h_4 => simp at hs

theorem step (h : Tracked c) (hsim : Sim c a) (hpos : ∀ s, 0 < a.cur s) {act : Action n C}
    (hs : c.step act = some c') : Tracked c' := by
  have hnet := List.Sublist.refl c.net
  cases act with
  | timeout s => exact Option.some.inj hs ▸ h.timeout
  | startElection s term =>
    simp only [Cluster.step] at hs
    split_ifs at hs with hmem
    split at hs
    · exact Option.some.inj hs ▸ h.startElection ‹_›
    · exact Option.some.inj hs ▸ h.restart hsim s hnet
  | startReplication s term =>
    simp only [Cluster.step] at hs
    split_ifs at hs with hmem
    by_cases hctx : (c.servers s).currentTerm = term ∧ (c.servers s).role = .leader
    · obtain ⟨rfl, hrole⟩ := hctx
      obtain ⟨rounds, heq, -, hrounds⟩ := Raft.startReplication_eq s hrole fun p _ =>
        (h.leaders s hrole).exists_round (hsim.servers s).log p
      rw [heq] at hs
      exact Option.some.inj hs ▸ h.startReplication hsim hrole hrounds
    · -- the goroutine of another term ends
      have hlost : (c.servers s).contextLostLocked .leader term = true := by
        simpa [Raft.contextLostLocked] using not_and_or.mp hctx
      rw [Raft.startReplication, if_pos hlost] at hs
      refine Option.some.inj hs ▸ h.rest (h.logs s) (fun hrole => ?_) hnet
      have hok := h.leaders s hrole
      refine ⟨hok.next, hok.matched, hok.covered, ?_⟩
      exact (List.mem_erase_of_ne fun heq => hctx ⟨heq, hrole⟩).mpr hok.running
  | serve k =>
    obtain ⟨call, hk, hs⟩ := Option.bind_eq_some_iff.mp hs
    exact h.serve hsim hk hs
  | «return» k =>
    obtain ⟨call, hk, hs⟩ := Option.bind_eq_some_iff.mp hs
    exact h.receive hsim hk hs
  | lose k =>
    obtain ⟨call, hk, rfl⟩ := Option.map_eq_some_iff.mp hs
    have hsub := List.eraseIdx_sublist c.net k
    exact ⟨h.logs, fun s hrole => (h.leaders s hrole).keep rfl (le_refl _) fun _ _ hi =>
      (hsub.filterMap _).subset hi, fun call hcall => h.calls call (hsub.subset hcall)⟩
  | start s command =>
    exact Option.some.inj hs ▸ h.start ((hsim.servers s).cur ▸ hpos s) command
  | snapshot s index bytes =>
    simp only [Cluster.step] at hs
    split_ifs at hs with hdel
    rw [← Option.some.inj hs]
    cases hrf : (c.servers s).snapshot index bytes with
    | none => exact h.restart hsim s hnet
    | some rf => exact h.compact hsim hrf
  | tick s =>
    simp only [Cluster.step] at hs
    split at hs
    case h_1 rf msg hrf =>
      rw [← Option.some.inj hs]
      have hcommit := Raft.applicationTicker_commitIndex hrf
      obtain ⟨_, _, _, _, rfl⟩ := Raft.applicationTicker_frame hrf
      have hput := h.keep (s := s) (by rfl) hcommit hnet
      exact ⟨hput.logs, hput.leaders, hput.calls⟩
    · exact Option.some.inj hs ▸ h.restart hsim s hnet
  | restart s => exact Option.some.inj hs ▸ h.restart hsim s hnet

end Tracked

theorem tracked_init : Tracked (Cluster.init : Cluster n C) where
  logs := fun _ => RaftLog.Termed.new
  leaders := fun _ hx => absurd (hx.symm.trans (Raft.make_idle _).1) (by decide)
  calls := fun _ hx => absurd hx (by simp [Cluster.init])

/-- What holds of a cluster in every run: the simulation, and with it the indexes. -/
def Regular (c : Cluster n C) : Prop := ∃ a, Sim c a ∧ (∀ s, 0 < a.cur s) ∧ Tracked c

theorem regular_init : Regular (Cluster.init : Cluster n C) :=
  ⟨_, sim_init, fun _ => Nat.one_pos, tracked_init⟩

theorem Regular.run {P : Cluster n C → Action n C → Prop} {acts : List (Action n C)}
    {c d : Cluster n C} (h : Regular c) (hr : Run Cluster.step P c acts d) : Regular d := by
  refine hr.preserves (I := Regular) ?_ h
  rintro c act c' ⟨a, hsim, hpos, h⟩ - hs
  obtain ⟨b, hab, hb⟩ := hsim.step hs
  exact ⟨b, hb, fun s => Nat.lt_of_lt_of_le (hpos s) (hab.cur s), h.step hsim hpos hs⟩

/-- Whatever happened, the indexes of a leader lie in its log, and neither `startReplication` nor the
    handler of a reply that is on its way looks outside of it. (`installToPeer` does not look into the
    log.) -/
theorem leader_indexes_safe {acts : List (Action n C)} {c : Cluster n C}
    (hc : Run Cluster.step Any Cluster.init acts c) (s : Fin n) :
    ((c.servers s).role = .leader → ∀ p,
      1 ≤ (c.servers s).nextIndex p ∧ (c.servers s).nextIndex p ≤ (c.servers s).log.size ∧
      (c.servers s).matchIndex p ≤ (c.servers s).log.size - 1) ∧
    (∀ term, ((c.servers s).startReplication s term).isSome = true) ∧
    ∀ call ∈ c.net, call.caller = s → ∀ args reply, call.rpc = .appendEntries args (some reply) →
      ((c.servers s).replicateToPeer call.term call.peer args reply).isSome = true := by
  obtain ⟨a, hsim, -, h⟩ := regular_init.run hc
  refine ⟨fun hrole p => ?_, fun term => ?_, ?_⟩
  · have hok := h.leaders s hrole
    have hmatched := hok.matched p
    exact ⟨(hok.next p).1, (hok.next p).2, by omega⟩
  · by_cases hctx : (c.servers s).currentTerm = term ∧ (c.servers s).role = .leader
    · obtain ⟨rfl, hrole⟩ := hctx
      obtain ⟨rounds, heq, -, -⟩ := Raft.startReplication_eq s hrole fun p _ =>
        (h.leaders s hrole).exists_round (hsim.servers s).log p
      rw [heq]
      rfl
    · rw [Raft.startReplication, if_pos]
      · rfl
      · simpa [Raft.contextLostLocked] using not_and_or.mp hctx
  · rintro call hcall rfl args reply hrpc
    obtain ⟨rf', heq, -⟩ := h.replicateToPeer hsim hcall hrpc
    rw [heq]
    rfl

/-- Server `old` commits entry 1 and sends its snapshot to `new`, which wins the next term before it
    hears what is committed: as a leader `new` has a snapshot above its `commitIndex`. The third
    server then confirms entry 2, and its reply is on the way. -/
def handedOn (old new : Fin n) : List (Action n ℕ) :=
  [.tick old, .timeout old, .startElection old 2, .serve 0, .return 0,
    .start old (some 7), .startReplication old 2, .serve 2, .return 2, .tick old, .tick old,
    .snapshot old 1 [9], .startReplication old 2, .serve 1, .serve 2,
    .timeout new, .startElection new 3, .serve 5, .return 5,
    .start new (some 8), .startReplication new 3, .serve 6]

/-- Is this the confirmation of a request of server `s`? -/
def Call.confirms (s : Fin n) (call : Call n C) : Bool :=
  call.caller == s &&
    match call.rpc with
    | .appendEntries _ (some reply) => reply.success
    | _ => false

theorem Call.confirms_iff {s : Fin n} {call : Call n C} : call.confirms s = true ↔
    call.caller = s ∧ ∃ args reply, call.rpc = .appendEntries args (some reply) ∧
      reply.success = true := by
  rcases call with ⟨r, epoch, p, term, rpc⟩
  rcases rpc with ⟨args, reply⟩ | ⟨args, _ | reply⟩ | ⟨args, reply⟩ <;> simp [Call.confirms]

theorem leader_indexes_handedOn : ∃ c : Cluster 3 ℕ,
    Run Cluster.step Any Cluster.init (handedOn 0 1) c ∧ (c.servers 1).role = .leader ∧
      (c.servers 1).commitIndex < (c.servers 1).log.snapLastIdx ∧
      (∀ p, 1 ≤ (c.servers 1).nextIndex p ∧ (c.servers 1).nextIndex p ≤ (c.servers 1).log.size ∧
        (c.servers 1).matchIndex p ≤ (c.servers 1).log.size - 1) ∧
      ((c.servers 1).startReplication 1 3).isSome = true ∧
      ∃ call ∈ c.net, ∃ args reply, call.rpc = .appendEntries args (some reply) ∧
        reply.success = true ∧
        ((c.servers 1).replicateToPeer call.term call.peer args reply).isSome = true := by
  obtain ⟨c, hc, hq⟩ := exists_run Cluster.step Any Cluster.init (handedOn 0 1)
    (fun c : Cluster 3 ℕ => decide ((c.servers 1).role = .leader ∧
      (c.servers 1).commitIndex < (c.servers 1).log.snapLastIdx ∧ c.net.any (·.confirms 1) = true))
    (by decide +kernel)
  obtain ⟨hrole, hlt, hany⟩ := of_decide_eq_true hq
  obtain ⟨call, hcall, hconf⟩ := List.any_eq_true.mp hany
  obtain ⟨hcaller, args, reply, hrpc, hs⟩ := Call.confirms_iff.mp hconf
  obtain ⟨hidx, hrounds, hreplies⟩ := leader_indexes_safe hc 1
  exact ⟨c, hc, hrole, hlt, hidx hrole, hrounds 3, call, hcall, args, reply, hrpc, hs,
    hreplies call hcall hcaller args reply hrpc⟩

end GoServices.Consensus
