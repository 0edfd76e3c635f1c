import GoServices.Raft.Election
import GoServices.Raft.Replication
import GoServices.Raft.Application
import GoServices.Schemes.Runs

/-! The stream of messages that one server sends on `applyCh`.

    The server is left alone with an environment that may call any of its handlers with any
    arguments between any two steps of `applicationTicker`. The stream is gapless when every command
    continues right after the message before it.

    While a snapshot is being sent the ticker reads `rf.log` without the lock, and reads
    `snapLastIdx` again afterwards; a snapshot that arrives in between is taken for delivered
    although an older one was sent. `Undisturbed` excludes this. -/

namespace GoServices.Consensus

open Runs

variable {n : ℕ} {C : Type}

/-- Everything that can happen to one server. -/
inductive Event (n : ℕ) (C : Type) where
  | requestVote (args : RequestVoteArgs n)
  | appendEntries (args : AppendEntriesArgs n C)
  | installSnapshot (args : InstallSnapshotArgs n)
  | snapshot (index : ℕ) (bytes : List UInt8)
  | start (command : Option C)
  | electionTimeout
  | startElection (term : ℕ)
  | voteReply (term : ℕ) (reply : RequestVoteReply)
  | startReplication (term : ℕ)
  | appendReply (term : ℕ) (peer : Fin n) (args : AppendEntriesArgs n C) (reply : AppendEntriesReply)
  | installReply (term : ℕ) (peer : Fin n) (args : InstallSnapshotArgs n)
      (reply : InstallSnapshotReply)
  | tick
  | restart

/-- A server, the index its last start restored, and what it has sent on `applyCh` since. -/
structure Applier (n : ℕ) (C : Type) where
  rf : Raft n C
  restored : ℕ
  sent : List (ApplyMsg C)

namespace Applier

/-- `Make` on top of a persister. -/
def make (persister : Persister n C) : Applier n C :=
  ⟨Raft.make persister, (Raft.make persister).log.snapLastIdx, []⟩

/-- A handler ends in state `rf`, or panics. -/
def after (x : Applier n C) : Option (Raft n C) → Applier n C
  | some rf => { x with rf := rf }
  | none => make x.rf.persister

/-- One event at a server, with the messages that it puts on `applyCh`. -/
def step (me : Fin n) (x : Applier n C) : Event n C → Option (Applier n C)
  | .requestVote args => some (x.after ((x.rf.requestVote args).map Prod.fst))
  | .appendEntries args => some (x.after ((x.rf.appendEntries args).map Prod.fst))
  | .installSnapshot args => some { x with rf := (x.rf.installSnapshot args).1 }
  | .snapshot index bytes => some (x.after (x.rf.snapshot index bytes))
  | .start command => some { x with rf := (x.rf.start command).1 }
  | .electionTimeout => some { x with rf := x.rf.electionTimeout me }
  | .startElection term => some (x.after ((x.rf.startElection me term).map Prod.fst))
  | .voteReply term reply => some { x with rf := x.rf.askVoteFromPeer term reply }
  | .startReplication term => some (x.after ((x.rf.startReplication me term).map Prod.fst))
  | .appendReply term peer args reply => some (x.after (x.rf.replicateToPeer term peer args reply))
  | .installReply term peer args reply =>
    some { x with rf := x.rf.installToPeer term peer args reply }
  | .tick =>
    match x.rf.applicationTicker with
    | some (rf, msg) => some { x with rf := rf, sent := x.sent ++ msg.toList }
    | none => some (make x.rf.persister)
  | .restart => some (make x.rf.persister)

end Applier

/-! ### Gapless streams -/

/-- The index up to which a message brings its receiver. -/
def ApplyMsg.index (m : ApplyMsg C) : ℕ := if m.snapshotValid then m.snapshotIndex else m.commandIndex

/-- From index `k` on, every command continues right after the message before it. -/
def Gapless : ℕ → List (ApplyMsg C) → Prop
  | _, [] => True
  | k, m :: ms => (m.snapshotValid = false → m.commandIndex = k + 1) ∧ Gapless m.index ms

/-- The index at which the stream stands. -/
def reached (k : ℕ) (ms : List (ApplyMsg C)) : ℕ := (ms.getLast?.map ApplyMsg.index).getD k

/-- Entry `j` was sent as a command or lies inside a snapshot that was sent. -/
def Covered (ms : List (ApplyMsg C)) (j : ℕ) : Prop :=
  ∃ m ∈ ms, if m.snapshotValid then j ≤ m.snapshotIndex else m.commandIndex = j

theorem reached_append (k : ℕ) (ms : List (ApplyMsg C)) (m : ApplyMsg C) :
    reached k (ms ++ [m]) = m.index := by
  simp [reached]

theorem reached_cons (k : ℕ) (m : ApplyMsg C) (ms : List (ApplyMsg C)) :
    reached k (m :: ms) = reached m.index ms := by
  cases ms with
  | nil => rfl
  | cons x xs =>
    simp only [reached, List.getLast?_cons_cons]
    cases h : (x :: xs).getLast? with
    | none => simp at h
    | some y => rfl

/-- A message that fits at the end keeps the stream gapless. -/
theorem Gapless.append {k : ℕ} {ms : List (ApplyMsg C)} {m : ApplyMsg C} (h : Gapless k ms)
    (hm : m.snapshotValid = false → m.commandIndex = reached k ms + 1) : Gapless k (ms ++ [m]) := by
  induction ms generalizing k with
  | nil => exact ⟨hm, trivial⟩
  | cons x xs ih => exact ⟨h.1, ih h.2 (by rw [← reached_cons k]; exact hm)⟩

theorem Covered.mono {ms : List (ApplyMsg C)} {j : ℕ} (h : Covered ms j) (ms' : List (ApplyMsg C)) :
    Covered (ms ++ ms') j := by
  obtain ⟨m, hm, hj⟩ := h
  exact ⟨m, List.mem_append_left _ hm, hj⟩

/-! ### The condition -/

/-- The ticker has begun to read the snapshot and has not yet noted that it was sent. -/
def Ticker.handsOver : Ticker C → Bool
  | .readIndex _ | .readTerm _ _ | .sendSnapshot _ _ _ | .snapshotSent => true
  | _ => false

/-- No snapshot takes effect while another one is handed over, and the service snapshots no index
    that the stream has not reached. -/
def Undisturbed (x : Applier n C) : Event n C → Prop
  | .installSnapshot args => x.rf.ticker.handsOver = true →
      args.term < x.rf.currentTerm ∨ args.lastIncludedIndex ≤ x.rf.log.snapLastIdx
  | .snapshot index _ => index ≤ x.rf.commitIndex → x.rf.log.snapLastIdx < index →
      x.rf.ticker.handsOver = false ∧ index ≤ reached x.restored x.sent
  | _ => True

instance (x : Applier n C) : (e : Event n C) → Decidable (Undisturbed x e)
  | .installSnapshot _ => inferInstanceAs (Decidable (_ → _ ∨ _))
  | .snapshot _ _ => inferInstanceAs (Decidable (_ → _ → _ ∧ _))
  | .requestVote _ | .appendEntries _ | .start _ | .electionTimeout | .startElection _
  | .voteReply _ _ | .startReplication _ | .appendReply _ _ _ _ | .installReply _ _ _ _ | .tick
  | .restart => .isTrue trivial

/-! ### Where the ticker stands -/

/-- How `lastApplied` and the snapshot relate to the index `k` that the stream has reached. -/
def Place (rf : Raft n C) (k : ℕ) : Prop :=
  match rf.ticker with
  | .idle | .waiting | .woken =>
    rf.lastApplied = k ∧ (rf.snapPending = false → rf.log.snapLastIdx ≤ k)
  | .sendEntries es i =>
    (rf.lastApplied + i = k ∧ i ≤ es.length) ∧ (rf.snapPending = false → rf.log.snapLastIdx ≤ k)
  | .readSnapshot | .readIndex _ => True
  | .readTerm _ index | .sendSnapshot _ index _ => index = rf.log.snapLastIdx
  | .snapshotSent => rf.log.snapLastIdx = k

/-- A handler leaves the ticker's own fields alone; it may wake the ticker. -/
structure Handled (rf rf' : Raft n C) : Prop where
  applied : rf'.lastApplied = rf.lastApplied
  ticker : rf'.ticker = rf.ticker ∨ rf'.ticker = rf.signal.ticker

/-- The snapshot stays, or changes where that does no harm. -/
theorem Place.handled {rf rf' : Raft n C} {k : ℕ} (hp : Place rf k) (hh : Handled rf rf')
    (hsnap : rf'.log.snapLastIdx = rf.log.snapLastIdx ∧ rf'.snapPending = rf.snapPending ∨
      rf.ticker.handsOver = false ∧ (rf'.snapPending = false → rf'.log.snapLastIdx ≤ k)) :
    Place rf' k := by
  -- a signal only turns `waiting` into `woken`
  have htick : rf'.ticker = rf.ticker ∨ rf.ticker = .waiting ∧ rf'.ticker = .woken := by
    rcases hh.ticker with h | h
    · exact Or.inl h
    · unfold Raft.signal at h
      dsimp only at h
      split_ifs at h with hw
      · refine Or.inr ⟨?_, h⟩
        split at hw
        · assumption
        · exact absurd hw (by simp)
      · exact Or.inl h
  unfold Place at *
  rw [hh.applied]
  rcases htick with htick | ⟨hwait, htick⟩ <;> rw [htick]
  · cases ht : rf.ticker <;> simp only [ht, Ticker.handsOver] at hp hsnap ⊢ <;> grind
  · simp only [hwait, Ticker.handsOver] at hp hsnap ⊢
    grind

/-- A handler that takes no snapshot. -/
structure Unmoved (rf rf' : Raft n C) : Prop extends Handled rf rf' where
  snap : rf'.log.snapLastIdx = rf.log.snapLastIdx
  pending : rf'.snapPending = rf.snapPending

theorem Unmoved.refl (rf : Raft n C) : Unmoved rf rf := ⟨⟨rfl, Or.inl rfl⟩, rfl, rfl⟩

theorem Unmoved.follow (rf : Raft n C) (t : ℕ) : Unmoved rf (rf.becomeFollowerLocked t) :=
  ⟨⟨rf.becomeFollowerLocked_lastApplied t, Or.inl (rf.becomeFollowerLocked_ticker t)⟩,
    by rw [Raft.becomeFollowerLocked_log], rf.becomeFollowerLocked_snapPending t⟩

theorem Unmoved.adopt (rf : Raft n C) (t : ℕ) : Unmoved rf (rf.adopt t) := by
  unfold Raft.adopt; split_ifs
  · exact Unmoved.follow rf t
  · exact Unmoved.refl rf

theorem Unmoved.requestVote {rf rf' : Raft n C} {args : RequestVoteArgs n} {reply : RequestVoteReply}
    (h : rf.requestVote args = some (rf', reply)) : Unmoved rf rf' := by
  rcases Raft.requestVote_cases h with ⟨-, rfl, -⟩ | ⟨-, rfl, -⟩ | ⟨-, -, -, rfl, -⟩
  · exact Unmoved.refl _
  · exact Unmoved.adopt _ _
  · have := Unmoved.adopt rf args.term
    exact ⟨⟨this.applied, this.ticker⟩, this.snap, this.pending⟩

theorem Unmoved.appendEntries {rf rf' : Raft n C} {args : AppendEntriesArgs n C}
    {reply : AppendEntriesReply} (h : rf.appendEntries args = some (rf', reply)) : Unmoved rf rf' := by
  obtain ⟨-, ⟨-, rfl, -⟩ | ⟨-, rfl, -⟩ | ⟨-, -, -, -, prev, log, -, -, hlog, rfl⟩⟩ :=
    Raft.appendEntries_cases h
  · exact Unmoved.refl _
  · exact Unmoved.follow _ _
  · have hf := Unmoved.follow rf args.term
    obtain ⟨i, -, hlog⟩ := Option.map_eq_some_iff.mp hlog
    have hidx : log.snapLastIdx = (rf.becomeFollowerLocked args.term).log.snapLastIdx := by
      rw [← hlog]
    obtain ⟨ticker, htick, hrf⟩ :=
      (rf.becomeFollowerLocked args.term).acceptEntries_eq log args.leaderCommit
    rw [hrf]
    refine ⟨⟨hf.applied, ?_⟩, hidx.trans hf.snap, hf.pending⟩
    simpa only [Raft.signal, Raft.becomeFollowerLocked_ticker] using htick

theorem Unmoved.electionTimeout (me : Fin n) (rf : Raft n C) :
    Unmoved rf (rf.electionTimeout me) := by
  unfold Raft.electionTimeout Raft.becomeCandidateLocked; split_ifs
  · exact Unmoved.refl rf
  · exact ⟨⟨rfl, Or.inl rfl⟩, rfl, rfl⟩

theorem Unmoved.askVoteFromPeer (rf : Raft n C) (term : ℕ) (reply : RequestVoteReply) :
    Unmoved rf (rf.askVoteFromPeer term reply) := by
  rcases rf.askVoteFromPeer_cases term reply with ⟨-, h⟩ | h | ⟨-, -, -, h⟩ | ⟨-, -, -, -, h⟩ <;>
    rw [h]
  · exact Unmoved.follow _ _
  all_goals exact ⟨⟨rfl, Or.inl rfl⟩, rfl, rfl⟩

theorem Unmoved.replicateToPeer {rf rf' : Raft n C} {term : ℕ} {peer : Fin n}
    {args : AppendEntriesArgs n C} {reply : AppendEntriesReply}
    (h : rf.replicateToPeer term peer args reply = some rf') : Unmoved rf rf' := by
  rcases Raft.replicateToPeer_cases h with ⟨-, rfl⟩ | ⟨next, rfl⟩ |
    ⟨-, -, -, -, g, rfl, rfl | ⟨m, e, -, -, -, -, rfl⟩⟩
  · exact Unmoved.follow _ _
  · exact ⟨⟨rfl, Or.inl rfl⟩, rfl, rfl⟩
  · exact ⟨⟨rfl, Or.inl rfl⟩, rfl, rfl⟩
  · exact ⟨⟨rfl, Or.inr rfl⟩, rfl, rfl⟩

theorem Unmoved.installToPeer (rf : Raft n C) (term : ℕ) (peer : Fin n)
    (args : InstallSnapshotArgs n) (reply : InstallSnapshotReply) :
    Unmoved rf (rf.installToPeer term peer args reply) := by
  rcases rf.installToPeer_cases term peer args reply with ⟨-, h⟩ | h | ⟨-, -, -, h⟩ <;> rw [h]
  · exact Unmoved.follow _ _
  all_goals exact ⟨⟨rfl, Or.inl rfl⟩, rfl, rfl⟩

/-- Everything up to the last applied index has been delivered, without a gap. -/
structure Sound (x : Applier n C) : Prop where
  gapless : Gapless x.restored x.sent
  covered : ∀ j, x.restored < j → j ≤ reached x.restored x.sent → Covered x.sent j
  applied : ∀ j, x.restored < j → j ≤ x.rf.lastApplied → Covered x.sent j
  place : Place x.rf (reached x.restored x.sent)

namespace Sound

variable {x : Applier n C} {rf' : Raft n C}

theorem make (persister : Persister n C) : Sound (Applier.make persister) := by
  obtain ⟨-, happ, htick⟩ := Raft.make_progress persister
  refine ⟨trivial, ?_, ?_, ?_⟩
  · exact fun j hj hle => absurd hj (Nat.not_lt_of_le hle)
  · intro j hj hle
    rw [show (Applier.make persister).rf.lastApplied = (Applier.make persister).restored from happ] at hle
    omega
  · unfold Place
    rw [show (Applier.make persister).rf.ticker = .idle from htick]
    exact ⟨happ, fun _ => le_refl _⟩

theorem handle (h : Sound x) (hh : Handled x.rf rf')
    (hsnap : rf'.log.snapLastIdx = x.rf.log.snapLastIdx ∧ rf'.snapPending = x.rf.snapPending ∨
      x.rf.ticker.handsOver = false ∧
        (rf'.snapPending = false → rf'.log.snapLastIdx ≤ reached x.restored x.sent)) :
    Sound { x with rf := rf' } :=
  ⟨h.gapless, h.covered, by rw [hh.applied]; exact h.applied, h.place.handled hh hsnap⟩

theorem unmoved (h : Sound x) (hu : Unmoved x.rf rf') : Sound { x with rf := rf' } :=
  h.handle hu.toHandled (Or.inl ⟨hu.snap, hu.pending⟩)

theorem install (h : Sound x) (args : InstallSnapshotArgs n)
    (hu : Undisturbed x (.installSnapshot args)) :
    Sound { x with rf := (x.rf.installSnapshot args).1 } := by
  obtain ⟨-, ⟨-, hrf⟩ | ⟨-, -, hrf⟩ | ⟨ht, hsnap, hrf⟩⟩ := Raft.installSnapshot_cases x.rf args <;>
    rw [hrf]
  · exact h.unmoved (Unmoved.refl _)
  · exact h.unmoved (Unmoved.follow _ _)
  · have hf := Unmoved.follow x.rf args.term
    refine h.handle ⟨hf.applied, Or.inr ?_⟩ (Or.inr ⟨?_, fun hx => absurd hx (by simp [
      Raft.acceptSnapshot, Raft.signal, Raft.persistLocked])⟩)
    · simp only [Raft.acceptSnapshot, Raft.signal, Raft.persistLocked,
        Raft.becomeFollowerLocked_ticker]
    · rw [Raft.becomeFollowerLocked_log] at hsnap
      by_contra hover
      rcases hu (by simpa using hover) with hx | hx <;> omega

theorem compact (h : Sound x) {index : ℕ} {bytes : List UInt8}
    (hu : Undisturbed x (.snapshot index bytes)) (hrf : x.rf.snapshot index bytes = some rf') :
    Sound { x with rf := rf' } := by
  rcases Raft.snapshot_cases hrf with rfl | ⟨hcommit, hsnap, log, hlog, rfl⟩
  · exact h.unmoved (Unmoved.refl _)
  · obtain ⟨hover, hle⟩ := hu hcommit hsnap
    obtain ⟨i, -, hlog⟩ := Option.bind_eq_some_iff.mp hlog
    obtain ⟨e, -, rfl⟩ := Option.map_eq_some_iff.mp hlog
    exact h.handle ⟨rfl, Or.inl rfl⟩ (Or.inr ⟨hover, fun _ => hle⟩)

/-- The ticker sends a message that fits. -/
theorem send (h : Sound x) {m : ApplyMsg C}
    (hm : m.snapshotValid = false → m.commandIndex = reached x.restored x.sent + 1)
    (happ : rf'.lastApplied = x.rf.lastApplied) (hp : Place rf' m.index) :
    Sound { x with rf := rf', sent := x.sent ++ [m] } := by
  refine ⟨h.gapless.append hm, fun j hj hle => ?_, fun j hj hle => ?_, ?_⟩
  · rw [reached_append] at hle
    by_cases hv : m.snapshotValid = true
    · rw [ApplyMsg.index, if_pos hv] at hle
      exact ⟨m, List.mem_append_right _ (List.mem_singleton_self m), by rw [if_pos hv]; exact hle⟩
    · rw [ApplyMsg.index, if_neg hv, hm (by simpa using hv)] at hle
      rcases Nat.lt_or_eq_of_le hle with hlt | heq
      · exact (h.covered j hj (by omega)).mono [m]
      · refine ⟨m, List.mem_append_right _ (List.mem_singleton_self m), ?_⟩
        rw [if_neg hv, hm (by simpa using hv), heq]
  · rw [happ] at hle
    exact (h.applied j hj hle).mono [m]
  · rw [reached_append]; exact hp

/-- The ticker works without sending. -/
theorem silent (h : Sound x)
    (happ : rf'.lastApplied = x.rf.lastApplied ∨ rf'.lastApplied = reached x.restored x.sent)
    (hp : Place rf' (reached x.restored x.sent)) : Sound { x with rf := rf' } := by
  refine ⟨h.gapless, h.covered, fun j hj hle => ?_, hp⟩
  rcases happ with happ | happ
  · exact h.applied j hj (happ ▸ hle)
  · exact h.covered j hj (happ ▸ hle)

theorem tick (h : Sound x) {msg : Option (ApplyMsg C)}
    (hrf : x.rf.applicationTicker = some (rf', msg)) :
    Sound { x with rf := rf', sent := x.sent ++ msg.toList } := by
  have hp := h.place
  have hnil : x.sent ++ (none : Option (ApplyMsg C)).toList = x.sent := List.append_nil _
  unfold Raft.applicationTicker at hrf
  unfold Place at hp
  split at hrf
  case h_1 htick =>
    rw [htick] at hp
    obtain ⟨rfl, rfl⟩ := Prod.mk.inj (Option.some.inj hrf)
    rw [hnil]; exact h.silent (Or.inl rfl) hp
  case h_2 htick =>
    obtain ⟨rfl, rfl⟩ := Prod.mk.inj (Option.some.inj hrf)
    rw [hnil]; exact h
  case h_3 htick =>
    rw [htick] at hp
    obtain ⟨g, hg, hrf⟩ := Option.map_eq_some_iff.mp hrf
    obtain ⟨rfl, rfl⟩ := Prod.mk.inj hrf
    rw [hnil]
    rcases Raft.collectEntries_cases hg with ⟨-, rfl⟩ | ⟨hpend, es, -, rfl⟩
    · exact h.silent (Or.inl rfl) trivial
    · -- the snapshot is not ahead of the stream, so nothing is skipped
      have hsnap := hp.2 hpend
      have hmax : max x.rf.lastApplied x.rf.log.snapLastIdx = reached x.restored x.sent := by omega
      rw [hmax]
      exact h.silent (Or.inr rfl) ⟨⟨rfl, Nat.zero_le _⟩, hp.2⟩
  case h_4 es i htick =>
    rw [htick] at hp
    obtain ⟨⟨hpos, hlen⟩, hsnap⟩ := hp
    split at hrf
    case h_1 e he =>
      have hlt := (List.getElem?_eq_some_iff.mp he).1
      obtain ⟨rfl, rfl⟩ := Prod.mk.inj (Option.some.inj hrf)
      refine h.send (fun _ => ?_) rfl ?_
      · dsimp only; omega
      · refine ⟨⟨?_, hlt⟩, fun hx => le_trans (hsnap hx) ?_⟩ <;>
          simp only [ApplyMsg.index, Bool.false_eq_true, if_false] <;> omega
    case h_2 hnone =>
      rw [List.getElem?_eq_none_iff] at hnone
      obtain ⟨rfl, rfl⟩ := Prod.mk.inj (Option.some.inj hrf)
      have hall : x.rf.lastApplied + es.length = reached x.restored x.sent := by omega
      rw [hnil]; exact h.silent (Or.inr hall) ⟨hall, hsnap⟩
  case h_5 htick =>
    obtain ⟨rfl, rfl⟩ := Prod.mk.inj (Option.some.inj hrf)
    rw [hnil]; exact h.silent (Or.inl rfl) trivial
  case h_6 htick =>
    obtain ⟨rfl, rfl⟩ := Prod.mk.inj (Option.some.inj hrf)
    rw [hnil]; exact h.silent (Or.inl rfl) rfl
  case h_7 htick =>
    rw [htick] at hp
    obtain ⟨rfl, rfl⟩ := Prod.mk.inj (Option.some.inj hrf)
    rw [hnil]; exact h.silent (Or.inl rfl) hp
  case h_8 htick =>
    rw [htick] at hp
    obtain ⟨rfl, rfl⟩ := Prod.mk.inj (Option.some.inj hrf)
    exact h.send (fun hx => absurd hx (by simp)) rfl hp.symm
  case h_9 htick =>
    rw [htick] at hp
    obtain ⟨rfl, rfl⟩ := Prod.mk.inj (Option.some.inj hrf)
    rw [hnil]; exact h.silent (Or.inr hp) ⟨hp, fun _ => le_of_eq hp⟩

/-- After a handler that may panic. -/
theorem after {r : Option (Raft n C)}
    (hr : ∀ rf', r = some rf' → Sound { x with rf := rf' }) : Sound (x.after r) := by
  cases r with
  | none => exact Sound.make _
  | some rf' => exact hr rf' rfl

theorem step (h : Sound x) {me : Fin n} {ev : Event n C} {x' : Applier n C}
    (hu : Undisturbed x ev) (hs : x.step me ev = some x') : Sound x' := by
  -- a handler whose result carries a reply as well
  have fst : ∀ {β : Type} {r : Option (Raft n C × β)},
      (∀ rf' b, r = some (rf', b) → Unmoved x.rf rf') → Sound (x.after (r.map Prod.fst)) := by
    intro β r hr
    refine after fun rf' hrf' => ?_
    obtain ⟨⟨g, b⟩, hg, rfl⟩ := Option.map_eq_some_iff.mp hrf'
    exact h.unmoved (hr g b hg)
  cases ev with
  | requestVote args => exact Option.some.inj hs ▸ fst fun _ _ hr => Unmoved.requestVote hr
  | appendEntries args => exact Option.some.inj hs ▸ fst fun _ _ hr => Unmoved.appendEntries hr
  | installSnapshot args => exact Option.some.inj hs ▸ h.install args hu
  | snapshot index bytes => exact Option.some.inj hs ▸ after fun _ hr => h.compact hu hr
  | start command =>
    rw [← Option.some.inj hs]
    refine h.unmoved ?_
    unfold Raft.start; split_ifs
    · exact Unmoved.refl _
    · exact ⟨⟨rfl, Or.inl rfl⟩, rfl, rfl⟩
  | electionTimeout => exact Option.some.inj hs ▸ h.unmoved (Unmoved.electionTimeout me x.rf)
  | startElection term =>
    refine Option.some.inj hs ▸ fst fun rf' b hr => ?_
    rcases Raft.startElection_cases hr with ⟨-, rfl, -⟩ | ⟨-, -, rfl, -⟩ <;>
      exact ⟨⟨rfl, Or.inl rfl⟩, rfl, rfl⟩
  | voteReply term reply => exact Option.some.inj hs ▸ h.unmoved (Unmoved.askVoteFromPeer _ _ _)
  | startReplication term =>
    refine Option.some.inj hs ▸ fst fun rf' b hr => ?_
    obtain ⟨sent, ok⟩ := b
    rcases Raft.startReplication_cases hr with ⟨-, rfl, -⟩ | ⟨-, -, -, ⟨m, next, -, rfl⟩, -⟩
    · exact Unmoved.refl _
    · exact ⟨⟨rfl, Or.inl rfl⟩, rfl, rfl⟩
  | appendReply term peer args reply =>
    exact Option.some.inj hs ▸ after fun _ hr => h.unmoved (Unmoved.replicateToPeer hr)
  | installReply term peer args reply =>
    exact Option.some.inj hs ▸ h.unmoved (Unmoved.installToPeer _ _ _ _ _)
  | tick =>
    simp only [Applier.step] at hs
    split at hs
    · exact Option.some.inj hs ▸ h.tick ‹_›
    · exact Option.some.inj hs ▸ Sound.make _
  | restart => exact Option.some.inj hs ▸ Sound.make _

end Sound

/-- Undisturbed, the stream is gapless and nothing is counted as applied that was not delivered. -/
theorem apply_stream_gapless (me : Fin n) (persister : Persister n C) {evs : List (Event n C)}
    {x : Applier n C} (hx : Run (Applier.step me) Undisturbed (Applier.make persister) evs x) :
    Gapless x.restored x.sent ∧
    ∀ j, x.restored < j → j ≤ x.rf.lastApplied → Covered x.sent j := by
  have h : Sound x :=
    hx.preserves (I := Sound) (fun _ _ _ hs hu hst => hs.step hu hst) (Sound.make persister)
  exact ⟨h.gapless, h.applied⟩

instance instDecidableGapless : (k : ℕ) → (ms : List (ApplyMsg C)) → Decidable (Gapless k ms)
  | _, [] => .isTrue trivial
  | _, m :: ms => @instDecidableAnd _ _ _ (instDecidableGapless m.index ms)

instance (ms : List (ApplyMsg C)) (j : ℕ) : Decidable (Covered ms j) :=
  inferInstanceAs (Decidable (∃ m ∈ ms,
    if m.snapshotValid then j ≤ m.snapshotIndex else m.commandIndex = j))

/-- A snapshot up to 1, handed over, then entry 2 committed and sent. -/
def handedOver : List (Event 2 ℕ) :=
  [.tick, .installSnapshot ⟨1, 1, 1, 1, [0]⟩, .tick, .tick, .tick, .tick, .tick, .tick, .tick,
    .appendEntries ⟨1, 1, 1, 1, [⟨1, true, some 7⟩], 2⟩, .tick, .tick, .tick]

theorem apply_stream_gapless_handedOver : ∃ x : Applier 2 ℕ,
    Run (Applier.step 0) Undisturbed (Applier.make ⟨none, []⟩) handedOver x ∧
    x.sent.map ApplyMsg.index = [1, 2] ∧ x.rf.lastApplied = 2 ∧
    Gapless x.restored x.sent ∧ Covered x.sent 2 := by
  obtain ⟨x, hx, hq⟩ := exists_run (Applier.step 0) Undisturbed (Applier.make ⟨none, []⟩) handedOver
    (fun x : Applier 2 ℕ => decide (x.sent.map ApplyMsg.index = [1, 2] ∧ x.rf.lastApplied = 2 ∧
      x.restored = 0)) (by decide +kernel)
  obtain ⟨hsent, happ, hres⟩ := of_decide_eq_true hq
  obtain ⟨hg, hc⟩ := apply_stream_gapless 0 ⟨none, []⟩ hx
  exact ⟨x, hx, hsent, happ, hg, hc 2 (by omega) (by omega)⟩

/-- A second snapshot, up to 2, lands after the first one was sent and before the ticker notes it:
    the ticker takes 2 for applied, and the next command sent is entry 3. -/
def disturbed : List (Event 2 ℕ) :=
  [.tick, .installSnapshot ⟨1, 1, 1, 1, [0]⟩, .tick, .tick, .tick, .tick, .tick,
    .installSnapshot ⟨1, 1, 2, 1, [1]⟩, .tick, .tick,
    .appendEntries ⟨1, 1, 2, 1, [⟨1, true, some 7⟩], 3⟩, .tick, .tick]

theorem apply_stream_gap : ∃ x : Applier 2 ℕ,
    Run (Applier.step 0) Any (Applier.make ⟨none, []⟩) disturbed x ∧
    x.restored = 0 ∧ x.sent.map ApplyMsg.index = [1, 3] ∧ ¬ Gapless x.restored x.sent ∧
    x.rf.lastApplied = 2 ∧ ¬ Covered x.sent 2 := by
  obtain ⟨x, hx, hq⟩ := exists_run (Applier.step 0) Any (Applier.make ⟨none, []⟩) disturbed
    (fun x : Applier 2 ℕ => decide (x.restored = 0 ∧ x.sent.map ApplyMsg.index = [1, 3] ∧
      ¬ Gapless x.restored x.sent ∧ x.rf.lastApplied = 2 ∧ ¬ Covered x.sent 2)) (by decide +kernel)
  exact ⟨x, hx, of_decide_eq_true hq⟩

end GoServices.Consensus
