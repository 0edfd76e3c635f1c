import GoServices.Raft.Indexes

/-! Catching up one peer: rounds of `startReplication`, the peer's handler and the leader's reply
    handler, with nothing else happening in between.

    What a round does to the indexes depends on five numbers only (`Gap`). `nextIndex` goes down until
    the logs meet, with one detour over the leader's snapshot:

        refused  ──▶ next falls                      (the peer's snapshot is below `next`)
        snapshot ──▶ next = snap + 1                 (the peer is not known to hold the snapshot)

    Where the condition on the right fails the peer is lost (`Gap.Stuck`): a peer whose own snapshot
    reaches up to `next` refuses that request and every later one, and a peer that is known to hold the
    leader's snapshot is sent it again and again. -/

namespace GoServices.Consensus

open TermLog Runs Relation

variable {n : ℕ} {C : Type}

/-! ### The indexes alone -/

/-- Snapshot and size of the leader's log, `nextIndex` and `matchIndex` of the peer, and the peer's
    snapshot. -/
structure Gap where
  snap : ℕ
  size : ℕ
  next : ℕ
  matched : ℕ
  peerSnap : ℕ

namespace Gap

/-- A round that the peer does not confirm. -/
inductive Step (g : Gap) : Gap → Prop where
  | install (hnext : g.next ≤ g.snap) (hm : g.matched < g.snap) (peerSnap : ℕ)
      (hp : g.peerSnap ≤ peerSnap) :
      Step g { g with next := g.snap + 1, matched := g.snap, peerSnap := peerSnap }
  | known (hnext : g.next ≤ g.snap) (hm : g.snap ≤ g.matched) (peerSnap : ℕ) :
      Step g { g with peerSnap := peerSnap }
  | backOff (hnext : g.snap < g.next) (next : ℕ) (hle : next ≤ g.next)
      (hlt : g.peerSnap < g.next → next < g.next) : Step g { g with next := next }

/-- The peer's snapshot hides where the logs could meet, or the leader sends a snapshot that it knows
    the peer to hold. -/
def Stuck (g : Gap) : Prop :=
  (g.snap < g.next ∧ g.next ≤ g.peerSnap) ∨ (g.next ≤ g.snap ∧ g.snap ≤ g.matched)

instance (g : Gap) : Decidable g.Stuck := inferInstanceAs (Decidable (_ ∨ _))

/-- The peer will never confirm; unlike `Stuck`, this survives a detour over the leader's snapshot. -/
def Doomed (g : Gap) : Prop :=
  (g.snap < g.peerSnap ∧ g.next ≤ g.peerSnap) ∨ (g.next ≤ g.snap ∧ g.snap ≤ g.matched)

/-- How far the leader can still go back. -/
def measure (g : Gap) : ℕ := (if g.matched < g.snap then g.size + 1 else 0) + g.next

variable {g g' : Gap}

theorem Stuck.doomed (h : g.Stuck) : g.Doomed := by
  rcases h with ⟨hlt, hle⟩ | hknown
  · exact Or.inl ⟨Nat.lt_of_lt_of_le hlt hle, hle⟩
  · exact Or.inr hknown

theorem Step.doomed (h : g.Step g') (hd : g.Doomed) : g'.Doomed := by
  cases h with
  | install hnext hm peerSnap hp =>
    -- over the snapshot `next` comes no further than the peer's own
    rcases hd with ⟨hlt, -⟩ | ⟨-, hle⟩
    · exact Or.inl ⟨Nat.lt_of_lt_of_le hlt hp, Nat.lt_of_lt_of_le hlt hp⟩
    · exact absurd hm (Nat.not_lt_of_le hle)
  | known hnext hm peerSnap => exact Or.inr ⟨hnext, hm⟩
  | backOff hnext next hle hlt =>
    rcases hd with ⟨hpeer, hle'⟩ | ⟨hle', -⟩
    · exact Or.inl ⟨hpeer, hle.trans hle'⟩
    · exact absurd hnext (Nat.not_lt_of_le hle')

/-- A round that is not stuck moves `nextIndex`. -/
theorem Step.next_ne (h : g.Step g') (hs : ¬ g.Stuck) : g'.next ≠ g.next := by
  cases h with
  | install hnext hm peerSnap hp => exact Nat.ne_of_gt (Nat.lt_succ_of_le hnext)
  | known hnext hm peerSnap => exact absurd (Or.inr ⟨hnext, hm⟩) hs
  | backOff hnext next hle hlt =>
    exact Nat.ne_of_lt (hlt (Nat.lt_of_not_le fun hle' => hs (Or.inl ⟨hnext, hle'⟩)))

theorem Step.measure_lt (h : g.Step g') (hs : ¬ g.Stuck) (hsize : g.snap < g.size) :
    g'.measure < g.measure := by
  have hne := h.next_ne hs
  cases h with
  | install hnext hm peerSnap hp =>
    simp only [measure, lt_irrefl, if_false, if_pos hm]
    omega
  | known hnext hm peerSnap => exact absurd rfl hne
  | backOff hnext next hle hlt =>
    simp only [measure] at hne ⊢
    omega

end Gap

/-! ### One round -/

/-- The call that carries the leader's next request to `p`; there is one for every other peer. -/
def callTo (s p : Fin n) (c : Cluster n C) : ℕ :=
  c.net.length + ((List.finRange n).filter (· ≠ s)).idxOf p

/-- One round: the leader sends its requests, `p` handles its own, the leader handles the reply. -/
def exchange (s p : Fin n) (c : Cluster n C) : Option (Cluster n C) :=
  exec Cluster.step Any c
    [.startReplication s (c.servers s).currentTerm, .serve (callTo s p c), .return (callTo s p c)]

/-- The variables of leader `s` about peer `p`. -/
def gap (s p : Fin n) (c : Cluster n C) : Gap where
  snap := (c.servers s).log.snapLastIdx
  size := (c.servers s).log.size
  next := (c.servers s).nextIndex p
  matched := (c.servers s).matchIndex p
  peerSnap := (c.servers p).log.snapLastIdx

/-- The answer of `p` to the leader's next request, if that is an `AppendEntries`. -/
def answer (s p : Fin n) (c : Cluster n C) : Option AppendEntriesReply :=
  ((c.servers s).roundFor s p).bind fun
    | .appendEntries args => ((c.servers p).appendEntries args).map Prod.snd
    | .installSnapshot _ => none

/-- In the next round `p` accepts what it is sent. -/
def Agreed (s p : Fin n) (c : Cluster n C) : Prop := (answer s p c).any (·.success) = true

instance (s p : Fin n) (c : Cluster n C) : Decidable (Agreed s p c) :=
  inferInstanceAs (Decidable (_ = true))

/-- A round in which `p` does not accept. -/
def Missed (s p : Fin n) (c d : Cluster n C) : Prop := ¬ Agreed s p c ∧ exchange s p c = some d

/-- After some rounds `p` accepts, and then the leader knows that it holds the whole log. -/
def Converges (s p : Fin n) (c : Cluster n C) : Prop :=
  ∃ d d', ReflTransGen (Missed s p) c d ∧ Agreed s p d ∧ exchange s p d = some d' ∧
    (d'.servers s).matchIndex p = (d'.servers s).log.size - 1

/-- A leader and a peer that does not know of a later term. -/
structure Paired (s p : Fin n) (c : Cluster n C) : Prop where
  regular : Regular c
  leader : (c.servers s).role = .leader
  term : (c.servers p).currentTerm ≤ (c.servers s).currentTerm
  ne : p ≠ s

section Round

variable {s p : Fin n} {c : Cluster n C}

/-- The first step of a round: the request to `p` is where `callTo` looks for it. -/
theorem Paired.sent (h : Paired s p c) {round : Round n C}
    (hround : (c.servers s).roundFor s p = some round) :
    ∃ c₁, c.step (.startReplication s (c.servers s).currentTerm) = some c₁ ∧
      c₁.servers s = (c.servers s).own s ∧ c₁.servers p = c.servers p ∧
      c₁.net[callTo s p c]? =
        some ⟨s, c₁.epochs s, p, (c.servers s).currentTerm, round.rpc⟩ := by
  obtain ⟨a, hsim, -, htr⟩ := h.regular
  have hok := htr.leaders s h.leader
  obtain ⟨rounds, heq, hfst, hrounds⟩ := Raft.startReplication_eq s h.leader fun q _ =>
    hok.exists_round (hsim.servers s).log q
  refine ⟨(c.put s ((c.servers s).own s)).send s (c.servers s).currentTerm
    (rounds.map fun x => (x.1, x.2.rpc)), ?_, Function.update_self _ _ _,
    Function.update_of_ne h.ne _ _, ?_⟩
  · rw [Cluster.step, if_neg (not_not_intro hok.running), heq]
  · have hmem : p ∈ (List.finRange n).filter (· ≠ s) := by simp [h.ne]
    have hidx := List.getElem?_idxOf hmem
    rw [← hfst, List.getElem?_map] at hidx
    obtain ⟨⟨q, r⟩, hr, rfl⟩ := Option.map_eq_some_iff.mp hidx
    obtain rfl := Option.some.inj ((hrounds _ r (List.mem_of_getElem? hr)).symm.trans hround)
    rw [hfst] at hr
    simp only [Cluster.send, Cluster.put, callTo]
    rw [List.getElem?_append_right (Nat.le_add_right _ _), Nat.add_sub_cancel_left, List.getElem?_map,
      List.getElem?_map, hr]
    rfl

/-- The other two steps: `p` turns the call into `call'`, and that takes the leader to `lead`. -/
theorem Paired.exchange_eq (h : Paired s p c) {c₁ : Cluster n C} {call : Call n C}
    (call' : Call n C) {rf lead : Raft n C}
    (hc₁ : c.step (.startReplication s (c.servers s).currentTerm) = some c₁)
    (hk : c₁.net[callTo s p c]? = some call)
    (hserve : c₁.serve (callTo s p c) call =
      some { c₁.put p rf with net := c₁.net.set (callTo s p c) call' })
    (hreceive : ∀ c₂ : Cluster n C, c₂.servers s = c₁.servers s → c₂.epochs = c₁.epochs →
      c₂.receive (callTo s p c) call' =
        some ({ c₂ with net := c₂.net.eraseIdx (callTo s p c) }.put s lead)) :
    ∃ d, exchange s p c = some d ∧ d.servers s = lead ∧ d.servers p = rf := by
  have hlt := (List.getElem?_eq_some_iff.mp hk).1
  obtain ⟨c₂, hc₂⟩ : ∃ c₂ : Cluster n C,
      c₂ = { c₁.put p rf with net := c₁.net.set (callTo s p c) call' } := ⟨_, rfl⟩
  have hs : c₂.servers s = c₁.servers s := hc₂ ▸ Function.update_of_ne h.ne.symm _ _
  have hp : c₂.servers p = rf := hc₂ ▸ Function.update_self _ _ _
  have hk₂ : c₂.net[callTo s p c]? = some call' := hc₂ ▸ List.getElem?_set_self hlt
  have hserved : c₁.step (.serve (callTo s p c)) = some c₂ := by
    rw [Cluster.step, hk, Option.bind_some, hserve, hc₂]
  have hreturned : c₂.step (.return (callTo s p c)) =
      some ({ c₂ with net := c₂.net.eraseIdx (callTo s p c) }.put s lead) := by
    rw [Cluster.step, hk₂, Option.bind_some]
    exact hreceive c₂ hs (hc₂ ▸ rfl)
  exact ⟨_, exec_of_run (.cons trivial hc₁ (.cons trivial hserved (.cons trivial hreturned (.nil _)))),
    Function.update_self _ _ _, (Function.update_of_ne h.ne _ _).trans hp⟩

/-- A round with an `AppendEntries` request. -/
theorem Paired.exchange_append (h : Paired s p c) {args : AppendEntriesArgs n C}
    {rf lead : Raft n C} {reply : AppendEntriesReply}
    (hround : (c.servers s).roundFor s p = some (.appendEntries args))
    (hreq : (c.servers p).appendEntries args = some (rf, reply))
    (hrep : ((c.servers s).own s).replicateToPeer (c.servers s).currentTerm p args reply = some lead) :
    ∃ d, exchange s p c = some d ∧ d.servers s = lead ∧ d.servers p = rf := by
  obtain ⟨c₁, hc₁, hs, hp, hk⟩ := h.sent hround
  refine h.exchange_eq ⟨s, c₁.epochs s, p, (c.servers s).currentTerm,
    .appendEntries args (some reply)⟩ hc₁ hk ?_ ?_
  · simp only [Cluster.serve, Round.rpc, hp, hreq]
  · intro c₂ hs₂ hep
    rw [Cluster.receive, if_neg (not_not_intro (by rw [hep]))]
    simp only [hs₂, hs, hrep, Cluster.after]

/-- A round with a snapshot. -/
theorem Paired.exchange_install (h : Paired s p c) {args : InstallSnapshotArgs n}
    (hround : (c.servers s).roundFor s p = some (.installSnapshot args)) :
    ∃ d, exchange s p c = some d ∧
      d.servers s = ((c.servers s).own s).installToPeer (c.servers s).currentTerm p args
        ((c.servers p).installSnapshot args).2 ∧
      d.servers p = ((c.servers p).installSnapshot args).1 := by
  obtain ⟨c₁, hc₁, hs, hp, hk⟩ := h.sent hround
  refine h.exchange_eq ⟨s, c₁.epochs s, p, (c.servers s).currentTerm,
    .installSnapshot args (some ((c.servers p).installSnapshot args).2)⟩ hc₁ hk ?_ ?_
  · simp only [Cluster.serve, Round.rpc, hp]
  · intro c₂ hs₂ hep
    rw [Cluster.receive, if_neg (not_not_intro (by rw [hep]))]
    simp only [hs₂, hs]

/-! ### What a round does to the indexes -/

/-- After a round the two are still paired, if the leader is still there and `p` follows it. -/
theorem Paired.after (h : Paired s p c) {d : Cluster n C} (hd : exchange s p c = some d)
    (hrole : (d.servers s).role = .leader)
    (hs : (d.servers s).currentTerm = (c.servers s).currentTerm)
    (hp : (d.servers p).currentTerm = (c.servers s).currentTerm) : Paired s p d :=
  ⟨h.regular.run (run_of_exec hd), hrole, le_of_eq (hp.trans hs.symm), h.ne⟩

/-- A round with a snapshot moves on, unless the peer is known to hold the snapshot. -/
theorem Paired.install (h : Paired s p c)
    (hnext : (c.servers s).nextIndex p ≤ (c.servers s).log.snapLastIdx) :
    ¬ Agreed s p c ∧ ∃ d, exchange s p c = some d ∧ Paired s p d ∧ (gap s p c).Step (gap s p d) := by
  obtain ⟨a, hsim, -, htr⟩ := h.regular
  obtain ⟨hlo, hhi⟩ := (htr.leaders s h.leader).next p
  rcases Raft.roundFor_eq (hsim.servers s).log s hlo hhi with ⟨-, hround⟩ | ⟨hlt, -⟩
  swap
  · exact absurd hlt (Nat.not_lt_of_le hnext)
  obtain ⟨args, hargs, hidx, hround⟩ : ∃ args : InstallSnapshotArgs n,
      args.term = (c.servers s).currentTerm ∧
      args.lastIncludedIndex = (c.servers s).log.snapLastIdx ∧
      (c.servers s).roundFor s p = some (.installSnapshot args) := ⟨_, rfl, rfl, hround⟩
  refine ⟨by simp [Agreed, answer, hround], ?_⟩
  obtain ⟨d, hd, hlead, hpeer⟩ := h.exchange_install hround
  have hreply := ((c.servers p).installSnapshot_cases args).1
  obtain ⟨hterm, hsnap⟩ := Raft.installSnapshot_follows (h.term.trans_eq hargs.symm)
  rw [← hpeer, hargs] at hterm
  rw [← hpeer] at hsnap
  have hleader : ((c.servers s).own s).role = .leader := h.leader
  have hmatch : ((c.servers s).own s).matchIndex p = (c.servers s).matchIndex p :=
    Function.update_of_ne h.ne _ _
  have hkeep : ((c.servers s).own s).nextIndex p = (c.servers s).nextIndex p :=
    Function.update_of_ne h.ne _ _
  have hown := hlead.trans (Raft.installToPeer_eq hleader p args (hreply.trans_le h.term))
  rw [hmatch, hidx] at hown
  refine ⟨d, hd, ?_⟩
  split_ifs at hown with hm
  · refine ⟨h.after hd (by rw [hown]; exact h.leader) (by rw [hown]; rfl) hterm, ?_⟩
    have hgap : gap s p d = { gap s p c with
        next := (gap s p c).snap + 1, matched := (gap s p c).snap,
        peerSnap := (d.servers p).log.snapLastIdx } := by
      simp only [gap, hown, Raft.recordMatch, Function.update_self]
      rfl
    rw [hgap]
    exact .install hnext hm _ hsnap
  · refine ⟨h.after hd (by rw [hown]; exact h.leader) (by rw [hown]; rfl) hterm, ?_⟩
    have hgap : gap s p d = { gap s p c with peerSnap := (d.servers p).log.snapLastIdx } := by
      simp only [gap, hown, hmatch, hkeep]
      rfl
    rw [hgap]
    exact .known hnext (Nat.le_of_not_lt hm) _

/-- An `AppendEntries` request of the leader's next round, and what `p` says to it. -/
structure Asked (s p : Fin n) (c : Cluster n C) (a : Abs n C) (args : AppendEntriesArgs n C)
    (rf : Raft n C) (reply : AppendEntriesReply) : Prop where
  round : (c.servers s).roundFor s p = some (.appendEntries args)
  answered : (c.servers p).appendEntries args = some (rf, reply)
  term : args.term = (c.servers s).currentTerm
  prev : args.prevLogIndex + 1 = (c.servers s).nextIndex p
  snap : (c.servers s).log.snapLastIdx ≤ args.prevLogIndex
  prevTerm : args.prevLogTerm = termAt (a.log s) args.prevLogIndex
  whole : args.prevLogIndex + args.entries.length = (a.log s).length

variable {a : Abs n C} {args : AppendEntriesArgs n C} {rf : Raft n C} {reply : AppendEntriesReply}

theorem Paired.asked (h : Paired s p c) (hsim : Sim c a) (htr : Tracked c)
    (hnext : (c.servers s).log.snapLastIdx < (c.servers s).nextIndex p) :
    ∃ args rf reply, Asked s p c a args rf reply := by
  have hrepr := (hsim.servers s).log
  obtain ⟨hlo, hhi⟩ := (htr.leaders s h.leader).next p
  rcases Raft.roundFor_eq hrepr s hlo hhi with ⟨hle, -⟩ | ⟨-, hround⟩
  · exact absurd hnext (Nat.not_lt_of_le hle)
  · obtain ⟨rf, reply, hreq⟩ := Raft.appendEntries_total (hsim.servers p).log
      ⟨(c.servers s).currentTerm, s, (c.servers s).nextIndex p - 1,
        termAt (a.log s) ((c.servers s).nextIndex p - 1),
        (a.log s).drop ((c.servers s).nextIndex p - 1), (c.servers s).commitIndex⟩
    refine ⟨_, rf, reply, hround, hreq, rfl, Nat.sub_add_cancel hlo, Nat.le_sub_one_of_lt hnext, rfl, ?_⟩
    rw [hrepr.size] at hhi
    dsimp only
    rw [List.length_drop]
    omega

theorem Asked.agreed_iff (h : Asked s p c a args rf reply) : Agreed s p c ↔ reply.success = true := by
  simp [Agreed, answer, h.round, h.answered]

/-- Where `p` accepts, `nextIndex` lies above both snapshots. -/
theorem Agreed.not_doomed (hagreed : Agreed s p c) (h : Paired s p c) : ¬ (gap s p c).Doomed := by
  obtain ⟨a, hsim, -, htr⟩ := h.regular
  rcases Nat.lt_or_ge (c.servers s).log.snapLastIdx ((c.servers s).nextIndex p) with hlt | hge
  swap
  · exact absurd hagreed (h.install hge).1
  obtain ⟨args, rf, reply, hask⟩ := h.asked hsim htr hlt
  have hprev := hask.prev
  have hyes := hask.agreed_iff.mp hagreed
  obtain ⟨-, ⟨-, -, hno⟩ | ⟨-, -, hno⟩ | ⟨-, -, -, hsnap, -⟩⟩ := Raft.appendEntries_cases hask.answered
  · exact absurd (hyes.symm.trans hno) (by decide)
  · exact absurd (hyes.symm.trans hno) (by decide)
  · rw [Raft.becomeFollowerLocked_log] at hsnap
    simp only [Gap.Doomed, gap]
    omega

/-- Where two logs have different terms, the term of one of them starts earlier in the other, if it is
    there at all. -/
theorem Sim.firstFor_le_conflict (hsim : Sim c a) {i : ℕ} {e : LogEntry C}
    (he : (c.servers p).log.entryAt i = some e) (hne : e.term ≠ termAt (a.log s) i)
    (hterm : e.term ≠ invalidTerm) (hfound : (c.servers s).log.firstFor e.term ≠ invalidIndex) :
    (c.servers s).log.firstFor e.term ≤ i := by
  obtain ⟨d, hd, hdt⟩ := ((c.servers s).log.firstFor_cases e.term).resolve_left hfound
  obtain ⟨-, hi, het⟩ := (hsim.servers p).log.term_of_entryAt he
  obtain ⟨-, hj, hdt'⟩ := (hsim.servers s).log.term_of_entryAt hd
  have hpos : 0 < i := by
    refine Nat.pos_of_ne_zero fun h0 => hterm ?_
    rw [het, h0]
    rfl
  -- the leader has this term later, hence also here
  refine Nat.le_of_not_lt fun hlt => hne ?_
  rw [het]
  exact (termAt_eq_of_later (hsim.inv.logOk s) (hsim.inv.logOk p) hpos (le_of_lt hlt) hi hj
    (by rw [← hdt', hdt, het])).symm

/-- A refused request takes `nextIndex` back, if the peer's snapshot does not hide the conflict. -/
theorem Asked.backOff_lt (h : Asked s p c a args rf reply) (hsim : Sim c a)
    (hterm : (c.servers p).currentTerm ≤ args.term) (hno : reply.success = false)
    (hsnap : (c.servers p).log.snapLastIdx < (c.servers s).nextIndex p) :
    (c.servers s).backOff p reply < (c.servers s).nextIndex p := by
  have hprev := h.prev
  have hP := (hsim.servers p).log
  obtain ⟨x, hx, hback⟩ := (c.servers s).backOff_cases p reply
  suffices hle : x ≤ args.prevLogIndex by
    rw [hx]
    exact Nat.lt_of_le_of_lt (min_le_right _ _) (by omega)
  rcases Raft.appendEntries_refused h.answered hno with hold | ⟨hshort, hidx, ht⟩ | ⟨hbelow, -⟩ |
    ⟨e, he, hne, hidx, ht⟩
  · exact absurd hold (Nat.not_lt_of_le hterm)
  · -- the peer's log is too short: back to its end
    rcases hback with rfl | ⟨hvalid, -⟩
    · exact hidx.trans_le hshort
    · exact absurd ht hvalid
  · omega
  · -- another term stands at `prevLogIndex`: back to where that term starts, here or there
    rcases hback with rfl | ⟨hvalid, rfl, hfound⟩
    · rw [hidx]
      exact (RaftLog.firstFor_le (hP.pairwise (hsim.inv.pairwise (hsim.inv.logOk p))) he).1
    · rw [ht] at hvalid hfound ⊢
      exact hsim.firstFor_le_conflict he (h.prevTerm ▸ hne) hvalid hfound

/-- The only index that matters in this round is the one that the request confirms. -/
theorem Asked.indexOk (h : Asked s p c a args rf reply) (hsim : Sim c a) (htr : Tracked c)
    (hrole : (c.servers s).role = .leader) :
    IndexOk [(s, (c.servers s).currentTerm, args.prevLogIndex + args.entries.length)] s
      ((c.servers s).own s) := by
  refine (htr.leaders s hrole).own (hsim.servers s).log fun i hi => Or.inr ?_
  obtain rfl : i = args.prevLogIndex + args.entries.length := by simpa using hi
  exact h.snap.trans (Nat.le_add_right _ _)

/-- An accepted request: the leader knows that `p` holds the whole log. -/
theorem Asked.accepted (hask : Asked s p c a args rf reply) (h : Paired s p c) (hsim : Sim c a)
    (htr : Tracked c) (hs : reply.success = true) :
    ∃ d, exchange s p c = some d ∧ (d.servers s).matchIndex p = (d.servers s).log.size - 1 := by
  have hrepr := (hsim.servers s).log
  have hsize : (c.servers s).log.size = args.prevLogIndex + args.entries.length + 1 := by
    rw [hrepr.size, hask.whole]
  have hle := (Raft.appendEntries_cases hask.answered).1.trans_le h.term
  obtain ⟨lead, hlead, hpace, -⟩ := (hask.indexOk hsim htr h.leader).accepted p hrepr
    h.leader hle hs List.mem_cons_self (Nat.lt_of_lt_of_eq (Nat.lt_succ_self _) hsize.symm)
  obtain ⟨d, hd, hd', -⟩ := h.exchange_append hask.round hask.answered hlead
  refine ⟨d, hd, ?_⟩
  rw [hd', log_of_pace hpace, matchIndex_of_pace hpace]
  refine (Function.update_self _ _ _).trans ?_
  show _ = (c.servers s).log.size - 1
  rw [hsize, Nat.add_sub_cancel]

/-- A refused request: `nextIndex` goes back. -/
theorem Asked.refused (hask : Asked s p c a args rf reply) (h : Paired s p c) (hsim : Sim c a)
    (htr : Tracked c) (hs : reply.success = false) :
    ∃ d, exchange s p c = some d ∧ Paired s p d ∧ (gap s p c).Step (gap s p d) := by
  have hterm : (c.servers p).currentTerm ≤ args.term := h.term.trans_eq hask.term.symm
  have hprev := hask.prev
  have hsnap := hask.snap
  obtain ⟨hreply, hcases⟩ := Raft.appendEntries_cases hask.answered
  have hpos := htr.refusal_pos hsim (fun h0 => hask.prevTerm.trans (by rw [h0]; rfl)) hask.answered hs
    (hreply.trans_le hterm)
  have hrf : rf = (c.servers p).becomeFollowerLocked args.term := by
    rcases hcases with ⟨hold, -⟩ | ⟨-, heq, -⟩ | ⟨-, hyes, -⟩
    · exact absurd hold (Nat.not_lt_of_le hterm)
    · exact heq
    · exact absurd (hs.symm.trans hyes) (by decide)
  obtain ⟨d, hd, hlead, hpeer⟩ := h.exchange_append hask.round hask.answered
    ((hask.indexOk hsim htr h.leader).refused p (hsim.servers s).log h.leader
      (hreply.trans_le h.term) hs hpos)
  rw [Raft.backOff_own h.ne] at hlead
  refine ⟨d, hd, h.after hd (by rw [hlead]; exact h.leader) (by rw [hlead]; rfl) ?_, ?_⟩
  · rw [hpeer, hrf, Raft.becomeFollowerLocked_currentTerm _ _ hterm, hask.term]
  · have hgap : gap s p d = { gap s p c with next := (c.servers s).backOff p reply } := by
      simp only [gap, hlead, hpeer, hrf, Raft.becomeFollowerLocked_log, Function.update_self]
      simp only [Raft.own, Function.update_of_ne h.ne]
    rw [hgap]
    exact .backOff (by show (c.servers s).log.snapLastIdx < (c.servers s).nextIndex p; omega) _
      ((htr.leaders s h.leader).backOff_bounds p hpos).2 (hask.backOff_lt hsim hterm hs)

end Round

/-! ### All rounds -/

section Rounds

variable {s p : Fin n} {c d : Cluster n C}

/-- Every round can be carried out; if `p` does not accept, it is a step of the indexes. -/
theorem Paired.round (h : Paired s p c) : ∃ d, exchange s p c = some d ∧
    (Agreed s p c ∧ (d.servers s).matchIndex p = (d.servers s).log.size - 1 ∨
      ¬ Agreed s p c ∧ Paired s p d ∧ (gap s p c).Step (gap s p d)) := by
  obtain ⟨a, hsim, -, htr⟩ := h.regular
  rcases Nat.lt_or_ge (c.servers s).log.snapLastIdx ((c.servers s).nextIndex p) with hlt | hge
  · obtain ⟨args, rf, reply, hask⟩ := h.asked hsim htr hlt
    cases hs : reply.success with
    | true =>
      obtain ⟨d, hd, hmatch⟩ := hask.accepted h hsim htr hs
      exact ⟨d, hd, Or.inl ⟨hask.agreed_iff.mpr hs, hmatch⟩⟩
    | false =>
      obtain ⟨d, hd, hnext⟩ := hask.refused h hsim htr hs
      refine ⟨d, hd, Or.inr ⟨?_, hnext⟩⟩
      rw [hask.agreed_iff, hs]
      decide
  · obtain ⟨hno, d, hd, hnext⟩ := h.install hge
    exact ⟨d, hd, Or.inr ⟨hno, hnext⟩⟩

theorem Paired.missed (h : Paired s p c) (hm : Missed s p c d) :
    Paired s p d ∧ (gap s p c).Step (gap s p d) := by
  obtain ⟨d', hd', ⟨hyes, -⟩ | ⟨-, hnext⟩⟩ := h.round
  · exact absurd hyes hm.1
  · obtain rfl : d = d' := Option.some.inj (hm.2.symm.trans hd')
    exact hnext

theorem Paired.missed_run (h : Paired s p c) (hm : ReflTransGen (Missed s p) c d) : Paired s p d := by
  induction hm with
  | refl => exact h
  | tail _ hm ih => exact (ih.missed hm).1

/-- A round that is not stuck comes closer. -/
theorem Paired.closer (h : Paired s p c) (hno : ¬ Agreed s p c) (hs : ¬ (gap s p c).Stuck) :
    ∃ d, Missed s p c d ∧ Paired s p d ∧ (gap s p d).measure < (gap s p c).measure := by
  obtain ⟨d, hd, -⟩ := h.round
  obtain ⟨hpaired, hstep⟩ := h.missed ⟨hno, hd⟩
  obtain ⟨a, hsim, -⟩ := h.regular
  have hsize : (gap s p c).snap < (gap s p c).size := by
    have hrepr := (hsim.servers s).log
    exact Nat.lt_of_lt_of_eq (Nat.lt_succ_of_le hrepr.le) hrepr.size.symm
  exact ⟨d, ⟨hno, hd⟩, hpaired, hstep.measure_lt hs hsize⟩

theorem missed_unique : Relator.RightUnique (Missed s p : Cluster n C → Cluster n C → Prop) :=
  fun _ _ _ hd he => Option.some.inj (hd.2.symm.trans he.2)

/-- Once stuck, `p` never accepts. -/
theorem Paired.not_agreed (h : Paired s p c) (hd : (gap s p c).Doomed)
    (hm : ReflTransGen (Missed s p) c d) : ¬ Agreed s p d := by
  have hboth : Paired s p d ∧ (gap s p d).Doomed := by
    induction hm with
    | refl => exact ⟨h, hd⟩
    | tail _ hm ih =>
      obtain ⟨hpaired, hstep⟩ := ih.1.missed hm
      exact ⟨hpaired, hstep.doomed ih.2⟩
  exact fun hagreed => hagreed.not_doomed hboth.1 hboth.2

theorem Paired.not_converges (h : Paired s p c) (hm : ReflTransGen (Missed s p) c d)
    (hs : (gap s p d).Stuck) : ¬ Converges s p c := by
  rintro ⟨e, -, he, hagreed, -⟩
  -- rounds are deterministic, so `p` accepts before it is stuck or after
  rcases ReflTransGen.total_of_right_unique missed_unique hm he with hde | hed
  · exact (h.missed_run hm).not_agreed hs.doomed hde hagreed
  · rcases hed.cases_head with rfl | ⟨f, hf, -⟩
    · exact hagreed.not_doomed (h.missed_run hm) hs.doomed
    · exact hf.1 hagreed

/-- Rounds of a leader reach `p`, and no request is repeated after it failed, if and only if no round
    up to the first accepted one is sent to a peer whose snapshot reaches `nextIndex`, or with a
    snapshot that `matchIndex` covers. -/
theorem backOff_converges_iff {acts : List (Action n C)} (hc : Run Cluster.step Any Cluster.init acts c)
    (hrole : (c.servers s).role = .leader) (hne : p ≠ s)
    (hterm : (c.servers p).currentTerm ≤ (c.servers s).currentTerm) :
    (Converges s p c ∧ ∀ d d', ReflTransGen (Missed s p) c d → Missed s p d d' →
      ¬ ((d'.servers s).nextIndex p = (d.servers s).nextIndex p ∧
        (d'.servers s).roundFor s p = (d.servers s).roundFor s p)) ↔
    ∀ d, ReflTransGen (Missed s p) c d → ¬ (gap s p d).Stuck := by
  have h : Paired s p c := ⟨regular_init.run hc, hrole, hterm, hne⟩
  constructor
  · rintro ⟨hconv, -⟩ d hd hs
    exact h.not_converges hd hs hconv
  · intro hclear
    refine ⟨?_, ?_⟩
    · obtain ⟨d, hd, hpaired, hagreed⟩ := exists_goal (I := Paired s p) (G := Agreed s p)
        (B := fun d => (gap s p d).Stuck) (fun d => (gap s p d).measure)
        (fun d hpaired hno hs => hpaired.closer hno hs) h hclear
      obtain ⟨d', hd', ⟨-, hmatch⟩ | ⟨hno, -⟩⟩ := hpaired.round
      · exact ⟨d, d', hd, hagreed, hd', hmatch⟩
      · exact absurd hagreed hno
    · rintro d d' hd hm ⟨hnext, -⟩
      exact ((h.missed_run hd).missed hm).2.next_ne (hclear d hd) hnext

end Rounds

/-- In a cluster of three, server `old` leads term 2 and commits entry 1 with the first of the others. -/
def settled (old : Fin n) : List (Action n ℕ) :=
  [.tick old, .timeout old, .startElection old 2, .serve 0, .return 0,
    .start old (some 7), .startReplication old 2, .serve 1, .return 1, .tick old, .tick old]

/-- Server `old` takes one more command that nobody hears of. With the third server `new` wins term 3,
    takes another command as entry 2, restarts and wins term 4. -/
def outvoted (old new : Fin n) : List (Action n ℕ) :=
  [.start old (some 8), .timeout new, .startElection new 3, .serve 3, .return 3, .start new (some 9),
    .restart new, .timeout new, .startElection new 4, .serve 4, .return 4]

/-- The first request is refused at index 2, the second one is accepted from index 1 on. -/
theorem backOff_converges_outvoted : ∃ c : Cluster 3 ℕ,
    Run Cluster.step Any Cluster.init (settled 0 ++ outvoted 0 1) c ∧
      (c.servers 1).role = .leader ∧ ¬ Agreed 1 0 c ∧ Converges 1 0 c := by
  obtain ⟨c, hc, hq⟩ := exists_run Cluster.step Any Cluster.init (settled 0 ++ outvoted 0 1)
    (fun c : Cluster 3 ℕ => decide ((c.servers 1).role = .leader ∧
      (c.servers 0).currentTerm ≤ (c.servers 1).currentTerm ∧ ¬ Agreed 1 0 c ∧ ¬ (gap 1 0 c).Stuck ∧
      (exchange 1 0 c).all (fun d => decide (Agreed 1 0 d ∧ ¬ (gap 1 0 d).Stuck)) = true))
    (by decide +kernel)
  obtain ⟨hrole, hterm, hno, hs, hnext⟩ := of_decide_eq_true hq
  refine ⟨c, hc, hrole, hno, ((backOff_converges_iff hc hrole (by decide) hterm).mpr ?_).1⟩
  intro d hd
  rcases hd.cases_head with rfl | ⟨e, hce, hed⟩
  · exact hs
  · rw [hce.2, Option.all_some] at hnext
    obtain ⟨hagreed, hclear⟩ := of_decide_eq_true hnext
    rcases hed.cases_head with rfl | ⟨f, hef, -⟩
    · exact hclear
    · exact absurd hagreed hef.1

/-- The same run, but `old` compacts entry 1 once it is committed. -/
def compacted (old new : Fin n) : List (Action n ℕ) :=
  settled old ++ .snapshot old 1 [9] :: outvoted old new

/-- Server 0 refuses the first request at index 2 and reports term 2, which starts at index 1 in both
    logs; the leader goes back to `nextIndex` 1, and a request from index 0 on is below the snapshot of
    server 0. It reports term 2 again, and the request is repeated. -/
theorem backOff_below_snapshot : ∃ c d d' : Cluster 3 ℕ,
    Run Cluster.step Any Cluster.init (compacted 0 1) c ∧
      (c.servers 1).role = .leader ∧ (c.servers 0).currentTerm ≤ (c.servers 1).currentTerm ∧
      Missed 1 0 c d ∧ Missed 1 0 d d' ∧ (d'.servers 1).nextIndex 0 = (d.servers 1).nextIndex 0 ∧
      (d'.servers 1).roundFor 1 0 = (d.servers 1).roundFor 1 0 ∧ ¬ Converges 1 0 c := by
  obtain ⟨c, hc, hq⟩ := exists_run Cluster.step Any Cluster.init (compacted 0 1)
    (fun c : Cluster 3 ℕ => decide ((c.servers 1).role = .leader ∧
      (c.servers 0).currentTerm ≤ (c.servers 1).currentTerm ∧ ¬ Agreed 1 0 c) &&
      (exchange 1 0 c).any (fun d => decide (¬ Agreed 1 0 d ∧ (gap 1 0 d).Stuck) &&
        (exchange 1 0 d).any fun d' : Cluster 3 ℕ => decide (
          (d'.servers 1).nextIndex 0 = (d.servers 1).nextIndex 0 ∧
          (d'.servers 1).roundFor 1 0 = (d.servers 1).roundFor 1 0)))
    (by decide +kernel)
  rw [Bool.and_eq_true, decide_eq_true_iff] at hq
  obtain ⟨⟨hrole, hterm, hno⟩, hq⟩ := hq
  obtain ⟨d, hd, hq⟩ := (Option.any_eq_true _ _).mp hq
  rw [Bool.and_eq_true, decide_eq_true_iff] at hq
  obtain ⟨⟨hno', hs⟩, hq⟩ := hq
  obtain ⟨d', hd', hq⟩ := (Option.any_eq_true _ _).mp hq
  obtain ⟨hnext, hround⟩ := of_decide_eq_true hq
  have h : Paired 1 0 c := ⟨regular_init.run hc, hrole, hterm, by decide⟩
  have hm : Missed 1 0 c d := ⟨hno, hd⟩
  exact ⟨c, d, d', hc, hrole, hterm, hm, ⟨hno', hd'⟩, hnext, hround, h.not_converges (.single hm) hs⟩

end GoServices.Consensus
