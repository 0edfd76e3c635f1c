import GoServices.Raft.Effects
import GoServices.Raft.Simulation
import GoServices.Schemes.TermCommit
import Mathlib.Data.Nat.Notation

/-! Every step of the cluster is a step of the abstract protocol.

    One lemma per thing a server can do says which abstract operation it is; `Sim.step` collects
    them, and a run of the cluster only ever extends what is on record. -/

namespace GoServices.Consensus

open TermLog Runs

variable {n : ℕ} {C : Type} {c c' : Cluster n C} {a b : Abs n C} {s : Fin n} {rf' : Raft n C}

/-! ### Ballots and the voter's check -/

theorem ballots_asked (c : Cluster n C) (s : Fin n) (args : RequestVoteArgs n) :
    ballots (asked c s args) =
      ((List.finRange n).filter (· ≠ s)).map fun peer => (s, c.epochs s, args.term, peer) := by
  rw [ballots, asked, List.filterMap_map]
  exact congrFun (List.filterMap_eq_map (f := fun peer => (s, c.epochs s, args.term, peer))) _

theorem mem_ballots_asked {c : Cluster n C} {args : RequestVoteArgs n} {r p : Fin n} {e t : ℕ} :
    (r, e, t, p) ∈ ballots (asked c s args) ↔
      r = s ∧ e = c.epochs s ∧ t = args.term ∧ p ≠ s := by
  rw [ballots_asked]
  constructor
  · intro hp
    obtain ⟨q, hq, heq⟩ := List.mem_map.mp hp
    simp only [Prod.mk.injEq] at heq
    obtain ⟨rfl, rfl, rfl, rfl⟩ := heq
    exact ⟨rfl, rfl, rfl, by simpa using (List.mem_filter.mp hq).2⟩
  · rintro ⟨rfl, rfl, rfl, hp⟩
    exact List.mem_map.mpr ⟨p, List.mem_filter.mpr ⟨List.mem_finRange p, by simpa using hp⟩, rfl⟩

/-- A ballot that comes back is no longer out. -/
theorem ballot_returned {net : List (Call n C)} (hnodup : (ballots net).Nodup) {k : ℕ}
    {call : Call n C} (hk : net[k]? = some call) {x : Fin n × ℕ × ℕ × Fin n}
    (hx : call.ballot = some x) : x ∉ ballots (net.eraseIdx k) := by
  induction net generalizing k with
  | nil => simp at hk
  | cons y ys ih =>
    cases k with
    | zero =>
      obtain rfl : y = call := by simpa using hk
      rw [ballots, List.filterMap_cons_some hx] at hnodup
      exact (List.nodup_cons.mp hnodup).1
    | succ k =>
      rw [List.getElem?_cons_succ] at hk
      rw [List.eraseIdx_cons_succ]
      cases hy : y.ballot with
      | none =>
        rw [ballots, List.filterMap_cons_none hy] at hnodup ⊢
        exact ih hnodup hk
      | some z =>
        rw [ballots, List.filterMap_cons_some hy] at hnodup ⊢
        obtain ⟨hz, hys⟩ := List.nodup_cons.mp hnodup
        have hmem : x ∈ ballots ys := List.mem_filterMap.mpr ⟨call, List.mem_of_getElem? hk, hx⟩
        rw [List.mem_cons, not_or]
        exact ⟨fun hxz => hz (hxz ▸ hmem), ih hys hk⟩

/-- The voter's check is the comparison of the abstract protocol. -/
theorem upToDate_of_check {rf : Raft n C} {X Y : List (LogEntry C)} (hY : Repr rf.log Y) {i t : ℕ}
    (hi : i = X.length) (ht : t = termAt X i) (h : rf.isMoreUpToDateLocked i t = some false) :
    UpToDate LogEntry.term X Y := by
  rw [Raft.isMoreUpToDateLocked, hY.last, Option.map_some, Option.some.injEq] at h
  subst hi ht
  dsimp only at h
  rcases Y.length.eq_zero_or_pos with h0 | hpos
  · exact Or.inl (List.length_eq_zero_iff.mp h0)
  obtain ⟨y, hy, hyt⟩ := exists_getElem? hpos (le_refl _)
  rw [← hyt] at h
  have hX : 0 < X.length := by
    by_contra h0
    rw [Nat.eq_zero_of_not_pos h0, termAt] at h
    split_ifs at h with hne
    · simp only [decide_eq_false_iff_not] at h; omega
    · simp only [decide_eq_false_iff_not] at h; omega
  obtain ⟨x, hx, hxt⟩ := exists_getElem? hX (le_refl _)
  rw [← hxt] at h
  refine Or.inr ⟨x, y, hx, hy, ?_⟩
  split_ifs at h with hne <;> simp only [decide_eq_false_iff_not] at h <;> omega

/-! ### Shapes of steps -/

namespace TallyOk

variable {out out' : List (Fin n × ℕ × ℕ × Fin n)} {epoch epoch' : ℕ} {rf : Raft n C}

/-- Whoever is no candidate after the step has nothing to count. -/
theorem leave (h : TallyOk a out epoch s rf) (hrole : rf'.role ≠ .candidate)
    (hel : rf'.elections = rf.elections) (hcur : rf.currentTerm ≤ rf'.currentTerm) :
    TallyOk b out' epoch' s rf' :=
  of_not_candidate hrole (hel ▸ h.nodup) fun t ht => le_trans (h.le t (hel ▸ ht)) hcur

theorem become_follower (h : TallyOk a out epoch s rf) {t : ℕ} (ht : rf.currentTerm ≤ t) :
    TallyOk b out' epoch s (rf.becomeFollowerLocked t) :=
  h.leave (by rw [Raft.becomeFollowerLocked_role _ _ ht]; decide)
    (Raft.becomeFollowerLocked_elections _ _)
    (by rw [Raft.becomeFollowerLocked_currentTerm _ _ ht]; exact ht)

end TallyOk

namespace Sim

/-- One server moves on, and calls may come to an end. -/
theorem put (h : Sim c a) (hf : Frame s a b) (hi : Inv LogEntry.term b) (hs : ServerOk b s rf')
    {net : List (Call n C)} (hnet : net.Sublist c.net)
    (ht : TallyOk b (ballots net) (c.epochs s) s rf') : Sim { c.put s rf' with net := net } b := by
  refine h.quiet hf hi (fun r hr => Function.update_of_ne hr _ _) (fun _ _ => rfl) ?_ hnet ?_
  · rw [show ({ c.put s rf' with net := net } : Cluster n C).servers s = rf' from
      Function.update_self _ _ _]
    exact hs
  · rw [show ({ c.put s rf' with net := net } : Cluster n C).servers s = rf' from
      Function.update_self _ _ _]
    exact ht

/-- A server moves on in ways that neither the record nor the tally sees. -/
theorem keep (h : Sim c a) (hc : core rf' = core (c.servers s)) (hp : poll rf' = poll (c.servers s))
    {net : List (Call n C)} (hnet : net.Sublist c.net) : Sim { c.put s rf' with net := net } a :=
  h.put (Frame.refl s a) h.inv ((h.servers s).of_core hc) hnet
    ((h.tally s).keep (Ext.refl a) (fun _ _ hp => (hnet.filterMap _).subset hp) hp)

theorem follow (h : Sim c a) {t : ℕ} (ht : (c.servers s).currentTerm ≤ t) {net : List (Call n C)}
    (hnet : net.Sublist c.net) : ∃ b, LogFree LogEntry.term s a b ∧
      Sim { c.put s ((c.servers s).becomeFollowerLocked t) with net := net } b := by
  have hmove : LogFree LogEntry.term s a (a.bump s t) := LogFree.bump ((h.servers s).cur ▸ ht)
  exact ⟨_, hmove, h.put hmove.frame (hmove.inv h.inv) ((h.servers s).become_follower h.inv ht) hnet
    ((h.tally s).become_follower ht)⟩

theorem restart (h : Sim c a) (s : Fin n) {net : List (Call n C)} (hnet : net.Sublist c.net) :
    Sim { c.restart s with net := net } a := by
  have hself : ({ c.restart s with net := net } : Cluster n C).servers s =
      Raft.make (c.servers s).persister := Function.update_self _ _ _
  obtain ⟨hrole, hel⟩ := Raft.make_idle (c.servers s).persister
  refine h.quiet (Frame.refl s a) h.inv (fun r hr => Function.update_of_ne hr _ _)
    (fun r hr => Function.update_of_ne hr _ _) ?_ hnet ?_
  · rw [hself]; exact (h.servers s).restart
  · rw [hself]
    refine TallyOk.of_not_candidate (by rw [hrole]; decide) (by rw [hel]; exact List.nodup_nil) ?_
    intro t ht
    rw [hel] at ht
    exact absurd ht List.not_mem_nil

theorem lose (h : Sim c a) (k : ℕ) : Sim { c with net := c.net.eraseIdx k } a where
  inv := h.inv
  servers := h.servers
  calls := fun call hcall => h.calls call ((List.eraseIdx_sublist _ _).subset hcall)
  tally := fun s => (h.tally s).keep (Ext.refl a) (fun _ _ hp => (ballots_erase _ _).subset hp) rfl
  nodup := (ballots_erase _ _).nodup h.nodup

/-- The peer of a call has handled it. -/
theorem served (h : Sim c a) {k : ℕ} {call call' : Call n C} (hk : c.net[k]? = some call)
    (hf : Frame s a b) (hi : Inv LogEntry.term b) (hok : ServerOk b s rf')
    (hcall : CallOk b call') (hb : call'.ballot = call.ballot)
    (ht : TallyOk b (ballots c.net) (c.epochs s) s rf') :
    Sim { c.put s rf' with net := c.net.set k call' } b := by
  have hself : ({ c.put s rf' with net := c.net.set k call' } : Cluster n C).servers s = rf' :=
    Function.update_self _ _ _
  have hbal : ballots (c.net.set k call') = ballots c.net := ballots_set hk hb
  refine h.act hf hi (fun r hr => Function.update_of_ne hr _ _) (fun _ _ => rfl)
    (by rw [hself]; exact hok) ?_ (fun r _ e t p hp => hbal ▸ hp) ?_ ?_
  · intro x hx
    rcases List.mem_or_eq_of_mem_set hx with hold | rfl
    · exact Or.inl hold
    · exact Or.inr hcall
  · exact hbal.symm ▸ h.nodup
  · rw [hself]; exact hbal.symm ▸ ht

/-! ### Elections -/

theorem timeout (h : Sim c a) (hrole : (c.servers s).role ≠ .leader) :
    ∃ b, LogFree LogEntry.term s a b ∧ Sim (c.put s ((c.servers s).electionTimeout s)) b := by
  have hcur : a.cur s < (c.servers s).currentTerm + 1 := by rw [← (h.servers s).cur]; omega
  have hmove := LogFree.stand h.inv hcur
  have htally := h.tally s
  have hnew : (c.servers s).electionTimeout s = { (c.servers s).becomeCandidateLocked s with
      elections := (c.servers s).elections ++ [(c.servers s).currentTerm + 1] } := by
    rw [Raft.electionTimeout, if_neg hrole, Raft.becomeCandidateLocked, if_neg hrole]
    rfl
  have hterm : ((c.servers s).becomeCandidateLocked s).currentTerm =
      (c.servers s).currentTerm + 1 := by
    rw [Raft.becomeCandidateLocked, if_neg hrole]; rfl
  refine ⟨_, hmove, h.put hmove.frame (hmove.inv h.inv) ((h.servers s).time_out h.inv hrole)
    (List.Sublist.refl _) ?_⟩
  rw [hnew]
  refine ⟨?_, ?_, ?_, ?_⟩
  · refine List.Nodup.append htally.nodup (List.nodup_singleton _) ?_
    rw [List.disjoint_singleton]
    intro hmem
    have := htally.le _ hmem
    omega
  · intro t ht
    rw [hterm]
    rcases List.mem_append.mp ht with ht | ht
    · have := htally.le t ht; omega
    · exact le_of_eq (List.mem_singleton.mp ht)
  · -- nobody has been asked for the new term
    intro _ _ p hp
    have := h.ballot_le hp
    rw [hterm] at this
    omega
  · intro _ hmem
    rw [hterm] at hmem
    exact absurd (List.mem_append_right _ (List.mem_singleton_self _)) hmem

/-- A goroutine that comes too late to run its election. -/
theorem skipElection (h : Sim c a) {term : ℕ}
    (hlost : (c.servers s).role ≠ .candidate ∨ (c.servers s).currentTerm ≠ term) :
    Sim (c.put s { c.servers s with elections := (c.servers s).elections.erase term }) a := by
  have htally := h.tally s
  have hok : ServerOk a s { c.servers s with elections := (c.servers s).elections.erase term } :=
    (h.servers s).of_core rfl
  refine h.put (Frame.refl s a) h.inv hok (List.Sublist.refl _) ?_
  refine ⟨htally.nodup.erase _, fun t ht => htally.le t (List.mem_of_mem_erase ht),
    fun hr ht => htally.fresh hr (List.mem_of_mem_erase ht), fun hr ht => htally.counted hr ?_⟩
  exact fun hmem => ht ((List.mem_erase_of_ne (hlost.resolve_left (not_not_intro hr))).mpr hmem)

/-- An election begins: its counter starts with the own vote, everyone else is asked. -/
theorem startElection (h : Sim c a) {lastIdx lastTerm : ℕ}
    (hrole : (c.servers s).role = .candidate)
    (hmem : (c.servers s).currentTerm ∈ (c.servers s).elections)
    (hlast : (c.servers s).log.last = some (lastIdx, lastTerm)) :
    Sim { c.put s { c.servers s with
        elections := (c.servers s).elections.erase (c.servers s).currentTerm
        votes := Function.update (c.servers s).votes (c.servers s).currentTerm 1 } with
      net := c.net ++ asked c s ⟨(c.servers s).currentTerm, s, lastIdx, lastTerm⟩ } a := by
  have hok := h.servers s
  have htally := h.tally s
  obtain ⟨hv, hclog, hlead⟩ := hok.cand hrole
  generalize hrf' : ({ c.servers s with
        elections := (c.servers s).elections.erase (c.servers s).currentTerm
        votes := Function.update (c.servers s).votes (c.servers s).currentTerm 1 } : Raft n C) = rf'
  have hfresh := htally.fresh hrole hmem
  have hself : ∀ net, ({ c.put s rf' with net := net } : Cluster n C).servers s = rf' :=
    fun net => Function.update_self _ _ _
  generalize hargs : (⟨(c.servers s).currentTerm, s, lastIdx, lastTerm⟩ : RequestVoteArgs n) = args
  have hterm : args.term = (c.servers s).currentTerm := by rw [← hargs]
  have hsplit : ballots (c.net ++ asked c s args) = ballots c.net ++ ballots (asked c s args) :=
    List.filterMap_append
  refine h.act (s := s) (Frame.refl s a) h.inv (fun r hr => Function.update_of_ne hr _ _)
    (fun _ _ => rfl) ?_ ?_ ?_ ?_ ?_
  · rw [hself, ← hrf']; exact hok.of_core rfl
  · intro call hcall
    rcases List.mem_append.mp hcall with hold | hnew
    · exact Or.inl hold
    · obtain ⟨peer, hpeer, rfl⟩ := List.mem_map.mp hnew
      rw [hok.log.last, Option.some.injEq, Prod.mk.injEq] at hlast
      refine Or.inr ⟨rfl, by rw [← hargs], by simpa using (List.mem_filter.mp hpeer).2,
        by rw [hterm]; exact hv, ?_, ?_, fun r hr => absurd hr (by simp)⟩
      · rw [hterm, ← hclog, ← hargs]; exact hlast.1.symm
      · rw [hterm, ← hclog, ← hargs, ← hlast.1]; exact hlast.2.symm
  · intro r hr e t p hp
    rw [hsplit, List.mem_append] at hp
    exact hp.resolve_right fun hx => hr (mem_ballots_asked.mp hx).1
  · rw [hsplit]
    refine h.nodup.append ?_ ?_
    · rw [ballots_asked]
      refine ((List.nodup_finRange n).filter _).map ?_
      exact fun p q hpq => (by simpa using hpq)
    · rintro ⟨r, e, t, p⟩ hold hnew
      obtain ⟨rfl, rfl, rfl, -⟩ := mem_ballots_asked.mp hnew
      exact hfresh p (hterm ▸ hold)
  · rw [hself, ← hrf', hsplit]
    refine ⟨htally.nodup.erase _, fun t ht => htally.le t (List.mem_of_mem_erase ht),
      fun _ ht => absurd ht (htally.nodup.not_mem_erase), fun _ _ => ⟨{s}, ?_, ?_, ?_⟩⟩
    · simp only [Finset.card_singleton, Function.update_self]
    · intro v hvW
      rw [Finset.mem_singleton.mp hvW]; exact hv
    · intro p hp hpW
      rw [Finset.mem_singleton.mp hpW] at hp
      rcases List.mem_append.mp hp with hold | hnew
      · exact hfresh s hold
      · exact (mem_ballots_asked.mp hnew).2.2.2 rfl

theorem adopt_ok (h : Sim c a) {t : ℕ} (ht : (c.servers s).currentTerm ≤ t) :
    ServerOk (a.bump s t) s ((c.servers s).adopt t) ∧ ((c.servers s).adopt t).currentTerm = t ∧
    TallyOk (a.bump s t) (ballots c.net) (c.epochs s) s ((c.servers s).adopt t) := by
  unfold Raft.adopt
  split_ifs with hlt
  · exact ⟨(h.servers s).become_follower h.inv ht, Raft.becomeFollowerLocked_currentTerm _ _ ht,
      (h.tally s).become_follower ht⟩
  · have heq : (c.servers s).currentTerm = t := by omega
    rw [bump_self ((h.servers s).cur ▸ heq)]
    exact ⟨h.servers s, heq, h.tally s⟩

/-- A vote request is answered; a vote that is given is on record. -/
theorem vote_answered (h : Sim c a) {k : ℕ} {call : Call n C} {args : RequestVoteArgs n}
    {reply : RequestVoteReply} (hk : c.net[k]? = some call) (hrpc : call.rpc = .requestVote args none)
    (he : Ext a b) (hvote : reply.voteGranted = true → b.vote call.term call.peer = some call.caller) :
    CallOk b { call with rpc := .requestVote args (some reply) } := by
  have hb : CallOk b call := (h.calls call (List.mem_of_getElem? hk)).mono h.inv he
  simp only [CallOk, hrpc] at hb
  refine ⟨hb.term, hb.cand, hb.ne, hb.stood, hb.lastIndex, hb.lastTerm, ?_⟩
  rintro r hr hg
  exact hvote (Option.some.inj hr ▸ hg)

theorem serveVote (h : Sim c a) {k : ℕ} {call : Call n C} {args : RequestVoteArgs n}
    {reply : RequestVoteReply} (hk : c.net[k]? = some call)
    (hrpc : call.rpc = .requestVote args none)
    (hreq : (c.servers call.peer).requestVote args = some (rf', reply)) :
    ∃ b, LogFree LogEntry.term call.peer a b ∧ Sim { c.put call.peer rf' with
      net := c.net.set k { call with rpc := .requestVote args (some reply) } } b := by
  have hcall : VoteCallOk a call args none := by
    have := h.calls call (List.mem_of_getElem? hk)
    simpa only [CallOk, hrpc] using this
  have hbal : ({ call with rpc := .requestVote args (some reply) } : Call n C).ballot =
      call.ballot := by simp only [Call.ballot, hrpc]
  have hrefused : ∀ {b}, Ext a b → reply.voteGranted = false →
      CallOk b { call with rpc := .requestVote args (some reply) } := fun he hno =>
    h.vote_answered hk hrpc he fun hg => absurd (hno.symm.trans hg) (by decide)
  rcases Raft.requestVote_cases hreq with ⟨-, hrf, hre⟩ | ⟨ht, hrf, hre⟩ | ⟨ht, hv, hup, hrf, hre⟩
  · refine ⟨a, LogFree.refl _ a, ?_⟩
    rw [hrf]
    exact h.served hk (Frame.refl _ a) h.inv (h.servers _) (hrefused (Ext.refl a) (by rw [hre]))
      hbal (h.tally _)
  · have hmove : LogFree LogEntry.term call.peer a (a.bump call.peer args.term) :=
      LogFree.bump ((h.servers _).cur ▸ ht)
    obtain ⟨hok, -, htal⟩ := h.adopt_ok ht
    refine ⟨_, hmove, ?_⟩
    rw [hrf]
    exact h.served hk hmove.frame (hmove.inv h.inv) hok (hrefused hmove.frame.ext (by rw [hre]))
      hbal htal
  · have hmove : LogFree LogEntry.term call.peer a (a.bump call.peer args.term) :=
      LogFree.bump ((h.servers _).cur ▸ ht)
    obtain ⟨hok, hcur, htal⟩ := h.adopt_ok ht
    have hstood : a.vote args.term args.candidateId = some args.candidateId := by
      rw [hcall.term, hcall.cand]; exact hcall.stood
    have hgrant := hok.grant (hmove.inv h.inv) hv args.candidateId hcur
    have hcast : LogFree LogEntry.term call.peer (a.bump call.peer args.term)
        ((a.bump call.peer args.term).cast call.peer args.candidateId args.term) := by
      refine LogFree.cast ?_ ?_ hstood ?_
      · rw [← hv, hok.vote, hcur]
      · rw [bump_cur, if_pos rfl]
      · refine upToDate_of_check hok.log ?_ ?_ hup
        · rw [hcall.lastIndex, hcall.term, hcall.cand]; rfl
        · rw [hcall.lastTerm, hcall.term, hcall.cand]; rfl
    have hall := hmove.trans hcast
    refine ⟨_, hall, ?_⟩
    rw [hrf]
    refine h.served hk hall.frame (hall.inv h.inv) hgrant ?_ hbal ?_
    · refine h.vote_answered hk hrpc hall.frame.ext fun _ => ?_
      rw [← hcall.term, ← hcall.cand]
      exact (cast_vote _ _ _ _ _ _).trans (if_pos ⟨rfl, rfl⟩)
    · refine htal.leave ?_ rfl (le_refl _)
      rw [show (Raft.persistLocked { (c.servers call.peer).adopt args.term with
        votedFor := some args.candidateId }).role = ((c.servers call.peer).adopt args.term).role from rfl,
        hok.role_of_no_vote (hmove.inv h.inv) hv]
      decide

/-- One more voter for the candidate whose ballot has come back. -/
theorem count (h : Sim c a) {k : ℕ} {call : Call n C} {args : RequestVoteArgs n}
    {reply : RequestVoteReply} (hk : c.net[k]? = some call)
    (hrpc : call.rpc = .requestVote args (some reply))
    (hep : c.epochs call.caller = call.epoch) (hrole : (c.servers call.caller).role = .candidate)
    (hterm : (c.servers call.caller).currentTerm = call.term) (hg : reply.voteGranted = true) :
    call.term ∉ (c.servers call.caller).elections ∧ ∃ W : Finset (Fin n),
      W.card = (c.servers call.caller).votes call.term + 1 ∧
      (∀ v ∈ W, a.vote call.term v = some call.caller) ∧
      ∀ p, (call.caller, c.epochs call.caller, call.term, p) ∈ ballots (c.net.eraseIdx k) →
        p ∉ W := by
  have hcall : VoteCallOk a call args (some reply) := by
    have := h.calls call (List.mem_of_getElem? hk)
    simpa only [CallOk, hrpc] using this
  have hx : call.ballot = some (call.caller, call.epoch, call.term, call.peer) := by
    simp only [Call.ballot, hrpc]
  have hout : (call.caller, call.epoch, call.term, call.peer) ∈ ballots c.net :=
    List.mem_filterMap.mpr ⟨call, List.mem_of_getElem? hk, hx⟩
  have htally := h.tally call.caller
  have hnot : call.term ∉ (c.servers call.caller).elections := by
    intro hmem
    refine htally.fresh hrole (hterm ▸ hmem) call.peer ?_
    rw [hep, hterm]; exact hout
  obtain ⟨W, hcard, hW, hWout⟩ := htally.counted hrole (hterm ▸ hnot)
  rw [hterm] at hcard hW hWout
  have hpeer : call.peer ∉ W := hWout _ (by rw [hep]; exact hout)
  refine ⟨hnot, insert call.peer W, ?_, ?_, ?_⟩
  · rw [Finset.card_insert_of_notMem hpeer, hcard]
  · intro v hv
    rcases Finset.mem_insert.mp hv with rfl | hv
    · exact hcall.granted reply rfl hg
    · exact hW v hv
  · intro p hp hpW
    rcases Finset.mem_insert.mp hpW with rfl | hpW
    · rw [hep] at hp
      exact ballot_returned h.nodup hk hx hp
    · exact hWout p ((ballots_erase c.net k).subset hp) hpW

theorem receiveVote (h : Sim c a) {k : ℕ} {call : Call n C} {args : RequestVoteArgs n}
    {reply : RequestVoteReply} (hk : c.net[k]? = some call)
    (hrpc : call.rpc = .requestVote args (some reply))
    (hep : c.epochs call.caller = call.epoch) :
    ∃ b, LogFree LogEntry.term call.caller a b ∧ Sim { c.put call.caller
      ((c.servers call.caller).askVoteFromPeer call.term reply) with net := c.net.eraseIdx k } b := by
  have hsub := List.eraseIdx_sublist c.net k
  rcases Raft.askVoteFromPeer_cases (c.servers call.caller) call.term reply with
    ⟨ht, hrf⟩ | hrf | ⟨hrole, hterm, hg, hrf⟩ | ⟨hrole, hterm, hg, hmaj, hrf⟩ <;> rw [hrf]
  · exact h.follow (le_of_lt ht) hsub
  · exact ⟨a, LogFree.refl _ a, h.keep rfl rfl hsub⟩
  · obtain ⟨hnot, W, hcard, hW, hout⟩ := h.count hk hrpc hep hrole hterm hg
    have hok : ∀ votes, ServerOk a call.caller { c.servers call.caller with votes := votes } :=
      fun votes => (h.servers call.caller).of_core rfl
    have htally := h.tally call.caller
    refine ⟨a, LogFree.refl _ a, h.put (Frame.refl _ a) h.inv (hok _) hsub
      ⟨htally.nodup, htally.le, fun _ hmem => absurd (hterm ▸ hmem) hnot, fun _ _ => ⟨W, ?_, ?_, ?_⟩⟩⟩
    · simp only [hterm, Function.update_self, hcard]
    · simpa only [hterm] using hW
    · simpa only [hterm] using hout
  · obtain ⟨-, W, hcard, hW, -⟩ := h.count hk hrpc hep hrole hterm hg
    obtain ⟨-, hlog, hnl⟩ := (h.servers call.caller).cand hrole
    rw [hterm] at hlog hnl
    have hQ : IsQuorum W := by
      rw [IsQuorum, Fintype.card_fin, hcard]; omega
    have hl : a.lead call.term = none := by
      cases hl : a.lead call.term with
      | none => rfl
      | some x => exact absurd (h.inv.one_leader hl hQ hW ▸ hl) hnl
    have hmove := LogFree.elect h.inv hl hQ hW hlog
    refine ⟨_, hmove, h.put hmove.frame (hmove.inv h.inv) ?_ hsub ?_⟩
    · rw [← hterm]; exact (h.servers call.caller).elect rfl rfl
    · exact (h.tally call.caller).leave (fun hx : Role.leader = Role.candidate =>
        absurd hx (by decide)) rfl (le_refl _)

/-! ### Replication -/

theorem start (h : Sim c a) (hrole : (c.servers s).role = .leader) (command : Option C) :
    Sim (c.put s ((c.servers s).start command).1)
      (a.extend s (c.servers s).currentTerm ⟨(c.servers s).currentTerm, true, command⟩) := by
  obtain ⟨hl, hlog⟩ := (h.servers s).lead hrole
  have hstart : ((c.servers s).start command).1.role = .leader ∧
      ((c.servers s).start command).1.elections = (c.servers s).elections ∧
      ((c.servers s).start command).1.currentTerm = (c.servers s).currentTerm := by
    rw [Raft.start, if_neg (by rw [hrole]; decide)]
    exact ⟨hrole, rfl, rfl⟩
  refine h.put (frame_extend a _ hl) (h.inv.extend hl hlog (le_of_eq (h.servers s).cur) rfl)
    ((h.servers s).extend hrole command) (List.Sublist.refl _) ?_
  exact (h.tally s).leave (by rw [hstart.1]; decide) hstart.2.1 (le_of_eq hstart.2.2.symm)

/-- What the leader sends in one round is on record in its leader log. -/
theorem round_ok (h : Sim c a) {peer : Fin n} {round : Round n C} (hne : peer ≠ s)
    (hrole : (c.servers s).role = .leader)
    (hround : (c.servers s).roundFor s peer = some round) (epoch : ℕ) :
    CallOk a ⟨s, epoch, peer, (c.servers s).currentTerm, round.rpc⟩ := by
  have hok := h.servers s
  obtain ⟨hl, hlog⟩ := hok.lead hrole
  have hrepr := hok.log
  rw [hlog] at hrepr
  rcases Raft.roundFor_cases hround with rfl | ⟨prevIdx, prev, entries, hsnap, hprev, htail, rfl⟩
  · exact ⟨rfl, hne, hl, hrepr.le, hrepr.term⟩
  · obtain ⟨-, hin, hterm⟩ := hrepr.term_of_entryAt hprev
    rw [hrepr.tail_eq (by omega), Nat.add_sub_cancel] at htail
    obtain rfl := Option.some.inj htail
    have hlen : prevIdx + ((a.tlog (c.servers s).currentTerm).drop prevIdx).length =
        (a.tlog (c.servers s).currentTerm).length := by rw [List.length_drop]; omega
    refine ⟨rfl, hne, hl, ?_, le_of_eq hlen, ?_, ?_⟩
    · dsimp only; rw [hlen]; exact (h.inv.base _ _ hl).length_le
    · exact hterm
    · dsimp only
      rw [hlen, List.take_length, List.take_append_drop]

theorem startReplication (h : Sim c a) (matchIndex nextIndex : Fin n → ℕ)
    {rounds : List (Fin n × Round n C)} (hrole : (c.servers s).role = .leader)
    (hrounds : ∀ p round, (p, round) ∈ rounds → p ≠ s ∧ (c.servers s).roundFor s p = some round) :
    Sim ((c.put s { c.servers s with matchIndex := matchIndex, nextIndex := nextIndex }).send s
      (c.servers s).currentTerm (rounds.map fun x => (x.1, x.2.rpc))) a := by
  generalize hrf' : ({ c.servers s with
    matchIndex := matchIndex, nextIndex := nextIndex } : Raft n C) = rf'
  have hself : ∀ t calls, ((c.put s rf').send s t calls).servers s = rf' :=
    fun _ _ => Function.update_self _ _ _
  have hsplit : ∀ t, ballots ((c.put s rf').send s t
      (rounds.map fun x => (x.1, x.2.rpc))).net = ballots c.net := by
    intro t
    have hnil : ballots ((rounds.map fun x => (x.1, x.2.rpc)).map
        fun x => (⟨s, (c.put s rf').epochs s, x.1, t, x.2⟩ : Call n C)) = [] := by
      rw [ballots, List.map_map, List.filterMap_map, List.filterMap_eq_nil_iff]
      rintro ⟨p, round⟩ -
      cases round <;> rfl
    show ballots (c.net ++ _) = _
    rw [ballots, List.filterMap_append]
    exact (congrArg _ hnil).trans (List.append_nil _)
  refine h.act (s := s) (Frame.refl s a) h.inv (fun r hr => Function.update_of_ne hr _ _)
    (fun _ _ => rfl) ?_ ?_ ?_ ?_ ?_
  · rw [hself, ← hrf']; exact (h.servers s).of_core rfl
  · intro call hcall
    rcases List.mem_append.mp hcall with hold | hnew
    · exact Or.inl hold
    · rw [List.map_map] at hnew
      obtain ⟨⟨p, round⟩, hp, rfl⟩ := List.mem_map.mp hnew
      obtain ⟨hne, hround⟩ := hrounds p round hp
      exact Or.inr (h.round_ok hne hrole hround _)
  · intro r _ e t p hp; rwa [hsplit] at hp
  · rw [hsplit]; exact h.nodup
  · rw [hself, hsplit, ← hrf']
    exact (h.tally s).keep (Ext.refl a) (fun _ _ hp => hp) rfl

theorem appendCall (h : Sim c a) {k : ℕ} {call : Call n C} {args : AppendEntriesArgs n C}
    {reply : Option AppendEntriesReply} (hk : c.net[k]? = some call)
    (hrpc : call.rpc = .appendEntries args reply) : AppendCallOk a call args := by
  have := h.calls call (List.mem_of_getElem? hk)
  simpa only [CallOk, hrpc] using this

theorem installCall (h : Sim c a) {k : ℕ} {call : Call n C} {args : InstallSnapshotArgs n}
    {reply : Option InstallSnapshotReply} (hk : c.net[k]? = some call)
    (hrpc : call.rpc = .installSnapshot args reply) : InstallCallOk a call args := by
  have := h.calls call (List.mem_of_getElem? hk)
  simpa only [CallOk, hrpc] using this

theorem append_served (h : Sim c a) {k : ℕ} {call : Call n C} {args : AppendEntriesArgs n C}
    {reply reply' : Option AppendEntriesReply} (hk : c.net[k]? = some call)
    (hrpc : call.rpc = .appendEntries args reply) (he : Ext a b) :
    CallOk b { call with rpc := .appendEntries args reply' } := by
  have hb := (h.calls call (List.mem_of_getElem? hk)).mono h.inv he
  simp only [CallOk, hrpc] at hb
  exact ⟨hb.term, hb.ne, hb.lead, hb.base, hb.le, hb.prevTerm, hb.entries⟩

theorem install_served (h : Sim c a) {k : ℕ} {call : Call n C} {args : InstallSnapshotArgs n}
    {reply reply' : Option InstallSnapshotReply} (hk : c.net[k]? = some call)
    (hrpc : call.rpc = .installSnapshot args reply) (he : Ext a b) :
    CallOk b { call with rpc := .installSnapshot args reply' } := by
  have hb := (h.calls call (List.mem_of_getElem? hk)).mono h.inv he
  simp only [CallOk, hrpc] at hb
  exact ⟨hb.term, hb.ne, hb.lead, hb.le, hb.lastTerm⟩

/-- A request that names the term at `prevLogIndex` correctly continues the follower's log. -/
theorem append_matches (h : Sim c a) {call : Call n C} {args : AppendEntriesArgs n C}
    {prev : LogEntry C} (hcall : AppendCallOk a call args)
    (hprev : (c.servers s).log.entryAt args.prevLogIndex = some prev)
    (hpt : prev.term = args.prevLogTerm) :
    (a.log s).take args.prevLogIndex = (a.tlog args.term).take args.prevLogIndex := by
  have hrepr := (h.servers s).log
  obtain ⟨-, hin, hterm⟩ := hrepr.term_of_entryAt hprev
  have hle := hcall.le
  rw [hcall.term]
  refine take_eq_of_termAt (h.inv.logOk s) (h.inv.tlogOk _) hin (by omega) ?_
  rw [← hcall.prevTerm, ← hpt, hterm]

theorem acceptAppend (h : Sim c a) {k : ℕ} {call : Call n C} {args : AppendEntriesArgs n C}
    (reply : AppendEntriesReply) {prev : LogEntry C} {log : RaftLog C}
    (hk : c.net[k]? = some call) (hrpc : call.rpc = .appendEntries args none)
    (ht : (c.servers call.peer).currentTerm ≤ args.term)
    (hsnap : (c.servers call.peer).log.snapLastIdx ≤ args.prevLogIndex)
    (hprev : (c.servers call.peer).log.entryAt args.prevLogIndex = some prev)
    (hpt : prev.term = args.prevLogTerm)
    (hlog : (c.servers call.peer).log.appendFrom args.prevLogIndex args.entries = some log) :
    Repr log ((a.tlog args.term).take (args.prevLogIndex + args.entries.length)) ∧
    log.snapLastIdx = (c.servers call.peer).log.snapLastIdx ∧
    Sim { c.put call.peer (((c.servers call.peer).becomeFollowerLocked args.term).acceptEntries log
        args.leaderCommit) with
      net := c.net.set k { call with rpc := .appendEntries args (some reply) } }
      ((a.bump call.peer args.term).accept call.peer args.term
        (args.prevLogIndex + args.entries.length)) := by
  have hcall := h.appendCall hk hrpc
  have hok := h.servers call.peer
  have hmove : LogFree LogEntry.term call.peer a (a.bump call.peer args.term) :=
    LogFree.bump (hok.cur ▸ ht)
  obtain ⟨log', hlog', hrepr, hidx, -⟩ :=
    hok.log.appendFrom hsnap (hok.log.of_entryAt hprev).2 args.entries
  rw [hlog, Option.some.injEq] at hlog'
  subst hlog'
  have hmatch := h.append_matches hcall hprev hpt
  have hentries := hcall.entries
  rw [← hcall.term] at hentries
  rw [hmatch, ← hentries] at hrepr
  have hfollow := hok.become_follower h.inv ht
  have hrole := Raft.becomeFollowerLocked_role _ _ ht
  obtain ⟨ticker, -, hrf⟩ := Raft.acceptEntries_eq
    ((c.servers call.peer).becomeFollowerLocked args.term) log args.leaderCommit
  have hframe := hmove.frame.trans (frame_accept (a.bump call.peer args.term) call.peer args.term
    (args.prevLogIndex + args.entries.length))
  have hcur : args.term ≤ (a.bump call.peer args.term).cur call.peer := by
    rw [bump_cur, if_pos rfl]
  refine ⟨hrepr, hidx, h.served hk hframe ((hmove.inv h.inv).accept hcur) ?_ ?_ ?_ ?_⟩
  · rw [hrf]; exact (hfollow.accept hrole hrepr).of_core rfl
  · exact h.append_served hk hrpc hframe.ext
  · simp only [Call.ballot, hrpc]
  · rw [hrf]
    exact ((h.tally call.peer).become_follower ht).keep (Ext.refl _) (fun _ _ hp => hp) rfl

/-- A request that is refused teaches the peer at most a new term. -/
theorem refuse (h : Sim c a) {k t : ℕ} {call call' : Call n C} (hk : c.net[k]? = some call)
    (hcall : ∀ {b}, Ext a b → CallOk b call') (hbal : call'.ballot = call.ballot)
    (hrf : rf' = c.servers call.peer ∨ (c.servers call.peer).currentTerm ≤ t ∧
      rf' = (c.servers call.peer).becomeFollowerLocked t) :
    ∃ b, LogFree LogEntry.term call.peer a b ∧
      Sim { c.put call.peer rf' with net := c.net.set k call' } b := by
  rcases hrf with rfl | ⟨ht, rfl⟩
  · exact ⟨a, LogFree.refl _ a, h.served hk (Frame.refl _ a) h.inv (h.servers _)
      (hcall (Ext.refl a)) hbal (h.tally _)⟩
  · have hmove : LogFree LogEntry.term call.peer a (a.bump call.peer t) :=
      LogFree.bump ((h.servers _).cur ▸ ht)
    exact ⟨_, hmove, h.served hk hmove.frame (hmove.inv h.inv)
      ((h.servers _).become_follower h.inv ht) (hcall hmove.frame.ext) hbal
      ((h.tally _).become_follower ht)⟩

theorem acceptInstall (h : Sim c a) {k : ℕ} {call : Call n C} {args : InstallSnapshotArgs n}
    (reply : InstallSnapshotReply) (hk : c.net[k]? = some call)
    (hrpc : call.rpc = .installSnapshot args none)
    (ht : (c.servers call.peer).currentTerm ≤ args.term) :
    Sim { c.put call.peer (((c.servers call.peer).becomeFollowerLocked args.term).acceptSnapshot args)
        with net := c.net.set k { call with rpc := .installSnapshot args (some reply) } }
      ((a.bump call.peer args.term).accept call.peer args.term args.lastIncludedIndex) := by
  have hcall := h.installCall hk hrpc
  have hok := h.servers call.peer
  have hmove : LogFree LogEntry.term call.peer a (a.bump call.peer args.term) :=
    LogFree.bump (hok.cur ▸ ht)
  have hframe := hmove.frame.trans (frame_accept (a.bump call.peer args.term) call.peer args.term
    args.lastIncludedIndex)
  have hcur : args.term ≤ (a.bump call.peer args.term).cur call.peer := by
    rw [bump_cur, if_pos rfl]
  have hrepr : Repr (((c.servers call.peer).becomeFollowerLocked args.term).log.installSnapshot
      args.lastIncludedIndex args.lastIncludedTerm args.snapshot)
      (((a.bump call.peer args.term).tlog args.term).take args.lastIncludedIndex) := by
    have hle := hcall.le
    have hlt := hcall.lastTerm
    rw [← hcall.term] at hle hlt
    rw [hlt]
    exact Repr.installSnapshot _ hle _
  refine h.served hk hframe ((hmove.inv h.inv).accept hcur) ?_
    (h.install_served hk hrpc hframe.ext) (by simp only [Call.ballot, hrpc]) ?_
  · exact ((hok.become_follower h.inv ht).accept (Raft.becomeFollowerLocked_role _ _ ht)
      hrepr).of_core rfl
  · exact ((h.tally call.peer).become_follower ht).keep (Ext.refl _) (fun _ _ hp => hp) rfl

theorem compact (h : Sim c a) {index : ℕ} {bytes : List UInt8} {log : RaftLog C}
    (hsnap : (c.servers s).log.snapLastIdx < index)
    (hlog : (c.servers s).log.doSnapshot index bytes = some log) :
    Sim (c.put s (Raft.persistLocked { c.servers s with log := log })) a := by
  have hok := h.servers s
  have hidx : index ≤ (a.log s).length := by
    obtain ⟨i, hi, -⟩ := Option.bind_eq_some_iff.mp hlog
    rw [RaftLog.idx, hok.log.size] at hi
    split_ifs at hi
    omega
  obtain ⟨log', hlog', hrepr, -⟩ := hok.log.doSnapshot (le_of_lt hsnap) hidx bytes
  rw [hlog, Option.some.injEq] at hlog'
  subst hlog'
  exact h.put (Frame.refl s a) h.inv (hok.compact hrepr) (List.Sublist.refl _)
    ((h.tally s).keep (Ext.refl a) (fun _ _ hp => hp) rfl)

/-- `applyCh` is only a record. -/
theorem deliver (h : Sim c a) (applyCh : Fin n → List (ApplyMsg C)) :
    Sim { c with applyCh := applyCh } a :=
  ⟨h.inv, h.servers, h.calls, h.tally, h.nodup⟩

/-! ### Every step -/

theorem effect (h : Sim c a) {act : Action n C} (he : Effect c act c') :
    ∃ b, Ext a b ∧ Sim c' b := by
  -- most outcomes leave the logs alone
  have free : ∀ {s : Fin n} {c₁ : Cluster n C},
      (∃ b, LogFree LogEntry.term s a b ∧ Sim c₁ b) → ∃ b, Ext a b ∧ Sim c₁ b :=
    fun ⟨b, hm, hb⟩ => ⟨b, hm.frame.ext, hb⟩
  have same : ∀ {c₁ : Cluster n C}, Sim c₁ a → ∃ b, Ext a b ∧ Sim c₁ b :=
    fun hb => ⟨a, Ext.refl a, hb⟩
  cases he with
  | stay => exact same h
  | lose k => exact same (h.lose k)
  | restart _ s net hnet => exact same (h.restart s hnet)
  | timeout s hrole => exact free (h.timeout hrole)
  | skipElection s term hlost => exact same (h.skipElection hlost)
  | startElection s lastIdx lastTerm hrole hmem hlast => exact same (h.startElection hrole hmem hlast)
  | startReplication s m next rounds hrole hm hrounds =>
    exact same (h.startReplication _ next hrole hrounds)
  | endReplication s term => exact same (h.keep (by rfl) (by rfl) (List.Sublist.refl _))
  | serveVote k call args rf reply hk hrpc hreq => exact free (h.serveVote hk hrpc hreq)
  | refuseAppend k call args rf reply hk hrpc hrf hno =>
    exact free (h.refuse hk (h.append_served hk hrpc) (by simp only [Call.ballot, hrpc]) hrf)
  | acceptAppend k call args prev log reply hk hrpc ht hsnap hprev hpt hlog =>
    obtain ⟨-, -, hsim⟩ := h.acceptAppend reply hk hrpc ht hsnap hprev hpt hlog
    have hcur : a.cur call.peer ≤ args.term := (h.servers _).cur ▸ ht
    exact ⟨_, (frame_bump a hcur).ext.trans (frame_accept _ _ _ _).ext, hsim⟩
  | staleInstall k call args reply hk hrpc ht hre =>
    exact free (h.refuse hk (h.install_served hk hrpc) (by simp only [Call.ballot, hrpc])
      (t := args.term) (Or.inl rfl))
  | coveredInstall k call args reply hk hrpc ht hsnap =>
    exact free (h.refuse hk (h.install_served hk hrpc) (by simp only [Call.ballot, hrpc])
      (Or.inr ⟨ht, rfl⟩))
  | acceptInstall k call args reply hk hrpc ht hsnap =>
    have hcur : a.cur call.peer ≤ args.term := (h.servers _).cur ▸ ht
    exact ⟨_, (frame_bump a hcur).ext.trans (frame_accept _ _ _ _).ext, h.acceptInstall reply hk hrpc ht⟩
  | receiveVote k call args reply hk hrpc hep => exact free (h.receiveVote hk hrpc hep)
  | follow k s t ht => exact free (h.follow ht (List.eraseIdx_sublist _ _))
  | backOff k s next => exact same (h.keep (by rfl) (by rfl) (List.eraseIdx_sublist _ _))
  | recordAppend k call args reply rf hk hrpc hyes hrole hterm g hg hrf =>
    subst hg
    rcases hrf with rfl | ⟨m, e, -, -, -, -, rfl⟩ <;>
      exact same (h.keep (by rfl) (by rfl) (List.eraseIdx_sublist _ _))
  | recordInstall k call args reply hk hrpc hrole hterm hre =>
    exact same (h.keep (by rfl) (by rfl) (List.eraseIdx_sublist _ _))
  | start s command hrole =>
    exact ⟨_, (frame_extend a _ ((h.servers s).lead hrole).1).ext, h.start hrole command⟩
  | compact s index bytes log hdel hcommit hsnap hlog => exact same (h.compact hsnap hlog)
  | tick s rf msg hrf =>
    obtain ⟨_, _, _, _, rfl⟩ := Raft.applicationTicker_frame hrf
    exact same ((h.keep (by rfl) (by rfl) (List.Sublist.refl _)).deliver _)

theorem step (h : Sim c a) {act : Action n C} (hs : c.step act = some c') :
    ∃ b, Ext a b ∧ Sim c' b := h.effect (step_effect hs)

/-- A run of the cluster only extends what is on record. -/
theorem run {P : Cluster n C → Action n C → Prop} {acts : List (Action n C)} (h : Sim c a)
    (hr : Run Cluster.step P c acts c') : ∃ b, Ext a b ∧ Sim c' b := by
  refine hr.preserves (I := fun d => ∃ b, Ext a b ∧ Sim d b) ?_ ⟨a, Ext.refl a, h⟩
  rintro d act d' ⟨b, hab, hb⟩ - hs
  obtain ⟨b', hbb', hb'⟩ := hb.step hs
  exact ⟨b', hab.trans hbb', hb'⟩

end Sim

end GoServices.Consensus
