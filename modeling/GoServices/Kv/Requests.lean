import GoServices.Kv.Replay
import Mathlib.Data.Nat.Basic

/-! Client requests against the replicated server.

    Raft is given as a log of committed entries. `Start` hands out an index and a term for a
    command (each pair once), above everything that this server has been given so far; later some
    proposal for the next index commits, not necessarily the one this server made. Whether a server
    counts as leader is up to the environment each time it is asked. A handler waits on the channel
    that `notifyChans` holds for its index, and the term that `Start` returned is dropped, so what
    comes through the channel may be the result of somebody else's command. -/

namespace GoServices.KvRaft

open Dedup Runs

/-- The two requests of a clerk. -/
inductive Request where
  | get (key : String)
  | putAppend (key value op : String) (clientId seqId : ℤ)
  deriving DecidableEq

/-- The command that a handler passes to `Start`; an unknown operation panics. -/
def Request.command : Request → Option Op
  | .get key => some ⟨key, "", .opGet, 0, 0⟩
  | .putAppend key value op clientId seqId =>
    (getOperationType op).map fun opType => ⟨key, value, opType, clientId, seqId⟩

/-- What of a result goes into the reply of the handler. -/
def Request.fill : Request → OpReply → OpReply
  | .get _, result => result
  | .putAppend _ _ _ _ _, result => ⟨"", result.err⟩

/-- Where the goroutine of a request stands. -/
inductive Phase where
  /-- about to look for a duplicate (`PutAppend` only) -/
  | received
  /-- about to call `Start` -/
  | checked
  /-- about to fetch its channel -/
  | started (index term : ℕ)
  | waiting (index term chan : ℕ)
  /-- answered; the channel is still to be removed -/
  | finished (index : ℕ)
  deriving DecidableEq

/-- The index and the term that `Start` returned, while the handler may still be answered. -/
def Phase.place : Phase → Option (ℕ × ℕ)
  | .started index term | .waiting index term _ => some (index, term)
  | _ => none

/-- A request in progress; `after` is the number of entries committed when it came in. -/
structure Pending where
  request : Request
  after : ℕ
  phase : Phase

/-- An answer given to a client, with the index its server had reached by then. -/
structure Answer where
  request : Request
  after : ℕ
  reached : ℕ
  reply : OpReply

/-- A server with its notification channels (each a buffer of one). -/
structure Node where
  replica : Replica
  reached : ℕ
  notifyChans : ℕ → Option ℕ
  chans : ℕ → Option OpReply
  fresh : ℕ
  calls : List Pending

/-- A committed entry. -/
structure Entry where
  term : ℕ
  op : Op
  deriving DecidableEq

/-- The servers, the log they agree on, and what has been proposed, saved and answered. -/
structure Service (S B : Type) where
  log : List Entry
  proposals : List (ℕ × Entry)
  snapshots : List (ℕ × B)
  nodes : S → Node
  answers : List Answer

/-- What can happen next: a commit, or a step of one server. -/
inductive ServiceAction (S : Type) where
  | commit (k : ℕ)
  | receive (s : S) (request : Request)
  | check (s : S) (k : ℕ)
  | start (s : S) (k : ℕ) (result : Option (ℕ × ℕ))
  | listen (s : S) (k : ℕ)
  | take (s : S) (k : ℕ)
  | timeout (s : S) (k : ℕ)
  | remove (s : S) (k : ℕ)
  | apply (s : S) (isLeader snap : Bool)
  | install (s : S) (k : ℕ)
  | restart (s : S) (k : Option ℕ)

namespace Node

/-- A server that has just been started. -/
def init : Node := ⟨⟨⟨0, Store.new⟩, 0⟩, 0, fun _ => none, fun _ => none, 0, []⟩

/-- `getNotifyChannel`. -/
def getNotifyChannel (nd : Node) (index : ℕ) : Node × ℕ :=
  match nd.notifyChans index with
  | some ch => (nd, ch)
  | none =>
    ({ nd with
        notifyChans := Function.update nd.notifyChans index (some nd.fresh)
        chans := Function.update nd.chans nd.fresh none
        fresh := nd.fresh + 1 }, nd.fresh)

/-- The channel for this index is forgotten. -/
def removeNotifyChannel (nd : Node) (index : ℕ) : Node :=
  { nd with notifyChans := Function.update nd.notifyChans index none }

/-- Call `k` goes on. -/
def setPhase (nd : Node) (k : ℕ) (call : Pending) (phase : Phase) : Node :=
  { nd with calls := nd.calls.set k { call with phase := phase } }

/-- A new incarnation on top of a snapshot; all goroutines and channels are gone. -/
def startAt (kv : KVServer) (index : ℕ) : Node :=
  ⟨⟨kv, index⟩, index, fun _ => none, fun _ => none, 0, []⟩

end Node

namespace Service

variable {S B : Type} [DecidableEq S] (cd : Codec B)

/-- Nothing has been requested yet. -/
def init : Service S B := ⟨[], [], [], fun _ => Node.init, []⟩

/-- The service with another state of server `s`. -/
def put (c : Service S B) (s : S) (nd : Node) : Service S B :=
  { c with nodes := Function.update c.nodes s nd }

/-- The handler of `call` on `s` answers. -/
def answer (c : Service S B) (s : S) (call : Pending) (reply : OpReply) : Service S B :=
  { c with answers := c.answers ++ [⟨call.request, call.after, (c.nodes s).reached, reply⟩] }

/-- What one request's goroutine does next. -/
def check (c : Service S B) (s : S) (k : ℕ) (call : Pending) : Option (Service S B) :=
  let nd := c.nodes s
  match call.phase, call.request with
  | .received, .putAppend _ _ _ clientId seqId =>
    if nd.replica.kv.store.requestDuplicated clientId seqId then
      let reply := ((nd.replica.kv.store.duplicateTable clientId).map
        LastOperationInfo.reply).getD ⟨"", .ok⟩
      some ((c.answer s call (call.request.fill reply)).put s { nd with calls := nd.calls.eraseIdx k })
    else some (c.put s (nd.setPhase k call .checked))
  | .received, .get _ => some (c.put s (nd.setPhase k call .checked))
  | _, _ => none

/-- `Start`: `none` when this server is no leader. A request with an unknown operation does not get
    here: it ends the process. -/
def start (c : Service S B) (s : S) (k : ℕ) (call : Pending) (result : Option (ℕ × ℕ)) :
    Option (Service S B) :=
  let nd := c.nodes s
  match call.phase, call.request.command, result with
  | .checked, some _, none =>
    some ((c.answer s call ⟨"", .errWrongLeader⟩).put s { nd with calls := nd.calls.eraseIdx k })
  | .checked, some op, some (index, term) =>
    if nd.reached < index ∧ ∀ p ∈ c.proposals, ¬ (p.1 = index ∧ p.2.term = term) then
      some { c.put s (nd.setPhase k call (.started index term)) with
        proposals := c.proposals ++ [(index, ⟨term, op⟩)] }
    else none
  | _, _, _ => none

/-- `applyTask` on the next command. -/
def apply (c : Service S B) (s : S) (isLeader snap : Bool) : Option (Service S B) :=
  let nd := c.nodes s
  (c.log[nd.replica.stream]?).bind fun entry =>
    let index := nd.replica.stream + 1
    (nd.replica.kv.applyTask cd (.command index entry.op)).bind fun kv =>
      let opReply := (nd.replica.kv.store.applyOp entry.op).2
      let nd' := { nd with replica := ⟨kv, index⟩, reached := max nd.reached index }
      let c' := if snap then { c with snapshots := c.snapshots ++ [(index, kv.makeSnapshot cd)] } else c
      if isLeader then
        let (nd'', ch) := nd'.getNotifyChannel index
        -- the send blocks while the buffer is full
        if nd''.chans ch = none then
          some (c'.put s { nd'' with chans := Function.update nd''.chans ch (some opReply) })
        else none
      else some (c'.put s nd')

/-- One commit, or one step of a server. -/
def step (c : Service S B) : ServiceAction S → Option (Service S B)
  | .commit k => (c.proposals[k]?).bind fun (index, entry) =>
      if index = c.log.length + 1 then some { c with log := c.log ++ [entry] } else none
  | .receive s request =>
    let nd := c.nodes s
    some (c.put s { nd with calls := nd.calls ++ [⟨request, c.log.length, .received⟩] })
  | .check s k => ((c.nodes s).calls[k]?).bind (c.check s k)
  | .start s k result => ((c.nodes s).calls[k]?).bind fun call => c.start s k call result
  | .listen s k => ((c.nodes s).calls[k]?).bind fun call =>
      match call.phase with
      | .started index term =>
        let (nd, ch) := (c.nodes s).getNotifyChannel index
        some (c.put s (nd.setPhase k call (.waiting index term ch)))
      | _ => none
  | .take s k => ((c.nodes s).calls[k]?).bind fun call =>
      let nd := c.nodes s
      match call.phase with
      | .waiting index _ ch => (nd.chans ch).map fun result =>
          (c.answer s call (call.request.fill result)).put s
            { nd.setPhase k call (.finished index) with chans := Function.update nd.chans ch none }
      | _ => none
  | .timeout s k => ((c.nodes s).calls[k]?).bind fun call =>
      match call.phase with
      | .waiting index _ _ => some ((c.answer s call ⟨"", .errTimeout⟩).put s
          ((c.nodes s).setPhase k call (.finished index)))
      | _ => none
  | .remove s k => ((c.nodes s).calls[k]?).bind fun call =>
      match call.phase with
      | .finished index => some (c.put s { (c.nodes s).removeNotifyChannel index with
          calls := (c.nodes s).calls.eraseIdx k })
      | _ => none
  | .apply s isLeader snap => c.apply cd s isLeader snap
  | .install s k => (c.snapshots[k]?).bind fun (index, bytes) =>
      let nd := c.nodes s
      (nd.replica.kv.applyTask cd (.snapshot bytes index)).map fun kv =>
        c.put s { nd with replica := ⟨kv, index⟩, reached := max nd.reached index }
  | .restart s none =>
      (KVServer.startKVServer cd cd.nil).map fun kv => c.put s (Node.startAt kv 0)
  | .restart s (some k) => (c.snapshots[k]?).bind fun (index, bytes) =>
      (KVServer.startKVServer cd bytes).map fun kv => c.put s (Node.startAt kv index)

end Service

/-! ### What a right answer is -/

/-- A `Get` answers with the result of a `Get` of its key at a position committed after the request
    came in; a write that is reported done has been run on its server, or a later one of its client. -/
def AnswerOk (L : List Op) (x : Answer) : Prop :=
  match x.request with
  | .get key => x.reply.err = .ok ∨ x.reply.err = .errNoKey →
      ∃ i op, x.after ≤ i ∧ i < x.reached ∧ L[i]? = some op ∧ op.opType = .opGet ∧ op.key = key ∧
        (x.reply.value, x.reply.err) = (replay (L.take i)).stateMachine.get key
  | .putAppend _ _ _ clientId seqId => x.reply.err = .ok →
      ∃ i op, i < x.reached ∧ RunsAt L i op ∧ op.clientId = clientId ∧ seqId ≤ op.seqId

/-- When a leader applies an entry, every handler waiting at that index got its term from `Start`. -/
def TermsMatch {S B : Type} (c : Service S B) : ServiceAction S → Prop
  | .apply s true _ => ∀ entry ∈ c.log[(c.nodes s).replica.stream]?, ∀ call ∈ (c.nodes s).calls,
      ∀ p ∈ call.phase.place, p.1 = (c.nodes s).replica.stream + 1 → p.2 = entry.term
  | _ => True

instance {S B : Type} (c : Service S B) : (act : ServiceAction S) → Decidable (TermsMatch c act)
  | .apply s true _ => inferInstanceAs (Decidable (∀ entry ∈ c.log[(c.nodes s).replica.stream]?,
      ∀ call ∈ (c.nodes s).calls, ∀ p ∈ call.phase.place,
        p.1 = (c.nodes s).replica.stream + 1 → p.2 = entry.term))
  | .apply _ false _ | .commit _ | .receive _ _ | .check _ _ | .start _ _ _ | .listen _ _
  | .take _ _ | .timeout _ _ | .remove _ _ | .install _ _ | .restart _ _ => .isTrue trivial

/-! ### The invariant -/

/-- The commands of a log, without their terms. -/
def ops (log : List Entry) : List Op := log.map Entry.op

/-- A result of index `i` lies in a channel, and whoever waits there proposed that very entry. -/
structure Posted (log : List Entry) (nd : Node) (i : ℕ) (result : OpReply) : Prop where
  pos : 0 < i
  le : i ≤ nd.reached
  entry : ∃ e, log[i - 1]? = some e ∧
    result = ((replay ((ops log).take (i - 1))).applyOp e.op).2 ∧
    ∀ call ∈ nd.calls, ∀ t, call.phase.place = some (i, t) → t = e.term

/-- A request that has a place in the log proposed its command there, and if an entry of that term
    has been committed there, it was after the request came in. -/
structure CallOk (log : List Entry) (proposals : List (ℕ × Entry)) (call : Pending) : Prop where
  after : call.after ≤ log.length
  place : ∀ i t, call.phase.place = some (i, t) →
    (∃ op, call.request.command = some op ∧ (i, ⟨t, op⟩) ∈ proposals) ∧
    0 < i ∧ ∀ e, log[i - 1]? = some e → e.term = t → call.after < i

/-- Channels are made for one index each. -/
structure ChansOk (log : List Entry) (nd : Node) (owner : ℕ → ℕ) : Prop where
  mapped : ∀ i ch, nd.notifyChans i = some ch → owner ch = i ∧ ch < nd.fresh
  waiting : ∀ call ∈ nd.calls, ∀ i t ch, call.phase = .waiting i t ch → owner ch = i ∧ ch < nd.fresh
  posted : ∀ ch result, nd.chans ch = some result → ch < nd.fresh ∧ Posted log nd (owner ch) result

/-- What holds of one server, given the log and the proposals. -/
structure NodeOk (log : List Entry) (proposals : List (ℕ × Entry)) (nd : Node) : Prop where
  replica : ReplicaOk (ops log) nd.replica
  stream : nd.replica.stream ≤ nd.reached
  reached : nd.reached ≤ log.length
  calls : ∀ call ∈ nd.calls, CallOk log proposals call
  chans : ∃ owner, ChansOk log nd owner

/-- What holds of all servers together. -/
structure ServiceOk {S B : Type} (cd : Codec B) (c : Service S B) : Prop where
  functional : ∀ p ∈ c.proposals, ∀ q ∈ c.proposals, p.1 = q.1 → p.2.term = q.2.term → p.2 = q.2
  logged : ∀ i e, c.log[i]? = some e → (i + 1, e) ∈ c.proposals
  snapshots : ∀ snap ∈ c.snapshots, SnapshotOk cd (ops c.log) snap ∧ snap.1 ≤ c.log.length
  nodes : ∀ s, NodeOk c.log c.proposals (c.nodes s)
  answers : ∀ x ∈ c.answers, AnswerOk (ops c.log) x

/-! ### Growing logs -/

section Grow

variable {log : List Entry} {e : Entry} {proposals proposals' : List (ℕ × Entry)} {nd : Node}

theorem take_ops {k : ℕ} (hk : k ≤ log.length) : (ops (log ++ [e])).take k = (ops log).take k := by
  rw [ops, List.map_append, List.take_append_of_le_length (by rwa [List.length_map])]
  rfl

theorem getElem?_ops {i : ℕ} (hi : i < log.length) : (ops (log ++ [e]))[i]? = (ops log)[i]? := by
  rw [ops, List.map_append, List.getElem?_append_left (by rwa [List.length_map])]
  rfl

theorem lt_of_getElem?_ops {i : ℕ} {op : Op} (h : (ops log)[i]? = some op) : i < log.length := by
  have := (List.getElem?_eq_some_iff.mp h).1
  rwa [ops, List.length_map] at this

theorem RunsAt.grow {i : ℕ} {op : Op} (h : RunsAt (ops log) i op) : RunsAt (ops (log ++ [e])) i op := by
  have hi := lt_of_getElem?_ops h.1
  exact ⟨by rw [getElem?_ops hi]; exact h.1, by rw [take_ops (le_of_lt hi)]; exact h.2⟩

theorem AnswerOk.grow {x : Answer} (h : AnswerOk (ops log) x) : AnswerOk (ops (log ++ [e])) x := by
  unfold AnswerOk at *
  cases hreq : x.request with
  | get key =>
    simp only [hreq] at h ⊢
    intro herr
    obtain ⟨i, op, hlo, hhi, hop, hget, hkey, hval⟩ := h herr
    have hi := lt_of_getElem?_ops hop
    exact ⟨i, op, hlo, hhi, by rw [getElem?_ops hi]; exact hop, hget, hkey,
      by rw [take_ops (le_of_lt hi)]; exact hval⟩
  | putAppend key value op clientId seqId =>
    simp only [hreq] at h ⊢
    intro herr
    obtain ⟨i, op, hi, hr, hc, hs⟩ := h herr
    exact ⟨i, op, hi, hr.grow, hc, hs⟩

theorem CallOk.grow {call : Pending} (h : CallOk log proposals call) :
    CallOk (log ++ [e]) proposals call := by
  have hafter := h.after
  refine ⟨by rw [List.length_append]; omega, fun i t hpl => ?_⟩
  obtain ⟨hop, hpos, hlt⟩ := h.place i t hpl
  refine ⟨hop, hpos, fun e' he' ht => ?_⟩
  by_cases hi : i - 1 < log.length
  · rw [List.getElem?_append_left hi] at he'
    exact hlt e' he' ht
  · omega

theorem NodeOk.grow (h : NodeOk log proposals nd) : NodeOk (log ++ [e]) proposals nd := by
  have hr := h.reached
  obtain ⟨owner, hch⟩ := h.chans
  refine ⟨⟨?_, h.replica.applied⟩, h.stream, ?_, fun call hc => (h.calls call hc).grow, owner,
    hch.mapped, hch.waiting, ?_⟩
  · rw [take_ops (le_trans h.stream hr)]; exact h.replica.store
  · rw [List.length_append]; omega
  · intro ch result hres
    obtain ⟨hlt, hp⟩ := hch.posted ch result hres
    obtain ⟨e', he', hval, hterm⟩ := hp.entry
    have hle := hp.le
    have hpos := hp.pos
    refine ⟨hlt, hpos, hle, e', ?_, ?_, hterm⟩
    · rw [List.getElem?_append_left (by omega)]; exact he'
    · rw [take_ops (by omega)]; exact hval

theorem NodeOk.propose (h : NodeOk log proposals nd) (hsub : ∀ p ∈ proposals, p ∈ proposals') :
    NodeOk log proposals' nd :=
  ⟨h.replica, h.stream, h.reached, fun call hc => ⟨(h.calls call hc).after, fun i t hp =>
    have ⟨⟨op, hop, hmem⟩, hlt⟩ := (h.calls call hc).place i t hp
    ⟨⟨op, hop, hsub _ hmem⟩, hlt⟩⟩, h.chans⟩

end Grow

/-! ### Steps of one node -/

section Node

variable {log : List Entry} {proposals : List (ℕ × Entry)} {nd : Node} {owner : ℕ → ℕ}

theorem ChansOk.recall (h : ChansOk log nd owner) {calls : List Pending}
    (hcalls : ∀ call ∈ calls, call ∈ nd.calls ∨ call.phase.place = none) :
    ChansOk log { nd with calls := calls } owner := by
  refine ⟨h.mapped, fun call hc i t ch hph => ?_, fun ch result hres => ?_⟩
  · rcases hcalls call hc with hold | hnone
    · exact h.waiting call hold i t ch hph
    · rw [hph] at hnone; cases hnone
  · obtain ⟨hlt, hp⟩ := h.posted ch result hres
    obtain ⟨e, he, hval, hterm⟩ := hp.entry
    refine ⟨hlt, hp.pos, hp.le, e, he, hval, fun call hc t hpl => ?_⟩
    rcases hcalls call hc with hold | hnone
    · exact hterm call hold t hpl
    · rw [hnone] at hpl; cases hpl

/-- Requests come in, move on without a place in the log, or end. -/
theorem NodeOk.recall (h : NodeOk log proposals nd) {calls : List Pending}
    (hcalls : ∀ call ∈ calls, call ∈ nd.calls ∨
      call.phase.place = none ∧ call.after ≤ log.length) :
    NodeOk log proposals { nd with calls := calls } := by
  obtain ⟨owner, hch⟩ := h.chans
  refine ⟨h.replica, h.stream, h.reached, fun call hc => ?_, owner,
    hch.recall fun call hc => (hcalls call hc).imp_right And.left⟩
  rcases hcalls call hc with hold | ⟨hnone, hafter⟩
  · exact h.calls call hold
  · exact ⟨hafter, fun i t hpl => by rw [hnone] at hpl; cases hpl⟩

/-- A request moves to a phase in which it has no place in the log. -/
theorem NodeOk.setPhase (h : NodeOk log proposals nd) {k : ℕ} {call : Pending} {phase : Phase}
    (hk : nd.calls[k]? = some call) (hph : phase.place = none) :
    NodeOk log proposals (nd.setPhase k call phase) := by
  refine h.recall fun x hx => ?_
  rcases List.mem_or_eq_of_mem_set hx with hold | rfl
  · exact Or.inl hold
  · exact Or.inr ⟨hph, (h.calls call (List.mem_of_getElem? hk)).after⟩

theorem NodeOk.erase (h : NodeOk log proposals nd) (k : ℕ) :
    NodeOk log proposals { nd with calls := nd.calls.eraseIdx k } :=
  h.recall fun _ hx => Or.inl ((List.eraseIdx_sublist _ _).subset hx)

/-- `Start` places a request above everything the node has been given. -/
theorem NodeOk.started (h : NodeOk log proposals nd) {k index term : ℕ} {call : Pending} {op : Op}
    (hk : nd.calls[k]? = some call) (hlt : nd.reached < index)
    (hop : call.request.command = some op) (hmem : (index, ⟨term, op⟩) ∈ proposals)
    (hnew : ∀ e, log[index - 1]? = some e → e.term ≠ term) :
    NodeOk log proposals (nd.setPhase k call (.started index term)) := by
  have hcall := h.calls call (List.mem_of_getElem? hk)
  obtain ⟨owner, hch⟩ := h.chans
  refine ⟨h.replica, h.stream, h.reached, fun x hx => ?_, owner, hch.mapped, fun x hx i t ch hph => ?_,
    fun ch result hres => ?_⟩
  · rcases List.mem_or_eq_of_mem_set hx with hold | rfl
    · exact h.calls x hold
    · refine ⟨hcall.after, fun i t hpl => ?_⟩
      obtain ⟨rfl, rfl⟩ := Prod.mk.inj (Option.some.inj hpl)
      exact ⟨⟨op, hop, hmem⟩, by omega, fun e he ht => absurd ht (hnew e he)⟩
  · rcases List.mem_or_eq_of_mem_set hx with hold | rfl
    · exact hch.waiting x hold i t ch hph
    · cases hph
  · obtain ⟨hfresh, hp⟩ := hch.posted ch result hres
    obtain ⟨e, he, hval, hterm⟩ := hp.entry
    refine ⟨hfresh, hp.pos, hp.le, e, he, hval, fun x hx t hpl => ?_⟩
    rcases List.mem_or_eq_of_mem_set hx with hold | rfl
    · exact hterm x hold t hpl
    · -- no result of an index above `reached` can be there
      have := hp.le
      obtain ⟨rfl, -⟩ := Prod.mk.inj (Option.some.inj hpl)
      omega

/-- The channel that `getNotifyChannel` returns belongs to the index. -/
theorem ChansOk.getNotifyChannel (h : ChansOk log nd owner) (index : ℕ) :
    ∃ owner', ChansOk log (nd.getNotifyChannel index).1 owner' ∧
      owner' (nd.getNotifyChannel index).2 = index ∧
      (nd.getNotifyChannel index).2 < (nd.getNotifyChannel index).1.fresh := by
  unfold Node.getNotifyChannel
  cases hm : nd.notifyChans index with
  | some ch => exact ⟨owner, h, h.mapped index ch hm⟩
  | none =>
    have hold : ∀ ch, ch < nd.fresh → Function.update owner nd.fresh index ch = owner ch :=
      fun ch hlt => Function.update_of_ne (Nat.ne_of_lt hlt) _ _
    refine ⟨Function.update owner nd.fresh index, ⟨fun i ch hi => ?_, fun call hc i t ch hph => ?_,
      fun ch result hres => ?_⟩, Function.update_self _ _ _, Nat.lt_succ_self _⟩
    · dsimp only at hi ⊢
      rcases eq_or_ne i index with rfl | hne
      · rw [Function.update_self, Option.some.injEq] at hi
        rw [← hi]; exact ⟨Function.update_self _ _ _, Nat.lt_succ_self _⟩
      · rw [Function.update_of_ne hne] at hi
        obtain ⟨ho, hlt⟩ := h.mapped i ch hi
        exact ⟨by rw [hold ch hlt]; exact ho, Nat.lt_succ_of_lt hlt⟩
    · obtain ⟨ho, hlt⟩ := h.waiting call hc i t ch hph
      exact ⟨by rw [hold ch hlt]; exact ho, Nat.lt_succ_of_lt hlt⟩
    · dsimp only at hres ⊢
      rcases eq_or_ne ch nd.fresh with rfl | hne
      · rw [Function.update_self] at hres; cases hres
      · rw [Function.update_of_ne hne] at hres
        obtain ⟨hlt, hp⟩ := h.posted ch result hres
        rw [hold ch hlt]
        exact ⟨Nat.lt_succ_of_lt hlt, hp.pos, hp.le, hp.entry⟩

theorem getNotifyChannel_frame (nd : Node) (index : ℕ) :
    (nd.getNotifyChannel index).1.replica = nd.replica ∧
    (nd.getNotifyChannel index).1.reached = nd.reached ∧
    (nd.getNotifyChannel index).1.calls = nd.calls := by
  unfold Node.getNotifyChannel
  cases nd.notifyChans index <;> exact ⟨rfl, rfl, rfl⟩

/-- `getNotifyChannel` keeps the node in order, and its channel belongs to the index. -/
theorem NodeOk.channel (h : NodeOk log proposals nd) (index : ℕ) : ∃ nd' ch owner,
    nd.getNotifyChannel index = (nd', ch) ∧ NodeOk log proposals nd' ∧ nd'.reached = nd.reached ∧
      nd'.calls = nd.calls ∧ ChansOk log nd' owner ∧ owner ch = index ∧ ch < nd'.fresh := by
  obtain ⟨_, hch⟩ := h.chans
  obtain ⟨owner, hch', ho, hlt⟩ := hch.getNotifyChannel index
  obtain ⟨hrep, hreach, hcalls⟩ := getNotifyChannel_frame nd index
  have hok : NodeOk log proposals (nd.getNotifyChannel index).1 :=
    ⟨by rw [hrep]; exact h.replica, by rw [hrep, hreach]; exact h.stream,
      by rw [hreach]; exact h.reached, by rw [hcalls]; exact h.calls, owner, hch'⟩
  exact ⟨(nd.getNotifyChannel index).1, (nd.getNotifyChannel index).2, owner, rfl, hok, hreach, hcalls,
    hch', ho, hlt⟩

theorem NodeOk.listen (h : NodeOk log proposals nd) {k index term : ℕ} {call : Pending}
    (hk : nd.calls[k]? = some call) (hph : call.phase = .started index term) :
    NodeOk log proposals ((nd.getNotifyChannel index).1.setPhase k call
      (.waiting index term (nd.getNotifyChannel index).2)) := by
  obtain ⟨nd', ch, owner, hr, hok, -, hcalls, hch, ho, hlt⟩ := h.channel index
  rw [hr]
  have hmem : call ∈ nd'.calls := hcalls ▸ List.mem_of_getElem? hk
  have hpl : call.phase.place = some (index, term) := by rw [hph]; rfl
  refine ⟨hok.replica, hok.stream, hok.reached, fun x hx => ?_, owner, hch.mapped,
    fun x hx i t ch' hph' => ?_, fun ch' result hres => ?_⟩
  · rcases List.mem_or_eq_of_mem_set hx with hold | rfl
    · exact hok.calls x hold
    · exact ⟨(hok.calls call hmem).after, fun i t hp => (hok.calls call hmem).place i t (hpl ▸ hp)⟩
  · rcases List.mem_or_eq_of_mem_set hx with hold | rfl
    · exact hch.waiting x hold i t ch' hph'
    · cases hph'; exact ⟨ho, hlt⟩
  · obtain ⟨hfresh, hp⟩ := hch.posted ch' result hres
    obtain ⟨e, he, hval, hterm⟩ := hp.entry
    refine ⟨hfresh, hp.pos, hp.le, e, he, hval, fun x hx t hpl' => ?_⟩
    rcases List.mem_or_eq_of_mem_set hx with hold | rfl
    · exact hterm x hold t hpl'
    · exact hterm call hmem t (by rw [hpl]; exact hpl')

/-- A result is taken out of its channel. -/
theorem NodeOk.drain (h : NodeOk log proposals nd) (ch : ℕ) :
    NodeOk log proposals { nd with chans := Function.update nd.chans ch none } := by
  obtain ⟨owner, hch⟩ := h.chans
  refine ⟨h.replica, h.stream, h.reached, h.calls, owner, hch.mapped, hch.waiting,
    fun ch' result hres => ?_⟩
  rcases eq_or_ne ch' ch with rfl | hne
  · dsimp only at hres; rw [Function.update_self] at hres; cases hres
  · dsimp only at hres; rw [Function.update_of_ne hne] at hres
    obtain ⟨hlt, hp⟩ := hch.posted ch' result hres
    exact ⟨hlt, hp.pos, hp.le, hp.entry⟩

theorem NodeOk.unmap (h : NodeOk log proposals nd) (index : ℕ) :
    NodeOk log proposals (nd.removeNotifyChannel index) := by
  obtain ⟨owner, hch⟩ := h.chans
  refine ⟨h.replica, h.stream, h.reached, h.calls, owner, fun i ch hi => ?_, hch.waiting,
    fun ch result hres => ?_⟩
  · unfold Node.removeNotifyChannel at hi
    dsimp only at hi
    rcases eq_or_ne i index with rfl | hne
    · rw [Function.update_self] at hi; cases hi
    · rw [Function.update_of_ne hne] at hi; exact hch.mapped i ch hi
  · obtain ⟨hlt, hp⟩ := hch.posted ch result hres
    exact ⟨hlt, hp.pos, hp.le, hp.entry⟩

/-- A message has brought the replica to another index. -/
theorem NodeOk.advance (h : NodeOk log proposals nd) {x : Replica} (hx : ReplicaOk (ops log) x)
    (hle : x.stream ≤ log.length) : NodeOk log proposals
      { nd with replica := x, reached := max nd.reached x.stream } := by
  obtain ⟨owner, hch⟩ := h.chans
  refine ⟨hx, le_max_right _ _, max_le h.reached hle, h.calls, owner, hch.mapped, hch.waiting,
    fun ch result hres => ?_⟩
  obtain ⟨hlt, hp⟩ := hch.posted ch result hres
  exact ⟨hlt, hp.pos, le_trans hp.le (le_max_left _ _), hp.entry⟩

/-- The result of an index is sent to whoever waits there. -/
theorem NodeOk.post (h : NodeOk log proposals nd) {index : ℕ} {result : OpReply}
    (hp : Posted log nd index result) :
    NodeOk log proposals { (nd.getNotifyChannel index).1 with
      chans := Function.update (nd.getNotifyChannel index).1.chans (nd.getNotifyChannel index).2
        (some result) } := by
  obtain ⟨nd', ch, owner, hr, hok, hreach, hcalls, hch, ho, hlt⟩ := h.channel index
  rw [hr]
  refine ⟨hok.replica, hok.stream, hok.reached, hok.calls, owner, hch.mapped, hch.waiting,
    fun ch' r hres => ?_⟩
  dsimp only at hres ⊢
  rcases eq_or_ne ch' ch with rfl | hne
  · rw [Function.update_self, Option.some.injEq] at hres
    rw [← hres, ho]
    exact ⟨hlt, hp.pos, by rw [hreach]; exact hp.le, by rw [hcalls]; exact hp.entry⟩
  · rw [Function.update_of_ne hne] at hres
    obtain ⟨hfresh, hp'⟩ := hch.posted ch' r hres
    exact ⟨hfresh, hp'.pos, hp'.le, hp'.entry⟩

theorem NodeOk.startAt {kv : KVServer} {index : ℕ} (hst : kv.store = replay ((ops log).take index))
    (happ : kv.lastApplied = 0) (hle : index ≤ log.length) :
    NodeOk log proposals (Node.startAt kv index) :=
  ⟨⟨hst, Or.inr happ⟩, le_refl _, hle, fun call hc => by simp [Node.startAt] at hc, fun _ => 0,
    fun i ch hi => by simp [Node.startAt] at hi, fun call hc => by simp [Node.startAt] at hc,
    fun ch r hr => by simp [Node.startAt] at hr⟩

end Node

/-! ### Answers -/

section Answers

variable {log : List Entry} {proposals : List (ℕ × Entry)} {nd : Node} {call : Pending}

theorem answerOk_of_err {L : List Op} {x : Answer}
    (h : x.reply.err = .errWrongLeader ∨ x.reply.err = .errTimeout) : AnswerOk L x := by
  unfold AnswerOk
  cases x.request <;> rcases h with h | h <;> simp [h]

/-- A write that is found in the table has been run. -/
theorem NodeOk.answer_duplicate (h : NodeOk log proposals nd) {key value op : String}
    {clientId seqId : ℤ} (hreq : call.request = .putAppend key value op clientId seqId)
    (hdup : nd.replica.kv.store.requestDuplicated clientId seqId = true) (reply : OpReply) :
    AnswerOk (ops log) ⟨call.request, call.after, nd.reached, reply⟩ := by
  rw [Store.requestDuplicated_iff, h.replica.store] at hdup
  obtain ⟨j, op, hj, hrest⟩ := exists_runsAt hdup
  have := h.stream
  unfold AnswerOk
  simp only [hreq]
  exact fun _ => ⟨j, op, by omega, hrest⟩

theorem opType_of_command {key value op : String} {clientId seqId : ℤ} {cmd : Op}
    (h : (Request.putAppend key value op clientId seqId).command = some cmd) :
    cmd.opType ≠ .opGet ∧ cmd.clientId = clientId ∧ cmd.seqId = seqId := by
  obtain ⟨opType, hop, rfl⟩ := Option.map_eq_some_iff.mp h
  refine ⟨?_, rfl, rfl⟩
  unfold getOperationType at hop
  split_ifs at hop <;> cases hop <;> exact fun hx => by cases hx

/-- What comes through the channel of a request is the result of its own command. -/
theorem NodeOk.answer_take (h : NodeOk log proposals nd)
    (hfun : ∀ p ∈ proposals, ∀ q ∈ proposals, p.1 = q.1 → p.2.term = q.2.term → p.2 = q.2)
    (hlog : ∀ i e, log[i]? = some e → (i + 1, e) ∈ proposals) (hc : call ∈ nd.calls)
    {index term ch : ℕ} {result : OpReply} (hph : call.phase = .waiting index term ch)
    (hres : nd.chans ch = some result) :
    AnswerOk (ops log) ⟨call.request, call.after, nd.reached, call.request.fill result⟩ := by
  obtain ⟨owner, hch⟩ := h.chans
  have hpl : call.phase.place = some (index, term) := by rw [hph]; rfl
  obtain ⟨rfl, -⟩ := hch.waiting call hc index term ch hph
  obtain ⟨-, hp⟩ := hch.posted ch result hres
  obtain ⟨e, he, hval, hterm⟩ := hp.entry
  obtain ⟨⟨op, hop, hmem⟩, hpos, hlt⟩ := (h.calls call hc).place _ _ hpl
  have hafter := hlt e he (hterm call hc _ hpl).symm
  have hle := hp.le
  have heop : e.op = op := by
    have hmem' := hlog _ e he
    rw [Nat.sub_add_cancel hpos] at hmem'
    exact congrArg Entry.op (hfun _ hmem' _ hmem rfl (hterm call hc _ hpl).symm)
  have hat : (ops log)[owner ch - 1]? = some op := by
    rw [ops, List.getElem?_map, he, Option.map_some, heop]
  rw [heop] at hval
  unfold AnswerOk
  cases hreq : call.request with
  | get key =>
    rw [hreq] at hop
    obtain rfl := Option.some.inj hop
    refine fun _ => ⟨owner ch - 1, _, Nat.le_sub_one_of_lt hafter, by dsimp only; omega, hat, rfl, rfl, ?_⟩
    rw [Request.fill, hval]
    exact Store.applyOp_get rfl
  | putAppend key value v clientId seqId =>
    obtain ⟨hget, rfl, rfl⟩ := opType_of_command (hreq ▸ hop)
    have hb : Blocks LastOperationInfo.seqId (replay ((ops log).take (owner ch))).duplicateTable
        op.clientId op.seqId := by
      rw [← Nat.sub_add_cancel hpos, replay_succ hat]
      exact Store.blocks_applyOp hget
    obtain ⟨j, op', hj, hrest⟩ := exists_runsAt hb
    exact fun _ => ⟨j, op', lt_of_lt_of_le hj hle, hrest⟩

end Answers

/-! ### Steps of the service -/

section Service

variable {S B : Type} {cd : Codec B} {c c' : Service S B}

theorem ServiceOk.answer (h : ServiceOk cd c) {s : S} {call : Pending} {reply : OpReply}
    (hx : AnswerOk (ops c.log) ⟨call.request, call.after, (c.nodes s).reached, reply⟩) :
    ServiceOk cd (c.answer s call reply) := by
  refine ⟨h.functional, h.logged, h.snapshots, h.nodes, fun x hmem => ?_⟩
  rcases List.mem_append.mp hmem with hold | hnew
  · exact h.answers x hold
  · rw [List.mem_singleton.mp hnew]; exact hx

theorem ServiceOk.snapshot (h : ServiceOk cd c) {snap : ℕ × B} (hs : SnapshotOk cd (ops c.log) snap)
    (hle : snap.1 ≤ c.log.length) :
    ServiceOk cd { c with snapshots := c.snapshots ++ [snap] } := by
  refine ⟨h.functional, h.logged, fun x hmem => ?_, h.nodes, h.answers⟩
  rcases List.mem_append.mp hmem with hold | hnew
  · exact h.snapshots x hold
  · rw [List.mem_singleton.mp hnew]; exact ⟨hs, hle⟩

theorem ServiceOk.commit (h : ServiceOk cd c) {entry : Entry}
    (hmem : (c.log.length + 1, entry) ∈ c.proposals) :
    ServiceOk cd { c with log := c.log ++ [entry] } := by
  refine ⟨h.functional, fun i e hi => ?_, fun snap hsnap => ?_, fun s => (h.nodes s).grow,
    fun x hx => (h.answers x hx).grow⟩
  · dsimp only at hi
    rcases Nat.lt_or_ge i c.log.length with hlt | hge
    · rw [List.getElem?_append_left hlt] at hi
      exact h.logged i e hi
    · have hlen := (List.getElem?_eq_some_iff.mp hi).1
      rw [List.length_append, List.length_singleton] at hlen
      obtain rfl : i = c.log.length := by omega
      rw [List.getElem?_concat_length, Option.some.injEq] at hi
      exact hi ▸ hmem
  · obtain ⟨⟨kv, hbytes, hst⟩, hle⟩ := h.snapshots snap hsnap
    exact ⟨⟨kv, hbytes, by rw [take_ops hle]; exact hst⟩, by rw [List.length_append]; omega⟩

variable [DecidableEq S]

theorem ServiceOk.put (h : ServiceOk cd c) {s : S} {nd : Node} (hnd : NodeOk c.log c.proposals nd) :
    ServiceOk cd (c.put s nd) := by
  refine ⟨h.functional, h.logged, h.snapshots, fun q => ?_, h.answers⟩
  show NodeOk c.log c.proposals (Function.update c.nodes s nd q)
  rcases eq_or_ne q s with rfl | hq
  · rw [Function.update_self]; exact hnd
  · rw [Function.update_of_ne hq]; exact h.nodes q

theorem ServiceOk.check (h : ServiceOk cd c) {s : S} {k : ℕ} {call : Pending}
    (hk : (c.nodes s).calls[k]? = some call) (hs : c.check s k call = some c') :
    ServiceOk cd c' := by
  unfold Service.check at hs
  dsimp only at hs
  split at hs
  next hph hreq =>
    split_ifs at hs with hdup <;> obtain rfl := Option.some.inj hs
    · exact (h.answer ((h.nodes s).answer_duplicate hreq hdup _)).put ((h.nodes s).erase k)
    · exact h.put ((h.nodes s).setPhase hk rfl)
  next => obtain rfl := Option.some.inj hs; exact h.put ((h.nodes s).setPhase hk rfl)
  next => cases hs

theorem ServiceOk.start (h : ServiceOk cd c) {s : S} {k : ℕ} {call : Pending}
    {result : Option (ℕ × ℕ)} (hk : (c.nodes s).calls[k]? = some call)
    (hs : c.start s k call result = some c') : ServiceOk cd c' := by
  unfold Service.start at hs
  dsimp only at hs
  split at hs
  next =>
    obtain rfl := Option.some.inj hs
    exact (h.answer (answerOk_of_err (.inl rfl))).put ((h.nodes s).erase k)
  next op index term hph hop =>
    split_ifs at hs with hstart
    obtain rfl := Option.some.inj hs
    obtain ⟨hlt, hfresh⟩ := hstart
    have hsub : ∀ p ∈ c.proposals, p ∈ c.proposals ++ [(index, (⟨term, op⟩ : Entry))] :=
      fun p hp => List.mem_append_left _ hp
    have hnew : ∀ e, c.log[index - 1]? = some e → e.term ≠ term := fun e he ht =>
      hfresh _ (h.logged _ e he) ⟨by dsimp only; omega, ht⟩
    have hnd := ((h.nodes s).propose hsub).started hk hlt hop
      (List.mem_append_right _ (List.mem_singleton_self _)) hnew
    refine ⟨fun p hp q hq hi ht => ?_, fun i e hi => hsub _ (h.logged i e hi), h.snapshots,
      fun q => ?_, h.answers⟩
    · -- the new pair of index and term is not among the old ones
      rcases List.mem_append.mp hp with hp | hp <;> rcases List.mem_append.mp hq with hq | hq
      · exact h.functional p hp q hq hi ht
      · obtain rfl := List.mem_singleton.mp hq; exact absurd ⟨hi, ht⟩ (hfresh p hp)
      · obtain rfl := List.mem_singleton.mp hp; exact absurd ⟨hi.symm, ht.symm⟩ (hfresh q hq)
      · rw [List.mem_singleton.mp hp, List.mem_singleton.mp hq]
    · show NodeOk _ _ (Function.update c.nodes s _ q)
      rcases eq_or_ne q s with rfl | hq
      · rw [Function.update_self]; exact hnd
      · rw [Function.update_of_ne hq]; exact (h.nodes q).propose hsub
  next => cases hs

/-- Applying an entry: if a result is posted, whoever waits for it proposed the entry. -/
theorem ServiceOk.apply (h : ServiceOk cd c) {s : S} {isLeader snap : Bool}
    (hterms : TermsMatch c (.apply s isLeader snap)) (hs : c.apply cd s isLeader snap = some c') :
    ServiceOk cd c' := by
  unfold Service.apply at hs
  dsimp only at hs
  obtain ⟨entry, he, hs⟩ := Option.bind_eq_some_iff.mp hs
  obtain ⟨kv, hkv, hs⟩ := Option.bind_eq_some_iff.mp hs
  have hnd := h.nodes s
  have hop : (ops c.log)[(c.nodes s).replica.stream]? = some entry.op := by
    rw [ops, List.getElem?_map, he, Option.map_some]
  have hlt := lt_of_getElem?_ops hop
  obtain ⟨happ, hst⟩ := hnd.replica.deliver hop hkv
  have hnd' := hnd.advance (x := ⟨kv, (c.nodes s).replica.stream + 1⟩) ⟨hst, Or.inl happ⟩ hlt
  have hsnap : ServiceOk cd (if snap then { c with snapshots := c.snapshots ++
      [((c.nodes s).replica.stream + 1, kv.makeSnapshot cd)] } else c) := by
    cases snap
    · exact h
    · exact h.snapshot ⟨kv, rfl, hst⟩ hlt
  have hput : ∀ nd, NodeOk c.log c.proposals nd → ServiceOk cd (Service.put
      (if snap then { c with snapshots := c.snapshots ++
        [((c.nodes s).replica.stream + 1, kv.makeSnapshot cd)] } else c) s nd) :=
    fun nd hok => hsnap.put (by cases snap <;> exact hok)
  cases isLeader with
  | false => obtain rfl := Option.some.inj hs; exact hput _ hnd'
  | true =>
    have hok := hput _ (hnd'.post (show Posted c.log _ ((c.nodes s).replica.stream + 1)
        ((c.nodes s).replica.kv.store.applyOp entry.op).2 from
      ⟨Nat.succ_pos _, le_max_right _ _, entry, he, by rw [hnd.replica.store]; rfl,
        fun call hc t hpl => hterms entry he call hc _ hpl rfl⟩))
    cases snap <;> simp only [if_true, Bool.false_eq_true, if_false] at hs <;> split_ifs at hs <;>
      obtain rfl := Option.some.inj hs <;> exact hok

theorem ServiceOk.step (h : ServiceOk cd c) {act : ServiceAction S} (hterms : TermsMatch c act)
    (hs : c.step cd act = some c') : ServiceOk cd c' := by
  cases act with
  | commit k =>
    obtain ⟨⟨index, entry⟩, hk, hs⟩ := Option.bind_eq_some_iff.mp hs
    dsimp only at hs
    split_ifs at hs with hidx
    obtain rfl := Option.some.inj hs
    exact h.commit (hidx ▸ List.mem_of_getElem? hk)
  | receive s request =>
    obtain rfl := Option.some.inj hs
    refine h.put ((h.nodes s).recall fun call hc => ?_)
    rcases List.mem_append.mp hc with hold | hnew
    · exact Or.inl hold
    · rw [List.mem_singleton.mp hnew]; exact Or.inr ⟨rfl, le_refl _⟩
  | check s k =>
    obtain ⟨call, hk, hs⟩ := Option.bind_eq_some_iff.mp hs
    exact h.check hk hs
  | start s k result =>
    obtain ⟨call, hk, hs⟩ := Option.bind_eq_some_iff.mp hs
    exact h.start hk hs
  | listen s k =>
    obtain ⟨call, hk, hs⟩ := Option.bind_eq_some_iff.mp hs
    split at hs
    next index term hph => obtain rfl := Option.some.inj hs; exact h.put ((h.nodes s).listen hk hph)
    next => cases hs
  | take s k =>
    obtain ⟨call, hk, hs⟩ := Option.bind_eq_some_iff.mp hs
    dsimp only at hs
    split at hs
    next index term ch hph =>
      obtain ⟨result, hres, rfl⟩ := Option.map_eq_some_iff.mp hs
      exact (h.answer ((h.nodes s).answer_take h.functional h.logged (List.mem_of_getElem? hk) hph
        hres)).put (((h.nodes s).setPhase hk rfl).drain ch)
    next => cases hs
  | timeout s k =>
    obtain ⟨call, hk, hs⟩ := Option.bind_eq_some_iff.mp hs
    split at hs
    next =>
      obtain rfl := Option.some.inj hs
      exact (h.answer (answerOk_of_err (.inr rfl))).put ((h.nodes s).setPhase hk rfl)
    next => cases hs
  | remove s k =>
    obtain ⟨call, hk, hs⟩ := Option.bind_eq_some_iff.mp hs
    split at hs
    next index hph => obtain rfl := Option.some.inj hs; exact h.put (((h.nodes s).unmap index).erase k)
    next => cases hs
  | apply s isLeader snap => exact h.apply hterms hs
  | install s k =>
    obtain ⟨⟨index, bytes⟩, hk, hs⟩ := Option.bind_eq_some_iff.mp hs
    obtain ⟨kv, hkv, rfl⟩ := Option.map_eq_some_iff.mp hs
    obtain ⟨hsnap, hle⟩ := h.snapshots _ (List.mem_of_getElem? hk)
    obtain ⟨happ, hst⟩ := hsnap.install hkv
    exact h.put ((h.nodes s).advance ⟨hst, Or.inl happ⟩ hle)
  | restart s k =>
    cases k with
    | none =>
      obtain ⟨kv, hkv, rfl⟩ := Option.map_eq_some_iff.mp hs
      rw [KVServer.startKVServer, KVServer.restore_nil, Option.some.injEq] at hkv
      subst hkv
      exact h.put (NodeOk.startAt rfl rfl (Nat.zero_le _))
    | some k =>
      obtain ⟨⟨index, bytes⟩, hk, hs⟩ := Option.bind_eq_some_iff.mp hs
      obtain ⟨kv, hkv, rfl⟩ := Option.map_eq_some_iff.mp hs
      obtain ⟨hsnap, hle⟩ := h.snapshots _ (List.mem_of_getElem? hk)
      obtain ⟨happ, hst⟩ := hsnap.start hkv
      exact h.put (NodeOk.startAt hst happ hle)

theorem serviceOk_run {acts : List (ServiceAction S)}
    (hc : Run (Service.step cd) TermsMatch Service.init acts c) : ServiceOk cd c := by
  refine hc.preserves (I := ServiceOk cd) (fun _ _ _ h hterms hs => h.step hterms hs)
    ⟨?_, ?_, ?_, fun s => ?_, ?_⟩
  · intro p hp; simp [Service.init] at hp
  · intro i e hi; simp [Service.init] at hi
  · intro snap hsnap; simp [Service.init] at hsnap
  · exact NodeOk.startAt rfl rfl (le_refl 0)
  · intro x hx; simp [Service.init] at hx

/-- As long as every handler waiting at an applied index proposed the entry there, a write that is
    answered OK has been run and a `Get` is answered with a read of its own. -/
theorem reply_belongs_to_request {acts : List (ServiceAction S)}
    (hc : Run (Service.step cd) TermsMatch Service.init acts c) :
    ∀ x ∈ c.answers, AnswerOk (ops c.log) x :=
  (serviceOk_run hc).answers

end Service

/-- A write and then a read, both through one leader. -/
def written : List (ServiceAction Unit) :=
  [.receive () (.putAppend "k" "x" "Put" 1 0), .check () 0, .start () 0 (some (1, 1)), .listen () 0,
    .commit 0, .apply () true false, .take () 0, .remove () 0,
    .receive () (.get "k"), .check () 0, .start () 0 (some (2, 1)), .listen () 0, .commit 1,
    .apply () true false, .take () 0]

theorem reply_belongs_to_request_written : ∃ c : Service Unit (Option Store),
    Run (Service.step plainCodec) TermsMatch Service.init written c ∧
    c.answers.map (fun x => (x.request, x.after, x.reply)) =
      [(.putAppend "k" "x" "Put" 1 0, 0, ⟨"", .ok⟩), (.get "k", 1, ⟨"x", .ok⟩)] ∧
    ∀ x ∈ c.answers, AnswerOk (ops c.log) x := by
  obtain ⟨c, hc, hq⟩ := exists_run (Service.step plainCodec) TermsMatch Service.init written
    (fun c : Service Unit (Option Store) => c.answers.map (fun x => (x.request, x.after, x.reply)) ==
      [(.putAppend "k" "x" "Put" 1 0, 0, ⟨"", .ok⟩), (.get "k", 1, ⟨"x", .ok⟩)]) (by decide +kernel)
  exact ⟨c, hc, eq_of_beq hq, reply_belongs_to_request hc⟩

/-- Client 1's write gets index 1 from server 0, which loses its leadership before it replicates the
    entry; at server 1, index 1 goes to client 2's write, and that commits. Server 0 is leader again
    when it applies index 1. -/
def overwritten : List (ServiceAction (Fin 5)) :=
  [.receive 0 (.putAppend "k" "x" "Put" 1 0), .check 0 0, .start 0 0 (some (1, 1)), .listen 0 0,
    .receive 1 (.putAppend "k" "y" "Put" 2 0), .check 1 0, .start 1 0 (some (1, 2)),
    .commit 1, .apply 0 true false, .take 0 0]

/-- Client 1 is told OK, and its write is nowhere. -/
theorem reply_of_another_request : ∃ c : Service (Fin 5) (Option Store),
    Run (Service.step plainCodec) Any Service.init overwritten c ∧
    ∃ x ∈ c.answers, ¬ AnswerOk (ops c.log) x := by
  obtain ⟨c, hc, hq⟩ := exists_run (Service.step plainCodec) Any Service.init overwritten
    (fun c : Service (Fin 5) (Option Store) => c.log == [⟨2, ⟨"k", "y", .opPut, 2, 0⟩⟩] &&
      c.answers.any fun x => x.request == .putAppend "k" "x" "Put" 1 0 && x.reply == ⟨"", .ok⟩)
    (by decide +kernel)
  simp only [Bool.and_eq_true, List.any_eq_true, beq_iff_eq] at hq
  obtain ⟨hlog, x, hx, hreq, hrep⟩ := hq
  refine ⟨c, hc, x, hx, fun hok => ?_⟩
  unfold AnswerOk at hok
  simp only [hreq, hrep, forall_const] at hok
  obtain ⟨i, op, -, hr, hcl, -⟩ := hok
  have hop := List.mem_of_getElem? hr.1
  rw [hlog] at hop
  rw [List.mem_singleton.mp hop] at hcl
  exact absurd hcl (by decide)

end GoServices.KvRaft
