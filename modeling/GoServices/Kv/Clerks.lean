import GoServices.Kv.Requests
import Mathlib.Algebra.GroupWithZero.Nat
import Mathlib.Data.List.Induction
import Mathlib.Order.Fin.Basic

/-! Clients of the replicated server (`kvraft/client.go`).

    A `Clerk` runs one method at a time. It sends the same request to one server after the other
    until it gets an answer that is no error. A request that was sent may reach its server at any
    later time, any number of times or never, also when the clerk has long gone on; a call may fail
    at any time. Which handler an answer comes from is left open: it answers an equal request that
    came in since the call was made. -/

namespace GoServices.KvRaft

open Dedup Runs

/-- The methods of a `Clerk`. -/
inductive ClerkOp where
  | get (key : String)
  | put (key value : String)
  | append (key value : String)

/-- The arguments of the RPC. -/
def ClerkOp.request (clientId seqId : ℤ) : ClerkOp → Request
  | .get key => .get key
  | .put key value => .putAppend key value "Put" clientId seqId
  | .append key value => .putAppend key value "Append" clientId seqId

/-- Whether a request is a put or an append. -/
def Request.isWrite : Request → Bool
  | .get _ => false
  | .putAppend _ _ _ _ _ => true

/-- A method in progress: when it was called, how much was committed then, and, while an RPC is
    waited for, how much was committed when that was sent. -/
structure ClerkCall where
  request : Request
  called : ℕ
  since : ℕ
  sentAt : Option ℕ

/-- A clerk: the server it believes to lead, its next number and the call it is in. -/
structure Clerk (n : ℕ) where
  leaderId : Fin n
  seqId : ℤ
  call : Option ClerkCall

/-- A method that has returned, with its result, its times, and how much was committed when it was
    called and when it returned. -/
structure Record where
  client : ℤ
  request : Request
  value : String
  called : ℕ
  returned : ℕ
  since : ℕ
  upto : ℕ

/-- The service and its clients. -/
structure World (n : ℕ) (C B : Type) where
  service : Service (Fin n) B
  clerks : C → Clerk n
  sent : List (Fin n × Request)
  history : List Record
  now : ℕ

/-- What can happen next among the clerks and the servers. -/
inductive WorldAction (n : ℕ) (C : Type) where
  | begin (c : C) (op : ClerkOp)
  | send (c : C)
  | retry (c : C)
  | finish (c : C) (k : ℕ)
  | server (act : ServiceAction (Fin n))

/-- What a server receives has been sent to it. -/
def Delivers {n : ℕ} (sent : List (Fin n × Request)) : ServiceAction (Fin n) → Prop
  | .receive s request => (s, request) ∈ sent
  | _ => True

instance {n : ℕ} (sent : List (Fin n × Request)) : (act : ServiceAction (Fin n)) →
    Decidable (Delivers sent act)
  | .receive s request => inferInstanceAs (Decidable ((s, request) ∈ sent))
  | .apply _ _ _ | .commit _ | .check _ _ | .start _ _ _ | .listen _ _
  | .take _ _ | .timeout _ _ | .remove _ _ | .install _ _ | .restart _ _ => .isTrue trivial

namespace World

variable {n : ℕ} [NeZero n] {C B : Type} [DecidableEq C] (cd : Codec B) (clientId : C → ℤ)

/-- No clerk has called anything yet. -/
def init : World n C B := ⟨Service.init, fun _ => ⟨0, 0, none⟩, [], [], 0⟩

/-- The world with another state of clerk `c`. -/
def setClerk (w : World n C B) (c : C) (ck : Clerk n) : World n C B :=
  { w with clerks := Function.update w.clerks c ck }

/-- A client calls a method. -/
def begin (w : World n C B) (c : C) (op : ClerkOp) : Option (World n C B) :=
  let ck := w.clerks c
  match ck.call with
  | some _ => none
  | none =>
    let call := ⟨op.request (clientId c) ck.seqId, w.now, w.service.log.length, none⟩
    some (w.setClerk c { ck with call := some call })

/-- The clerk calls the server that it takes for the leader. -/
def send (w : World n C B) (c : C) : Option (World n C B) :=
  let ck := w.clerks c
  ck.call.bind fun call =>
    match call.sentAt with
    | some _ => none
    | none =>
      let call' := { call with sentAt := some w.service.log.length }
      some { w.setClerk c { ck with call := some call' } with
        sent := w.sent ++ [(ck.leaderId, call.request)] }

/-- The call has failed, or its reply is `ErrWrongLeader` or `ErrTimeout`. -/
def retry (w : World n C B) (c : C) : Option (World n C B) :=
  let ck := w.clerks c
  ck.call.bind fun call =>
    match call.sentAt with
    | none => none
    | some _ => some (w.setClerk c { ck with
        leaderId := ck.leaderId + 1
        call := some { call with sentAt := none } })

/-- The call has returned answer `x`, and the method returns. -/
def finish (w : World n C B) (c : C) (x : Answer) : Option (World n C B) :=
  let ck := w.clerks c
  ck.call.bind fun call => call.sentAt.bind fun sentAt =>
    if x.request = call.request ∧ sentAt ≤ x.after ∧ x.reply.err ≠ .errWrongLeader ∧
        x.reply.err ≠ .errTimeout then
      some { w.setClerk c { ck with
            seqId := if call.request.isWrite then ck.seqId + 1 else ck.seqId
            call := none } with
        history := w.history ++ [⟨clientId c, call.request, x.reply.value, call.called, w.now,
          call.since, w.service.log.length⟩] }
    else none

/-- What an action does, apart from the clock. -/
def act (w : World n C B) : WorldAction n C → Option (World n C B)
  | .begin c op => w.begin clientId c op
  | .send c => w.send c
  | .retry c => w.retry c
  | .finish c k => (w.service.answers[k]?).bind (w.finish clientId c)
  | .server act =>
    if Delivers w.sent act then (w.service.step cd act).map fun service => { w with service := service }
    else none

/-- One action; each takes one unit of time. -/
def step (w : World n C B) (a : WorldAction n C) : Option (World n C B) :=
  (w.act cd clientId a).map fun w' => { w' with now := w'.now + 1 }

/-- Every handler waiting at an applied index proposed the entry there. -/
def TermsMatch (w : World n C B) : WorldAction n C → Prop
  | .server act => KvRaft.TermsMatch w.service act
  | _ => True

instance (w : World n C B) : (a : WorldAction n C) → Decidable (w.TermsMatch a)
  | .server act => inferInstanceAs (Decidable (KvRaft.TermsMatch w.service act))
  | .begin _ _ | .send _ | .retry _ | .finish _ _ => .isTrue trivial

end World

/-! ### What the service does with requests -/

section Service

variable {S B : Type} [DecidableEq S] {cd : Codec B} {c c' : Service S B} {act : ServiceAction S}

/-- A new answer: an error, the recorded reply of a duplicate, or what came through the channel. -/
def Answers (c : Service S B) (x : Answer) : Prop :=
  ∃ s, ∃ call ∈ (c.nodes s).calls, x.request = call.request ∧ x.reached = (c.nodes s).reached ∧
    (x.reply.err = .errWrongLeader ∨ x.reply.err = .errTimeout ∨
      (∃ clientId info, (c.nodes s).replica.kv.store.duplicateTable clientId = some info ∧
        x.reply = call.request.fill info.reply) ∨
      ∃ index term ch result, call.phase = .waiting index term ch ∧ (c.nodes s).chans ch = some result ∧
        x.reply = call.request.fill result)

/-- What a step of the service can do with the log, the proposals, the requests and the answers. -/
structure Advances (act : ServiceAction S) (c c' : Service S B) : Prop where
  log : c'.log = c.log ∨ ∃ e, (c.log.length + 1, e) ∈ c.proposals ∧ c'.log = c.log ++ [e]
  proposals : ∀ p ∈ c'.proposals, p ∈ c.proposals ∨
    ∃ s, ∃ call ∈ (c.nodes s).calls, call.request.command = some p.2.op
  calls : ∀ s, ∀ call ∈ (c'.nodes s).calls,
    (∃ call' ∈ (c.nodes s).calls, call'.request = call.request) ∨ act = .receive s call.request
  answers : ∀ x ∈ c'.answers, x ∈ c.answers ∨ Answers c x

/-- A step that only changes one node, and keeps its requests or drops some. -/
theorem advances_put {s : S} {nd : Node} (hcalls : ∀ call ∈ nd.calls,
    (∃ call' ∈ (c.nodes s).calls, call'.request = call.request) ∨ act = .receive s call.request) :
    Advances act c (c.put s nd) := by
  refine ⟨.inl rfl, fun p hp => .inl hp, fun q call hcall => ?_, fun x hx => .inl hx⟩
  by_cases hq : q = s
  · subst hq
    simp only [Service.put, Function.update_self] at hcall
    exact hcalls call hcall
  · simp only [Service.put, Function.update_of_ne hq] at hcall
    exact .inl ⟨call, hcall, rfl⟩

omit [DecidableEq S] in
theorem Advances.answer (h : Advances act c c') {x : Answer} (hx : Answers c x) :
    Advances act c { c' with answers := c.answers ++ [x] } := by
  refine ⟨h.log, h.proposals, h.calls, fun y hy => ?_⟩
  rcases List.mem_append.mp hy with hy | hy
  · exact .inl hy
  · exact .inr (List.mem_singleton.mp hy ▸ hx)

theorem mem_calls_setPhase {nd : Node} {k : ℕ} {call : Pending} {phase : Phase}
    (hk : nd.calls[k]? = some call) : ∀ x ∈ (nd.setPhase k call phase).calls,
      ∃ call' ∈ nd.calls, call'.request = x.request := by
  intro x hx
  rcases List.mem_or_eq_of_mem_set hx with hold | rfl
  · exact ⟨x, hold, rfl⟩
  · exact ⟨call, List.mem_of_getElem? hk, rfl⟩

theorem mem_calls_erase {nd : Node} {k : ℕ} : ∀ x ∈ nd.calls.eraseIdx k,
    ∃ call' ∈ nd.calls, call'.request = x.request :=
  fun x hx => ⟨x, (List.eraseIdx_sublist _ _).subset hx, rfl⟩

theorem advances_check {s : S} {k : ℕ} {call : Pending} (hk : (c.nodes s).calls[k]? = some call)
    (hs : c.check s k call = some c') : Advances act c c' := by
  unfold Service.check at hs
  dsimp only at hs
  split at hs
  next key value op clientId seqId hph hreq =>
    split_ifs at hs with hdup <;> obtain rfl := Option.some.inj hs
    · obtain ⟨info, hinfo, -⟩ := Store.requestDuplicated_iff.mp hdup
      have hput : Advances act c (c.put s { c.nodes s with calls := (c.nodes s).calls.eraseIdx k }) :=
        advances_put fun x hx => .inl (mem_calls_erase x hx)
      refine hput.answer ⟨s, call, List.mem_of_getElem? hk, rfl, rfl,
        .inr (.inr (.inl ⟨clientId, info, hinfo, ?_⟩))⟩
      simp [hinfo]
    · exact advances_put fun x hx => .inl (mem_calls_setPhase hk x hx)
  next => obtain rfl := Option.some.inj hs; exact advances_put fun x hx => .inl (mem_calls_setPhase hk x hx)
  next => cases hs

theorem advances_start {s : S} {k : ℕ} {call : Pending} {result : Option (ℕ × ℕ)}
    (hk : (c.nodes s).calls[k]? = some call) (hs : c.start s k call result = some c') :
    Advances act c c' := by
  unfold Service.start at hs
  dsimp only at hs
  split at hs
  next =>
    obtain rfl := Option.some.inj hs
    have hput : Advances act c (c.put s { c.nodes s with calls := (c.nodes s).calls.eraseIdx k }) :=
      advances_put fun x hx => .inl (mem_calls_erase x hx)
    exact hput.answer ⟨s, call, List.mem_of_getElem? hk, rfl, rfl, .inl rfl⟩
  next op index term hph hop =>
    split_ifs at hs with hstart
    obtain rfl := Option.some.inj hs
    have hput : Advances act c (c.put s ((c.nodes s).setPhase k call (.started index term))) :=
      advances_put fun x hx => .inl (mem_calls_setPhase hk x hx)
    refine ⟨hput.log, fun p hp => ?_, hput.calls, hput.answers⟩
    rcases List.mem_append.mp hp with hp | hp
    · exact .inl hp
    · exact .inr ⟨s, call, List.mem_of_getElem? hk, by rw [List.mem_singleton.mp hp, hop]⟩
  next => cases hs

theorem advances_apply {s : S} {isLeader snap : Bool} (hs : c.apply cd s isLeader snap = some c') :
    Advances act c c' := by
  unfold Service.apply at hs
  dsimp only at hs
  obtain ⟨entry, he, hs⟩ := Option.bind_eq_some_iff.mp hs
  obtain ⟨kv, hkv, hs⟩ := Option.bind_eq_some_iff.mp hs
  -- whatever becomes of the snapshots, only one node changes, and its requests stay
  have hput : ∀ snaps nd, nd.calls = (c.nodes s).calls →
      Advances act c (Service.put { c with snapshots := snaps } s nd) := by
    intro snaps nd hcalls
    have h : Advances act c (c.put s nd) := advances_put fun x hx => .inl ⟨x, hcalls ▸ hx, rfl⟩
    exact ⟨h.log, h.proposals, h.calls, h.answers⟩
  cases isLeader with
  | false =>
    cases snap <;> simp only [if_true, Bool.false_eq_true, if_false] at hs <;>
      obtain rfl := Option.some.inj hs
    · exact hput c.snapshots _ rfl
    · exact hput _ _ rfl
  | true =>
    have hcalls := fun nd => (getNotifyChannel_frame nd ((c.nodes s).replica.stream + 1)).2.2
    cases snap <;> simp only [if_true, Bool.false_eq_true, if_false] at hs <;> split_ifs at hs <;>
      obtain rfl := Option.some.inj hs
    · exact hput c.snapshots _ (hcalls _)
    · exact hput _ _ (hcalls _)

theorem advances_step (hs : c.step cd act = some c') : Advances act c c' := by
  cases act with
  | commit k =>
    obtain ⟨⟨index, entry⟩, hk, hs⟩ := Option.bind_eq_some_iff.mp hs
    dsimp only at hs
    split_ifs at hs with hidx
    obtain rfl := Option.some.inj hs
    exact ⟨.inr ⟨entry, hidx ▸ List.mem_of_getElem? hk, rfl⟩, fun p hp => .inl hp,
      fun q call hcall => .inl ⟨call, hcall, rfl⟩, fun x hx => .inl hx⟩
  | receive s request =>
    obtain rfl := Option.some.inj hs
    refine advances_put fun x hx => ?_
    rcases List.mem_append.mp hx with hold | hnew
    · exact .inl ⟨x, hold, rfl⟩
    · exact .inr (by rw [List.mem_singleton.mp hnew])
  | check s k =>
    obtain ⟨call, hk, hs⟩ := Option.bind_eq_some_iff.mp hs
    exact advances_check hk hs
  | start s k result =>
    obtain ⟨call, hk, hs⟩ := Option.bind_eq_some_iff.mp hs
    exact advances_start hk hs
  | listen s k =>
    obtain ⟨call, hk, hs⟩ := Option.bind_eq_some_iff.mp hs
    split at hs
    next index term hph =>
      obtain rfl := Option.some.inj hs
      have hcalls := (getNotifyChannel_frame (c.nodes s) index).2.2
      have hk' : ((c.nodes s).getNotifyChannel index).1.calls[k]? = some call := by rw [hcalls, hk]
      refine advances_put fun x hx => ?_
      obtain ⟨y, hy, hyx⟩ := mem_calls_setPhase hk' x hx
      exact .inl ⟨y, hcalls ▸ hy, hyx⟩
    next => cases hs
  | take s k =>
    obtain ⟨call, hk, hs⟩ := Option.bind_eq_some_iff.mp hs
    dsimp only at hs
    split at hs
    next index term ch hph =>
      obtain ⟨result, hres, rfl⟩ := Option.map_eq_some_iff.mp hs
      have hput : Advances (.take s k) c (c.put s { (c.nodes s).setPhase k call (.finished index) with
          chans := Function.update (c.nodes s).chans ch none }) :=
        advances_put fun x hx => .inl (mem_calls_setPhase hk x hx)
      exact hput.answer ⟨s, call, List.mem_of_getElem? hk, rfl, rfl,
        .inr (.inr (.inr ⟨index, term, ch, result, hph, hres, rfl⟩))⟩
    next => cases hs
  | timeout s k =>
    obtain ⟨call, hk, hs⟩ := Option.bind_eq_some_iff.mp hs
    split at hs
    next index term ch hph =>
      obtain rfl := Option.some.inj hs
      have hput : Advances (.timeout s k) c (c.put s ((c.nodes s).setPhase k call (.finished index))) :=
        advances_put fun x hx => .inl (mem_calls_setPhase hk x hx)
      exact hput.answer ⟨s, call, List.mem_of_getElem? hk, rfl, rfl, .inr (.inl rfl)⟩
    next => cases hs
  | remove s k =>
    obtain ⟨call, hk, hs⟩ := Option.bind_eq_some_iff.mp hs
    split at hs
    next => obtain rfl := Option.some.inj hs; exact advances_put fun x hx => .inl (mem_calls_erase x hx)
    next => cases hs
  | apply s isLeader snap => exact advances_apply hs
  | install s k =>
    obtain ⟨⟨index, bytes⟩, hk, hs⟩ := Option.bind_eq_some_iff.mp hs
    obtain ⟨kv, hkv, rfl⟩ := Option.map_eq_some_iff.mp hs
    exact advances_put fun x hx => .inl ⟨x, hx, rfl⟩
  | restart s k =>
    cases k with
    | none =>
      obtain ⟨kv, hkv, rfl⟩ := Option.map_eq_some_iff.mp hs
      exact advances_put fun x hx => absurd hx List.not_mem_nil
    | some k =>
      obtain ⟨⟨index, bytes⟩, hk, hs⟩ := Option.bind_eq_some_iff.mp hs
      obtain ⟨kv, hkv, rfl⟩ := Option.map_eq_some_iff.mp hs
      exact advances_put fun x hx => absurd hx List.not_mem_nil

end Service

/-! ### Replies of writes -/

theorem Store.applyOp_err {st : Store} {op : Op} (hget : op.opType ≠ .opGet)
    (htable : ∀ k info, st.duplicateTable k = some info → info.reply.err = .ok) :
    (st.applyOp op).2.err = .ok := by
  unfold Store.applyOp
  split_ifs
  · cases hk : st.duplicateTable op.clientId with
    | none => rfl
    | some info => exact htable _ info hk
  · unfold Store.applyToStateMachine
    cases hop : op.opType with
    | opGet => exact absurd hop hget
    | opPut => rfl
    | opAppend => rfl

/-- Only writes are recorded, and they are recorded as done. -/
theorem replay_table_err (L : List Op) :
    ∀ k info, (replay L).duplicateTable k = some info → info.reply.err = .ok := by
  induction L using List.reverseRecOn with
  | nil =>
    intro k info h
    simp [replay, Store.new] at h
  | append_singleton L op ih =>
    intro k info h
    have hlast : replay (L ++ [op]) = ((replay L).applyOp op).1 := by simp [replay]
    rw [hlast] at h
    by_cases hr : (replay L).Runs op
    · rw [Store.applyOp_run hr] at h
      by_cases hk : k = op.clientId
      · subst hk
        rw [Function.update_self, Option.some.injEq] at h
        rw [← h]
        have herr := Store.applyOp_err hr.1 ih
        rw [Store.applyOp, if_neg (fun hx => hr.2 (Store.requestDuplicated_iff.mp hx.2))] at herr
        simpa [hr.1] using herr
      · rw [Function.update_of_ne hk] at h
        exact ih k info h
    · rw [Store.applyOp_skip hr] at h
      exact ih k info h

section Service

variable {S B : Type} {cd : Codec B} {c : Service S B}

/-- What comes through the channel of a request is the result of its own command. -/
theorem ServiceOk.result_of_waiting (h : ServiceOk cd c) {s : S} {call : Pending}
    (hc : call ∈ (c.nodes s).calls) {index term ch : ℕ} {result : OpReply}
    (hph : call.phase = .waiting index term ch) (hres : (c.nodes s).chans ch = some result) :
    ∃ L op, call.request.command = some op ∧ result = ((replay L).applyOp op).2 := by
  obtain ⟨owner, hch⟩ := (h.nodes s).chans
  have hpl : call.phase.place = some (index, term) := by rw [hph]; rfl
  obtain ⟨rfl, -⟩ := hch.waiting call hc index term ch hph
  obtain ⟨-, hp⟩ := hch.posted ch result hres
  obtain ⟨e, he, hval, hterm⟩ := hp.entry
  obtain ⟨⟨op, hop, hmem⟩, hpos, -⟩ := ((h.nodes s).calls call hc).place _ _ hpl
  have hmem' := h.logged _ e he
  rw [Nat.sub_add_cancel hpos] at hmem'
  have heop : e.op = op :=
    congrArg Entry.op (h.functional _ hmem' _ hmem rfl (hterm call hc _ hpl).symm)
  exact ⟨_, op, hop, heop ▸ hval⟩

/-- An answer is no later than the log, and `ErrNoKey` does not answer a write. -/
def AnswerSound (len : ℕ) (x : Answer) : Prop :=
  x.reached ≤ len ∧ (x.request.isWrite = true → x.reply.err ≠ .errNoKey)

theorem ServiceOk.answerSound (h : ServiceOk cd c) {x : Answer} (hx : Answers c x) :
    AnswerSound c.log.length x := by
  obtain ⟨s, call, hc, hreq, hreached, hreply⟩ := hx
  refine ⟨hreached ▸ (h.nodes s).reached, fun hwrite => ?_⟩
  rw [hreq] at hwrite
  cases hr : call.request with
  | get key => simp [hr, Request.isWrite] at hwrite
  | putAppend key value op clientId seqId =>
    rcases hreply with herr | herr | ⟨k, info, hinfo, hreply⟩ | ⟨index, term, ch, result, hph, hres, hreply⟩
    · simp [herr]
    · simp [herr]
    · rw [(h.nodes s).replica.store] at hinfo
      simp [hreply, hr, Request.fill, replay_table_err _ k info hinfo]
    · obtain ⟨L, cmd, hcmd, rfl⟩ := h.result_of_waiting hc hph hres
      rw [hr] at hcmd
      simp [hreply, hr, Request.fill,
        Store.applyOp_err (opType_of_command hcmd).1 (replay_table_err L)]

end Service

end GoServices.KvRaft
