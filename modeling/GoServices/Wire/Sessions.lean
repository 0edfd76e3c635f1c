import GoServices.Schemes.Ranges
import GoServices.Schemes.Runs
import GoServices.Wire.Protocol

/-! Connectors, the servers behind them and the sessions on both sides (`framework/net/ws_manager.go`,
    `net/session.go`, `framework/remote/session.go`, `framework/node/app.go`).

    A connector answers some messages of its clients itself, which is how users log in, and passes the
    others on to other servers, with the data of the client's session. There a session of its own is made for every message; a handler, or a timer that has kept
    the session, uses it at any later time to answer, to push messages to users and to store data.
    All of it goes back to the connector over nats, which may lose messages and deliver them in any
    order, but not twice. -/

namespace GoServices.Sessions

open Ranges Runs
open Wire (Message MessageType Route)

/-- The session of a connection; nobody is logged in as long as `uid` is empty. -/
structure Session (D : Type) where
  uid : String
  data : String → Option D

/-- The session of a new connection: no user and no data. -/
def newSession {D : Type} : Session D := ⟨"", fun _ => none⟩

/-- `SetData`: only for the user who is logged in. -/
def Session.setData {D : Type} (s : Session D) (uid : String) (data : String → Option D) : Session D :=
  if s.uid = uid then { s with data := fun k => (data k).or (s.data k) } else s

/-- `remote.Msg`. The last field is not in the source: the number of the client's message from which
    this one comes. -/
structure Msg (A C D : Type) where
  cid : C
  body : Option Message
  src : A
  dst : A
  uid : String
  sessionData : String → Option D
  isSession : Bool
  pushUser : List String
  origin : ℕ

/-- `remote.Session`: the message it was made for, its data, and what waits in its channels. `Put`
    sends the map itself, so only the number of waiting entries matters. -/
structure RemoteSession (A C D : Type) where
  msg : Msg A C D
  data : String → Option D
  pushSessionChan : ℕ
  pushChan : List (List String × Route × List UInt8)
  running : Bool

/-- A message written to a connection, with the user who was logged in there. -/
structure Delivery (A C : Type) where
  server : A
  cid : C
  uid : String
  pushUser : List String
  body : Message
  origin : ℕ

/-- A message of a client and the server that handles it, which is `server` if the connector does so
    itself. -/
structure Asked (A C : Type) where
  server : A
  cid : C
  dst : A
  body : Message

/-- All servers and the messages between them; `asked`, `sent` and `puts` record what clients sent,
    what was written to them, and what was stored in sessions. -/
structure Hub (A C D : Type) [DecidableEq C] where
  clients : A → Map C (Session D)
  used : List (A × C)
  sessions : List (RemoteSession A C D)
  network : List (Msg A C D)
  asked : List (Asked A C)
  sent : List (Delivery A C)
  puts : List (ℕ × String × D)

/-- What can happen next at the servers and between them. -/
inductive Action (A C D : Type) [DecidableEq C] where
  | connect (a : A) (cid : C)
  | close (a : A) (cid : C)
  /-- `MessageHandler` calls `Entry`, which has found the token of user `uid`, if any; `data` is the
      answer, if it can be encoded -/
  | entry (a : A) (cid : C) (m : Message) (uid : Option String) (data : Option (List UInt8))
  /-- `MessageHandler` chooses server `dst` for a message -/
  | message (a : A) (cid : C) (dst : A) (m : Message)
  | deliver (i : ℕ) (order : Order C)
  | lose (i : ℕ)
  | put (k : ℕ) (key : String) (value : D)
  | push (k : ℕ) (users : List String) (router : Route) (data : List UInt8)
  | pushSessionChanRead (k : ℕ)
  | pushChanRead (k : ℕ)
  /-- the handler of session `k` returns -/
  | finish (k : ℕ) (data : List UInt8)

namespace RemoteSession

variable {A C D : Type} (s : RemoteSession A C D)

/-- What `readChanMsg` sends when the handler has returned. -/
def response (data : List UInt8) : Msg A C D where
  cid := s.msg.cid
  body := s.msg.body.map fun m => { m with data := data }
  src := s.msg.dst
  dst := s.msg.src
  uid := s.msg.uid
  sessionData := fun _ => none
  isSession := false
  pushUser := []
  origin := s.msg.origin

/-- What `pushMessage` sends for a session. -/
def pushMessage (users : List String) (router : Route) (data : List UInt8) : Msg A C D :=
  { s.response data with
    body := s.msg.body.map fun m => ⟨MessageType.push, m.id, router, data, false, false⟩
    pushUser := users }

/-- What a session sends to the connector when its data have changed. -/
def sessionMessage : Msg A C D :=
  { s.response [] with body := none, sessionData := s.data, isSession := true }

end RemoteSession

namespace Hub

variable {A C D : Type} [DecidableEq A] [DecidableEq C]

/-- No connections and no messages. -/
def init : Hub A C D := ⟨fun _ => Map.empty, [], [], [], [], [], []⟩

/-- The hub with another session for a connection. -/
def setClient (h : Hub A C D) (a : A) (cid : C) (s : Session D) : Hub A C D :=
  { h with clients := Function.update h.clients a ((h.clients a).set cid s) }

/-- The hub with another state of remote session `k`. -/
def setSession (h : Hub A C D) (k : ℕ) (s : RemoteSession A C D) : Hub A C D :=
  { h with sessions := h.sessions.set k s }

/-- A message is put on the bus. -/
def send (h : Hub A C D) (msg : Msg A C D) : Hub A C D := { h with network := h.network ++ [msg] }

/-- `Response`: the connection of the message has to be there, also for a push to others. -/
def response (h : Hub A C D) (order : Order C) (msg : Msg A C D) (body : Message) : List (Delivery A C) :=
  match (h.clients msg.dst).get msg.cid with
  | none => []
  | some session =>
    if body.type = MessageType.push then
      ((order.range (h.clients msg.dst)).filter fun e => msg.pushUser.contains e.2.uid).map fun e =>
        ⟨msg.dst, e.1, e.2.uid, msg.pushUser, body, msg.origin⟩
    else [⟨msg.dst, msg.cid, session.uid, [], body, msg.origin⟩]

/-- `setSessionData` -/
def setSessionData (h : Hub A C D) (msg : Msg A C D) : Hub A C D :=
  match (h.clients msg.dst).get msg.cid with
  | none => h
  | some session => h.setClient msg.dst msg.cid (session.setData msg.uid msg.sessionData)

/-- `remoteReadChanHandler`. A push goes through one more channel, which is part of the network here. -/
def remoteRead (h : Hub A C D) (order : Order C) (msg : Msg A C D) : Hub A C D :=
  if msg.isSession then h.setSessionData msg
  else match msg.body with
    | none => h
    | some body =>
      if body.type = MessageType.request ∨ body.type = MessageType.response then
        { h with sent := h.sent ++ h.response order msg { body with type := MessageType.response } }
      else if body.type = MessageType.push then { h with sent := h.sent ++ h.response order msg body }
      else h

/-- `readChanMsg` makes a session for the message. -/
def readChanMsg (h : Hub A C D) (msg : Msg A C D) : Hub A C D :=
  { h with sessions := h.sessions ++ [⟨msg, msg.sessionData, 0, [], true⟩] }

/-- The local branch of `MessageHandler`, after the handler has returned: any message is answered. -/
def entry (h : Hub A C D) (a : A) (cid : C) (m : Message) (s : Session D) (data : Option (List UInt8)) :
    Hub A C D :=
  { h.setClient a cid s with
    asked := h.asked ++ [⟨a, cid, a, m⟩]
    sent := h.sent ++ data.toList.map fun data =>
      ⟨a, cid, s.uid, [], { m with type := MessageType.response, data := data }, h.asked.length⟩ }

/-- One action. -/
def step (isConnector : A → Bool) (h : Hub A C D) : Action A C D → Option (Hub A C D)
  | .connect a cid =>
    -- connection ids are made of a uuid and a counter
    if isConnector a ∧ (a, cid) ∉ h.used then
      some { h.setClient a cid newSession with used := h.used ++ [(a, cid)] }
    else none
  | .close a cid => some { h with clients := Function.update h.clients a ((h.clients a).erase cid) }
  | .entry a cid m uid data =>
    ((h.clients a).get cid).map fun s => h.entry a cid m { s with uid := uid.getD s.uid } data
  | .message a cid dst m =>
    if isConnector a ∧ ¬ isConnector dst then
      ((h.clients a).get cid).map fun s =>
        { h.send ⟨cid, some m, a, dst, s.uid, s.data, false, [], h.asked.length⟩ with
          asked := h.asked ++ [⟨a, cid, dst, m⟩] }
    else none
  | .deliver i order =>
    (h.network[i]?).map fun msg =>
      let h := { h with network := h.network.eraseIdx i }
      if isConnector msg.dst then h.remoteRead order msg else h.readChanMsg msg
  | .lose i => some { h with network := h.network.eraseIdx i }
  | .put k key value =>
    (h.sessions[k]?).map fun s =>
      { h.setSession k { s with
          data := Function.update s.data key (some value)
          pushSessionChan := s.pushSessionChan + 1 } with
        puts := h.puts ++ [(s.msg.origin, key, value)] }
  | .push k users router data =>
    (h.sessions[k]?).map fun s =>
      h.setSession k { s with pushChan := s.pushChan ++ [(users, router, data)] }
  | .pushSessionChanRead k =>
    (h.sessions[k]?).bind fun s =>
      match s.pushSessionChan with
      | 0 => none
      | n + 1 => some ((h.setSession k { s with pushSessionChan := n }).send s.sessionMessage)
  | .pushChanRead k =>
    (h.sessions[k]?).bind fun s =>
      match s.pushChan with
      | [] => none
      | p :: rest =>
        some ((h.setSession k { s with pushChan := rest }).send (s.pushMessage p.1 p.2.1 p.2.2))
  | .finish k data =>
    (h.sessions[k]?).bind fun s =>
      if s.running then some ((h.setSession k { s with running := false }).send (s.response data))
      else none

end Hub

/-! ### Where messages and data come from -/

section Origins

variable {A C D : Type} (isConnector : A → Bool) (asked : List (Asked A C))
  (puts : List (ℕ × String × D))

/-- Every value was stored for a message of this connection. -/
def DataOk (a : A) (cid : C) (data : String → Option D) : Prop :=
  ∀ key value, data key = some value → ∃ n dst m, asked[n]? = some ⟨a, cid, dst, m⟩ ∧ (n, key, value) ∈ puts

/-- A message on its way from or to the connection it has to do with. -/
def MsgOk (x : Msg A C D) : Prop :=
  ∃ a dst m, asked[x.origin]? = some ⟨a, x.cid, dst, m⟩ ∧ isConnector a = true ∧
    DataOk asked puts a x.cid x.sessionData ∧
    (isConnector x.dst = false → x.src = a ∧ x.body = some m) ∧
    (isConnector x.dst = true → x.dst = a ∧ ∀ b, x.body = some b →
      b.type = MessageType.push ∨ b.type = m.type ∧ b.id = m.id ∧ b.route = m.route)

/-- A session on the other side belongs to a message of a connection. -/
def SessionOk (s : RemoteSession A C D) : Prop :=
  ∃ a dst m, asked[s.msg.origin]? = some ⟨a, s.msg.cid, dst, m⟩ ∧ isConnector a = true ∧
    DataOk asked puts a s.msg.cid s.data ∧ s.msg.src = a ∧ s.msg.body = some m

/-- A reply to the message of this connection, or a push to the user there that comes from a message
    of some connection of the same connector. -/
def SentOk (d : Delivery A C) : Prop :=
  if d.body.type = MessageType.push then
    d.uid ∈ d.pushUser ∧ ∃ cid dst m, asked[d.origin]? = some ⟨d.server, cid, dst, m⟩
  else
    ∃ dst m, asked[d.origin]? = some ⟨d.server, d.cid, dst, m⟩ ∧
      (dst ≠ d.server → m.type = MessageType.request ∨ m.type = MessageType.response) ∧
      d.body.type = MessageType.response ∧ d.body.id = m.id ∧ d.body.route = m.route

variable {isConnector asked puts} {asked' : List (Asked A C)} {puts' : List (ℕ × String × D)}

theorem getElem?_asked (asked : List (Asked A C)) (y : Asked A C) {n : ℕ} {x : Asked A C}
    (hn : asked[n]? = some x) : (asked ++ [y])[n]? = some x := by
  rw [List.getElem?_append_left (List.getElem?_eq_some_iff.mp hn).1, hn]

theorem DataOk.grow {a : A} {cid : C} {data : String → Option D} (hd : DataOk asked puts a cid data)
    (hasked : ∀ (n : ℕ) y, asked[n]? = some y → asked'[n]? = some y) (hputs : ∀ p ∈ puts, p ∈ puts') :
    DataOk asked' puts' a cid data := by
  intro key value hv
  obtain ⟨n, dst, m, hn, hp⟩ := hd key value hv
  exact ⟨n, dst, m, hasked n _ hn, hputs _ hp⟩

theorem dataOk_none (a : A) (cid : C) : DataOk asked puts a cid fun _ => none :=
  fun _ _ hv => by cases hv

theorem DataOk.setData {a : A} {cid : C} {s : Session D} (hs : DataOk asked puts a cid s.data)
    {data : String → Option D} (hd : DataOk asked puts a cid data) (uid : String) :
    DataOk asked puts a cid (s.setData uid data).data := by
  unfold Session.setData
  split_ifs
  · intro key value hv
    rcases Option.or_eq_some_iff.mp hv with hv | ⟨-, hv⟩
    · exact hd key value hv
    · exact hs key value hv
  · exact hs

/-- Messages from a session back to its connector. -/
theorem SessionOk.back {s : RemoteSession A C D} (hs : SessionOk isConnector asked puts s)
    {x : Msg A C D} (hcid : x.cid = s.msg.cid) (hdst : x.dst = s.msg.src)
    (horigin : x.origin = s.msg.origin) (hdata : x.sessionData = s.data ∨ x.sessionData = fun _ => none)
    (hbody : ∀ m b, s.msg.body = some m → x.body = some b →
      b.type = MessageType.push ∨ b.type = m.type ∧ b.id = m.id ∧ b.route = m.route) :
    MsgOk isConnector asked puts x := by
  obtain ⟨a, dst, m, hn, ha, hd, hsrc, hm⟩ := hs
  refine ⟨a, dst, m, by rw [horigin, hcid, hn], ha, ?_, fun hnot => ?_, fun _ => ⟨hdst.trans hsrc, fun b hb =>
    hbody m b hm hb⟩⟩
  · rw [hcid]
    rcases hdata with hx | hx <;> rw [hx]
    · exact hd
    · exact dataOk_none a _
  · rw [hdst, hsrc, ha] at hnot
    cases hnot

theorem SessionOk.response {s : RemoteSession A C D} (hs : SessionOk isConnector asked puts s)
    (data : List UInt8) : MsgOk isConnector asked puts (s.response data) := by
  refine hs.back rfl rfl rfl (Or.inr rfl) fun m b hm hb => Or.inr ?_
  simp only [RemoteSession.response, hm, Option.map_some, Option.some.injEq] at hb
  rw [← hb]
  exact ⟨rfl, rfl, rfl⟩

theorem SessionOk.pushMessage {s : RemoteSession A C D} (hs : SessionOk isConnector asked puts s)
    (users : List String) (router : Route) (data : List UInt8) :
    MsgOk isConnector asked puts (s.pushMessage users router data) := by
  refine hs.back rfl rfl rfl (Or.inr rfl) fun m b hm hb => Or.inl ?_
  simp only [RemoteSession.pushMessage, hm, Option.map_some, Option.some.injEq] at hb
  rw [← hb]

theorem SessionOk.sessionMessage {s : RemoteSession A C D} (hs : SessionOk isConnector asked puts s) :
    MsgOk isConnector asked puts s.sessionMessage :=
  hs.back rfl rfl rfl (Or.inl rfl) fun _ _ _ hb => by cases hb

end Origins

/-- Everything that is under way comes from where it should. -/
structure HubOk {A C D : Type} [DecidableEq C] (isConnector : A → Bool) (h : Hub A C D) : Prop where
  network : ∀ x ∈ h.network, MsgOk isConnector h.asked h.puts x
  sessions : ∀ s ∈ h.sessions, SessionOk isConnector h.asked h.puts s
  sent : ∀ d ∈ h.sent, SentOk h.asked d
  clients : ∀ a cid s, (h.clients a).get cid = some s → DataOk h.asked h.puts a cid s.data

section Steps

variable {A C D : Type} [DecidableEq C] {isConnector : A → Bool} {asked' : List (Asked A C)}
  {puts' : List (ℕ × String × D)} {h h' : Hub A C D}

/-- More messages asked and more values stored leave all of it true. -/
theorem HubOk.grow (hh : HubOk isConnector h)
    (hasked : ∀ (n : ℕ) y, h.asked[n]? = some y → asked'[n]? = some y) (hputs : ∀ p ∈ h.puts, p ∈ puts') :
    HubOk isConnector { h with asked := asked', puts := puts' } := by
  refine ⟨fun x hx => ?_, fun s hs => ?_, fun d hd => ?_, fun a cid s hs =>
    (hh.clients a cid s hs).grow hasked hputs⟩
  · obtain ⟨a, dst, m, hn, ha, hdata, hrest⟩ := hh.network x hx
    exact ⟨a, dst, m, hasked _ _ hn, ha, hdata.grow hasked hputs, hrest⟩
  · obtain ⟨a, dst, m, hn, ha, hdata, hrest⟩ := hh.sessions s hs
    exact ⟨a, dst, m, hasked _ _ hn, ha, hdata.grow hasked hputs, hrest⟩
  · have hold := hh.sent d hd
    unfold SentOk at hold ⊢
    split_ifs at hold ⊢ with hpush
    · obtain ⟨huid, cid, dst, m, hn⟩ := hold
      exact ⟨huid, cid, dst, m, hasked _ _ hn⟩
    · obtain ⟨dst, m, hn, hrest⟩ := hold
      exact ⟨dst, m, hasked _ _ hn, hrest⟩

theorem HubOk.setSession (hh : HubOk isConnector h) {k : ℕ} {s : RemoteSession A C D}
    (hs : SessionOk isConnector h.asked h.puts s) : HubOk isConnector (h.setSession k s) := by
  refine ⟨hh.network, fun t ht => ?_, hh.sent, hh.clients⟩
  rcases List.mem_or_eq_of_mem_set ht with ht | rfl
  · exact hh.sessions t ht
  · exact hs

/-- Only the channels of a session change. -/
theorem HubOk.setChans (hh : HubOk isConnector h) {k : ℕ} {s : RemoteSession A C D}
    (hk : h.sessions[k]? = some s) (n : ℕ) (pushChan : List (List String × Route × List UInt8))
    (running : Bool) : HubOk isConnector (h.setSession k ⟨s.msg, s.data, n, pushChan, running⟩) := by
  refine hh.setSession ?_
  exact hh.sessions s (List.mem_of_getElem? hk)

theorem HubOk.send (hh : HubOk isConnector h) {x : Msg A C D}
    (hx : MsgOk isConnector h.asked h.puts x) : HubOk isConnector (h.send x) := by
  refine ⟨fun y hy => ?_, hh.sessions, hh.sent, hh.clients⟩
  rcases List.mem_append.mp hy with hy | hy
  · exact hh.network y hy
  · exact List.mem_singleton.mp hy ▸ hx

theorem HubOk.erase (hh : HubOk isConnector h) (i : ℕ) :
    HubOk isConnector { h with network := h.network.eraseIdx i } :=
  ⟨fun x hx => hh.network x (List.mem_of_mem_eraseIdx hx), hh.sessions, hh.sent, hh.clients⟩

/-! ### Messages that arrive -/

/-- What `Response` writes. -/
theorem HubOk.response (hh : HubOk isConnector h) {x : Msg A C D} {body b : Message}
    (hx : MsgOk isConnector h.asked h.puts x) (hdst : isConnector x.dst = true) (hbody : x.body = some b)
    (hcase : body = b ∧ b.type = MessageType.push ∨ body = { b with type := MessageType.response } ∧
      (b.type = MessageType.request ∨ b.type = MessageType.response)) (order : Order C) :
    HubOk isConnector { h with sent := h.sent ++ h.response order x body } := by
  obtain ⟨a, dst, m, hn, -, -, -, hback⟩ := hx
  obtain ⟨rfl, hb⟩ := hback hdst
  refine ⟨hh.network, hh.sessions, fun d hd => ?_, hh.clients⟩
  rcases List.mem_append.mp hd with hd | hd
  · exact hh.sent d hd
  unfold Hub.response at hd
  cases hget : (h.clients x.dst).get x.cid with
  | none => rw [hget] at hd; cases hd
  | some session =>
    rw [hget] at hd
    dsimp only at hd
    rcases hcase with ⟨rfl, hpush⟩ | ⟨rfl, hreq⟩
    · rw [if_pos hpush] at hd
      obtain ⟨e, he, rfl⟩ := List.mem_map.mp hd
      rw [SentOk, if_pos hpush]
      exact ⟨List.contains_iff_mem.mp (List.mem_filter.mp he).2, x.cid, dst, m, hn⟩
    · have hne : MessageType.response ≠ MessageType.push := by decide
      rw [if_neg hne] at hd
      rw [List.mem_singleton.mp hd, SentOk, if_neg hne]
      obtain ⟨htype, hid, hroute⟩ : b.type = m.type ∧ b.id = m.id ∧ b.route = m.route := by
        refine (hb b hbody).resolve_left fun hpush => ?_
        rcases hreq with hreq | hreq <;> rw [hpush] at hreq <;> exact absurd hreq (by decide)
      exact ⟨dst, m, hn, fun _ => htype ▸ hreq, rfl, hid, hroute⟩

theorem HubOk.readChanMsg (hh : HubOk isConnector h) {x : Msg A C D}
    (hx : MsgOk isConnector h.asked h.puts x) (hdst : isConnector x.dst = false) :
    HubOk isConnector (h.readChanMsg x) := by
  refine ⟨hh.network, fun s hs => ?_, hh.sent, hh.clients⟩
  rcases List.mem_append.mp hs with hs | hs
  · exact hh.sessions s hs
  · rw [List.mem_singleton.mp hs]
    obtain ⟨a, dst, m, hn, ha, hdata, hto, -⟩ := hx
    exact ⟨a, dst, m, hn, ha, hdata, hto hdst⟩

theorem HubOk.message (hh : HubOk isConnector h) {a dst : A} {cid : C} {s : Session D} {m : Message}
    (ha : isConnector a = true) (hdst : isConnector dst = false)
    (hget : (h.clients a).get cid = some s) :
    HubOk isConnector { h.send ⟨cid, some m, a, dst, s.uid, s.data, false, [], h.asked.length⟩ with
      asked := h.asked ++ [⟨a, cid, dst, m⟩] } := by
  have hasked : ∀ n y, h.asked[n]? = some y → (h.asked ++ [⟨a, cid, dst, m⟩])[n]? = some y :=
    fun _ _ hn => getElem?_asked h.asked _ hn
  have hgrown : HubOk isConnector { h with asked := h.asked ++ [⟨a, cid, dst, m⟩] } :=
    hh.grow hasked fun _ hp => hp
  refine hgrown.send ⟨a, dst, m, List.getElem?_concat_length, ha, (hh.clients a cid s hget).grow hasked
    fun _ hp => hp, fun _ => ⟨rfl, rfl⟩, fun hd => ?_⟩
  rw [hdst] at hd
  cases hd

theorem HubOk.put (hh : HubOk isConnector h) {k : ℕ} {s : RemoteSession A C D}
    (hk : h.sessions[k]? = some s) (key : String) (value : D) :
    HubOk isConnector { h.setSession k { s with
        data := Function.update s.data key (some value)
        pushSessionChan := s.pushSessionChan + 1 } with
      puts := h.puts ++ [(s.msg.origin, key, value)] } := by
  have hputs : ∀ p ∈ h.puts, p ∈ h.puts ++ [(s.msg.origin, key, value)] := fun _ hp =>
    List.mem_append_left _ hp
  have hgrown : HubOk isConnector { h with puts := h.puts ++ [(s.msg.origin, key, value)] } :=
    hh.grow (fun _ _ hn => hn) hputs
  obtain ⟨a, dst, m, hn, ha, hdata, hrest⟩ := hh.sessions s (List.mem_of_getElem? hk)
  refine hgrown.setSession ⟨a, dst, m, hn, ha, fun key' value' hv => ?_, hrest⟩
  dsimp only at hv
  rw [Function.update_apply] at hv
  split_ifs at hv with heq
  · rw [heq, ← Option.some.inj hv]
    exact ⟨s.msg.origin, dst, m, hn, List.mem_append_right _ (List.mem_singleton_self _)⟩
  · exact hdata.grow (fun _ _ hn => hn) hputs key' value' hv

theorem hubOk_init : HubOk isConnector (Hub.init : Hub A C D) := by
  refine ⟨fun _ hx => ?_, fun _ hx => ?_, fun _ hx => ?_, fun _ _ _ hx => ?_⟩ <;> cases hx

variable [DecidableEq A]

theorem HubOk.setClient (hh : HubOk isConnector h) {a : A} {cid : C} {s : Session D}
    (hs : DataOk h.asked h.puts a cid s.data) : HubOk isConnector (h.setClient a cid s) := by
  refine ⟨hh.network, hh.sessions, hh.sent, fun b c t ht => ?_⟩
  simp only [Hub.setClient, Function.update_apply] at ht
  split_ifs at ht with hb
  · subst hb
    rw [Map.get_set] at ht
    split_ifs at ht with hc
    · subst hc
      exact Option.some.inj ht ▸ hs
    · exact hh.clients b c t ht
  · exact hh.clients b c t ht

/-- The connector answers a message itself. -/
theorem HubOk.entry (hh : HubOk isConnector h) {a : A} {cid : C} {s : Session D} (m : Message)
    (data : Option (List UInt8)) (hs : DataOk h.asked h.puts a cid s.data) :
    HubOk isConnector (h.entry a cid m s data) := by
  have hgrown : HubOk isConnector { h.setClient a cid s with asked := h.asked ++ [⟨a, cid, a, m⟩] } :=
    (hh.setClient hs).grow (fun _ _ hn => getElem?_asked h.asked _ hn) fun _ hp => hp
  refine ⟨hgrown.network, hgrown.sessions, fun d hd => ?_, hgrown.clients⟩
  rcases List.mem_append.mp hd with hd | hd
  · exact hgrown.sent d hd
  · obtain ⟨data, -, rfl⟩ := List.mem_map.mp hd
    have hne : MessageType.response ≠ MessageType.push := by decide
    rw [SentOk, if_neg hne]
    exact ⟨a, m, List.getElem?_concat_length, fun hlocal => absurd rfl hlocal, rfl, rfl, rfl⟩

theorem HubOk.remoteRead (hh : HubOk isConnector h) {x : Msg A C D}
    (hx : MsgOk isConnector h.asked h.puts x) (hdst : isConnector x.dst = true) (order : Order C) :
    HubOk isConnector (h.remoteRead order x) := by
  unfold Hub.remoteRead
  split_ifs with hsession
  · unfold Hub.setSessionData
    obtain ⟨a, dst, m, hn, -, hdata, -, hback⟩ := hx
    obtain ⟨rfl, -⟩ := hback hdst
    cases hget : (h.clients x.dst).get x.cid with
    | none => exact hh
    | some session => exact hh.setClient ((hh.clients _ _ _ hget).setData hdata x.uid)
  · cases hbody : x.body with
    | none => exact hh
    | some b =>
      dsimp only
      split_ifs with hreq hpush
      · exact hh.response hx hdst hbody (Or.inr ⟨rfl, hreq⟩) order
      · exact hh.response hx hdst hbody (Or.inl ⟨rfl, hpush⟩) order
      · exact hh

/-! ### Steps -/

theorem HubOk.close (hh : HubOk isConnector h) (a : A) (cid : C) :
    HubOk isConnector { h with clients := Function.update h.clients a ((h.clients a).erase cid) } := by
  refine ⟨hh.network, hh.sessions, hh.sent, fun b c t ht => ?_⟩
  simp only [Function.update_apply] at ht
  split_ifs at ht with hb
  · subst hb
    rw [Map.get_erase] at ht
    split_ifs at ht
    exact hh.clients b c t ht
  · exact hh.clients b c t ht

theorem HubOk.step (hh : HubOk isConnector h) {act : Action A C D}
    (hs : h.step isConnector act = some h') : HubOk isConnector h' := by
  have session : ∀ {k s}, h.sessions[k]? = some s → SessionOk isConnector h.asked h.puts s :=
    fun hk => hh.sessions _ (List.mem_of_getElem? hk)
  cases act with
  | connect a cid =>
    rw [Hub.step] at hs
    split_ifs at hs
    obtain rfl := Option.some.inj hs
    have hset := hh.setClient (s := newSession) (dataOk_none a cid)
    exact ⟨hset.network, hset.sessions, hset.sent, hset.clients⟩
  | close a cid =>
    obtain rfl := Option.some.inj hs
    exact hh.close a cid
  | entry a cid m uid data =>
    obtain ⟨s, hget, rfl⟩ := Option.map_eq_some_iff.mp hs
    exact hh.entry m data (hh.clients a cid s hget)
  | message a cid dst m =>
    rw [Hub.step] at hs
    split_ifs at hs with hcond
    obtain ⟨s, hget, rfl⟩ := Option.map_eq_some_iff.mp hs
    exact hh.message hcond.1 (Bool.eq_false_iff.mpr hcond.2) hget
  | deliver i order =>
    obtain ⟨x, hx, rfl⟩ := Option.map_eq_some_iff.mp hs
    have hok := hh.network x (List.mem_of_getElem? hx)
    dsimp only
    split_ifs with hdst
    · exact (hh.erase i).remoteRead hok hdst order
    · exact (hh.erase i).readChanMsg hok (Bool.eq_false_iff.mpr hdst)
  | lose i =>
    obtain rfl := Option.some.inj hs
    exact hh.erase i
  | put k key value =>
    obtain ⟨s, hk, rfl⟩ := Option.map_eq_some_iff.mp hs
    exact hh.put hk key value
  | push k users router data =>
    obtain ⟨s, hk, rfl⟩ := Option.map_eq_some_iff.mp hs
    exact hh.setChans hk _ _ _
  | pushSessionChanRead k =>
    obtain ⟨s, hk, hs⟩ := Option.bind_eq_some_iff.mp hs
    cases hn : s.pushSessionChan with
    | zero => rw [hn] at hs; cases hs
    | succ n =>
      rw [hn] at hs
      obtain rfl := Option.some.inj hs
      exact (hh.setChans hk _ _ _).send (session hk).sessionMessage
  | pushChanRead k =>
    obtain ⟨s, hk, hs⟩ := Option.bind_eq_some_iff.mp hs
    cases hn : s.pushChan with
    | nil => rw [hn] at hs; cases hs
    | cons p rest =>
      rw [hn] at hs
      obtain rfl := Option.some.inj hs
      exact (hh.setChans hk _ _ _).send ((session hk).pushMessage _ _ _)
  | finish k data =>
    obtain ⟨s, hk, hs⟩ := Option.bind_eq_some_iff.mp hs
    split_ifs at hs
    obtain rfl := Option.some.inj hs
    exact (hh.setChans hk _ _ _).send ((session hk).response data)

end Steps

/-! ### At most one reply -/

section Once

variable {A C D : Type} [DecidableEq C] (isConnector : A → Bool)

/-- The message can still lead to a reply to message `n`. -/
def live (n : ℕ) (x : Msg A C D) : Bool :=
  decide (x.origin = n) && (!isConnector x.dst ||
    !x.isSession && x.body.any fun b => decide (b.type ≠ MessageType.push))

/-- Whether a session still works on message `n`. -/
def busy (n : ℕ) (s : RemoteSession A C D) : Bool := decide (s.msg.origin = n) && s.running

/-- Whether a delivery answers message `n`. -/
def answers (n : ℕ) (d : Delivery A C) : Bool :=
  decide (d.origin = n) && decide (d.body.type = MessageType.response)

/-- The replies to message `n` that there are or that can still come. -/
def Hub.replies (h : Hub A C D) (n : ℕ) : ℕ :=
  h.network.countP (live isConnector n) + h.sessions.countP (busy n) + h.sent.countP (answers n)

variable {isConnector} {h h' : Hub A C D}

theorem countP_eraseIdx {α : Type} {l : List α} {i : ℕ} {x : α} (hi : l[i]? = some x) (p : α → Bool) :
    l.countP p = (l.eraseIdx i).countP p + if p x then 1 else 0 := by
  obtain ⟨hlt, rfl⟩ := List.getElem?_eq_some_iff.mp hi
  rw [← (List.getElem_cons_eraseIdx_perm hlt).countP_eq p, List.countP_cons]

theorem countP_setAt {α : Type} {l : List α} {k : ℕ} {x : α} (hk : l[k]? = some x) (y : α)
    (p : α → Bool) :
    (l.set k y).countP p + (if p x then 1 else 0) = l.countP p + if p y then 1 else 0 := by
  obtain ⟨hlt, rfl⟩ := List.getElem?_eq_some_iff.mp hk
  rw [List.countP_set hlt]
  have hpos : (if p l[k] = true then 1 else 0) ≤ l.countP p := by
    split_ifs with hp
    · exact List.countP_pos_iff.mpr ⟨_, List.getElem_mem hlt, hp⟩
    · exact Nat.zero_le _
  omega

/-- `Response` writes at most one reply. -/
theorem countP_response_le (h : Hub A C D) (order : Order C) (msg : Msg A C D) (body : Message) (n : ℕ) :
    (h.response order msg body).countP (answers n) ≤
      if msg.origin = n ∧ body.type ≠ MessageType.push then 1 else 0 := by
  unfold Hub.response
  cases (h.clients msg.dst).get msg.cid with
  | none => exact Nat.zero_le _
  | some session =>
    dsimp only
    split_ifs with hpush hn hn
    · exact absurd hpush hn.2
    · rw [Nat.le_zero, List.countP_eq_zero]
      intro d hd
      obtain ⟨e, -, rfl⟩ := List.mem_map.mp hd
      simp [answers, hpush, MessageType.push, MessageType.response]
    · exact List.countP_le_length
    · have horigin : msg.origin ≠ n := fun heq => hn ⟨heq, hpush⟩
      simp [answers, horigin]

/-- What `Response` writes for a message comes out of what the message could lead to. -/
theorem Hub.replies_response (g : Hub A C D) (order : Order C) {x : Msg A C D} {body b : Message}
    (hsession : x.isSession = false) (hb : x.body = some b)
    (hne : body.type ≠ MessageType.push → b.type ≠ MessageType.push) (n : ℕ) :
    Hub.replies isConnector { g with sent := g.sent ++ g.response order x body } n ≤
      g.replies isConnector n + if live isConnector n x = true then 1 else 0 := by
  have hle := countP_response_le g order x body n
  have hlive : (if x.origin = n ∧ body.type ≠ MessageType.push then 1 else 0) ≤
      if live isConnector n x = true then 1 else 0 := by
    by_cases hcase : x.origin = n ∧ body.type ≠ MessageType.push
    · have hl : live isConnector n x = true := by simp [live, hcase.1, hsession, hb, hne hcase.2]
      rw [if_pos hcase, if_pos hl]
    · rw [if_neg hcase]
      exact Nat.zero_le _
  simp only [Hub.replies, List.countP_append]
  omega

theorem Hub.replies_remoteRead [DecidableEq A] (g : Hub A C D) (order : Order C) (x : Msg A C D)
    (n : ℕ) : (g.remoteRead order x).asked = g.asked ∧ (g.remoteRead order x).replies isConnector n ≤
      g.replies isConnector n + if live isConnector n x = true then 1 else 0 := by
  unfold Hub.remoteRead
  cases hsession : x.isSession with
  | true =>
    rw [if_pos rfl, Hub.setSessionData]
    cases (g.clients x.dst).get x.cid with
    | none => exact ⟨rfl, Nat.le_add_right _ _⟩
    | some session => exact ⟨rfl, Nat.le_add_right _ _⟩
  | false =>
    rw [if_neg (by decide)]
    cases hb : x.body with
    | none => exact ⟨rfl, Nat.le_add_right _ _⟩
    | some b =>
      dsimp only
      by_cases hreq : b.type = MessageType.request ∨ b.type = MessageType.response
      · rw [if_pos hreq]
        refine ⟨rfl, g.replies_response order hsession hb (fun _ hpush => ?_) n⟩
        rcases hreq with hreq | hreq <;> rw [hpush] at hreq <;> exact absurd hreq (by decide)
      · rw [if_neg hreq]
        by_cases hpush : b.type = MessageType.push
        · rw [if_pos hpush]
          exact ⟨rfl, g.replies_response order hsession hb id n⟩
        · rw [if_neg hpush]
          exact ⟨rfl, Nat.le_add_right _ _⟩

/-- Behind the connector a message becomes a session. -/
theorem Hub.replies_readChanMsg (g : Hub A C D) {x : Msg A C D} (hdst : isConnector x.dst = false)
    (n : ℕ) : (g.readChanMsg x).replies isConnector n =
      g.replies isConnector n + if live isConnector n x = true then 1 else 0 := by
  have hlive : live isConnector n x = decide (x.origin = n) := by simp [live, hdst]
  simp only [Hub.replies, Hub.readChanMsg, List.countP_append, List.countP_singleton, busy,
    Bool.and_true, hlive]
  omega

theorem Hub.replies_send (g : Hub A C D) (x : Msg A C D) (n : ℕ) : (g.send x).replies isConnector n =
    g.replies isConnector n + if live isConnector n x = true then 1 else 0 := by
  simp only [Hub.replies, Hub.send, List.countP_append, List.countP_singleton]
  omega

theorem Hub.replies_setSession {g : Hub A C D} {k n : ℕ} {s t : RemoteSession A C D}
    (hk : g.sessions[k]? = some s) : (g.setSession k t).replies isConnector n +
      (if busy n s = true then 1 else 0) =
    g.replies isConnector n + if busy n t = true then 1 else 0 := by
  have hset := countP_setAt hk t (busy n)
  simp only [Hub.replies, Hub.setSession]
  omega

/-- Neither the data nor the channels of a session count. -/
theorem Hub.replies_setSession_same {g : Hub A C D} {k n : ℕ} {s t : RemoteSession A C D}
    (hk : g.sessions[k]? = some s) (ht : busy n t = busy n s) :
    (g.setSession k t).replies isConnector n = g.replies isConnector n := by
  have hset : (g.setSession k t).replies isConnector n + (if busy n s = true then 1 else 0) =
    g.replies isConnector n + if busy n t = true then 1 else 0 := Hub.replies_setSession hk
  rw [ht] at hset
  omega

/-- Only a new message of a client makes room for one more reply. -/
def Accounted (isConnector : A → Bool) (n : ℕ) (h h' : Hub A C D) : Prop :=
  h'.asked.length = h.asked.length ∧ h'.replies isConnector n ≤ h.replies isConnector n ∨
  h'.asked.length = h.asked.length + 1 ∧
    h'.replies isConnector n ≤ h.replies isConnector n + if h.asked.length = n then 1 else 0

namespace Accounted

variable {n k : ℕ} {s : RemoteSession A C D}

theorem message (h : Hub A C D) (x : Msg A C D) (y : Asked A C) (hx : x.origin = h.asked.length) :
    Accounted isConnector n h { h.send x with asked := h.asked ++ [y] } := by
  refine Or.inr ⟨List.length_append, ?_⟩
  show Hub.replies isConnector (h.send x) n ≤ _
  rw [Hub.replies_send]
  refine Nat.add_le_add_left ?_ _
  by_cases hn : h.asked.length = n
  · rw [if_pos hn]
    split_ifs <;> omega
  · simp [live, hx, hn]

theorem entry [DecidableEq A] (h : Hub A C D) (a : A) (cid : C) (m : Message) (s : Session D)
    (data : Option (List UInt8)) : Accounted isConnector n h (h.entry a cid m s data) := by
  refine Or.inr ⟨List.length_append, ?_⟩
  cases data with
  | none => simp [Hub.entry, Hub.setClient, Hub.replies]
  | some data =>
    simp only [Hub.entry, Hub.setClient, Hub.replies, Option.toList_some, List.map_cons, List.map_nil,
      List.countP_append, List.countP_singleton, answers, decide_true, Bool.and_true, decide_eq_true_eq]
    omega

/-- What a message could lead to is what becomes of it. -/
theorem deliver [DecidableEq A] {i : ℕ} {x : Msg A C D} (hx : h.network[i]? = some x) (order : Order C) :
    Accounted isConnector n h (if isConnector x.dst = true
      then Hub.remoteRead { h with network := h.network.eraseIdx i } order x
      else Hub.readChanMsg { h with network := h.network.eraseIdx i } x) := by
  have hcount : Hub.replies isConnector { h with network := h.network.eraseIdx i } n +
      (if live isConnector n x = true then 1 else 0) = h.replies isConnector n := by
    simp only [Hub.replies, countP_eraseIdx hx (live isConnector n)]
    omega
  cases hdst : isConnector x.dst with
  | true =>
    obtain ⟨hasked, hle⟩ := Hub.replies_remoteRead { h with network := h.network.eraseIdx i } order x n
    rw [if_pos rfl]
    exact Or.inl ⟨congrArg List.length hasked, le_of_le_of_eq hle hcount⟩
  | false =>
    rw [if_neg (by decide)]
    refine Or.inl ⟨rfl, le_of_eq ?_⟩
    rw [Hub.replies_readChanMsg _ hdst, hcount]

theorem lose (h : Hub A C D) (i : ℕ) :
    Accounted isConnector n h { h with network := h.network.eraseIdx i } := by
  refine Or.inl ⟨rfl, ?_⟩
  have hle := (List.eraseIdx_sublist h.network i).countP_le (p := live isConnector n)
  simp only [Hub.replies]
  omega

/-- A session sends something that is no reply. -/
theorem pass (hk : h.sessions[k]? = some s) {t : RemoteSession A C D} {x : Msg A C D}
    (ht : busy n t = busy n s) (hx : live isConnector n x = false) :
    Accounted isConnector n h ((h.setSession k t).send x) := by
  refine Or.inl ⟨rfl, le_of_eq ?_⟩
  rw [Hub.replies_send, hx]
  exact Hub.replies_setSession_same hk ht

/-- The reply takes the place of the running handler. -/
theorem finish (hk : h.sessions[k]? = some s) (hrun : s.running = true) (data : List UInt8) :
    Accounted isConnector n h ((h.setSession k { s with running := false }).send (s.response data)) := by
  have hset : (h.setSession k { s with running := false }).replies isConnector n +
      (if busy n s = true then 1 else 0) = h.replies isConnector n +
      if busy n { s with running := false } = true then 1 else 0 := Hub.replies_setSession hk
  have hidle : busy n { s with running := false } = false := by simp [busy]
  have hle : (if live isConnector n (s.response data) = true then 1 else 0) ≤
      if busy n s = true then 1 else 0 := by
    by_cases horigin : s.msg.origin = n
    · have hbusy : busy n s = true := by simp [busy, horigin, hrun]
      rw [if_pos hbusy]
      split_ifs <;> omega
    · simp [live, RemoteSession.response, horigin]
  refine Or.inl ⟨rfl, ?_⟩
  rw [Hub.replies_send]
  simp only [hidle, Bool.false_eq_true, if_false] at hset
  omega

end Accounted

section Dead

variable {n : ℕ} {s : RemoteSession A C D} (hsrc : isConnector s.msg.src = true)
include hsrc

omit [DecidableEq C] in
theorem live_sessionMessage : live isConnector n s.sessionMessage = false := by
  simp [live, RemoteSession.sessionMessage, RemoteSession.response, hsrc]

omit [DecidableEq C] in
theorem live_pushMessage (users : List String) (router : Route) (data : List UInt8) :
    live isConnector n (s.pushMessage users router data) = false := by
  cases hb : s.msg.body <;> simp [live, RemoteSession.pushMessage, RemoteSession.response, hsrc, hb]

end Dead

theorem HubOk.accounted_step [DecidableEq A] (hh : HubOk isConnector h) {act : Action A C D}
    (hs : h.step isConnector act = some h') (n : ℕ) : Accounted isConnector n h h' := by
  have toConnector : ∀ {k : ℕ} {s : RemoteSession A C D}, h.sessions[k]? = some s →
      isConnector s.msg.src = true := by
    intro k s hk
    obtain ⟨a, dst, m, -, ha, -, rfl, -⟩ := hh.sessions s (List.mem_of_getElem? hk)
    exact ha
  cases act with
  | connect a cid =>
    rw [Hub.step] at hs
    split_ifs at hs
    obtain rfl := Option.some.inj hs
    exact Or.inl ⟨rfl, le_rfl⟩
  | close a cid =>
    obtain rfl := Option.some.inj hs
    exact Or.inl ⟨rfl, le_rfl⟩
  | entry a cid m uid data =>
    obtain ⟨s, -, rfl⟩ := Option.map_eq_some_iff.mp hs
    exact Accounted.entry h a cid m _ data
  | message a cid dst m =>
    rw [Hub.step] at hs
    split_ifs at hs with hcond
    obtain ⟨s, -, rfl⟩ := Option.map_eq_some_iff.mp hs
    exact Accounted.message h _ _ rfl
  | deliver i order =>
    obtain ⟨x, hx, rfl⟩ := Option.map_eq_some_iff.mp hs
    exact Accounted.deliver hx order
  | lose i =>
    obtain rfl := Option.some.inj hs
    exact Accounted.lose h i
  | put k key value =>
    obtain ⟨s, hk, rfl⟩ := Option.map_eq_some_iff.mp hs
    exact Or.inl ⟨rfl, le_of_eq (Hub.replies_setSession_same hk rfl)⟩
  | push k users router data =>
    obtain ⟨s, hk, rfl⟩ := Option.map_eq_some_iff.mp hs
    exact Or.inl ⟨rfl, le_of_eq (Hub.replies_setSession_same hk rfl)⟩
  | pushSessionChanRead k =>
    obtain ⟨s, hk, hs⟩ := Option.bind_eq_some_iff.mp hs
    split at hs
    · cases hs
    · obtain rfl := Option.some.inj hs
      exact Accounted.pass hk rfl (live_sessionMessage (toConnector hk))
  | pushChanRead k =>
    obtain ⟨s, hk, hs⟩ := Option.bind_eq_some_iff.mp hs
    split at hs
    · cases hs
    · obtain rfl := Option.some.inj hs
      exact Accounted.pass hk rfl (live_pushMessage (toConnector hk) _ _ _)
  | finish k data =>
    obtain ⟨s, hk, hs⟩ := Option.bind_eq_some_iff.mp hs
    split_ifs at hs with hrun
    obtain rfl := Option.some.inj hs
    exact Accounted.finish hk hrun data

end Once

section Runs

variable {A C D : Type} [DecidableEq A] [DecidableEq C] {isConnector : A → Bool} {h : Hub A C D}

theorem hubOk_run {acts : List (Action A C D)}
    (hrun : Run (Hub.step isConnector) Any Hub.init acts h) : HubOk isConnector h :=
  hrun.preserves (I := HubOk isConnector) (fun _ _ _ hh _ hs => hh.step hs) hubOk_init

/-- A message has at most one reply, and none before it was sent. -/
theorem replies_run {acts : List (Action A C D)}
    (hrun : Run (Hub.step isConnector) Any Hub.init acts h) (n : ℕ) :
    h.replies isConnector n ≤ if n < h.asked.length then 1 else 0 := by
  have hboth : HubOk isConnector h ∧ h.replies isConnector n ≤ if n < h.asked.length then 1 else 0 := by
    refine hrun.preserves
      (I := fun h => HubOk isConnector h ∧ h.replies isConnector n ≤ if n < h.asked.length then 1 else 0)
      (fun g act g' hg _ hs => ⟨hg.1.step hs, ?_⟩) ⟨hubOk_init, Nat.zero_le _⟩
    have hold := hg.2
    rcases hg.1.accounted_step hs n with ⟨hlen, hle⟩ | ⟨hlen, hle⟩
    · rw [hlen]
      omega
    · split_ifs at hold hle ⊢ <;> omega
  exact hboth.2

/-- Whatever is lost or overtaken on the way: a connection only gets replies to its own messages, with
    their id and route and at most one for each, from other servers only to requests and responses, and
    pushes addressed to the user logged in there,
    which come from a message to the same connector; and its session only holds what was stored for
    its own messages. -/
theorem sessions_isolated {acts : List (Action A C D)}
    (hrun : Run (Hub.step isConnector) Any Hub.init acts h) :
    (∀ d ∈ h.sent, d.body.type ≠ MessageType.push →
      ∃ dst m, h.asked[d.origin]? = some ⟨d.server, d.cid, dst, m⟩ ∧
      (dst ≠ d.server → m.type = MessageType.request ∨ m.type = MessageType.response) ∧
      d.body.type = MessageType.response ∧ d.body.id = m.id ∧ d.body.route = m.route) ∧
    (∀ n, h.sent.countP (answers n) ≤ 1) ∧
    (∀ d ∈ h.sent, d.body.type = MessageType.push →
      d.uid ∈ d.pushUser ∧ ∃ cid dst m, h.asked[d.origin]? = some ⟨d.server, cid, dst, m⟩) ∧
    ∀ a cid s key value, (h.clients a).get cid = some s → s.data key = some value →
      ∃ n dst m, h.asked[n]? = some ⟨a, cid, dst, m⟩ ∧ (n, key, value) ∈ h.puts := by
  have hh := hubOk_run hrun
  refine ⟨fun d hd hne => ?_, fun n => ?_, fun d hd hpush => ?_, fun a cid s key value hs hv =>
    hh.clients a cid s hs key value hv⟩
  · have hsent := hh.sent d hd
    rwa [SentOk, if_neg hne] at hsent
  · have hle := replies_run hrun n
    unfold Hub.replies at hle
    split_ifs at hle <;> omega
  · have hsent := hh.sent d hd
    rwa [SentOk, if_pos hpush] at hsent

end Runs

/-- Server 0 is a connector and server 1 is behind it. -/
def isFirst (a : ℕ) : Bool := a == 0

/-- A request of a client. -/
def ask : Message := ⟨MessageType.request, 5, [1], [], false, false⟩

/-- The connector answers this one although it asks for no answer. -/
def login : Message := ⟨MessageType.notify, 4, [3], [], false, false⟩

/-- Two users log in. One of them asks for something; the handler stores a value in the session,
    pushes a message to both and answers. All of it arrives in another order. -/
def entering : List (Action ℕ ℕ ℕ) :=
  [.connect 0 10, .entry 0 10 login (some "u") (some []), .connect 0 11,
    .entry 0 11 login (some "v") (some []), .message 0 10 1 ask,
    .deliver 0 (.first []), .put 0 "roomId" 7, .push 0 ["u", "v"] [2] [9], .finish 0 [8],
    .pushSessionChanRead 0, .pushChanRead 0,
    .deliver 2 (.first []), .deliver 1 (.first []), .deliver 0 (.first [])]

theorem sessions_isolated_entering : ∃ h, Run (Hub.step isFirst) Any Hub.init entering h ∧
    h.sent.length = 5 ∧ (∀ n, h.sent.countP (answers n) ≤ 1) ∧
    ∃ s, (h.clients 0).get 10 = some s ∧ s.data "roomId" = some 7 ∧
      ∃ n dst m, h.asked[n]? = some ⟨0, 10, dst, m⟩ ∧ (n, "roomId", 7) ∈ h.puts := by
  obtain ⟨h, hrun, hq⟩ := exists_run (Hub.step isFirst) Any Hub.init entering
    (fun h : Hub ℕ ℕ ℕ => decide (h.sent.length = 5) &&
      ((h.clients 0).get 10).any fun s : Session ℕ => decide (s.data "roomId" = some 7))
    (by decide +kernel)
  obtain ⟨hlen, hq⟩ := Bool.and_eq_true_iff.mp hq
  obtain ⟨s, hs, hdata⟩ := (Option.any_eq_true _ _).mp hq
  have hisolated := sessions_isolated hrun
  exact ⟨h, hrun, of_decide_eq_true hlen, hisolated.2.1, s, hs, of_decide_eq_true hdata,
    hisolated.2.2.2 0 10 s "roomId" 7 hs (of_decide_eq_true hdata)⟩

end GoServices.Sessions
