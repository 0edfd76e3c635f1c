import GoServices.Schemes.Runs
import GoServices.Wire.Messages

/-! The connector and its clients (`framework/net/ws_manager.go`).

    `clientReadChanHandler` decodes the packets of all clients one after the other, and `Response`
    encodes what is sent to them. All of it goes through the one dictionary of the package
    `protocol`, which a `Handshake` of any client extends. What a client sees of the dictionary is
    the results for its own packets and messages (`views`); a handshake of somebody else leaves them
    alone if all it names is there already (`Silent`). -/

namespace GoServices.Wire

open Bounds Ranges Runs

/-- The dictionary of the process, and whether a packet has brought the process down. -/
structure Connector where
  dict : Dictionary
  crashed : Bool

/-- The connector starts with an empty dictionary. -/
def newConnector : Connector := ⟨Dictionary.empty, false⟩

variable {Cid : Type} [DecidableEq Cid]

/-- What a connector does for its clients. -/
inductive Event (Cid : Type) where
  /-- a packet of a client; the order is that of the loop of `SetDictionary` -/
  | receive (cid : Cid) (payload : Buf UInt8) (order : Order Route)
  /-- a message for a client -/
  | send (cid : Cid) (m : Message)

/-- `decodeClientPack`, as far as the package `protocol` is concerned. -/
def Connector.receive (lib : Library) (c : Connector) (payload : Buf UInt8) (order : Order Route) :
    Connector :=
  match (decode lib order c.dict payload).result with
  | none => { c with crashed := true }
  | some (_, d) => { c with dict := d }

/-- One event; a crashed connector does nothing more. -/
def Connector.next (lib : Library) (c : Connector) : Event Cid → Connector
  | .receive _ payload order => if c.crashed then c else c.receive lib payload order
  | .send _ _ => c

/-- The same as a step of a run. -/
def Connector.step (lib : Library) (c : Connector) (ev : Event Cid) : Option Connector :=
  some (c.next lib ev)

/-- What a client gets to see. -/
inductive View where
  | decoded (result : Option (Except String Packet))
  | encoded (bytes : Except String (List UInt8))
  deriving DecidableEq

/-- What `b` sees of one event. -/
def Connector.observe (lib : Library) (b : Cid) (c : Connector) (ev : Event Cid) : List View :=
  if c.crashed then []
  else match ev with
    | .receive cid payload order =>
      if cid = b then [.decoded ((decode lib order c.dict payload).result.map Prod.fst)] else []
    | .send cid m => if cid = b then [.encoded (messageEncode c.dict m)] else []

/-- What `b` sees of a run. -/
def Connector.views (lib : Library) (b : Cid) : Connector → List (Event Cid) → List View
  | _, [] => []
  | c, ev :: evs => c.observe lib b ev ++ (c.next lib ev).views lib b evs

/-- Whether an event is a `Handshake` packet of a client other than `b`. -/
def foreign (b : Cid) : Event Cid → Bool
  | .receive cid payload _ => decide (cid ≠ b ∧ headerLen ≤ payload.items.length ∧
      payload.items[0]? = some PackageType.handshake)
  | .send _ _ => false

/-- The events without the handshakes of other clients. -/
def erase (b : Cid) (evs : List (Event Cid)) : List (Event Cid) := evs.filter fun ev => !foreign b ev

/-- A dictionary that has nothing new to add: of every entry, the route or the code is known. -/
def Known (d : Dictionary) (dict : Map Route UInt16) : Prop :=
  ∀ route code, dict.get route = some code →
    d.routes.get (trimSpace route) ≠ none ∨ d.codes.get code ≠ none

/-- If the event is a handshake of another client, all that it names is known. -/
def Silent (lib : Library) (b : Cid) (c : Connector) (ev : Event Cid) : Prop :=
  match ev with
  | .receive _ payload _ => foreign b ev = true → ∀ body dict,
      lib.unmarshal (payload.items.drop headerLen) = .ok body → body.sys.dict = some dict → Known c.dict dict
  | .send _ _ => True

variable {lib : Library} {b : Cid} {c : Connector} {d : Dictionary}

theorem setDictionary_of_known {o : Order Route} {dict : Option (Map Route UInt16)}
    (h : ∀ x, dict = some x → Known d x) : setDictionary o dict d = d := by
  cases dict with
  | none => rfl
  | some dict =>
    rw [setDictionary]
    cases hrange : o.range dict with
    | nil => rfl
    | cons e rest =>
      have hmem : e ∈ o.range dict := hrange ▸ List.mem_cons_self
      have hknown := h dict rfl e.1 e.2 (Order.mem_range.mp hmem)
      rw [addEntries]
      split_ifs with hr hcode
      · exact (hknown.elim (absurd hr) (absurd hcode))
      · rfl
      · rfl

/-- A silent handshake of another client changes nothing, and nobody else sees it. -/
theorem next_foreign {ev : Event Cid} (h : foreign b ev = true) (hs : Silent lib b c ev) :
    c.next lib ev = c ∧ c.observe lib b ev = [] := by
  cases ev with
  | send cid m => exact absurd h (by simp [foreign])
  | receive cid payload order =>
    obtain ⟨hne, hlen, htype⟩ := of_decide_eq_true h
    have hsame : c.receive lib payload order = c := by
      unfold Connector.receive
      cases hb : lib.unmarshal (payload.items.drop headerLen) with
      | error e => rw [decode_handshake_error hlen htype hb]; rfl
      | ok body =>
        rw [decode_handshake_ok hlen htype hb, setDictionary_of_known]
        · rfl
        · exact fun dict hdict => hs h body dict hb hdict
    refine ⟨?_, ?_⟩
    · rw [Connector.next, hsame, ite_self]
    · rw [Connector.observe, if_neg hne, ite_self]

/-- What a client sees does not depend on silent handshakes. -/
theorem views_erase {c' : Connector} {evs : List (Event Cid)}
    (h : Run (Connector.step lib) (Silent lib b) c evs c') :
    c.views lib b evs = c.views lib b (erase b evs) := by
  induction h with
  | nil => rfl
  | @cons c c₁ _ ev evs hsilent hstep _ ih =>
    obtain rfl : c.next lib ev = c₁ := Option.some.inj hstep
    unfold erase at ih ⊢
    cases hev : foreign b ev with
    | true =>
      obtain ⟨hsame, hnone⟩ := next_foreign hev hsilent
      rw [hsame] at ih
      rw [List.filter_cons_of_neg (by simp [hev]), ← ih, Connector.views, hnone, hsame, List.nil_append]
    | false =>
      rw [List.filter_cons_of_pos (by simp [hev]), Connector.views, Connector.views, ih]

/-- Two runs that differ only in silent handshakes of other clients look the same to a client. -/
theorem handshake_isolation (lib : Library) (b : Cid) {evs evs' : List (Event Cid)} {c c' : Connector}
    (h : Run (Connector.step lib) (Silent lib b) newConnector evs c)
    (h' : Run (Connector.step lib) (Silent lib b) newConnector evs' c')
    (herase : erase b evs = erase b evs') :
    newConnector.views lib b evs = newConnector.views lib b evs' := by
  rw [views_erase h, views_erase h', herase]

/-- The JSON text that names the route `a`, with code 1, and what it stands for. -/
def nameA : List UInt8 := [0x7B, 0x22, 0x73, 0x79, 0x73, 0x22, 0x3A, 0x7B, 0x22, 0x64, 0x69, 0x63, 0x74,
  0x22, 0x3A, 0x7B, 0x22, 0x61, 0x22, 0x3A, 0x31, 0x7D, 0x7D, 0x7D]

/-- A library that knows one handshake, which gives route `a` the code 1. -/
def libraryA : Library where
  unmarshal := fun text =>
    if text = nameA then .ok ⟨⟨[], [], 0, 0, some (Map.empty.set [0x61] 1), []⟩⟩ else .error "json"
  inflate := fun _ => .error "zlib"

/-- A client names the route `a`. -/
def shakeA (cid : Fin 3) : Event (Fin 3) := .receive cid ⟨[1, 0, 0, 24] ++ nameA, []⟩ (visiting [])

/-- A client is told something on the route `a`. -/
def tellA (cid : Fin 3) : Event (Fin 3) := .send cid ⟨.push, 0, [0x61], [9], false, false⟩

/-- After client 2 has named the route itself, others may name it too. -/
theorem handshake_isolation_known :
    newConnector.views libraryA 2 [shakeA 2, shakeA 0, tellA 2] =
      newConnector.views libraryA 2 [shakeA 2, tellA 2] ∧
    (newConnector.views libraryA 2 [shakeA 2, tellA 2]).length = 2 := by
  have hown : ∀ c, Silent libraryA 2 c (shakeA 2) := fun c h => absurd h (by decide)
  have hother : Silent libraryA 2 (newConnector.next libraryA (shakeA 2)) (shakeA 0) := by
    intro _ body dict hbody hdict route code hget
    obtain rfl := Except.ok.inj hbody
    obtain rfl := Option.some.inj hdict
    rw [Map.get_set] at hget
    split_ifs at hget with hroute
    · refine Or.inl ?_
      rw [hroute]
      decide +kernel
    · exact absurd hget (by simp)
  refine ⟨handshake_isolation libraryA 2 (.cons (hown _) rfl (.cons hother rfl (.cons trivial rfl (.nil _))))
    (.cons (hown _) rfl (.cons trivial rfl (.nil _))) rfl, by decide +kernel⟩

/-- Otherwise the handshake of client 0 changes the bytes that client 2 gets. -/
theorem handshake_leaks :
    erase 2 [shakeA 0, tellA 2] = erase 2 [tellA 2] ∧
    newConnector.views libraryA 2 [shakeA 0, tellA 2] = [.encoded (.ok [7, 0, 1, 9])] ∧
    newConnector.views libraryA 2 [tellA 2] = [.encoded (.ok [6, 1, 0x61, 9])] :=
  ⟨rfl, by decide +kernel, by decide +kernel⟩

end GoServices.Wire
