import Mathlib.Data.List.Nodup
import Mathlib.Data.List.Induction
import GoServices.Schemes.Ranges

/-! Service discovery (`qpGames/common/discovery`).

    Servers put what they are under their key into etcd and delete it when they leave; the resolver
    turns the events into a list of addresses for gRPC. Go strings are lists of bytes. The JSON
    functions are parameters; `unmarshal` returns what it has filled in along with the error. -/

namespace GoServices.Discovery

open Ranges

/-! ### Servers and their keys -/

/-- A server as it registers. -/
structure Server where
  name : List UInt8
  addr : List UInt8
  weight : ℤ
  version : List UInt8
  ttl : ℤ
  deriving DecidableEq

/-- `Server{}`. -/
def Server.zero : Server := ⟨[], [], 0, [], 0⟩

/-- The byte `/`. -/
def slash : UInt8 := 0x2F

/-- The key under which a server registers. -/
def Server.buildRegisterKey (s : Server) : List UInt8 :=
  if s.version.length = 0 then [slash] ++ s.name ++ [slash] ++ s.addr
  else [slash] ++ s.name ++ [slash] ++ s.version ++ [slash] ++ s.addr

/-- The server that a key stands for. -/
def parseKey (key : List UInt8) : Server × Option String :=
  match key.splitOn slash with
  | [name, addr] => ({ Server.zero with name := name, addr := addr }, none)
  | [name, version, addr] =>
    ({ Server.zero with name := name, addr := addr, version := version }, none)
  | _ => (Server.zero, some "invalid key")

/-- Name, version and address are there and have no slash. -/
structure Server.Plain (s : Server) : Prop where
  name : s.name ≠ [] ∧ slash ∉ s.name
  version : s.version ≠ [] ∧ slash ∉ s.version
  addr : s.addr ≠ [] ∧ slash ∉ s.addr

instance (s : Server) : Decidable s.Plain :=
  decidable_of_iff ((s.name ≠ [] ∧ slash ∉ s.name) ∧ (s.version ≠ [] ∧ slash ∉ s.version) ∧
    (s.addr ≠ [] ∧ slash ∉ s.addr)) ⟨fun h => ⟨h.1, h.2.1, h.2.2⟩, fun h => ⟨h.name, h.version, h.addr⟩⟩

/-- The key of a server with a version splits into four parts, since it starts with a slash; none of
    the shapes that `parseKey` knows has four. -/
theorem parseKey_buildRegisterKey {s : Server} (h : s.Plain) :
    parseKey s.buildRegisterKey = (Server.zero, some "invalid key") := by
  have hkey : s.buildRegisterKey = [slash].intercalate [[], s.name, s.version, s.addr] := by
    rw [Server.buildRegisterKey, if_neg (by simpa using h.version.1)]
    simp [List.intercalate, List.intersperse]
  have hsplit : s.buildRegisterKey.splitOn slash = [[], s.name, s.version, s.addr] := by
    rw [hkey]
    refine List.splitOn_intercalate slash ?_ (by simp)
    intro l hl
    simp only [List.mem_cons, List.not_mem_nil, or_false] at hl
    rcases hl with rfl | rfl | rfl | rfl
    · exact List.not_mem_nil
    · exact h.name.2
    · exact h.version.2
    · exact h.addr.2
  rw [parseKey, hsplit]

/-! ### The resolver -/

/-- `resolver.Address`; the attributes are the weight, if there are any. -/
structure Address where
  addr : List UInt8
  weight : Option ℤ
  deriving DecidableEq

/-- What etcd reports. -/
inductive Event where
  | put (key value : List UInt8)
  | delete (key : List UInt8)
  deriving DecidableEq

/-- The list of the resolver, and the last list that gRPC was told. -/
structure Resolver where
  srvAddrList : List Address
  state : List Address
  deriving DecidableEq

/-- Whether an address is in the list. -/
def exist (list : List Address) (addr : Address) : Bool := list.any fun a => a.addr = addr.addr

/-- The last address takes the place of the first that matches; `none` if there is none. -/
def remove (list : List Address) (addr : Address) : Option (List Address) :=
  (list.findIdx? fun a => a.addr = addr.addr).bind fun i =>
    list.getLast?.map fun last => (list.set i last).dropLast

section Update

variable (unmarshal : List UInt8 → Server × Option String)

/-- The body of the loop of `update`. Errors are logged, and the loop goes on with what there is. -/
def handle (r : Resolver) : Event → Resolver
  | .put _ value =>
    let server := (unmarshal value).1
    let addr : Address := ⟨server.addr, some server.weight⟩
    if exist r.srvAddrList addr then r else ⟨r.srvAddrList ++ [addr], r.srvAddrList ++ [addr]⟩
  | .delete key =>
    let server := (parseKey key).1
    match remove r.srvAddrList ⟨server.addr, none⟩ with
    | some list => ⟨list, list⟩
    | none => r

/-- The events of one message of the watch, one after the other. -/
def update (r : Resolver) (events : List Event) : Resolver := events.foldl (handle unmarshal) r

end Update

/-! ### The registry -/

/-- `register` and `unregister` of a server. -/
inductive Action where
  | register (s : Server)
  | unregister (s : Server)
  deriving DecidableEq

/-- The server that an action is about. -/
def Action.server : Action → Server
  | .register s => s
  | .unregister s => s

/-- What etcd holds, as the servers that were put there. -/
abbrev Registry := Map (List UInt8) Server

/-- The registry after an action. -/
def Registry.act (reg : Registry) : Action → Registry
  | .register s => reg.set s.buildRegisterKey s
  | .unregister s => reg.erase s.buildRegisterKey

/-- The events of an action; deleting a key that is not there is no event. -/
def Registry.events (marshal : Server → List UInt8) (reg : Registry) : Action → List Event
  | .register s => [.put s.buildRegisterKey (marshal s)]
  | .unregister s =>
    if (reg.get s.buildRegisterKey).isSome then [.delete s.buildRegisterKey] else []

/-- The registry after a sequence of actions, with the events so far. -/
def registered (marshal : Server → List UInt8) (as : List Action) : Registry × List Event :=
  as.foldl (fun (reg, evs) a => (Registry.act reg a, evs ++ Registry.events marshal reg a))
    (Map.empty, [])

/-- The address of some server in the registry. -/
def Live (reg : Registry) (addr : List UInt8) : Prop := ∃ key s, reg.get key = some s ∧ s.addr = addr

/-- The list has the addresses of the registry, each once. -/
def Follows (reg : Registry) (list : List Address) : Prop :=
  (list.map Address.addr).Nodup ∧ ∀ addr, addr ∈ list.map Address.addr ↔ Live reg addr

/-! ### What the list holds -/

variable {marshal : Server → List UInt8} {unmarshal : List UInt8 → Server × Option String}

theorem exist_iff {list : List Address} {addr : Address} :
    exist list addr = true ↔ addr.addr ∈ list.map Address.addr := by
  simp [exist]

theorem remove_eq_none {list : List Address} {addr : Address} (h : addr.addr ∉ list.map Address.addr) :
    remove list addr = none := by
  have hidx : (list.findIdx? fun a => a.addr = addr.addr) = none := by
    rw [List.findIdx?_eq_none_iff]
    intro a ha
    rw [decide_eq_false_iff_not]
    intro heq
    exact h (heq ▸ List.mem_map_of_mem ha)
  rw [remove, hidx, Option.bind_none]

/-- Deleting a server with a version removes nothing: the address looked for is empty. -/
theorem handle_delete {r : Resolver} {s : Server} (hs : s.Plain)
    (hr : [] ∉ r.srvAddrList.map Address.addr) :
    handle unmarshal r (.delete s.buildRegisterKey) = r := by
  simp only [handle, parseKey_buildRegisterKey hs]
  rw [remove_eq_none hr]

theorem mem_handle_put {r : Resolver} {s : Server} (key : List UInt8)
    (hjson : unmarshal (marshal s) = (s, none)) (hr : (r.srvAddrList.map Address.addr).Nodup) :
    ((handle unmarshal r (.put key (marshal s))).srvAddrList.map Address.addr).Nodup ∧
    ∀ addr, addr ∈ (handle unmarshal r (.put key (marshal s))).srvAddrList.map Address.addr ↔
      addr ∈ r.srvAddrList.map Address.addr ∨ addr = s.addr := by
  simp only [handle, hjson]
  split_ifs with hex
  · have hmem := exist_iff.mp hex
    refine ⟨hr, fun addr => ⟨Or.inl, ?_⟩⟩
    rintro (h | rfl)
    · exact h
    · exact hmem
  · have hnot := mt exist_iff.mpr hex
    constructor
    · rw [List.map_append, List.map_singleton]
      exact List.nodup_append.mpr ⟨hr, List.nodup_singleton _, by
        intro a ha b hb hab
        rw [List.mem_singleton] at hb
        exact hnot (hb ▸ hab ▸ ha)⟩
    · intro addr
      simp [eq_comm]

theorem registered_concat (as : List Action) (a : Action) :
    registered marshal (as ++ [a]) = (Registry.act (registered marshal as).1 a,
      (registered marshal as).2 ++ Registry.events marshal (registered marshal as).1 a) := by
  rw [registered, List.foldl_append]
  rfl

/-- The list has every address that was ever registered, once. -/
def Collects (r : Resolver) (as : List Action) : Prop :=
  (r.srvAddrList.map Address.addr).Nodup ∧
    ∀ addr, addr ∈ r.srvAddrList.map Address.addr ↔ ∃ s, .register s ∈ as ∧ s.addr = addr

theorem Collects.nil_notMem {r : Resolver} {as : List Action} (h : Collects r as)
    (hplain : ∀ a ∈ as, a.server.Plain) : [] ∉ r.srvAddrList.map Address.addr := by
  intro hmem
  obtain ⟨s, hs, haddr⟩ := (h.2 []).mp hmem
  exact (hplain _ hs).addr.1 haddr

/-- One action: an address comes in, none goes out. -/
theorem Collects.act {r : Resolver} {as : List Action} (h : Collects r as)
    (hplain : ∀ a ∈ as, a.server.Plain) {a : Action} (ha : a.server.Plain)
    (hjson : unmarshal (marshal a.server) = (a.server, none)) (reg : Registry) :
    Collects (update unmarshal r (reg.events marshal a)) (as ++ [a]) := by
  cases a with
  | register s =>
    obtain ⟨hnodup, hmem⟩ := mem_handle_put s.buildRegisterKey hjson h.1
    refine ⟨hnodup, fun addr => (hmem addr).trans ?_⟩
    rw [h.2]
    constructor
    · rintro (⟨x, hx, rfl⟩ | rfl)
      · exact ⟨x, List.mem_append_left _ hx, rfl⟩
      · exact ⟨s, List.mem_append_right _ (List.mem_singleton_self _), rfl⟩
    · rintro ⟨x, hx, rfl⟩
      rcases List.mem_append.mp hx with hx | hx
      · exact Or.inl ⟨x, hx, rfl⟩
      · exact Or.inr (congrArg Server.addr (Action.register.inj (List.mem_singleton.mp hx)))
  | unregister s =>
    have hsame : update unmarshal r (reg.events marshal (.unregister s)) = r := by
      rw [Registry.events]
      split_ifs
      · exact @handle_delete unmarshal r s ha (h.nil_notMem hplain)
      · rfl
    rw [hsame]
    refine ⟨h.1, fun addr => (h.2 addr).trans ⟨?_, ?_⟩⟩
    · rintro ⟨x, hx, rfl⟩
      exact ⟨x, List.mem_append_left _ hx, rfl⟩
    · rintro ⟨x, hx, rfl⟩
      rcases List.mem_append.mp hx with hx | hx
      · exact ⟨x, hx, rfl⟩
      · exact absurd (List.mem_singleton.mp hx) (by simp)

theorem collects_registered {as : List Action} (hplain : ∀ a ∈ as, a.server.Plain)
    (hjson : ∀ a ∈ as, unmarshal (marshal a.server) = (a.server, none)) :
    Collects (update unmarshal ⟨[], []⟩ (registered marshal as).2) as := by
  induction as using List.reverseRecOn with
  | nil => exact ⟨List.nodup_nil, fun addr => by simp [registered, update]⟩
  | append_singleton as a ih =>
    have hold := fun b hb => hplain b (List.mem_append_left [a] hb)
    have hlast : a ∈ as ++ [a] := List.mem_append_right as (List.mem_singleton_self a)
    have hih := ih hold fun b hb => hjson b (List.mem_append_left [a] hb)
    have hact := hih.act hold (hplain a hlast) (hjson a hlast) (registered marshal as).1
    rw [registered_concat, update, List.foldl_append]
    exact hact

/-- What is in the registry was registered. -/
theorem registered_of_live {as : List Action} {key : List UInt8} {s : Server}
    (h : (registered marshal as).1.get key = some s) : .register s ∈ as := by
  induction as using List.reverseRecOn with
  | nil => exact absurd h (by simp [registered])
  | append_singleton as a ih =>
    rw [registered_concat] at h
    cases a with
    | register x =>
      simp only [Registry.act, Map.get_set] at h
      split_ifs at h with hkey
      · rw [Option.some.inj h]
        exact List.mem_append_right _ (List.mem_singleton_self _)
      · exact List.mem_append_left _ (ih h)
    | unregister x =>
      simp only [Registry.act, Map.get_erase] at h
      split_ifs at h with hkey
      exact List.mem_append_left _ (ih h)

/-- However the events are cut into batches, the list follows the registry exactly if no address has
    left it for good. -/
theorem follows_iff_no_address_left {as : List Action} (hplain : ∀ a ∈ as, a.server.Plain)
    (hjson : ∀ a ∈ as, unmarshal (marshal a.server) = (a.server, none)) {batches : List (List Event)}
    (hbatches : batches.flatten = (registered marshal as).2) :
    Follows (registered marshal as).1 (batches.foldl (update unmarshal) ⟨[], []⟩).srvAddrList ↔
      ∀ s, .register s ∈ as → Live (registered marshal as).1 s.addr := by
  have hupdate : batches.foldl (update unmarshal) ⟨[], []⟩ =
      update unmarshal ⟨[], []⟩ (registered marshal as).2 := by
    rw [← hbatches, update, List.foldl_flatten]
    rfl
  obtain ⟨hnodup, hmem⟩ := collects_registered hplain hjson
  rw [hupdate]
  constructor
  · rintro ⟨-, hfollows⟩ s hs
    exact (hfollows s.addr).mp ((hmem s.addr).mpr ⟨s, hs, rfl⟩)
  · intro hlive
    refine ⟨hnodup, fun addr => (hmem addr).trans ⟨?_, ?_⟩⟩
    · rintro ⟨s, hs, rfl⟩
      exact hlive s hs
    · rintro ⟨key, s, hget, rfl⟩
      exact ⟨s, registered_of_live hget, rfl⟩

/-! ### Two runs -/

/-- The bytes of a text in ASCII. -/
def ascii (text : String) : List UInt8 := text.toList.map fun c => UInt8.ofNat c.toNat

/-- What `json.Marshal` writes, for names without characters that need escaping. -/
def plainJson (s : Server) : List UInt8 :=
  ascii "\x7b\"name\":\"" ++ s.name ++ ascii "\",\"addr\":\"" ++ s.addr ++
    ascii "\",\"weight\":" ++ ascii (toString s.weight) ++ ascii ",\"version\":\"" ++ s.version ++
    ascii "\",\"ttl\":" ++ ascii (toString s.ttl) ++ ascii "\x7d"

/-- Reads the texts of the given servers. -/
def readJson (known : List Server) (value : List UInt8) : Server × Option String :=
  match known.find? fun s => plainJson s = value with
  | some s => (s, none)
  | none => (Server.zero, some "unexpected end of JSON input")

/-- A server of the user service. -/
def user1 : Server := ⟨ascii "user", ascii "127.0.0.1:12000", 10, ascii "v1", 10⟩

/-- Another server of the user service. -/
def user2 : Server := ⟨ascii "user", ascii "127.0.0.1:12001", 5, ascii "v1", 10⟩

/-- A server comes back under its address, in two batches. -/
theorem follows_of_coming_back :
    Follows (registered plainJson [.register user1, .register user2, .unregister user1,
        .register user1]).1
      ([[.put user1.buildRegisterKey (plainJson user1), .put user2.buildRegisterKey (plainJson user2)],
        [.delete user1.buildRegisterKey, .put user1.buildRegisterKey (plainJson user1)]].foldl
          (update (readJson [user1, user2])) ⟨[], []⟩).srvAddrList := by
  refine (follows_iff_no_address_left ?_ ?_ ?_).mpr ?_
  · decide +kernel
  · decide +kernel
  · decide +kernel
  · intro s hs
    simp only [List.mem_cons, Action.register.injEq, reduceCtorEq, List.not_mem_nil, or_false,
      false_or] at hs
    rcases hs with rfl | rfl | rfl
    · exact ⟨user1.buildRegisterKey, user1, by decide +kernel, rfl⟩
    · exact ⟨user2.buildRegisterKey, user2, by decide +kernel, rfl⟩
    · exact ⟨user1.buildRegisterKey, user1, by decide +kernel, rfl⟩

/-- A server that has left stays in the list. -/
theorem dead_address_stays :
    user1.Plain ∧ (∀ key, (registered plainJson [.register user1, .unregister user1]).1.get key = none) ∧
    (update (readJson [user1]) ⟨[], []⟩
      (registered plainJson [.register user1, .unregister user1]).2).srvAddrList =
        [⟨ascii "127.0.0.1:12000", some 10⟩] ∧
    ¬ Follows (registered plainJson [.register user1, .unregister user1]).1
      (update (readJson [user1]) ⟨[], []⟩
        (registered plainJson [.register user1, .unregister user1]).2).srvAddrList := by
  have hgone : ∀ key,
      (registered plainJson [.register user1, .unregister user1]).1.get key = none := by
    intro key
    simp only [registered, List.foldl_cons, List.foldl_nil, Registry.act, Map.get_erase, Map.get_set,
      Map.get_empty]
    split_ifs <;> rfl
  have hlist : (update (readJson [user1]) ⟨[], []⟩
      (registered plainJson [.register user1, .unregister user1]).2).srvAddrList =
        [⟨ascii "127.0.0.1:12000", some 10⟩] := by
    decide +kernel
  refine ⟨by decide +kernel, hgone, hlist, ?_⟩
  rintro ⟨-, hfollows⟩
  rw [hlist] at hfollows
  obtain ⟨key, s, hget, -⟩ := (hfollows (ascii "127.0.0.1:12000")).mp (List.mem_singleton_self _)
  rw [hgone key] at hget
  exact absurd hget (by simp)

end GoServices.Discovery
