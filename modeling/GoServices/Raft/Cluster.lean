import GoServices.Raft.Election
import GoServices.Raft.Replication
import GoServices.Raft.Application
import GoServices.Schemes.Runs

/-! A cluster of Raft servers as a step system.

    The network is the list of calls that have not returned. A call carries the arguments it was
    made with (copied), the server and the incarnation that wait for it, and the reply once the peer
    has handled the request; each request is handled at most once and each call returns at most one
    reply. Delay and reordering come from the order in which calls are served and returned, loss
    from `lose`. A panic ends the process, so it shows as a restart from the persister; goroutines
    of the old incarnation are gone, their requests may still arrive.

    `applyCh s` records every message that server `s` has ever sent on its `applyCh`. -/

namespace GoServices.Consensus

/-- A remote call and, once served, its reply. -/
inductive Rpc (n : ℕ) (C : Type) where
  | requestVote (args : RequestVoteArgs n) (reply : Option RequestVoteReply)
  | appendEntries (args : AppendEntriesArgs n C) (reply : Option AppendEntriesReply)
  | installSnapshot (args : InstallSnapshotArgs n) (reply : Option InstallSnapshotReply)

/-- A call in flight: `term` is the term the calling goroutine was started for. -/
structure Call (n : ℕ) (C : Type) where
  caller : Fin n
  epoch : ℕ
  peer : Fin n
  term : ℕ
  rpc : Rpc n C

/-- The servers, how often each has restarted, the calls under way and what was applied. -/
structure Cluster (n : ℕ) (C : Type) where
  servers : Fin n → Raft n C
  epochs : Fin n → ℕ
  net : List (Call n C)
  applyCh : Fin n → List (ApplyMsg C)

/-- What can happen next; calls are named by their position in the network. -/
inductive Action (n : ℕ) (C : Type) where
  | timeout (s : Fin n)
  | startElection (s : Fin n) (term : ℕ)
  | startReplication (s : Fin n) (term : ℕ)
  | serve (k : ℕ)
  | return (k : ℕ)
  | lose (k : ℕ)
  | start (s : Fin n) (command : Option C)
  | snapshot (s : Fin n) (index : ℕ) (snapshot : List UInt8)
  | tick (s : Fin n)
  | restart (s : Fin n)

variable {n : ℕ} {C : Type}

/-- The request that one round of replication turns into. -/
def Round.rpc : Round n C → Rpc n C
  | .appendEntries args => .appendEntries args none
  | .installSnapshot args => .installSnapshot args none

namespace Cluster

/-- All servers have just been made. -/
def init : Cluster n C where
  servers := fun _ => Raft.make ⟨none, []⟩
  epochs := fun _ => 0
  net := []
  applyCh := fun _ => []

/-- The cluster with another state of server `s`. -/
def put (c : Cluster n C) (s : Fin n) (rf : Raft n C) : Cluster n C :=
  { c with servers := Function.update c.servers s rf }

/-- Crash of `s` and restart from its persister. -/
def restart (c : Cluster n C) (s : Fin n) : Cluster n C :=
  { c with
    servers := Function.update c.servers s (Raft.make (c.servers s).persister)
    epochs := Function.update c.epochs s (c.epochs s + 1) }

/-- Goroutines of `s` that were started for `term` make their calls. -/
def send (c : Cluster n C) (s : Fin n) (term : ℕ) (calls : List (Fin n × Rpc n C)) : Cluster n C :=
  { c with net := c.net ++ calls.map fun (peer, rpc) => ⟨s, c.epochs s, peer, term, rpc⟩ }

/-- Server `s` ends a locked section in state `rf`, or panics. -/
def after (c : Cluster n C) (s : Fin n) : Option (Raft n C) → Cluster n C
  | some rf => c.put s rf
  | none => c.restart s

/-- The peer handles the request of the `k`-th call. -/
def serve (c : Cluster n C) (k : ℕ) (call : Call n C) : Option (Cluster n C) :=
  let rf := c.servers call.peer
  let lost := { c with net := c.net.eraseIdx k }
  match call.rpc with
  | .requestVote args none =>
    match rf.requestVote args with
    | some (rf', reply) =>
      some { c.put call.peer rf' with
        net := c.net.set k { call with rpc := .requestVote args (some reply) } }
    | none => some (lost.restart call.peer)
  | .appendEntries args none =>
    match rf.appendEntries args with
    | some (rf', reply) =>
      some { c.put call.peer rf' with
        net := c.net.set k { call with rpc := .appendEntries args (some reply) } }
    | none => some (lost.restart call.peer)
  | .installSnapshot args none =>
    let (rf', reply) := rf.installSnapshot args
    some { c.put call.peer rf' with
      net := c.net.set k { call with rpc := .installSnapshot args (some reply) } }
  | _ => none

/-- The `k`-th call returns to the goroutine that made it, if that goroutine still exists. -/
def receive (c : Cluster n C) (k : ℕ) (call : Call n C) : Option (Cluster n C) :=
  let rf := c.servers call.caller
  let c' := { c with net := c.net.eraseIdx k }
  if c.epochs call.caller ≠ call.epoch then none
  else
    match call.rpc with
    | .requestVote _ (some reply) => some (c'.put call.caller (rf.askVoteFromPeer call.term reply))
    | .appendEntries args (some reply) =>
      some (c'.after call.caller (rf.replicateToPeer call.term call.peer args reply))
    | .installSnapshot args (some reply) =>
      some (c'.put call.caller (rf.installToPeer call.term call.peer args reply))
    | _ => none

/-- Has `s` ever sent the command of this index on `applyCh`? -/
def hasDelivered (c : Cluster n C) (s : Fin n) (index : ℕ) : Bool :=
  (c.applyCh s).any fun m => m.commandValid && m.commandIndex == index

/-- The step function; `none` when the action is not enabled. -/
def step (c : Cluster n C) : Action n C → Option (Cluster n C)
  | .timeout s => some (c.put s ((c.servers s).electionTimeout s))
  | .startElection s term =>
    if term ∉ (c.servers s).elections then none
    else
      match (c.servers s).startElection s term with
      | some (rf, calls) =>
        some ((c.put s rf).send s term (calls.map fun (peer, args) => (peer, .requestVote args none)))
      | none => some (c.restart s)
  | .startReplication s term =>
    if term ∉ (c.servers s).replicators then none
    else
      match (c.servers s).startReplication s term with
      | some (rf, rounds, true) =>
        some ((c.put s rf).send s term (rounds.map fun (peer, round) => (peer, round.rpc)))
      | some (rf, _, false) =>
        -- the ticker breaks out of its loop
        some (c.put s { rf with replicators := rf.replicators.erase term })
      | none => some (c.restart s)
  | .serve k => (c.net[k]?).bind (c.serve k)
  | .return k => (c.net[k]?).bind (c.receive k)
  | .lose k => (c.net[k]?).map fun _ => { c with net := c.net.eraseIdx k }
  | .start s command => some (c.put s ((c.servers s).start command).1)
  | .snapshot s index snapshot =>
    if c.hasDelivered s index then some (c.after s ((c.servers s).snapshot index snapshot)) else none
  | .tick s =>
    match (c.servers s).applicationTicker with
    | some (rf, msg) =>
      some { c.put s rf with
        applyCh := Function.update c.applyCh s (c.applyCh s ++ msg.toList) }
    | none => some (c.restart s)
  | .restart s => some (c.restart s)

end Cluster

end GoServices.Consensus
