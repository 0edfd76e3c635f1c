import GoServices.Shard.Replay
import GoServices.Schemes.Runs

/-! Any number of groups, the controller's configurations and the network between the groups.

    A group is its committed log and the commands that its leaders have handed to Raft; any of these
    may be committed next, also more than once. A server that answers a request or runs a task has
    applied some part of the log, not necessarily all of it. Packets stay in the network for good,
    so they may be served late, several times or never. -/

namespace GoServices.ShardKv

/-- The requests and answers of the handoff. -/
inductive Packet where
  | getArgs (src dst : Gid) (args : ShardOperationArgs)
  | getReply (dst : Gid) (reply : ShardOperationReply)
  | deleteArgs (src dst : Gid) (args : ShardOperationArgs)
  | deleteReply (dst : Gid) (args : ShardOperationArgs) (err : Err)

/-- The logs of the groups, their proposals and the network between them. -/
structure System where
  log : Gid → List RaftCommand
  proposed : Gid → List RaftCommand
  network : List Packet

/-- A server that takes itself for a leader: how far it has applied the log, and the orders in which
    it has ranged over maps. -/
structure Server where
  applied : ℕ
  order : ℕ → ShardOrder

/-- What can happen next in the groups and between them. -/
inductive Action where
  | get (g : Gid) (server : Server) (key : String)
  | putAppend (g : Gid) (server : Server) (args : PutAppendArgs)
  /-- `fetchConfigTask`; the controller answers with configuration `n` -/
  | fetchConfig (g : Gid) (server : Server) (n : ℕ)
  /-- `shardMigrationTask` asks group `src` -/
  | requestShards (g : Gid) (server : Server) (order : ShardOrder) (src : Gid)
  /-- `shardGCTask` turns to group `src` -/
  | requestDelete (g : Gid) (server : Server) (order : ShardOrder) (src : Gid)
  /-- packet `k` arrives at `server`; if `DeleteShardsData` waits for Raft, it gets `err` -/
  | deliver (k : ℕ) (server : Server) (err : Err)
  | commit (g : Gid) (k : ℕ)

namespace System

/-- Nothing has been proposed or sent yet. -/
def init : System := ⟨fun _ => [], fun _ => [], []⟩

variable (c : System)

/-- The state of a server of group `g`. -/
def server (g : Gid) (server : Server) : ShardKV :=
  replay g server.order ((c.log g).take server.applied)

/-- The leader of group `g` proposes a command. -/
def propose (g : Gid) (command : RaftCommand) : System :=
  { c with proposed := Function.update c.proposed g (c.proposed g ++ [command]) }

/-- A packet is put into the network, where it stays. -/
def send (packet : Packet) : System := { c with network := c.network ++ [packet] }

/-- What a server of group `g` does with a request. -/
def perform (g : Gid) : Handled → System
  | .reply _ => c
  | .start command => c.propose g command

/-- Group `g` commits a command. -/
def commit (g : Gid) (command : RaftCommand) : System :=
  { c with log := Function.update c.log g (c.log g ++ [command]) }

/-- What arrives at a group: requests are answered by one of its servers, replies to its own requests
    lead to a command. -/
def deliver (srv : Server) (err : Err) : Packet → Option System
  | .getArgs src dst args => some (c.send (.getReply src ((c.server dst srv).getShardsData args)))
  | .getReply dst reply =>
    if reply.err = .ok then some (c.propose dst (.shardMigration reply)) else none
  | .deleteArgs src dst args =>
    match (c.server dst srv).deleteShardsData args with
    | .reply err' => some (c.send (.deleteReply src args err'))
    | .start command => some ((c.propose dst command).send (.deleteReply src args err))
  | .deleteReply dst args err' =>
    if err' = .ok then some (c.propose dst (.shardGC args)) else none

end System

/-- One action under the configurations of `H`. -/
def System.step (H : History) (c : System) : Action → Option System
  | .get g srv key => some (c.perform g ((c.server g srv).get g key))
  | .putAppend g srv args => ((c.server g srv).putAppend g args).map (c.perform g)
  | .fetchConfig g srv n => ((c.server g srv).fetchConfigTask (H.config n)).map (c.propose g)
  | .requestShards g srv order src =>
    ((c.server g srv).taskArgs order .moveIn src).map fun args => c.send (.getArgs g src args)
  | .requestDelete g srv order src =>
    ((c.server g srv).taskArgs order .gc src).map fun args => c.send (.deleteArgs g src args)
  | .deliver k srv err => (c.network[k]?).bind (c.deliver srv err)
  | .commit g k => ((c.proposed g)[k]?).map (c.commit g)

end GoServices.ShardKv
