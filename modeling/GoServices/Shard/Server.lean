import GoServices.Kv.Server
import Mathlib.Data.List.FinRange

/-! A server of the sharded key/value service (`shardkv`): what `applyTask` does with a committed
    command, the bodies of the request handlers and one round of each background task.

        Normal --config--> MoveIn --ShardMigration--> GC --ShardGC--> Normal     (shard comes in)
        Normal --config--> MoveOut ------------ShardGC--------------> Normal     (shard goes out)

    Operations have the types of `kvraft`. Go maps are functions to `Option`; where the code ranges
    over a map, the order is an argument. Configurations come without their server addresses: a
    request to a group goes to any of its servers. -/

namespace GoServices.ShardKv

open Dedup
open KvRaft (OperationType Op getOperationType)

/-- The number of shards. -/
abbrev nShards : ℕ := 10

/-- The id of a replica group; 0 stands for no group. -/
abbrev Gid := { gid : ℤ // gid ≠ 0 }

/-- A configuration: its number and the owner of every shard. -/
structure Config where
  num : ℕ
  shards : Fin nShards → ℤ

/-- The configuration that a group starts with. -/
def defaultConfig : Config := ⟨0, fun _ => 0⟩

/-- The errors of a group. -/
inductive Err where
  | ok | errNoKey | errWrongGroup | errWrongLeader | errTimeout | errWrongConfig | errNotReady
  deriving DecidableEq

/-- The answer to a command. -/
structure OpReply where
  value : String
  err : Err

/-- What the duplicate table keeps of a client: its last number and answer. -/
structure LastOperationInfo where
  seqId : ℤ
  reply : OpReply

/-- Settled, awaited, to be handed over, or here but not yet deleted at the previous owner. -/
inductive ShardStatus where | normal | moveIn | moveOut | gc
  deriving DecidableEq

/-- The map of one shard and its status. -/
structure MemoryKVStateMachine where
  kv : String → Option String
  status : ShardStatus

namespace MemoryKVStateMachine

/-- An empty shard. -/
def new : MemoryKVStateMachine := ⟨fun _ => none, .normal⟩

/-- The value of a key; a missing key is an error. -/
def get (mkv : MemoryKVStateMachine) (key : String) : String × Err :=
  match mkv.kv key with
  | some value => (value, .ok)
  | none => ("", .errNoKey)

/-- Sets the value of a key. -/
def put (mkv : MemoryKVStateMachine) (key value : String) : MemoryKVStateMachine × Err :=
  ({ mkv with kv := Function.update mkv.kv key (some value) }, .ok)

/-- Extends the value of a key; a missing key counts as empty. -/
def append (mkv : MemoryKVStateMachine) (key value : String) : MemoryKVStateMachine × Err :=
  ({ mkv with kv := Function.update mkv.kv key (some ((mkv.kv key).getD "" ++ value)) }, .ok)

/-- A copy of the map. -/
def copyData (mkv : MemoryKVStateMachine) : String → Option String := mkv.kv

/-- Store a received map over what is there, and wait for the source to be cleaned up. -/
def receive (mkv : MemoryKVStateMachine) (shardData : String → Option String) :
    MemoryKVStateMachine :=
  ⟨fun k => (shardData k).or (mkv.kv k), .gc⟩

end MemoryKVStateMachine

/-- All shards of a server. -/
abbrev Shards := Fin nShards → MemoryKVStateMachine

/-- The shards that a group asks for, or asks to delete, and its configuration. -/
structure ShardOperationArgs where
  configNum : ℕ
  shardIds : List (Fin nShards)

/-- The shards that are handed over, with the duplicate table. -/
structure ShardOperationReply where
  err : Err
  configNum : ℕ
  shardData : Fin nShards → Option (String → Option String)
  duplicateTable : ℤ → Option LastOperationInfo

/-- A command as it stands in the log of a group. -/
inductive RaftCommand where
  | clientOperation (op : Op)
  | configChange (newConfig : Config)
  | shardMigration (reply : ShardOperationReply)
  | shardGC (args : ShardOperationArgs)

/-- An order in which Go may range over a map with shards as keys. -/
abbrev ShardOrder := { ids : List (Fin nShards) // ids.Perm (List.finRange nShards) }

/-- The shard of a key: its first byte decides. -/
def key2shard (key : String) : Fin nShards :=
  match key.toUTF8.data[0]? with
  | some byte => ⟨byte.toNat % nShards, Nat.mod_lt _ (by decide)⟩
  | none => 0

/-- The variables of a server that depend on the log. -/
structure ShardKV where
  shards : Shards
  duplicateTable : ℤ → Option LastOperationInfo
  currentConfig : Config
  prevConfig : Config

namespace ShardKV

/-- A server that has applied nothing. -/
def start : ShardKV :=
  ⟨fun _ => MemoryKVStateMachine.new, fun _ => none, defaultConfig, defaultConfig⟩

/-- `currentConfig.Num`. -/
def num (kv : ShardKV) : ℕ := kv.currentConfig.num

/-- The status of shard `s`. -/
def status (kv : ShardKV) (s : Fin nShards) : ShardStatus := (kv.shards s).status

variable (kv : ShardKV) (gid : Gid)

/-- The server is in charge of a shard. -/
def serves (s : Fin nShards) : Bool :=
  kv.currentConfig.shards s = gid.val ∧ (kv.status s = .normal ∨ kv.status s = .gc)

/-- Whether the group serves the shard of this key. -/
def matchGroup (key : String) : Bool := kv.serves gid (key2shard key)

/-- Whether this number of the client, or a later one, has been executed. -/
def requestDuplicated (clientId seqId : ℤ) : Bool :=
  match kv.duplicateTable clientId with
  | some info => decide (seqId ≤ info.seqId)
  | none => false

/-! ### Commands -/

/-- Executes a command on its shard. -/
def applyToStateMachine (op : Op) (shardId : Fin nShards) : ShardKV × OpReply :=
  match op.opType with
  | .opGet =>
    let (value, err) := (kv.shards shardId).get op.key
    (kv, ⟨value, err⟩)
  | .opPut =>
    let (sm, err) := (kv.shards shardId).put op.key op.value
    ({ kv with shards := Function.update kv.shards shardId sm }, ⟨"", err⟩)
  | .opAppend =>
    let (sm, err) := (kv.shards shardId).append op.key op.value
    ({ kv with shards := Function.update kv.shards shardId sm }, ⟨"", err⟩)

/-- Executes a command if the group serves its key and it is not a duplicate. -/
def applyClientOperation (op : Op) : ShardKV × OpReply :=
  if kv.matchGroup gid op.key then
    if op.opType ≠ .opGet ∧ kv.requestDuplicated op.clientId op.seqId = true then
      (kv, ((kv.duplicateTable op.clientId).map LastOperationInfo.reply).getD ⟨"", .ok⟩)
    else
      let (kv', opReply) := kv.applyToStateMachine op (key2shard op.key)
      if op.opType ≠ .opGet then
        ({ kv' with duplicateTable :=
            Function.update kv'.duplicateTable op.clientId (some ⟨op.seqId, opReply⟩) }, opReply)
      else (kv', opReply)
  else (kv, ⟨"", .errWrongGroup⟩)

end ShardKV

/-- What a new configuration makes of the status of one shard. -/
def newStatus (gid : Gid) (current new : ℤ) (status : ShardStatus) : ShardStatus :=
  if current ≠ gid.val ∧ new = gid.val then (if current ≠ 0 then .moveIn else status)
  else if current = gid.val ∧ new ≠ gid.val then (if new ≠ 0 then .moveOut else status)
  else status

/-- The loop of `applyShardMigration` over the received shards. -/
def migrateShards (shardData : Fin nShards → Option (String → Option String)) :
    List (Fin nShards) → Shards → Shards
  | [], shards => shards
  | shardId :: rest, shards =>
    match shardData shardId with
    | none => migrateShards shardData rest shards
    | some data =>
      if (shards shardId).status = .moveIn then
        migrateShards shardData rest
          (Function.update shards shardId ((shards shardId).receive data))
      else shards

/-- The loop of `applyShardGC`. -/
def collectShards : List (Fin nShards) → Shards → Shards
  | [], shards => shards
  | shardId :: rest, shards =>
    match (shards shardId).status with
    | .gc =>
      collectShards rest (Function.update shards shardId { shards shardId with status := .normal })
    | .moveOut => collectShards rest (Function.update shards shardId MemoryKVStateMachine.new)
    | _ => shards

namespace ShardKV

variable (kv : ShardKV) (gid : Gid)

/-- The loop of `applyNewConfig` over all shards, and the assignments after it. -/
def enterConfig (newConfig : Config) : ShardKV where
  shards i := ⟨(kv.shards i).kv,
    newStatus gid (kv.currentConfig.shards i) (newConfig.shards i) (kv.status i)⟩
  duplicateTable := kv.duplicateTable
  currentConfig := newConfig
  prevConfig := kv.currentConfig

/-- Enters the next configuration; any other one is refused. -/
def applyNewConfig (newConfig : Config) : ShardKV × OpReply :=
  if kv.num + 1 = newConfig.num then (kv.enterConfig gid newConfig, ⟨"", .ok⟩)
  else (kv, ⟨"", .errWrongConfig⟩)

/-- Takes over shards; the answer is an error in either case. -/
def applyShardMigration (order : ShardOrder) (reply : ShardOperationReply) : ShardKV × OpReply :=
  if reply.configNum = kv.num then
    ({ kv with
        shards := migrateShards reply.shardData order.val kv.shards
        duplicateTable :=
          merge LastOperationInfo.seqId kv.duplicateTable reply.duplicateTable }, ⟨"", .errWrongConfig⟩)
  else (kv, ⟨"", .errWrongConfig⟩)

/-- Collects shards; the answer is `ok` in either case. -/
def applyShardGC (args : ShardOperationArgs) : ShardKV × OpReply :=
  if args.configNum = kv.num then
    ({ kv with shards := collectShards args.shardIds kv.shards }, ⟨"", .ok⟩)
  else (kv, ⟨"", .ok⟩)

/-- One command taken up by `applyTask`. -/
def applyCommand (order : ShardOrder) : RaftCommand → ShardKV × OpReply
  | .clientOperation op => kv.applyClientOperation gid op
  | .configChange newConfig => kv.applyNewConfig gid newConfig
  | .shardMigration reply => kv.applyShardMigration order reply
  | .shardGC args => kv.applyShardGC args

end ShardKV

/-! ### Handlers and tasks -/

/-- What a handler does first: answer at once, or hand a command to Raft. -/
inductive Handled where
  | reply (err : Err)
  | start (command : RaftCommand)

/-- The arguments of `PutAppend`. -/
structure PutAppendArgs where
  key : String
  value : String
  op : String
  clientId : ℤ
  seqId : ℤ

namespace ShardKV

variable (kv : ShardKV) (gid : Gid)

/-- `Get`: a key of another group is refused. -/
def get (key : String) : Handled :=
  if kv.matchGroup gid key then .start (.clientOperation ⟨key, "", .opGet, 0, 0⟩)
  else .reply .errWrongGroup

/-- `PutAppend`; an unknown operation panics. -/
def putAppend (args : PutAppendArgs) : Option Handled :=
  if kv.matchGroup gid args.key = false then some (.reply .errWrongGroup)
  else if kv.requestDuplicated args.clientId args.seqId then
    some (.reply (((kv.duplicateTable args.clientId).map fun info => info.reply.err).getD .ok))
  else (getOperationType args.op).map fun opType =>
    .start (.clientOperation ⟨args.key, args.value, opType, args.clientId, args.seqId⟩)

/-- One round of `fetchConfigTask` in which the controller answers with `newConfig`. -/
def fetchConfigTask (newConfig : Config) : Option RaftCommand :=
  if (∀ s, kv.status s = .normal) ∧ newConfig.num = kv.num + 1 then
    some (.configChange newConfig)
  else none

/-- The shards of one status that were with group `gid` before. -/
def getShardByStatus (order : ShardOrder) (status : ShardStatus) (gid : Gid) : List (Fin nShards) :=
  order.val.filter fun i => kv.status i = status ∧ kv.prevConfig.shards i = gid.val

/-- What `shardMigrationTask` asks group `gid` for (`moveIn`), and what `shardGCTask` tells it to
    delete (`gc`). -/
def taskArgs (order : ShardOrder) (status : ShardStatus) (gid : Gid) : Option ShardOperationArgs :=
  let shardIds := kv.getShardByStatus order status gid
  if shardIds = [] then none else some ⟨kv.num, shardIds⟩

/-- `GetShardsData`: copies of the shards, once the group has come to the configuration. -/
def getShardsData (args : ShardOperationArgs) : ShardOperationReply :=
  if kv.num < args.configNum then ⟨.errNotReady, 0, fun _ => none, fun _ => none⟩
  else ⟨.ok, args.configNum,
    fun s => if s ∈ args.shardIds then some (kv.shards s).copyData else none, kv.duplicateTable⟩

/-- `DeleteShardsData`: answered at once if the group has gone on, else proposed. -/
def deleteShardsData (args : ShardOperationArgs) : Handled :=
  if args.configNum < kv.num then .reply .ok else .start (.shardGC args)

end ShardKV

end GoServices.ShardKv
