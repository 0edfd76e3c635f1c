import GoServices.Schemes.Replicas
import GoServices.Shard.Ownership

/-! Servers of a group that make snapshots and restart (`makeSnapshot`, `restoreFromSnapshot` and
    `StartServer` of `server.go`, `applyTask` of `task.go`).

    A snapshot holds shards, table and both configurations, but not `lastApplied`, which is 0 after a
    restart. Whatever its way through commands, snapshots of other servers and restarts was, a server
    is what the part of the log before its place makes of it. -/

namespace GoServices.ShardKv

open Replicas Runs

/-- The bytes of snapshots, with gob's two directions and the test `len(snapshot) == 0`. -/
structure Codec (B : Type) where
  encode : ShardKV → B
  decode : B → Option ShardKV
  isEmpty : B → Bool
  nil : B
  decode_encode : ∀ kv, decode (encode kv) = some kv
  encode_nonempty : ∀ kv, isEmpty (encode kv) = false
  nil_empty : isEmpty nil = true

/-- The variables of a server that `applyTask` works on. -/
structure ShardServer where
  lastApplied : ℕ
  kv : ShardKV

namespace ShardServer

variable {B : Type} (cd : Codec B) (server : ShardServer)

/-- The encoded variables. -/
def makeSnapshot : B := cd.encode server.kv

/-- A decoding error panics. The loop over missing shards does something only in `startServer`, where
    it makes the shards of `ShardKV.start`. -/
def restoreFromSnapshot (snapshot : B) : Option ShardServer :=
  if cd.isEmpty snapshot then some server
  else (cd.decode snapshot).map fun kv => { server with kv := kv }

/-- A server that starts from a snapshot. -/
def startServer (snapshot : B) : Option ShardServer :=
  restoreFromSnapshot cd ⟨0, ShardKV.start⟩ snapshot

/-- `applyTask` gets a command. -/
def applyMessage (gid : Gid) (order : ShardOrder) (commandIndex : ℕ) (command : RaftCommand) :
    ShardServer :=
  if commandIndex ≤ server.lastApplied then server
  else ⟨commandIndex, (server.kv.applyCommand gid order command).1⟩

/-- `applyTask` gets a snapshot. -/
def applySnapshot (snapshot : B) (snapshotIndex : ℕ) : Option ShardServer :=
  (server.restoreFromSnapshot cd snapshot).map fun server =>
    { server with lastApplied := snapshotIndex }

variable {cd server}

@[simp] theorem restore_makeSnapshot (server' : ShardServer) :
    server.restoreFromSnapshot cd (server'.makeSnapshot cd) = some { server with kv := server'.kv } := by
  simp [restoreFromSnapshot, makeSnapshot, cd.encode_nonempty, cd.decode_encode]

@[simp] theorem restore_nil : server.restoreFromSnapshot cd cd.nil = some server := by
  simp [restoreFromSnapshot, cd.nil_empty]

end ShardServer

/-- The servers of group `g` as replicas. -/
def replicaOps {B : Type} (cd : Codec B) (g : Gid) : Ops ShardServer RaftCommand ShardOrder B where
  applied := ShardServer.lastApplied
  command server order index command := server.applyMessage g order index command
  install server snapshot index := server.applySnapshot cd snapshot index
  save server := server.makeSnapshot cd
  boot snapshot := ShardServer.startServer cd snapshot
  blank := cd.nil

section Replicas

variable {B : Type} {cd : Codec B} {g : Gid}

theorem lawful_replicaOps : Lawful (replicaOps cd g) ShardServer.kv ShardKV.start
    fun order kv command => (kv.applyCommand g order command).1 := by
  refine ⟨fun server order i command h => ?_, fun server order i command h => ?_,
    fun server server' i x hx => ?_, fun server x hx => ?_, fun x hx => ?_⟩
  · exact if_pos h
  · simp only [replicaOps] at h
    simp only [replicaOps, ShardServer.applyMessage, if_neg (Nat.not_le.mpr h), and_self]
  · simp only [replicaOps, ShardServer.applySnapshot, ShardServer.restore_makeSnapshot, Option.map_some,
      Option.some.injEq] at hx
    rw [← hx]
    exact ⟨rfl, rfl⟩
  · simp only [replicaOps, ShardServer.startServer, ShardServer.restore_makeSnapshot,
      Option.some.injEq] at hx
    rw [← hx]
    exact ⟨rfl, rfl⟩
  · simp only [replicaOps, ShardServer.startServer, ShardServer.restore_nil, Option.some.injEq] at hx
    rw [← hx]
    exact ⟨rfl, rfl⟩

/-- Along a legal log it makes no difference in which orders the servers range over their maps. -/
theorem Legal.settles {H : History} {log : List RaftCommand} (h : Legal H g log) :
    Settles (fun order kv command => (ShardKV.applyCommand kv g order command).1) log
      fun i => state g (log.take i) := by
  intro i command order hi
  have htake : log.take (i + 1) = log.take i ++ [command] := by
    rw [List.take_add_one, hi]
    rfl
  have hok := (h.cut (List.take_prefix i log)).groupOk.1
  have hadm := h (log.take i) command (htake ▸ List.take_prefix (i + 1) log)
  show (ShardKV.applyCommand (state g (log.take i)) g order command).1 = state g (log.take (i + 1))
  rw [htake, state_concat]
  exact applyCommand_order hok hadm order ascending

/-- All servers of a group, just started for the first time. -/
def launched (R B : Type) : Fleet ShardServer B R := ⟨fun _ => ⟨0, ShardKV.start⟩, fun _ => 0, []⟩

/-- In every state of the groups, and however the servers of one of them have got to their places in
    its log (commands delivered again, snapshots of any server installed, restarts), each of them is
    the server at that place, for all orders in which maps are gone through. -/
theorem replica_is_server {H : History} {c : System} {P : System → Action → Prop} {acts : List Action}
    (hc : Run (System.step H) P System.init acts c) {R : Type} [DecidableEq R]
    {f : Fleet ShardServer B R} {moves : List (FleetAction ShardOrder R)}
    (hf : Run (Fleet.step (replicaOps cd g) (c.log g)) Any (launched R B) moves f) (r : R)
    (order : ℕ → ShardOrder) : (f.server r).kv = c.server g ⟨f.stream r, order⟩ := by
  have hlegal := (sound_run hc).legal g
  have hok := fleetOk_run lawful_replicaOps hlegal.settles rfl rfl rfl hf
  rw [hok.state r, System.server]
  exact ((hlegal.cut (List.take_prefix _ _)).groupOk.2 order).symm

end Replicas

/-- Snapshots as values: the empty one, or a state. -/
def plainCodec : Codec (Option ShardKV) where
  encode := some
  decode := id
  isEmpty := Option.isNone
  nil := none
  decode_encode := fun _ => rfl
  encode_nonempty := fun _ => rfl
  nil_empty := rfl

/-- The shards in descending order. -/
def backwards : ShardOrder := ⟨(List.finRange nShards).reverse, List.reverse_perm _⟩

/-- A server of the group that a shard is handed to makes a snapshot after the second configuration;
    another one restarts from it, gets the last command before it again and installs the shard. -/
def reborn : List (FleetAction ShardOrder Bool) :=
  [.deliver false ascending false, .deliver false ascending true, .deliver false ascending false,
    .restart true (some 0), .deliver true backwards false, .redeliver true ascending 2]

theorem replica_is_server_reborn : ∃ c f, Run (System.step joined) Any System.init handedOff c ∧
    Run (Fleet.step (replicaOps plainCodec gid2) (c.log gid2)) Any (launched Bool (Option ShardKV))
      reborn f ∧ f.stream true = 3 ∧ (f.server true).kv = c.server gid2 ⟨3, fun _ => ascending⟩ := by
  obtain ⟨c, hc, hq⟩ := exists_run (System.step joined) Any System.init handedOff
    (fun c => (exec (Fleet.step (replicaOps plainCodec gid2) (c.log gid2)) Any
      (launched Bool (Option ShardKV)) reborn).any
        fun f : Fleet ShardServer (Option ShardKV) Bool => decide (f.stream true = 3))
    (by decide +kernel)
  obtain ⟨f, hf, hstream⟩ := (Option.any_eq_true _ _).mp hq
  have hstream := of_decide_eq_true hstream
  have hserver := replica_is_server hc (run_of_exec hf) true fun _ => ascending
  rw [hstream] at hserver
  exact ⟨c, f, hc, run_of_exec hf, hstream, hserver⟩

end GoServices.ShardKv
