import GoServices.Schemes.Ranges
import Mathlib.Data.Fintype.Basic

/-! The state machine of the shard controller (`shardctrler/state_machine.go`).

    Every `range` over a Go map takes its order from `Orders`, which has one field per loop (a
    family of them where the loop is reached many times in one call). `sort.Ints` is an insertion
    sort. The rebalancing loop of `Join` has no bound in the source; here it runs on fuel, and `none`
    stands for fuel that ran out or for a panic. -/

namespace GoServices.ShardCtrler

open Ranges

/-- The number of shards. -/
def nShards : ℕ := 10

/-- A configuration; gid 0 is nobody. -/
structure Config where
  num : ℕ
  shards : Fin nShards → ℤ
  groups : Map ℤ (List String)
  deriving DecidableEq

/-- The first configuration: no groups. -/
def defaultConfig : Config := ⟨0, fun _ => 0, Map.empty⟩

/-- All configurations so far. -/
structure CtrlerStateMachine where
  configs : List Config
  deriving DecidableEq

/-- The controller starts with the first configuration. -/
def newCtrlerStateMachine : CtrlerStateMachine := ⟨[defaultConfig]⟩

/-- The orders in which one call ranges over the maps it meets. -/
structure Orders where
  copyGroups : Order ℤ
  newGroups : Order ℤ
  gidToShards : Order ℤ
  /-- `gidWithMaxShards` and `gidWithMinShards` in the `i`-th round of a loop -/
  maxShards : ℕ → Order ℤ
  minShards : ℕ → Order ℤ
  newShards : Order ℤ

/-- `gidToShards`: which shards a gid has. -/
abbrev Buckets := Map ℤ (List (Fin nShards))

/-- Reading a key that is not there gives the empty list. -/
def bucket (m : Buckets) (gid : ℤ) : List (Fin nShards) := (m.get gid).getD []

/-- A copy of the groups, made entry by entry. -/
def copyGroups (o : Order ℤ) (groups : Map ℤ (List String)) : Map ℤ (List String) :=
  (o.range groups).foldl (fun newGroup e => newGroup.set e.1 e.2) Map.empty

/-- The first loop of `Join`: groups that are there already keep their servers. -/
def addGroups (o : Order ℤ) (old new : Map ℤ (List String)) : Map ℤ (List String) :=
  (o.range new).foldl (fun groups e => if (groups.get e.1).isSome then groups else groups.set e.1 e.2)
    old

/-- An empty bucket for every group, then the shards in the order of the array. -/
def gidToShards (o : Order ℤ) (groups : Map ℤ (List String)) (shards : Fin nShards → ℤ) : Buckets :=
  (List.finRange nShards).foldl (fun m s => m.set (shards s) (bucket m (shards s) ++ [s]))
    ((o.range groups).foldl (fun m e => m.set e.1 []) Map.empty)

/-- The keys, collected in some order and sorted. -/
def sortedGids (o : Order ℤ) (m : Buckets) : List ℤ := (o.list m.keys).insertionSort (· ≤ ·)

/-- Group 0 if it has shards, else the group with the most, smallest gid first. -/
def gidWithMaxShards (o : Order ℤ) (m : Buckets) : ℤ :=
  if 0 < (bucket m 0).length then 0
  else
    ((sortedGids o m).foldl (fun (best : ℤ × ℤ) gid =>
      if ((bucket m gid).length : ℤ) > best.2 then (gid, ((bucket m gid).length : ℤ)) else best)
      (-1, -1)).1

/-- The group with the fewest shards, smallest gid first; group 0 does not count. -/
def gidWithMinShards (o : Order ℤ) (m : Buckets) : ℤ :=
  ((sortedGids o m).foldl (fun (best : ℤ × ℤ) gid =>
    if gid ≠ 0 ∧ ((bucket m gid).length : ℤ) < best.2 then (gid, ((bucket m gid).length : ℤ)) else best)
    (-1, (nShards : ℤ) + 1)).1

/-- One move: the first shard of `maxGid` goes to the end of `minGid`; `none` is the panic of
    `gidToShards[maxGid][0]`. -/
def moveShard (m : Buckets) (maxGid minGid : ℤ) : Option Buckets :=
  (bucket m maxGid).head?.map fun shard =>
    let m := m.set minGid (bucket m minGid ++ [shard])
    m.set maxGid (bucket m maxGid).tail

/-- The loop of `Join`, from round `i` on. -/
def rebalance (o : Orders) : ℕ → ℕ → Buckets → Option Buckets
  | 0, _, _ => none
  | fuel + 1, i, m =>
    let maxGid := gidWithMaxShards (o.maxShards i) m
    let minGid := gidWithMinShards (o.minShards i) m
    if maxGid ≠ 0 ∧ ((bucket m maxGid).length : ℤ) - (bucket m minGid).length ≤ 1 then some m
    else (moveShard m maxGid minGid).bind (rebalance o fuel (i + 1))

/-- The buckets written back into the array `newShards`, which starts with zeros. -/
def storeShards (o : Order ℤ) (m : Buckets) : Fin nShards → ℤ :=
  (o.range m).foldl (fun newShards e =>
    e.2.foldl (fun newShards shard => Function.update newShards shard e.1) newShards) fun _ => 0

/-- The loop of `Leave` over the gids: groups and buckets go, their shards are put aside. -/
def removeGids : List ℤ → Map ℤ (List String) → Buckets → List (Fin nShards) →
    Map ℤ (List String) × Buckets × List (Fin nShards)
  | [], groups, m, unassigned => (groups, m, unassigned)
  | gid :: gids, groups, m, unassigned =>
    removeGids gids (groups.erase gid) (m.erase gid) (unassigned ++ bucket m gid)

/-- The shards put aside go one by one to the group with the fewest, from round `i` on. -/
def assignShards (o : Orders) : List (Fin nShards) → ℕ → Buckets → Buckets
  | [], _, m => m
  | shard :: rest, i, m =>
    let minGid := gidWithMinShards (o.minShards i) m
    assignShards o rest (i + 1) (m.set minGid (bucket m minGid ++ [shard]))

namespace CtrlerStateMachine

/-- The three operations that make a configuration; `none` for a last one is the panic of
    `csm.Configs[num-1]`. -/
def join (fuel : ℕ) (o : Orders) (newGroups : Map ℤ (List String)) (csm : CtrlerStateMachine) :
    Option CtrlerStateMachine :=
  csm.configs.getLast?.bind fun lastConfig =>
    let groups := addGroups o.newGroups (copyGroups o.copyGroups lastConfig.groups) newGroups
    (rebalance o fuel 0 (gidToShards o.gidToShards groups lastConfig.shards)).map fun m =>
      ⟨csm.configs ++ [⟨csm.configs.length, storeShards o.newShards m, groups⟩]⟩

/-- `Leave`: the groups are removed and their shards given to the remaining ones. -/
def leave (o : Orders) (gids : List ℤ) (csm : CtrlerStateMachine) : Option CtrlerStateMachine :=
  csm.configs.getLast?.map fun lastConfig =>
    let groups := copyGroups o.copyGroups lastConfig.groups
    let (groups, m, unassigned) :=
      removeGids gids groups (gidToShards o.gidToShards groups lastConfig.shards) []
    let newShards : Fin nShards → ℤ :=
      if groups.keys.card ≠ 0 then storeShards o.newShards (assignShards o unassigned 0 m)
      else fun _ => 0
    ⟨csm.configs ++ [⟨csm.configs.length, newShards, groups⟩]⟩

/-- A shard out of range panics. -/
def move (o : Orders) (shardid gid : ℤ) (csm : CtrlerStateMachine) : Option CtrlerStateMachine :=
  csm.configs.getLast?.bind fun lastConfig =>
    if h : 0 ≤ shardid ∧ shardid.toNat < nShards then
      some ⟨csm.configs ++ [⟨csm.configs.length,
        Function.update lastConfig.shards ⟨shardid.toNat, h.2⟩ gid,
        copyGroups o.copyGroups lastConfig.groups⟩]⟩
    else none

end CtrlerStateMachine

/-- The changes of the configuration. -/
inductive Op where
  | join (groups : Map ℤ (List String))
  | leave (gids : List ℤ)
  | move (shardid gid : ℤ)

/-- An operation as one replica carries it out. -/
structure Action where
  op : Op
  orders : Orders
  fuel : ℕ

/-- One change, applied to the last configuration. -/
def step (csm : CtrlerStateMachine) (a : Action) : Option CtrlerStateMachine :=
  match a.op with
  | .join groups => csm.join a.fuel a.orders groups
  | .leave gids => csm.leave a.orders gids
  | .move shardid gid => csm.move a.orders shardid gid

end GoServices.ShardCtrler
