import GoServices.Schemes.Runs
import GoServices.Schemes.Replicas
import GoServices.Schemes.TermLog
import GoServices.Schemes.TermCommit
import GoServices.Raft.Log
import GoServices.Raft.Server
import GoServices.Raft.Election
import GoServices.Raft.Replication
import GoServices.Raft.Application
import GoServices.Raft.Cluster
import GoServices.Raft.Effects
import GoServices.Raft.Simulation
import GoServices.Raft.Steps
import GoServices.Raft.Safety
import GoServices.Raft.Agreement
import GoServices.Raft.ApplyStream
import GoServices.Schemes.Dedup
import GoServices.Kv.Server
import GoServices.Kv.Replay
import GoServices.Kv.Requests
import GoServices.Shard.Server
import GoServices.Shard.Apply
import GoServices.Shard.Replay
import GoServices.Shard.System
import GoServices.Shard.Protocol
import GoServices.Shard.Steps
import GoServices.Schemes.Handover
import GoServices.Shard.Ownership
import GoServices.Shard.Handoff
import GoServices.Shard.Once
import GoServices.Shard.Deployment
import GoServices.Shard.Snapshots
import GoServices.Shard.Replicas
import GoServices.Raft.Durability
import GoServices.Raft.Retention
import GoServices.Raft.Indexes
import GoServices.Raft.BackOff
import GoServices.Raft.FullLog
import GoServices.Schemes.Ranges
import GoServices.Schemes.Balance
import GoServices.Ctrler.StateMachine
import GoServices.Ctrler.Assignment
import GoServices.Ctrler.Rebalance
import GoServices.Ctrler.History
import GoServices.Schemes.Even
import GoServices.Ctrler.Join
import GoServices.Ctrler.Leave
import GoServices.Ctrler.Server
import GoServices.Schemes.Varint
import GoServices.Schemes.Access
import GoServices.Wire.Protocol
import GoServices.Wire.Codec
import GoServices.Wire.Messages
import GoServices.Wire.Connector
import GoServices.Wire.Sessions
import GoServices.Schemes.Seats
import GoServices.Room.Room
import GoServices.Room.Seating
import GoServices.Room.Dismissal
import GoServices.Schemes.Slices
import GoServices.Mahjong.Hu
import GoServices.Mahjong.Game
import GoServices.Mahjong.View
import GoServices.Mahjong.Windows
import GoServices.Mahjong.Sharing
import GoServices.Schemes.Melds
import GoServices.Schemes.Search
import GoServices.Mahjong.Table
import GoServices.Mahjong.Tables
import GoServices.Mahjong.Keys
import GoServices.Mahjong.Suits
import GoServices.Mahjong.Winning
import GoServices.Schemes.Ranking
import GoServices.Sanzhang.Cards
import GoServices.Sanzhang.Game
import GoServices.Sanzhang.Rounds
import GoServices.Sanzhang.Settlement
import GoServices.Sanzhang.Messages
import GoServices.Schemes.Ledger
import GoServices.Bluebell.Votes
import GoServices.Account.Ids
import GoServices.Discovery.Resolver
import GoServices.Schemes.Links
import GoServices.Schemes.Histories
import GoServices.Schemes.Locality
import GoServices.Schemes.Renaming
import GoServices.Porcupine.Bitset
import GoServices.Porcupine.Checker
import GoServices.Porcupine.Models
import GoServices.Porcupine.Lifting
import GoServices.Porcupine.Longest
import GoServices.Porcupine.Search
import GoServices.Porcupine.Linking
import GoServices.Porcupine.Single
import GoServices.Porcupine.Parallel
import GoServices.Porcupine.Operations
import GoServices.Porcupine.Events
import GoServices.Porcupine.Store
import GoServices.Schemes.Points
import GoServices.Kv.Clerks
import GoServices.Kv.Histories
import GoServices.Kv.Linearizable
