import GoServices.Shard.System

/-! What holds of all groups, packets and proposals at once.

    When shard `s` goes from `a` to `b` with configuration `n`, two things order the two groups:

        b holds s in n        only if  a has got to n
        a has let go of s     only if  b holds s in n

    Both are about committed states, and both are monotone, so they survive whatever a server that
    lags behind may still send. -/

namespace GoServices.ShardKv

open Dedup Runs

/-- The group has its shard in configuration `n`: it waits for nobody any more. -/
def Holds (kv : ShardKV) (n : ℕ) (s : Fin nShards) : Prop :=
  n < kv.num ∨ kv.num = n ∧ kv.status s ≠ .moveIn

/-- The group has nothing left to hand over for configuration `n`. -/
def Released (kv : ShardKV) (n : ℕ) (s : Fin nShards) : Prop :=
  n < kv.num ∨ kv.num = n ∧ kv.status s ≠ .moveOut

/-- With its next command after `pre`, group `g` enters configuration `n`. -/
structure Enters (g : Gid) (log : List RaftCommand) (n : ℕ) (pre : List RaftCommand)
    (command : RaftCommand) : Prop where
  mem : pre ++ [command] <+: log
  before : (state g pre).num + 1 = n
  after : (state g (pre ++ [command])).num = n

/-- All shards that go from `a` to `b` with the configuration of the request. -/
structure ArgsOk (H : History) (args : ShardOperationArgs) (a b : Gid) : Prop where
  pos : 0 < args.configNum
  ne : a ≠ b
  nodup : args.shardIds.Nodup
  all : ∀ s, s ∈ args.shardIds ↔ H.Moves args.configNum a b s

section Ok

variable (H : History) (log : Gid → List RaftCommand)

/-- `b` already holds what `a` is to delete. -/
structure CollectOk (args : ShardOperationArgs) (a b : Gid) : Prop extends ArgsOk H args a b where
  held : ∀ s ∈ args.shardIds, Holds (state b (log b)) args.configNum s

/-- The reply has what `a` had when it entered the configuration, or comes too late. -/
structure ReplyOk (reply : ShardOperationReply) (a b : Gid) : Prop where
  ne : a ≠ b
  all : ∀ s, (reply.shardData s).isSome ↔ H.Moves reply.configNum a b s
  origin : ∃ pre command, Enters a (log a) reply.configNum pre command ∧
    Le LastOperationInfo.seqId (state a (pre ++ [command])).duplicateTable reply.duplicateTable ∧
    ∀ s data, reply.shardData s = some data → Holds (state b (log b)) reply.configNum s ∨
      data = ((state a (pre ++ [command])).shards s).kv

/-- What a group's leaders hand to Raft. -/
def CommandOk (g : Gid) : RaftCommand → Prop
  | .clientOperation _ => True
  | .configChange newConfig => newConfig = H.config newConfig.num ∧
      (newConfig.num ≤ (state g (log g)).num ∨ newConfig.num = (state g (log g)).num + 1 ∧
        ∀ s, (state g (log g)).status s = .normal)
  | .shardMigration reply => ∃ a, ReplyOk H log reply a g
  | .shardGC args => ∃ a b, CollectOk H log args a b

/-- What a packet promises about the logs. -/
def PacketOk : Packet → Prop
  | .getArgs src dst args => ArgsOk H args dst src
  | .getReply dst reply => reply.err = .ok → ∃ a, ReplyOk H log reply a dst
  | .deleteArgs src dst args => CollectOk H log args dst src
  | .deleteReply dst args _ => ∃ a, CollectOk H log args a dst

/-- Whenever a shard of `b` leaves `MoveIn`, `b` has what the previous owner had when it entered the
    configuration, over whatever `b` had before. -/
def HandedOver (b : Gid) : Prop :=
  ∀ pre command s, pre ++ [command] <+: log b → (state b pre).status s = .moveIn →
    (state b (pre ++ [command])).status s ≠ .moveIn →
    ∃ a pre' command', H.Moves (state b pre).num a b s ∧
      Enters a (log a) (state b pre).num pre' command' ∧
      (∀ k, ((state b (pre ++ [command])).shards s).kv k =
        (((state a (pre' ++ [command'])).shards s).kv k).or (((state b pre).shards s).kv k)) ∧
      Le LastOperationInfo.seqId (state a (pre' ++ [command'])).duplicateTable
        (state b (pre ++ [command])).duplicateTable

end Ok

/-- What holds at every moment of the logs, the proposals and the network. -/
structure Sound (H : History) (c : System) : Prop where
  legal : ∀ g, Legal H g (c.log g)
  taken : ∀ n a b s, H.Moves n a b s → a ≠ b → Holds (state b (c.log b)) n s →
    n ≤ (state a (c.log a)).num
  kept : ∀ n a b s, H.Moves n a b s → a ≠ b → Released (state a (c.log a)) n s →
    Holds (state b (c.log b)) n s
  proposed : ∀ g, ∀ command ∈ c.proposed g, CommandOk H c.log g command
  network : ∀ packet ∈ c.network, PacketOk H c.log packet
  handed : ∀ b, HandedOver H c.log b

/-! ### Growing logs -/

section Grow

variable {H : History} {log log' : Gid → List RaftCommand} {kv kv' : ShardKV} {n : ℕ}
  {s : Fin nShards} {a b g : Gid}

theorem Holds.later (h : Holds kv n s) (hl : Later kv kv') : Holds kv' n s := by
  have hnum := hl.num
  rcases h with h | ⟨rfl, h⟩
  · exact Or.inl (by omega)
  · rcases Nat.lt_or_ge kv.num kv'.num with hlt | hge
    · exact Or.inl hlt
    · exact Or.inr ⟨by omega, fun hx => h ((hl.shards (by omega) s).moveIn hx)⟩

theorem Released.later (h : Released kv n s) (hl : Later kv kv') : Released kv' n s := by
  have hnum := hl.num
  rcases h with h | ⟨rfl, h⟩
  · exact Or.inl (by omega)
  · rcases Nat.lt_or_ge kv.num kv'.num with hlt | hge
    · exact Or.inl hlt
    · exact Or.inr ⟨by omega, fun hx => h ((hl.shards (by omega) s).moveOut hx).1⟩

variable (hg : ∀ g, log g <+: log' g)
include hg

theorem Enters.grow {pre : List RaftCommand} {command : RaftCommand}
    (h : Enters a (log a) n pre command) : Enters a (log' a) n pre command :=
  ⟨h.mem.trans (hg a), h.before, h.after⟩

theorem CollectOk.grow {args : ShardOperationArgs} (h : CollectOk H log args a b) :
    CollectOk H log' args a b :=
  ⟨h.toArgsOk, fun s hs => (h.held s hs).later (state_later (hg b))⟩

theorem ReplyOk.grow {reply : ShardOperationReply} (h : ReplyOk H log reply a b) :
    ReplyOk H log' reply a b := by
  obtain ⟨pre, command, hent, hle, hdata⟩ := h.origin
  exact ⟨h.ne, h.all, pre, command, hent.grow hg, hle, fun s data hs =>
    (hdata s data hs).imp_left fun hx => hx.later (state_later (hg b))⟩

theorem CommandOk.grow {command : RaftCommand} (h : CommandOk H log g command) :
    CommandOk H log' g command := by
  have hl := state_later (g := g) (hg g)
  have hnum := hl.num
  cases command with
  | clientOperation op => trivial
  | configChange newConfig =>
    obtain ⟨hc, hn⟩ := h
    refine ⟨hc, ?_⟩
    rcases hn with hn | ⟨hn, hnormal⟩
    · exact Or.inl (by omega)
    · rcases Nat.lt_or_ge (state g (log g)).num (state g (log' g)).num with hlt | hge
      · exact Or.inl (by omega)
      · exact Or.inr ⟨by omega, fun s => (hl.shards (by omega) s).normal (hnormal s)⟩
  | shardMigration reply => exact h.imp fun _ hx => hx.grow hg
  | shardGC args => exact h.imp fun _ hx => hx.imp fun _ hy => hy.grow hg

theorem PacketOk.grow {packet : Packet} (h : PacketOk H log packet) : PacketOk H log' packet := by
  cases packet with
  | getArgs src dst args => exact h
  | getReply dst reply => exact fun hok => (h hok).imp fun _ hx => hx.grow hg
  | deleteArgs src dst args => exact CollectOk.grow hg h
  | deleteReply dst args err => exact h.imp fun _ hx => hx.grow hg

end Grow

/-! ### One shard under one command -/

/-- What may become of one shard. -/
inductive Fate (H : History) (g : Gid) (kv kv' : ShardKV) (s : Fin nShards) : RaftCommand → Prop where
  | same {command : RaftCommand} (num : kv'.num = kv.num) (status : kv'.status s = kv.status s) :
      Fate H g kv kv' s command
  | received {reply : ShardOperationReply} {data : String → Option String}
      (num : reply.configNum = kv.num) (data : reply.shardData s = some data)
      (before : kv.status s = .moveIn) (eq : kv' = kv.takeOver reply) :
      Fate H g kv kv' s (.shardMigration reply)
  | settled {command : RaftCommand} (num : kv'.num = kv.num) (before : kv.status s = .gc)
      (after : kv'.status s = .normal) : Fate H g kv kv' s command
  | dropped {args : ShardOperationArgs} (num : args.configNum = kv.num) (num' : kv'.num = kv.num)
      (mem : s ∈ args.shardIds) (before : kv.status s = .moveOut)
      (after : kv'.shards s = MemoryKVStateMachine.new) : Fate H g kv kv' s (.shardGC args)
  | entered {command : RaftCommand} (normal : ∀ t, kv.status t = .normal)
      (eq : kv' = kv.enterConfig g (H.config (kv.num + 1))) : Fate H g kv kv' s command

section Fate

variable {H : History} {g a b : Gid} {kv kv' : ShardKV} {command : RaftCommand} {n : ℕ}
  {s : Fin nShards}

theorem Effect.fate (h : Effect H g kv command kv') (s : Fin nShards) : Fate H g kv kv' s command := by
  cases h with
  | skip => exact .same rfl rfl
  | client op =>
    obtain ⟨hcur, -, hst⟩ := ShardKV.applyClientOperation_frame kv g op
    exact .same (congrArg Config.num hcur) (hst s).1
  | enter hn => exact .entered hn rfl
  | takeOver hnum hne hall haw =>
    cases hd : ShardOperationReply.shardData _ s with
    | none => exact .same rfl (by rw [ShardKV.status_takeOver, hd]; rfl)
    | some data => exact .received hnum hd (haw s (by rw [hd]; rfl)) rfl
  | mergeTable hnum => exact .same rfl rfl
  | @settle args _ hnum hne hall hgc =>
    by_cases hs : s ∈ args.shardIds
    · exact .settled rfl (hgc s hs) ((ShardKV.status_resetShards _ _ _ _).trans (if_pos hs))
    · exact .same rfl ((ShardKV.status_resetShards _ _ _ _).trans (if_neg hs))
  | @drop args _ hnum hne hall hout =>
    by_cases hs : s ∈ args.shardIds
    · exact .dropped hnum rfl hs (hout s hs) ((ShardKV.shards_resetShards _ _ _ _).trans (if_pos hs))
    · exact .same rfl ((ShardKV.status_resetShards _ _ _ _).trans (if_neg hs))

/-- A group comes to hold a shard only through a migration. -/
theorem Fate.holds (h : Fate H b kv kv' s command) (hok : GroupOk H b kv) (hm : H.Moves n a b s)
    (hne : a ≠ b) (hh : Holds kv' n s) : Holds kv n s ∨
      ∃ reply, command = .shardMigration reply ∧ reply.configNum = n ∧ (reply.shardData s).isSome := by
  cases h with
  | same hnum hst => left; unfold Holds at *; rwa [hnum, hst] at hh
  | @received reply data hnum hd hbef heq =>
    have hnum' : kv'.num = kv.num := by rw [heq]; rfl
    rcases hh with hlt | ⟨heq', -⟩
    · exact Or.inl (Or.inl (by omega))
    · exact Or.inr ⟨reply, rfl, by omega, by rw [hd]; rfl⟩
  | settled hnum hbef haft =>
    refine Or.inl (hh.imp (fun hlt => by omega) fun hx => ⟨by omega, ?_⟩)
    rw [hbef]; decide
  | dropped hnum hnum' hmem hbef haft =>
    refine Or.inl (hh.imp (fun hlt => by omega) fun hx => ⟨by omega, ?_⟩)
    rw [hbef]; decide
  | entered hn heq =>
    subst heq
    have hnum := num_enterConfig H b kv
    rcases hh with hlt | ⟨rfl, hst⟩
    · rcases Nat.lt_or_ge n kv.num with hlt' | hge
      · exact Or.inl (Or.inl hlt')
      · exact Or.inl (Or.inr ⟨by omega, by rw [hn s]; decide⟩)
    · -- entering a configuration that moves the shard here means waiting for it
      exfalso
      rw [hok.status_enterConfig hn] at hst
      rw [hnum, History.Moves, Nat.add_sub_cancel] at hm
      rw [hm.1, hm.2, newStatus, if_pos ⟨fun hx => hne (Subtype.ext hx), rfl⟩,
        if_pos a.property] at hst
      exact hst rfl

/-- A group lets go of a shard only through a collection. -/
theorem Fate.released (h : Fate H a kv kv' s command) (hok : GroupOk H a kv) (hm : H.Moves n a b s)
    (hne : a ≠ b) (hr : Released kv' n s) : Released kv n s ∨
      ∃ args, command = .shardGC args ∧ args.configNum = n ∧ s ∈ args.shardIds := by
  cases h with
  | same hnum hst => left; unfold Released at *; rwa [hnum, hst] at hr
  | @received reply data hnum hd hbef heq =>
    have hnum' : kv'.num = kv.num := by rw [heq]; rfl
    refine Or.inl (hr.imp (fun hlt => by omega) fun hx => ⟨by omega, ?_⟩)
    rw [hbef]; decide
  | settled hnum hbef haft =>
    refine Or.inl (hr.imp (fun hlt => by omega) fun hx => ⟨by omega, ?_⟩)
    rw [hbef]; decide
  | @dropped args hnum hnum' hmem hbef haft =>
    rcases hr with hlt | ⟨heq', -⟩
    · exact Or.inl (Or.inl (by omega))
    · exact Or.inr ⟨args, rfl, by omega, hmem⟩
  | entered hn heq =>
    subst heq
    have hnum := num_enterConfig H a kv
    rcases hr with hlt | ⟨rfl, hst⟩
    · rcases Nat.lt_or_ge n kv.num with hlt' | hge
      · exact Or.inl (Or.inl hlt')
      · exact Or.inl (Or.inr ⟨by omega, by rw [hn s]; decide⟩)
    · exfalso
      rw [hok.status_enterConfig hn] at hst
      rw [hnum, History.Moves, Nat.add_sub_cancel] at hm
      have hba : b.val ≠ a.val := fun hx => hne (Subtype.ext hx.symm)
      rw [hm.1, hm.2, newStatus, if_neg (fun hx => hba hx.2), if_pos ⟨rfl, hba⟩,
        if_pos b.property] at hst
      exact hst rfl

/-- A shard leaves `MoveIn` only through a migration. -/
theorem Fate.leaves (h : Fate H g kv kv' s command) (hin : kv.status s = .moveIn)
    (hout : kv'.status s ≠ .moveIn) : ∃ reply data, command = .shardMigration reply ∧
      reply.configNum = kv.num ∧ reply.shardData s = some data ∧ kv' = kv.takeOver reply := by
  cases h with
  | same hnum hst => exact absurd (hst.trans hin) hout
  | @received reply data hnum hd hbef heq => exact ⟨reply, data, rfl, hnum, hd, heq⟩
  | settled hnum hbef haft => rw [hin] at hbef; cases hbef
  | dropped hnum hnum' hmem hbef haft => rw [hin] at hbef; cases hbef
  | entered hn heq => rw [hn s] at hin; cases hin

end Fate

end GoServices.ShardKv
