import GoServices.Shard.Ownership

/-! What the replicas of a group can rely on when they apply a committed command.

    A new configuration takes effect only when nothing is under way: whoever proposed it saw all
    shards in `Normal`, and within a configuration nothing leaves `Normal`. A migration or a
    collection finds its shards all in the status it works on or none of them, so the loops, which
    stop at the first shard in another status, do the same in every order. -/

namespace GoServices.ShardKv

open Runs

section Settled

variable {H : History} {c : System} {g : Gid} {pre : List RaftCommand}

/-- A new configuration takes effect on a replica only when all its shards are settled. -/
theorem settled_before_new_config {acts : List Action}
    (hc : Run (System.step H) Any System.init acts c) {newConfig : Config}
    (hp : pre ++ [.configChange newConfig] <+: c.log g) {order : ℕ → ShardOrder}
    (heffect : ((replay g order pre).applyNewConfig g newConfig).2.err = .ok) (s : Fin nShards) :
    (replay g order pre).status s = .normal := by
  have h := sound_run hc
  have hpre : pre <+: c.log g := (List.prefix_append _ _).trans hp
  rw [h.replay_eq hpre] at heffect ⊢
  have hnum : (state g pre).num + 1 = newConfig.num := by
    by_contra hne
    rw [ShardKV.applyNewConfig, if_neg hne] at heffect
    cases heffect
  exact (h.legal g pre _ hp hnum).2 s

end Settled

/-- The configuration in a command. -/
def RaftCommand.newConfig? : RaftCommand → Option Config
  | .configChange newConfig => some newConfig
  | _ => none

theorem eq_of_newConfig? {command : RaftCommand} {newConfig : Config}
    (h : command.newConfig? = some newConfig) : command = .configChange newConfig := by
  cases command with
  | configChange newConfig' => exact congrArg _ (Option.some.inj h)
  | clientOperation _ | shardMigration _ | shardGC _ => exact absurd h (by simp [RaftCommand.newConfig?])

/-- In the handoff of `Ownership`, group 1 enters its second configuration with its third command. -/
theorem settled_before_new_config_handedOff : ∃ c pre newConfig,
    Run (System.step joined) Any System.init handedOff c ∧
    pre ++ [.configChange newConfig] <+: c.log gid1 ∧ newConfig.num = 2 ∧
    ((state gid1 pre).applyNewConfig gid1 newConfig).2.err = .ok ∧
    ∀ s, (state gid1 pre).status s = .normal := by
  obtain ⟨c, hc, hq⟩ := exists_run (System.step joined) Any System.init handedOff
    (fun c => ((c.log gid1)[2]?.bind RaftCommand.newConfig?).any fun newConfig => newConfig.num = 2 ∧
      ((state gid1 ((c.log gid1).take 2)).applyNewConfig gid1 newConfig).2.err = .ok) (by decide +kernel)
  obtain ⟨newConfig, hget, hok⟩ := (Option.any_eq_true _ _).mp hq
  obtain ⟨command, hcommand, hnew⟩ := Option.bind_eq_some_iff.mp hget
  obtain ⟨hlen, rfl⟩ := List.getElem?_eq_some_iff.mp hcommand
  obtain ⟨hnum, herr⟩ := of_decide_eq_true hok
  have hp : (c.log gid1).take 2 ++ [.configChange newConfig] <+: c.log gid1 := by
    rw [← eq_of_newConfig? hnew, List.take_append_getElem hlen]
    exact List.take_prefix _ _
  exact ⟨c, _, newConfig, hc, hp, hnum, herr, settled_before_new_config hc hp herr⟩

/-! ### Migrations and collections in any order -/

/-- The number of the configuration that a migration or a collection is for. -/
def RaftCommand.configNum? : RaftCommand → Option ℕ
  | .shardMigration reply => some reply.configNum
  | .shardGC args => some args.configNum
  | _ => none

/-- The shards that a migration or a collection names. -/
def RaftCommand.Lists : RaftCommand → Fin nShards → Prop
  | .shardMigration reply, s => (reply.shardData s).isSome
  | .shardGC args, s => s ∈ args.shardIds
  | _, _ => False

/-- The statuses with which the loop goes on. -/
def RaftCommand.Expects : RaftCommand → ShardStatus → Prop
  | .shardMigration _, status => status = .moveIn
  | .shardGC _, status => status = .gc ∨ status = .moveOut
  | _, _ => False

/-- The same migration, or the same collection with its shards in another order. -/
inductive Reordered : RaftCommand → RaftCommand → Prop where
  | migration (reply : ShardOperationReply) : Reordered (.shardMigration reply) (.shardMigration reply)
  | collection (args : ShardOperationArgs) (ids : List (Fin nShards)) (perm : ids.Perm args.shardIds) :
      Reordered (.shardGC args) (.shardGC ⟨args.configNum, ids⟩)

section Order

variable {H : History} {c : System} {g : Gid} {pre : List RaftCommand} {kv : ShardKV}
  {command command' : RaftCommand}

/-- The shards of one command came from one group and go to one group. -/
theorem Admissible.moves (ha : Admissible H g kv command) (hnum : command.configNum? = some kv.num) :
    ∃ a b : Gid, ∀ s, command.Lists s ↔ H.Moves kv.num a b s := by
  cases command with
  | clientOperation _ | configChange _ => exact absurd hnum (by simp [RaftCommand.configNum?])
  | shardMigration reply =>
    obtain ⟨a, -, hall⟩ := ha (Option.some.inj hnum)
    exact ⟨a, g, hall⟩
  | shardGC args =>
    obtain ⟨-, a, b, -, hall⟩ := ha (Option.some.inj hnum)
    exact ⟨a, b, hall⟩

/-- So they all have the same status. -/
theorem GroupOk.same_status (h : GroupOk H g kv) (ha : Admissible H g kv command)
    (hnum : command.configNum? = some kv.num) {s t : Fin nShards} (hs : command.Lists s)
    (ht : command.Lists t) : kv.status s = kv.status t := by
  obtain ⟨a, b, hall⟩ := ha.moves hnum
  obtain ⟨hs₁, hs₂⟩ := (hall s).mp hs
  obtain ⟨ht₁, ht₂⟩ := (hall t).mp ht
  exact h.uniform s t (hs₁.trans ht₁.symm) (hs₂.trans ht₂.symm)

theorem GroupOk.all_or_none (h : GroupOk H g kv) (ha : Admissible H g kv command)
    (hnum : command.configNum? = some kv.num) :
    (∀ s, command.Lists s → command.Expects (kv.status s)) ∨
    (∀ s, command.Lists s → ¬ command.Expects (kv.status s)) := by
  by_cases hex : ∃ t, command.Lists t ∧ command.Expects (kv.status t)
  · obtain ⟨t, ht, hexp⟩ := hex
    left
    intro s hs
    rw [h.same_status ha hnum hs ht]
    exact hexp
  · right
    intro s hs hexp
    exact hex ⟨s, hs, hexp⟩

/-- A command for another configuration does nothing. -/
theorem applyCommand_of_other_num {n : ℕ} (h : command.configNum? = some n) (hn : n ≠ kv.num)
    (order : ShardOrder) : (kv.applyCommand g order command).1 = kv := by
  cases command with
  | clientOperation _ | configChange _ => exact absurd h (by simp [RaftCommand.configNum?])
  | shardMigration reply =>
    have hne : reply.configNum ≠ kv.num := fun hx => hn ((Option.some.inj h).symm.trans hx)
    rw [ShardKV.applyCommand, ShardKV.applyShardMigration, if_neg hne]
  | shardGC args =>
    have hne : args.configNum ≠ kv.num := fun hx => hn ((Option.some.inj h).symm.trans hx)
    rw [ShardKV.applyCommand, ShardKV.applyShardGC, if_neg hne]

/-- The order of the shards in a collection does not matter. -/
theorem GroupOk.collect_order (h : GroupOk H g kv) {args : ShardOperationArgs}
    (ha : Admissible H g kv (.shardGC args)) {ids : List (Fin nShards)}
    (hperm : ids.Perm args.shardIds) :
    kv.applyShardGC ⟨args.configNum, ids⟩ = kv.applyShardGC args := by
  unfold ShardKV.applyShardGC
  by_cases hnum : args.configNum = kv.num
  · obtain ⟨hnodup, -⟩ := ha hnum
    have hshards : collectShards ids kv.shards = collectShards args.shardIds kv.shards := by
      by_cases hids : args.shardIds = []
      · rw [hids] at hperm ⊢
        rw [hperm.eq_nil]
      · obtain ⟨t, ht⟩ := List.exists_mem_of_ne_nil _ hids
        have hst : ∀ s ∈ args.shardIds, (kv.shards s).status = kv.status t := fun s hs =>
          h.same_status ha (congrArg some hnum) hs ht
        have hst' : ∀ s ∈ ids, (kv.shards s).status = kv.status t := fun s hs =>
          hst s (hperm.mem_iff.mp hs)
        funext s
        rw [collectShards_all hnodup hst, collectShards_all (hperm.nodup_iff.mpr hnodup) hst']
        simp only [hperm.mem_iff]
    rw [hshards]
  · rw [if_neg hnum, if_neg hnum]

theorem GroupOk.reordered (h : GroupOk H g kv) (ha : Admissible H g kv command)
    (hre : Reordered command command') (order order' : ShardOrder) :
    (kv.applyCommand g order command).1 = (kv.applyCommand g order' command').1 := by
  cases hre with
  | migration reply => exact applyCommand_order h ha order order'
  | collection args ids hperm => exact congrArg Prod.fst (h.collect_order ha hperm).symm

/-- Two replicas make the same of a migration or a collection, whatever the orders in which they go
    through it; it is for another configuration and does nothing, or its shards are all in a status
    that it expects, or none of them is. -/
theorem migration_same_on_replicas {acts : List Action}
    (hc : Run (System.step H) Any System.init acts c) (hp : pre ++ [command] <+: c.log g)
    (hre : Reordered command command') (order order' : ℕ → ShardOrder) :
    (∀ o o', ((replay g order pre).applyCommand g o command).1 =
      ((replay g order' pre).applyCommand g o' command').1) ∧
    (command.configNum? ≠ some (replay g order pre).num ∧
        (∀ o, ((replay g order pre).applyCommand g o command).1 = replay g order pre) ∨
      (∀ s, command.Lists s → command.Expects ((replay g order pre).status s)) ∨
      (∀ s, command.Lists s → ¬ command.Expects ((replay g order pre).status s))) := by
  have h := sound_run hc
  have hpre : pre <+: c.log g := (List.prefix_append _ _).trans hp
  have hok := ((h.legal g).cut hpre).groupOk.1
  have ha := h.legal g pre command hp
  rw [h.replay_eq hpre, h.replay_eq hpre]
  refine ⟨hok.reordered ha hre, ?_⟩
  by_cases hnum : command.configNum? = some (state g pre).num
  · exact Or.inr (hok.all_or_none ha hnum)
  · left
    refine ⟨hnum, ?_⟩
    obtain ⟨n, hn⟩ : ∃ n, command.configNum? = some n := by
      cases hre with
      | migration reply => exact ⟨_, rfl⟩
      | collection args ids hperm => exact ⟨_, rfl⟩
    exact applyCommand_of_other_num hn fun hx => hnum (hx ▸ hn)

end Order

/-- The shards in a collection. -/
def RaftCommand.gcArgs? : RaftCommand → Option ShardOperationArgs
  | .shardGC args => some args
  | _ => none

theorem eq_of_gcArgs? {command : RaftCommand} {args : ShardOperationArgs}
    (h : command.gcArgs? = some args) : command = .shardGC args := by
  cases command with
  | shardGC args' => exact congrArg _ (Option.some.inj h)
  | clientOperation _ | shardMigration _ | configChange _ => exact absurd h (by simp [RaftCommand.gcArgs?])

/-- In the handoff of `Ownership`, group 1 deletes five shards; backwards it is the same. -/
theorem migration_same_on_replicas_handedOff : ∃ c pre args,
    Run (System.step joined) Any System.init handedOff c ∧ pre ++ [.shardGC args] <+: c.log gid1 ∧
    args.shardIds = [0, 1, 2, 3, 4] ∧ (state gid1 pre).status 0 = .moveOut ∧
    ((state gid1 pre).applyCommand gid1 ascending (.shardGC args)).1 =
      ((state gid1 pre).applyCommand gid1 ascending (.shardGC ⟨args.configNum, [4, 3, 2, 1, 0]⟩)).1 := by
  obtain ⟨c, hc, hq⟩ := exists_run (System.step joined) Any System.init handedOff
    (fun c => ((c.log gid1)[3]?.bind RaftCommand.gcArgs?).any fun args =>
      args.shardIds = [0, 1, 2, 3, 4] ∧ (state gid1 ((c.log gid1).take 3)).status 0 = .moveOut)
    (by decide +kernel)
  obtain ⟨args, hget, hok⟩ := (Option.any_eq_true _ _).mp hq
  obtain ⟨command, hcommand, hargs⟩ := Option.bind_eq_some_iff.mp hget
  obtain ⟨hlen, rfl⟩ := List.getElem?_eq_some_iff.mp hcommand
  obtain ⟨hids, hst⟩ := of_decide_eq_true hok
  have hp : (c.log gid1).take 3 ++ [.shardGC args] <+: c.log gid1 := by
    rw [← eq_of_gcArgs? hargs, List.take_append_getElem hlen]
    exact List.take_prefix _ _
  have hperm : [4, 3, 2, 1, 0].Perm args.shardIds := by
    rw [hids]
    decide
  exact ⟨c, _, args, hc, hp, hids, hst, (migration_same_on_replicas hc hp (.collection args _ hperm)
    (fun _ => ascending) fun _ => ascending).1 ascending ascending⟩

end GoServices.ShardKv
