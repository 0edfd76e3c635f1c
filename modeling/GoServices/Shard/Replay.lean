import GoServices.Shard.Apply
import Mathlib.Data.List.Infix

/-! A group as the replay of its log.

    The servers of a group apply one committed log, each ranging over Go maps in an order of its
    own. For the logs that occur it makes no difference: shards with the same previous and the same
    current owner always have the same status, and the commands act on all of them or on none. -/

namespace GoServices.ShardKv

open Dedup
open KvRaft (Op)

/-- The configurations that the controller has made and will make, by number. -/
structure History where
  config : ℕ → Config
  num : ∀ n, (config n).num = n
  zero : config 0 = defaultConfig

namespace History

/-- The owner of a shard in configuration `n`. -/
def own (H : History) (n : ℕ) (s : Fin nShards) : ℤ := (H.config n).shards s

/-- With configuration `n` shard `s` goes from `a` to `b`. -/
def Moves (H : History) (n : ℕ) (a b : Gid) (s : Fin nShards) : Prop :=
  H.own (n - 1) s = a.val ∧ H.own n s = b.val

end History

/-- What the statuses of a group say about its configurations. -/
structure GroupOk (H : History) (g : Gid) (kv : ShardKV) : Prop where
  current : kv.currentConfig = H.config kv.num
  prev : kv.prevConfig = H.config (kv.num - 1)
  inward : ∀ s, kv.status s = .moveIn ∨ kv.status s = .gc →
    H.own (kv.num - 1) s ≠ 0 ∧ H.own (kv.num - 1) s ≠ g.val ∧ H.own kv.num s = g.val
  outward : ∀ s, kv.status s = .moveOut →
    H.own (kv.num - 1) s = g.val ∧ H.own kv.num s ≠ g.val ∧ H.own kv.num s ≠ 0
  uniform : ∀ s t, H.own (kv.num - 1) s = H.own (kv.num - 1) t → H.own kv.num s = H.own kv.num t →
    kv.status s = kv.status t

/-- The commands that a group gets to apply: new configurations only when nothing is under way, and
    migrations and collections of all shards that went from one group to another. -/
def Admissible (H : History) (g : Gid) (kv : ShardKV) : RaftCommand → Prop
  | .clientOperation _ => True
  | .configChange newConfig => kv.num + 1 = newConfig.num →
      newConfig = H.config newConfig.num ∧ ∀ s, kv.status s = .normal
  | .shardMigration reply => reply.configNum = kv.num →
      ∃ a : Gid, a ≠ g ∧ ∀ s, (reply.shardData s).isSome ↔ H.Moves kv.num a g s
  | .shardGC args => args.configNum = kv.num → args.shardIds.Nodup ∧
      ∃ a b : Gid, a ≠ b ∧ ∀ s, s ∈ args.shardIds ↔ H.Moves kv.num a b s

namespace ShardKV

/-- All shards of a reply are taken over. -/
def takeOver (kv : ShardKV) (reply : ShardOperationReply) : ShardKV where
  shards s := ((reply.shardData s).map (kv.shards s).receive).getD (kv.shards s)
  duplicateTable := merge LastOperationInfo.seqId kv.duplicateTable reply.duplicateTable
  currentConfig := kv.currentConfig
  prevConfig := kv.prevConfig

/-- Only the table of a reply is taken over. -/
def mergeTable (kv : ShardKV) (reply : ShardOperationReply) : ShardKV :=
  { kv with duplicateTable := merge LastOperationInfo.seqId kv.duplicateTable reply.duplicateTable }

/-- Some shards are replaced. -/
def resetShards (kv : ShardKV) (ids : List (Fin nShards))
    (f : MemoryKVStateMachine → MemoryKVStateMachine) : ShardKV :=
  { kv with shards := fun s => if ids.contains s then f (kv.shards s) else kv.shards s }

theorem shards_resetShards (kv : ShardKV) (ids : List (Fin nShards))
    (f : MemoryKVStateMachine → MemoryKVStateMachine) (s : Fin nShards) :
    (kv.resetShards ids f).shards s = if s ∈ ids then f (kv.shards s) else kv.shards s := by
  simp only [resetShards, List.contains_iff_mem]

/-- A collection replaces shards of one status. -/
theorem collectShards_eq {kv : ShardKV} {ids : List (Fin nShards)} {status : ShardStatus}
    (hnd : ids.Nodup) (hst : ∀ s ∈ ids, kv.status s = status) :
    collectShards ids kv.shards = (kv.resetShards ids fun x => collected x status).shards := by
  funext s
  rw [collectShards_all hnd hst, shards_resetShards]

end ShardKV

/-- What an admissible command does. -/
inductive Effect (H : History) (g : Gid) (kv : ShardKV) : RaftCommand → ShardKV → Prop where
  | skip (command : RaftCommand) : Effect H g kv command kv
  | client (op : Op) : Effect H g kv (.clientOperation op) (kv.applyClientOperation g op).1
  | enter (normal : ∀ s, kv.status s = .normal) :
      Effect H g kv (.configChange (H.config (kv.num + 1))) (kv.enterConfig g (H.config (kv.num + 1)))
  | takeOver {reply : ShardOperationReply} {a : Gid} (num : reply.configNum = kv.num) (ne : a ≠ g)
      (all : ∀ s, (reply.shardData s).isSome ↔ H.Moves kv.num a g s)
      (awaited : ∀ s, (reply.shardData s).isSome → kv.status s = .moveIn) :
      Effect H g kv (.shardMigration reply) (kv.takeOver reply)
  | mergeTable {reply : ShardOperationReply} (num : reply.configNum = kv.num) :
      Effect H g kv (.shardMigration reply) (kv.mergeTable reply)
  | settle {args : ShardOperationArgs} {a : Gid} (num : args.configNum = kv.num) (ne : a ≠ g)
      (all : ∀ s, s ∈ args.shardIds ↔ H.Moves kv.num a g s)
      (gc : ∀ s ∈ args.shardIds, kv.status s = .gc) :
      Effect H g kv (.shardGC args)
        (kv.resetShards args.shardIds fun x => { x with status := .normal })
  | drop {args : ShardOperationArgs} {b : Gid} (num : args.configNum = kv.num) (ne : g ≠ b)
      (all : ∀ s, s ∈ args.shardIds ↔ H.Moves kv.num g b s)
      (moveOut : ∀ s ∈ args.shardIds, kv.status s = .moveOut) :
      Effect H g kv (.shardGC args)
        (kv.resetShards args.shardIds fun _ => MemoryKVStateMachine.new)

section Effect

variable {H : History} {g : Gid} {kv kv' : ShardKV} {command : RaftCommand}

theorem ShardOrder.mem (order : ShardOrder) (s : Fin nShards) : s ∈ order.val :=
  order.property.mem_iff.mpr (List.mem_finRange s)

theorem ShardOrder.nodup (order : ShardOrder) : order.val.Nodup :=
  order.property.nodup_iff.mpr (List.nodup_finRange _)

/-- A migration takes over all its shards or none, in whatever order they come. -/
theorem GroupOk.migrate (h : GroupOk H g kv) {reply : ShardOperationReply} {a : Gid}
    (hall : ∀ s, (reply.shardData s).isSome ↔ H.Moves kv.num a g s) (order : ShardOrder)
    (hnum : reply.configNum = kv.num) :
    if ∃ s, (reply.shardData s).isSome ∧ kv.status s = .moveIn then
      (∀ s, (reply.shardData s).isSome → kv.status s = .moveIn) ∧
        (kv.applyShardMigration order reply).1 = kv.takeOver reply
    else (kv.applyShardMigration order reply).1 = kv.mergeTable reply := by
  unfold ShardKV.applyShardMigration
  rw [if_pos hnum]
  split_ifs with hin
  · obtain ⟨t, ht, hst⟩ := hin
    have haw : ∀ s, (reply.shardData s).isSome → kv.status s = .moveIn := by
      intro s hs
      obtain ⟨hs₁, hs₂⟩ := (hall s).mp hs
      obtain ⟨ht₁, ht₂⟩ := (hall t).mp ht
      rw [h.uniform s t (hs₁.trans ht₁.symm) (hs₂.trans ht₂.symm), hst]
    have hsh : migrateShards reply.shardData order.val kv.shards = (kv.takeOver reply).shards := by
      funext s
      rw [migrateShards_all order.nodup (fun s _ => haw s), if_pos (order.mem s)]
      rfl
    exact ⟨haw, by dsimp only; rw [hsh]; rfl⟩
  · have hsh := @migrateShards_none reply.shardData order.val kv.shards
      fun s hs hst => hin ⟨s, hs, hst⟩
    dsimp only
    rw [hsh]; rfl

theorem applyCommand_order (h : GroupOk H g kv) (ha : Admissible H g kv command)
    (order order' : ShardOrder) :
    (kv.applyCommand g order command).1 = (kv.applyCommand g order' command).1 := by
  cases command with
  | clientOperation _ | configChange _ | shardGC _ => rfl
  | shardMigration reply =>
    by_cases hnum : reply.configNum = kv.num
    · obtain ⟨a, -, hall⟩ := ha hnum
      have h₁ := h.migrate hall order hnum
      have h₂ := h.migrate hall order' hnum
      split_ifs at h₁ h₂
      · exact h₁.2.trans h₂.2.symm
      · exact h₁.trans h₂.symm
    · simp only [ShardKV.applyCommand, ShardKV.applyShardMigration, if_neg hnum]

theorem effect_applyCommand (h : GroupOk H g kv) (ha : Admissible H g kv command)
    (order : ShardOrder) : Effect H g kv command (kv.applyCommand g order command).1 := by
  cases command with
  | clientOperation op => exact .client op
  | configChange newConfig =>
    simp only [ShardKV.applyCommand, ShardKV.applyNewConfig]
    split_ifs with hnum
    · obtain ⟨hc, hn⟩ := ha hnum
      rw [← hnum] at hc
      exact hc ▸ .enter hn
    · exact .skip _
  | shardMigration reply =>
    by_cases hnum : reply.configNum = kv.num
    · obtain ⟨a, hne, hall⟩ := ha hnum
      have hm := h.migrate hall order hnum
      split_ifs at hm
      · rw [ShardKV.applyCommand, hm.2]; exact .takeOver hnum hne hall hm.1
      · rw [ShardKV.applyCommand, hm]; exact .mergeTable hnum
    · simp only [ShardKV.applyCommand, ShardKV.applyShardMigration, if_neg hnum]
      exact .skip _
  | shardGC args =>
    simp only [ShardKV.applyCommand, ShardKV.applyShardGC]
    split_ifs with hnum
    · obtain ⟨hnd, a, b, hne, hall⟩ := ha hnum
      by_cases hids : args.shardIds = []
      · rw [hids]; exact .skip _
      obtain ⟨t, ht⟩ := List.exists_mem_of_ne_nil _ hids
      obtain ⟨ht₁, ht₂⟩ := (hall t).mp ht
      have hst : ∀ s ∈ args.shardIds, kv.status s = kv.status t := fun s hs =>
        h.uniform s t (((hall s).mp hs).1.trans ht₁.symm) (((hall s).mp hs).2.trans ht₂.symm)
      rw [ShardKV.collectShards_eq hnd hst]
      cases hs : kv.status t with
      | gc =>
        obtain rfl : b = g := Subtype.ext (ht₂.symm.trans (h.inward t (Or.inr hs)).2.2)
        exact .settle hnum hne hall fun s hmem => (hst s hmem).trans hs
      | moveOut =>
        obtain rfl : a = g := Subtype.ext (ht₁.symm.trans (h.outward t hs).1)
        exact .drop hnum hne hall fun s hmem => (hst s hmem).trans hs
      | normal | moveIn =>
        have hsame : (kv.resetShards args.shardIds fun x => x).shards = kv.shards := by
          funext s
          rw [ShardKV.shards_resetShards, ite_self]
        show Effect H g kv _ { kv with shards := (kv.resetShards args.shardIds fun x => x).shards }
        rw [hsame]; exact .skip _
    · exact .skip _

/-- The shards that go from `a` to `b` all get one new status. -/
theorem GroupOk.recast (h : GroupOk H g kv) {a b : Gid} {P : Fin nShards → Prop}
    (hall : ∀ s, P s ↔ H.Moves kv.num a b s) {status : ShardStatus}
    (hst : status = .normal ∨ status = .gc ∧ a ≠ g ∧ b = g)
    (hcur : kv'.currentConfig = kv.currentConfig) (hprev : kv'.prevConfig = kv.prevConfig)
    (hin : ∀ s, P s → kv'.status s = status) (hout : ∀ s, ¬ P s → kv'.status s = kv.status s) :
    GroupOk H g kv' := by
  have hnum : kv'.num = kv.num := congrArg Config.num hcur
  refine ⟨by rw [hcur, hnum]; exact h.current, by rw [hprev, hnum]; exact h.prev, fun s hs => ?_,
    fun s hs => ?_, fun s t h₁ h₂ => ?_⟩ <;> rw [hnum] at *
  · by_cases hm : P s
    · rw [hin s hm] at hs
      rcases hst with rfl | ⟨rfl, hne, rfl⟩
      · rcases hs with hs | hs <;> cases hs
      · obtain ⟨h₁, h₂⟩ := (hall s).mp hm
        rw [h₁, h₂]; exact ⟨a.property, fun hx => hne (Subtype.ext hx), rfl⟩
    · rw [hout s hm] at hs; exact h.inward s hs
  · by_cases hm : P s
    · rw [hin s hm] at hs
      rcases hst with rfl | ⟨rfl, -⟩ <;> cases hs
    · rw [hout s hm] at hs; exact h.outward s hs
  · have hiff : P s ↔ P t := by rw [hall, hall, History.Moves, History.Moves, h₁, h₂]
    by_cases hm : P s
    · rw [hin s hm, hin t (hiff.mp hm)]
    · rw [hout s hm, hout t fun hx => hm (hiff.mpr hx)]
      exact h.uniform s t h₁ h₂

theorem newStatus_normal_cases (g : Gid) (current new : ℤ) :
    newStatus g current new .normal = .moveIn ∧ current ≠ 0 ∧ current ≠ g.val ∧ new = g.val ∨
    newStatus g current new .normal = .moveOut ∧ current = g.val ∧ new ≠ g.val ∧ new ≠ 0 ∨
    newStatus g current new .normal = .normal ∧
      (current ≠ 0 → current ≠ g.val → new ≠ g.val) ∧ (new ≠ 0 → current = g.val → new = g.val) := by
  unfold newStatus
  split_ifs <;> simp_all

theorem num_enterConfig (H : History) (g : Gid) (kv : ShardKV) :
    (kv.enterConfig g (H.config (kv.num + 1))).num = kv.num + 1 := H.num _

/-- The new configuration marks the shards that move. -/
theorem GroupOk.status_enterConfig (h : GroupOk H g kv) (hn : ∀ t, kv.status t = .normal)
    (s : Fin nShards) : (kv.enterConfig g (H.config (kv.num + 1))).status s =
      newStatus g (H.own kv.num s) (H.own (kv.num + 1) s) .normal := by
  rw [History.own, ← h.current, ← hn s]; rfl

theorem GroupOk.enter (h : GroupOk H g kv) (hn : ∀ s, kv.status s = .normal) :
    GroupOk H g (kv.enterConfig g (H.config (kv.num + 1))) := by
  have hnum := num_enterConfig H g kv
  have hst := h.status_enterConfig hn
  refine ⟨by rw [hnum]; rfl, by rw [hnum]; exact h.current, fun s hs => ?_, fun s hs => ?_,
    fun s t h₁ h₂ => ?_⟩ <;> rw [hnum, Nat.add_sub_cancel] at *
  · rw [hst] at hs
    rcases newStatus_normal_cases g (H.own kv.num s) (H.own (kv.num + 1) s) with ⟨-, hr⟩ | ⟨hx, -⟩ | ⟨hx, -⟩
    · exact hr
    · rw [hx] at hs; rcases hs with hs | hs <;> cases hs
    · rw [hx] at hs; rcases hs with hs | hs <;> cases hs
  · rw [hst] at hs
    rcases newStatus_normal_cases g (H.own kv.num s) (H.own (kv.num + 1) s) with ⟨hx, -⟩ | ⟨-, hr⟩ | ⟨hx, -⟩
    · rw [hx] at hs; cases hs
    · exact hr
    · rw [hx] at hs; cases hs
  · rw [hst, hst, h₁, h₂]

theorem ShardKV.status_takeOver (kv : ShardKV) (reply : ShardOperationReply) (s : Fin nShards) :
    (kv.takeOver reply).status s = if (reply.shardData s).isSome then .gc else kv.status s := by
  unfold ShardKV.takeOver ShardKV.status
  dsimp only
  cases reply.shardData s <;> rfl

theorem ShardKV.status_resetShards (kv : ShardKV) (ids : List (Fin nShards))
    (f : MemoryKVStateMachine → MemoryKVStateMachine) (s : Fin nShards) :
    (kv.resetShards ids f).status s = if s ∈ ids then (f (kv.shards s)).status else kv.status s := by
  rw [ShardKV.status, ShardKV.shards_resetShards]
  split_ifs <;> rfl

theorem GroupOk.effect (h : GroupOk H g kv) (he : Effect H g kv command kv') : GroupOk H g kv' := by
  cases he with
  | skip => exact h
  | client op =>
    obtain ⟨hcur, hprev, hst⟩ := ShardKV.applyClientOperation_frame kv g op
    have hnum : (kv.applyClientOperation g op).1.num = kv.num := congrArg Config.num hcur
    refine ⟨by rw [hcur, hnum]; exact h.current, by rw [hprev, hnum]; exact h.prev, fun s => ?_,
      fun s => ?_, fun s t => ?_⟩ <;> rw [hnum]
    · rw [(hst s).1]; exact h.inward s
    · rw [(hst s).1]; exact h.outward s
    · rw [(hst s).1, (hst t).1]; exact h.uniform s t
  | enter hn => exact h.enter hn
  | takeOver hnum hne hall haw =>
    refine h.recast hall (Or.inr ⟨rfl, hne, rfl⟩) rfl rfl (fun s hm => ?_) (fun s hm => ?_)
    · rw [ShardKV.status_takeOver, if_pos hm]
    · rw [ShardKV.status_takeOver, if_neg hm]
  | mergeTable hnum => exact ⟨h.current, h.prev, h.inward, h.outward, h.uniform⟩
  | settle hnum hne hall hgc | drop hnum hne hall hgc =>
    refine h.recast hall (Or.inl rfl) rfl rfl (fun s hm => ?_) (fun s hm => ?_)
    · exact (ShardKV.status_resetShards _ _ _ _).trans (if_pos hm)
    · exact (ShardKV.status_resetShards _ _ _ _).trans (if_neg hm)

end Effect

/-! ### Logs -/

/-- The state of a server of group `g` that has applied `log`; `order i` is the order in which it
    ranges over a map at position `i`. -/
def replay (g : Gid) (order : ℕ → ShardOrder) (log : List RaftCommand) : ShardKV :=
  log.zipIdx.foldl (fun kv p => (kv.applyCommand g (order p.2) p.1).1) ShardKV.start

/-- The shards in ascending order. -/
def ascending : ShardOrder := ⟨List.finRange nShards, List.Perm.refl _⟩

/-- The state that the group has committed to. -/
def state (g : Gid) (log : List RaftCommand) : ShardKV := replay g (fun _ => ascending) log

/-- Every command of the log is admissible where it stands. -/
def Legal (H : History) (g : Gid) (log : List RaftCommand) : Prop :=
  ∀ pre command, pre ++ [command] <+: log → Admissible H g (state g pre) command

section Log

variable {H : History} {g : Gid} {log pre : List RaftCommand} {command : RaftCommand}

theorem replay_concat (g : Gid) (order : ℕ → ShardOrder) (log : List RaftCommand)
    (command : RaftCommand) : replay g order (log ++ [command]) =
      ((replay g order log).applyCommand g (order log.length) command).1 := by
  simp only [replay, List.zipIdx_append, List.foldl_append, Nat.zero_add]
  rfl

theorem state_concat (g : Gid) (log : List RaftCommand) (command : RaftCommand) :
    state g (log ++ [command]) = ((state g log).applyCommand g ascending command).1 :=
  replay_concat g _ log command

/-- Later in the log is later. -/
theorem state_later (h : pre <+: log) : Later (state g pre) (state g log) := by
  induction log using List.reverseRecOn with
  | nil => rw [List.prefix_nil.mp h]; exact Later.refl _
  | append_singleton log command ih =>
    rcases List.prefix_concat_iff.mp h with rfl | h
    · exact Later.refl _
    · rw [state_concat]
      exact (ih h).trans (ShardKV.later_applyCommand _ _ _ _)

theorem Legal.cut (h : Legal H g log) (hp : pre <+: log) : Legal H g pre :=
  fun _ _ hx => h _ _ (hx.trans hp)

theorem legal_concat : Legal H g (log ++ [command]) ↔
    Legal H g log ∧ Admissible H g (state g log) command := by
  constructor
  · exact fun h => ⟨h.cut (List.prefix_append _ _), h log command List.prefix_rfl⟩
  · rintro ⟨h, ha⟩ pre c hx
    rcases List.prefix_concat_iff.mp hx with heq | hx
    · obtain ⟨rfl, hc⟩ := List.append_inj' heq rfl
      rw [List.singleton_inj.mp hc]; exact ha
    · exact h pre c hx

/-- Along a legal log the statuses are right, and the orders of the servers make no difference. -/
theorem Legal.groupOk (h : Legal H g log) :
    GroupOk H g (state g log) ∧ ∀ order, replay g order log = state g log := by
  induction log using List.reverseRecOn with
  | nil =>
    refine ⟨⟨H.zero.symm, H.zero.symm, ?_, ?_, fun _ _ _ _ => rfl⟩, fun _ => rfl⟩
    · rintro s (hs | hs) <;> cases hs
    · intro s hs; cases hs
  | append_singleton log command ih =>
    obtain ⟨hlog, ha⟩ := legal_concat.mp h
    obtain ⟨hok, hord⟩ := ih hlog
    refine ⟨?_, fun order => ?_⟩
    · rw [state_concat]; exact hok.effect (effect_applyCommand hok ha _)
    · rw [replay_concat, state_concat, hord]; exact applyCommand_order hok ha _ _

theorem Legal.effect (h : Legal H g (log ++ [command])) :
    Effect H g (state g log) command (state g (log ++ [command])) := by
  obtain ⟨hlog, ha⟩ := legal_concat.mp h
  rw [state_concat]
  exact effect_applyCommand hlog.groupOk.1 ha _

/-- A group that has got to configuration `n` has entered it at some point of its log. -/
theorem exists_enters {n : ℕ} (hpos : 0 < n) (hn : n ≤ (state g log).num) :
    ∃ pre command, pre ++ [command] <+: log ∧ (state g pre).num + 1 = n ∧
      (state g (pre ++ [command])).num = n := by
  induction log using List.reverseRecOn with
  | nil => exact absurd hn (by simp [state, replay, ShardKV.start, ShardKV.num, defaultConfig]; omega)
  | append_singleton log command ih =>
    by_cases hold : n ≤ (state g log).num
    · obtain ⟨pre, c, hp, hrest⟩ := ih hold
      exact ⟨pre, c, hp.trans (List.prefix_append _ _), hrest⟩
    · have hle := ShardKV.num_applyCommand_le (state g log) g ascending command
      rw [← state_concat] at hle
      exact ⟨log, command, List.prefix_rfl, by omega, by omega⟩

end Log

end GoServices.ShardKv
