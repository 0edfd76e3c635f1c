import GoServices.Shard.Server

/-! What one command does to a server, whatever the state it meets.

    Within a configuration a shard only moves forward: nothing enters `MoveIn` or `MoveOut`, `Normal`
    stays, and the data of a shard in `MoveOut` is frozen. The deduplication table only grows. -/

namespace GoServices.ShardKv

open Dedup
open KvRaft (Op)

/-- How a shard may change within one configuration. -/
structure Progress (x y : MemoryKVStateMachine) : Prop where
  moveIn : y.status = .moveIn → x.status = .moveIn
  moveOut : y.status = .moveOut → x.status = .moveOut ∧ y.kv = x.kv
  normal : x.status = .normal → y.status = .normal

/-- `kv'` is a later state of the same group. -/
structure Later (kv kv' : ShardKV) : Prop where
  num : kv.num ≤ kv'.num
  table : Le LastOperationInfo.seqId kv.duplicateTable kv'.duplicateTable
  shards : kv.num = kv'.num → ∀ s, Progress (kv.shards s) (kv'.shards s)

theorem Progress.refl (x : MemoryKVStateMachine) : Progress x x := ⟨id, fun h => ⟨h, rfl⟩, id⟩

theorem Progress.trans {x y z : MemoryKVStateMachine} (h : Progress x y) (h' : Progress y z) :
    Progress x z := by
  refine ⟨fun hz => h.moveIn (h'.moveIn hz), fun hz => ?_, fun hx => h'.normal (h.normal hx)⟩
  obtain ⟨hy, hyz⟩ := h'.moveOut hz
  obtain ⟨hx, hxy⟩ := h.moveOut hy
  exact ⟨hx, hyz.trans hxy⟩

theorem Later.refl (kv : ShardKV) : Later kv kv :=
  ⟨le_refl _, Le.refl _, fun _ _ => Progress.refl _⟩

theorem Later.trans {x y z : ShardKV} (h : Later x y) (h' : Later y z) : Later x z := by
  have hxy := h.num
  have hyz := h'.num
  exact ⟨le_trans hxy hyz, h.table.trans h'.table, fun heq s =>
    (h.shards (by omega) s).trans (h'.shards (by omega) s)⟩

/-! ### The loops -/

theorem progress_update {shards : Shards} {i : Fin nShards} {x : MemoryKVStateMachine}
    (h : Progress (shards i) x) (s : Fin nShards) :
    Progress (shards s) (Function.update shards i x s) := by
  rcases eq_or_ne s i with rfl | hs
  · rw [Function.update_self]; exact h
  · rw [Function.update_of_ne hs]; exact Progress.refl _

theorem progress_migrateShards (shardData : Fin nShards → Option (String → Option String))
    (ids : List (Fin nShards)) (shards : Shards) (s : Fin nShards) :
    Progress (shards s) (migrateShards shardData ids shards s) := by
  induction ids generalizing shards with
  | nil => exact Progress.refl _
  | cons i rest ih =>
    unfold migrateShards
    cases shardData i with
    | none => exact ih shards
    | some data =>
      dsimp only
      split_ifs with hin
      · refine (progress_update ⟨fun h => ?_, fun h => ?_, fun h => ?_⟩ s).trans (ih _)
        · cases h
        · cases h
        · rw [hin] at h; cases h
      · exact Progress.refl _

theorem progress_collectShards (ids : List (Fin nShards)) (shards : Shards) (s : Fin nShards) :
    Progress (shards s) (collectShards ids shards s) := by
  induction ids generalizing shards with
  | nil => exact Progress.refl _
  | cons i rest ih =>
    unfold collectShards
    cases (shards i).status with
    | gc | moveOut =>
      refine (progress_update ⟨fun h => ?_, fun h => ?_, fun _ => rfl⟩ s).trans (ih _) <;> cases h
    | normal | moveIn => exact Progress.refl _

/-- When all shards that come in are awaited, they are all taken over, in whatever order. -/
theorem migrateShards_all {shardData : Fin nShards → Option (String → Option String)}
    {ids : List (Fin nShards)} (hnd : ids.Nodup) {shards : Shards}
    (hin : ∀ s ∈ ids, (shardData s).isSome → (shards s).status = .moveIn) (s : Fin nShards) :
    migrateShards shardData ids shards s =
      if s ∈ ids then ((shardData s).map (shards s).receive).getD (shards s) else shards s := by
  induction ids generalizing shards with
  | nil => rfl
  | cons i rest ih =>
    obtain ⟨hi, hrest⟩ := List.nodup_cons.mp hnd
    unfold migrateShards
    cases hd : shardData i with
    | none =>
      dsimp only
      rw [ih hrest fun t ht => hin t (List.mem_cons_of_mem _ ht)]
      rcases eq_or_ne s i with rfl | hs
      · rw [if_neg hi, if_pos List.mem_cons_self, hd]; rfl
      · simp only [List.mem_cons, hs, false_or]
    | some data =>
      dsimp only
      rw [if_pos (hin i List.mem_cons_self (by rw [hd]; rfl)), ih hrest fun t ht hsome => ?_]
      · rcases eq_or_ne s i with rfl | hs
        · rw [if_neg hi, if_pos List.mem_cons_self, hd, Function.update_self]; rfl
        · simp only [List.mem_cons, hs, false_or, Function.update_of_ne hs]
      · rw [Function.update_of_ne (fun h : t = i => hi (h ▸ ht))]
        exact hin t (List.mem_cons_of_mem _ ht) hsome

/-- When none of them is awaited, the first one stops the loop. -/
theorem migrateShards_none {shardData : Fin nShards → Option (String → Option String)}
    {ids : List (Fin nShards)} {shards : Shards}
    (hout : ∀ s, (shardData s).isSome → (shards s).status ≠ .moveIn) :
    migrateShards shardData ids shards = shards := by
  induction ids with
  | nil => rfl
  | cons i rest ih =>
    unfold migrateShards
    cases hd : shardData i with
    | none => exact ih
    | some data => exact if_neg (hout i (by rw [hd]; rfl))

/-- What a collection makes of a shard. -/
def collected (x : MemoryKVStateMachine) : ShardStatus → MemoryKVStateMachine
  | .gc => { x with status := .normal }
  | .moveOut => MemoryKVStateMachine.new
  | _ => x

/-- Shards that all have one status are all collected, or the first one stops the loop. -/
theorem collectShards_all {status : ShardStatus} {ids : List (Fin nShards)} (hnd : ids.Nodup)
    {shards : Shards} (hst : ∀ s ∈ ids, (shards s).status = status) (s : Fin nShards) :
    collectShards ids shards s = if s ∈ ids then collected (shards s) status else shards s := by
  induction ids generalizing shards with
  | nil => rfl
  | cons i rest ih =>
    obtain ⟨hi, hrest⟩ := List.nodup_cons.mp hnd
    have hsi := hst i List.mem_cons_self
    have hup : ∀ x : MemoryKVStateMachine, ∀ t ∈ rest, (Function.update shards i x t).status = status := by
      intro x t ht
      rw [Function.update_of_ne (fun h : t = i => hi (h ▸ ht))]
      exact hst t (List.mem_cons_of_mem _ ht)
    unfold collectShards
    rw [hsi]
    cases status with
    | gc | moveOut =>
      dsimp only
      rw [ih hrest (hup _)]
      rcases eq_or_ne s i with rfl | hs
      · rw [if_neg hi, if_pos List.mem_cons_self, Function.update_self]; rfl
      · simp only [List.mem_cons, hs, false_or, Function.update_of_ne hs]
    | normal | moveIn => exact (ite_self _).symm

/-! ### Client operations -/

namespace ShardKV

variable {kv : ShardKV} {gid : Gid} {op : Op} {s : Fin nShards}

/-- The operation is run: not refused, not answered from the table, and a write. -/
def Executes (kv : ShardKV) (gid : Gid) (op : Op) : Prop :=
  kv.matchGroup gid op.key = true ∧ op.opType ≠ .opGet ∧
    ¬ Blocks LastOperationInfo.seqId kv.duplicateTable op.clientId op.seqId

theorem serves_iff : kv.serves gid s = true ↔
    kv.currentConfig.shards s = gid.val ∧ (kv.status s = .normal ∨ kv.status s = .gc) :=
  decide_eq_true_iff

theorem requestDuplicated_iff {clientId seqId : ℤ} : kv.requestDuplicated clientId seqId = true ↔
    Blocks LastOperationInfo.seqId kv.duplicateTable clientId seqId := by
  unfold requestDuplicated Blocks
  cases kv.duplicateTable clientId with
  | none => simp
  | some info => simp

theorem applyToStateMachine_frame (kv : ShardKV) (op : Op) (i : Fin nShards) :
    (kv.applyToStateMachine op i).1.duplicateTable = kv.duplicateTable ∧
    (kv.applyToStateMachine op i).1.currentConfig = kv.currentConfig ∧
    (kv.applyToStateMachine op i).1.prevConfig = kv.prevConfig := by
  unfold applyToStateMachine; split <;> exact ⟨rfl, rfl, rfl⟩

/-- Only the map of the one shard changes. -/
theorem applyToStateMachine_shards (kv : ShardKV) (op : Op) (i : Fin nShards) :
    ∃ m, (kv.applyToStateMachine op i).1.shards =
      Function.update kv.shards i ⟨m, (kv.shards i).status⟩ := by
  unfold applyToStateMachine
  cases op.opType with
  | opGet => exact ⟨(kv.shards i).kv, (Function.update_eq_self _ _).symm⟩
  | opPut => exact ⟨_, rfl⟩
  | opAppend => exact ⟨_, rfl⟩

theorem applyClientOperation_skip (h : ¬ Executes kv gid op) : (kv.applyClientOperation gid op).1 = kv := by
  unfold applyClientOperation
  by_cases hm : kv.matchGroup gid op.key = true
  · rw [if_pos hm]
    by_cases hget : op.opType = .opGet
    · rw [if_neg (fun hx => hx.1 hget)]
      simp only [hget, ne_eq, not_true_eq_false, if_false]
      rw [applyToStateMachine, hget]
    · have hb : kv.requestDuplicated op.clientId op.seqId = true := by
        rw [requestDuplicated_iff]
        by_contra hx
        exact h ⟨hm, hget, hx⟩
      rw [if_pos ⟨hget, hb⟩]
  · rw [if_neg hm]

theorem applyClientOperation_run (h : Executes kv gid op) :
    (kv.applyClientOperation gid op).1 = { (kv.applyToStateMachine op (key2shard op.key)).1 with
      duplicateTable := Function.update kv.duplicateTable op.clientId
        (some ⟨op.seqId, (kv.applyToStateMachine op (key2shard op.key)).2⟩) } := by
  obtain ⟨hm, hget, hb⟩ := h
  unfold applyClientOperation
  rw [if_pos hm, if_neg (fun hx => hb (requestDuplicated_iff.mp hx.2))]
  simp only [if_pos hget, (applyToStateMachine_frame kv op _).1]

/-- An operation changes the map of a shard that is served, and the table. -/
theorem applyClientOperation_frame (kv : ShardKV) (gid : Gid) (op : Op) :
    (kv.applyClientOperation gid op).1.currentConfig = kv.currentConfig ∧
    (kv.applyClientOperation gid op).1.prevConfig = kv.prevConfig ∧
    ∀ s, (kv.applyClientOperation gid op).1.status s = kv.status s ∧
      (kv.serves gid s = false → (kv.applyClientOperation gid op).1.shards s = kv.shards s) := by
  by_cases h : Executes kv gid op
  · obtain ⟨-, hcur, hprev⟩ := applyToStateMachine_frame kv op (key2shard op.key)
    obtain ⟨m, hm⟩ := applyToStateMachine_shards kv op (key2shard op.key)
    rw [applyClientOperation_run h]
    refine ⟨hcur, hprev, fun s => ?_⟩
    simp only [status, hm]
    rcases eq_or_ne s (key2shard op.key) with rfl | hs
    · rw [Function.update_self]
      exact ⟨rfl, fun hno => absurd h.1 (by rw [matchGroup, hno]; decide)⟩
    · rw [Function.update_of_ne hs]; exact ⟨rfl, fun _ => rfl⟩
  · rw [applyClientOperation_skip h]; exact ⟨rfl, rfl, fun _ => ⟨rfl, fun _ => rfl⟩⟩

theorem le_applyClientOperation (kv : ShardKV) (gid : Gid) (op : Op) : Le LastOperationInfo.seqId
    kv.duplicateTable (kv.applyClientOperation gid op).1.duplicateTable := by
  by_cases h : Executes kv gid op
  · rw [applyClientOperation_run h]; exact le_record h.2.2
  · rw [applyClientOperation_skip h]; exact Le.refl _

theorem blocks_applyClientOperation (h : Executes kv gid op) : Blocks LastOperationInfo.seqId
    (kv.applyClientOperation gid op).1.duplicateTable op.clientId op.seqId := by
  rw [applyClientOperation_run h]; exact blocks_record _ _ _

/-! ### Commands -/

/-- Every command leads to a later state. -/
theorem later_applyCommand (kv : ShardKV) (gid : Gid) (order : ShardOrder) (command : RaftCommand) :
    Later kv (kv.applyCommand gid order command).1 := by
  cases command with
  | clientOperation op =>
    obtain ⟨hcur, -, hsh⟩ := applyClientOperation_frame kv gid op
    refine ⟨le_of_eq (congrArg Config.num hcur.symm), le_applyClientOperation kv gid op,
      fun _ s => ?_⟩
    obtain ⟨hst, hsame⟩ := hsh s
    refine ⟨fun h => hst.symm.trans h, fun h => ?_, fun h => hst.trans h⟩
    have hout : kv.status s = .moveOut := hst.symm.trans h
    refine ⟨hout, congrArg _ (hsame (Bool.eq_false_iff.mpr fun hserve => ?_))⟩
    rcases (serves_iff.mp hserve).2 with hn | hn <;> rw [hout] at hn <;> cases hn
  | configChange newConfig =>
    simp only [applyCommand, applyNewConfig]
    split_ifs with h
    · have hnum : (kv.enterConfig gid newConfig).num = kv.num + 1 := h.symm
      dsimp only
      exact ⟨by omega, Le.refl _, fun heq => by omega⟩
    · exact Later.refl _
  | shardMigration reply =>
    simp only [applyCommand, applyShardMigration]
    split_ifs
    · exact ⟨le_refl _, fun k n hb => blocks_merge.mpr (Or.inl hb), fun _ s =>
        progress_migrateShards _ _ _ _⟩
    · exact Later.refl _
  | shardGC args =>
    simp only [applyCommand, applyShardGC]
    split_ifs
    · exact ⟨le_refl _, Le.refl _, fun _ s => progress_collectShards _ _ _⟩
    · exact Later.refl _

/-- The configuration number goes up by one, or stays. -/
theorem num_applyCommand_le (kv : ShardKV) (gid : Gid) (order : ShardOrder) (command : RaftCommand) :
    (kv.applyCommand gid order command).1.num ≤ kv.num + 1 := by
  cases command with
  | clientOperation op =>
    exact le_trans (le_of_eq (congrArg Config.num (applyClientOperation_frame kv gid op).1))
      (Nat.le_succ _)
  | configChange newConfig =>
    simp only [applyCommand, applyNewConfig]
    split_ifs with h
    · exact le_of_eq h.symm
    · exact Nat.le_succ _
  | shardMigration reply =>
    simp only [applyCommand, applyShardMigration]
    split_ifs <;> exact Nat.le_succ _
  | shardGC args =>
    simp only [applyCommand, applyShardGC]
    split_ifs <;> exact Nat.le_succ _

end ShardKV

end GoServices.ShardKv
