import GoServices.Kv.Server
import GoServices.Schemes.Runs

/-! Every replica's state is a replay of the log.

    `replay L` is the state after all of `L`. Replicas receive the log in order, receive some
    commands again, jump to snapshots that any replica made, and restart from them; whatever the
    mixture, a replica that a message has brought to index `i` holds `replay (L.take i)`. -/

namespace GoServices.KvRaft

open Dedup Runs

/-! ### Replaying a log -/

/-- The store after the commands of a log. -/
def replay (L : List Op) : Store := L.foldl (fun st op => (st.applyOp op).1) Store.new

theorem replay_succ {L : List Op} {i : ℕ} {op : Op} (h : L[i]? = some op) :
    replay (L.take (i + 1)) = ((replay (L.take i)).applyOp op).1 := by
  rw [List.take_add_one, h, Option.toList_some, replay, List.foldl_append]
  rfl

theorem replay_of_length_le {L : List Op} {i : ℕ} (h : L.length ≤ i) :
    replay (L.take (i + 1)) = replay (L.take i) := by
  rw [List.take_of_length_le h, List.take_of_length_le (by omega)]

/-- Position `i` of the log (counted from 0) runs its write `op`. -/
def RunsAt (L : List Op) (i : ℕ) (op : Op) : Prop := L[i]? = some op ∧ (replay (L.take i)).Runs op

theorem le_replay (L : List Op) (i : ℕ) : Le LastOperationInfo.seqId
    (replay (L.take i)).duplicateTable (replay (L.take (i + 1))).duplicateTable := by
  cases h : L[i]? with
  | none => rw [replay_of_length_le (List.getElem?_eq_none_iff.mp h)]; exact Le.refl _
  | some op => rw [replay_succ h]; exact Store.le_applyOp

theorem RunsAt.blocks {L : List Op} {i : ℕ} {op : Op} (h : RunsAt L i op) :
    Blocks LastOperationInfo.seqId (replay (L.take (i + 1))).duplicateTable op.clientId op.seqId := by
  rw [replay_succ h.1]; exact Store.blocks_applyOp h.2.1

/-- A numbered write runs at most once. -/
theorem RunsAt.unique {L : List Op} {i j : ℕ} {op op' : Op} (h : RunsAt L i op)
    (h' : RunsAt L j op') (hc : op.clientId = op'.clientId) (hs : op.seqId = op'.seqId) : i = j := by
  refine at_most_once (le_replay L) h.2.2 h.blocks ?_ ?_
  · rw [hc, hs]; exact h'.2.2
  · rw [hc, hs]; exact h'.blocks

/-- What is not run leaves the state alone. -/
theorem replay_skip {L : List Op} {i : ℕ} {op : Op} (h : L[i]? = some op) (hn : ¬ RunsAt L i op) :
    replay (L.take (i + 1)) = replay (L.take i) := by
  rw [replay_succ h]; exact Store.applyOp_skip fun hr => hn ⟨h, hr⟩

/-- A table entry comes from a write that was run. -/
theorem exists_runsAt {L : List Op} {i : ℕ} {k n : ℤ}
    (h : Blocks LastOperationInfo.seqId (replay (L.take i)).duplicateTable k n) :
    ∃ j op, j < i ∧ RunsAt L j op ∧ op.clientId = k ∧ n ≤ op.seqId := by
  induction i with
  | zero => obtain ⟨v, hv, -⟩ := h; simp [replay, Store.new] at hv
  | succ i ih =>
    by_cases hb : Blocks LastOperationInfo.seqId (replay (L.take i)).duplicateTable k n
    · obtain ⟨j, op, hj, hrest⟩ := ih hb
      exact ⟨j, op, by omega, hrest⟩
    cases hop : L[i]? with
    | none =>
      rw [replay_of_length_le (List.getElem?_eq_none_iff.mp hop)] at h
      exact absurd h hb
    | some op =>
      by_cases hr : RunsAt L i op
      · rw [replay_succ hop, Store.applyOp_run hr.2] at h
        obtain ⟨v, hv, hn⟩ := h
        rcases eq_or_ne k op.clientId with rfl | hk
        · rw [Function.update_self, Option.some.injEq] at hv
          rw [← hv] at hn
          exact ⟨i, op, by omega, hr, rfl, hn⟩
        · rw [Function.update_of_ne hk] at hv
          exact absurd ⟨v, hv, hn⟩ hb
      · rw [replay_skip hop hr] at h
        exact absurd h hb

/-! ### Replicas -/

/-- A server with the index at which its message stream stands. -/
structure Replica where
  kv : KVServer
  stream : ℕ

/-- All replicas and the snapshots made so far, with their indexes. -/
structure Fleet (R B : Type) where
  replicas : R → Replica
  snapshots : List (ℕ × B)

/-- What can happen next to a replica. -/
inductive FleetAction (R : Type) where
  /-- the next command; `applyTask` may then find the Raft state too large and make a snapshot -/
  | deliver (r : R) (snap : Bool)
  | redeliver (r : R) (index : ℕ)
  | install (r : R) (k : ℕ)
  | restart (r : R) (k : Option ℕ)

/-- The replica that processes a message in this action. -/
def FleetAction.processedBy {R : Type} : FleetAction R → Option R
  | .deliver r _ | .redeliver r _ | .install r _ => some r
  | .restart _ _ => none

namespace Fleet

variable {R B : Type} [DecidableEq R] (cd : Codec B) (L : List Op)

/-- All replicas are empty. -/
def init : Fleet R B := ⟨fun _ => ⟨⟨0, Store.new⟩, 0⟩, []⟩

/-- The fleet with another state of replica `r`. -/
def put (f : Fleet R B) (r : R) (x : Replica) : Fleet R B :=
  { f with replicas := Function.update f.replicas r x }

/-- One delivery, snapshot installation or restart. -/
def step (f : Fleet R B) : FleetAction R → Option (Fleet R B)
  | .deliver r snap =>
    let x := f.replicas r
    (L[x.stream]?).bind fun op =>
      (x.kv.applyTask cd (.command (x.stream + 1) op)).map fun kv =>
        let f' := f.put r ⟨kv, x.stream + 1⟩
        if snap then { f' with snapshots := f.snapshots ++ [(x.stream + 1, kv.makeSnapshot cd)] }
        else f'
  | .redeliver r index =>
    let x := f.replicas r
    if 0 < index ∧ index ≤ x.kv.lastApplied then
      (L[index - 1]?).bind fun op =>
        (x.kv.applyTask cd (.command index op)).map fun kv => f.put r ⟨kv, x.stream⟩
    else none
  | .install r k =>
    (f.snapshots[k]?).bind fun (index, bytes) =>
      ((f.replicas r).kv.applyTask cd (.snapshot bytes index)).map fun kv => f.put r ⟨kv, index⟩
  | .restart r none => (KVServer.startKVServer cd cd.nil).map fun kv => f.put r ⟨kv, 0⟩
  | .restart r (some k) =>
    (f.snapshots[k]?).bind fun (index, bytes) =>
      (KVServer.startKVServer cd bytes).map fun kv => f.put r ⟨kv, index⟩

end Fleet

/-- A replica holds a replay; only right after a restart `lastApplied` says nothing. -/
structure ReplicaOk (L : List Op) (x : Replica) : Prop where
  store : x.kv.store = replay (L.take x.stream)
  applied : x.kv.lastApplied = x.stream ∨ x.kv.lastApplied = 0

/-- The bytes decode to the replay up to their index. -/
def SnapshotOk {B : Type} (cd : Codec B) (L : List Op) (snap : ℕ × B) : Prop :=
  ∃ kv : KVServer, snap.2 = kv.makeSnapshot cd ∧ kv.store = replay (L.take snap.1)

/-- Every replica and every snapshot is the replay of a part of the log. -/
structure FleetOk {R B : Type} (cd : Codec B) (L : List Op) (f : Fleet R B) : Prop where
  replicas : ∀ r, ReplicaOk L (f.replicas r)
  snapshots : ∀ snap ∈ f.snapshots, SnapshotOk cd L snap

section Replica

variable {B : Type} {cd : Codec B} {L : List Op} {x : Replica} {kv : KVServer}

/-- The next command brings a replica to the next replay. -/
theorem ReplicaOk.deliver (h : ReplicaOk L x) {op : Op} (hop : L[x.stream]? = some op)
    (hkv : x.kv.applyTask cd (.command (x.stream + 1) op) = some kv) :
    kv.lastApplied = x.stream + 1 ∧ kv.store = replay (L.take (x.stream + 1)) := by
  have hnew : ¬ x.stream + 1 ≤ x.kv.lastApplied := by rcases h.applied with h | h <;> omega
  rw [KVServer.applyTask, if_neg hnew, Option.some.injEq] at hkv
  rw [← hkv, replay_succ hop, h.store]
  exact ⟨rfl, rfl⟩

/-- A snapshot brings a replica to the replay up to its index, from wherever it was. -/
theorem SnapshotOk.install {index : ℕ} {bytes : B} (h : SnapshotOk cd L (index, bytes))
    (hkv : x.kv.applyTask cd (.snapshot bytes index) = some kv) :
    kv.lastApplied = index ∧ kv.store = replay (L.take index) := by
  obtain ⟨kv', rfl, hst⟩ := h
  rw [KVServer.applyTask, KVServer.restore_makeSnapshot, Option.map_some, Option.some.injEq] at hkv
  rw [← hkv]
  exact ⟨rfl, hst⟩

theorem SnapshotOk.start {index : ℕ} {bytes : B} (h : SnapshotOk cd L (index, bytes))
    (hkv : KVServer.startKVServer cd bytes = some kv) :
    kv.lastApplied = 0 ∧ kv.store = replay (L.take index) := by
  obtain ⟨kv', rfl, hst⟩ := h
  rw [KVServer.startKVServer, KVServer.restore_makeSnapshot, Option.some.injEq] at hkv
  rw [← hkv]
  exact ⟨rfl, hst⟩

end Replica

section Fleet

variable {R B : Type} [DecidableEq R] {cd : Codec B} {L : List Op} {f f' : Fleet R B}

theorem FleetOk.put (h : FleetOk cd L f) {r : R} {x : Replica} (hx : ReplicaOk L x) :
    FleetOk cd L (f.put r x) := by
  refine ⟨fun q => ?_, h.snapshots⟩
  show ReplicaOk L (Function.update f.replicas r x q)
  rcases eq_or_ne q r with rfl | hq
  · rw [Function.update_self]; exact hx
  · rw [Function.update_of_ne hq]; exact h.replicas q

/-- One step keeps the invariant, and a processed message leaves `lastApplied` meaningful. -/
theorem FleetOk.step (h : FleetOk cd L f) {act : FleetAction R} (hs : f.step cd L act = some f') :
    FleetOk cd L f' ∧ ∀ r, act.processedBy = some r →
      (f'.replicas r).kv.lastApplied = (f'.replicas r).stream := by
  cases act with
  | deliver r snap =>
    obtain ⟨op, hop, hs⟩ := Option.bind_eq_some_iff.mp hs
    obtain ⟨kv, hkv, hs⟩ := Option.map_eq_some_iff.mp hs
    obtain ⟨happ, hst⟩ := (h.replicas r).deliver hop hkv
    have hput := h.put (r := r) (x := ⟨kv, (f.replicas r).stream + 1⟩) ⟨hst, Or.inl happ⟩
    have hself : ((f.put r ⟨kv, (f.replicas r).stream + 1⟩).replicas r) =
        ⟨kv, (f.replicas r).stream + 1⟩ := Function.update_self _ _ _
    dsimp only at hs
    split_ifs at hs with hsnap
    · subst hs
      refine ⟨⟨hput.replicas, fun snap hmem => ?_⟩, fun q hq => ?_⟩
      · rcases List.mem_append.mp hmem with hold | hnew
        · exact h.snapshots snap hold
        · rw [List.mem_singleton.mp hnew]
          exact ⟨kv, rfl, hst⟩
      · obtain rfl := Option.some.inj hq
        dsimp only
        rw [hself]; exact happ
    · subst hs
      refine ⟨hput, fun q hq => ?_⟩
      obtain rfl := Option.some.inj hq
      rw [hself]; exact happ
  | redeliver r index =>
    simp only [Fleet.step] at hs
    split_ifs at hs with hidx
    obtain ⟨op, -, hs⟩ := Option.bind_eq_some_iff.mp hs
    obtain ⟨kv, hkv, rfl⟩ := Option.map_eq_some_iff.mp hs
    rw [KVServer.applyTask, if_pos hidx.2, Option.some.injEq] at hkv
    subst hkv
    refine ⟨h.put (h.replicas r), fun q hq => ?_⟩
    obtain rfl := Option.some.inj hq
    rw [show (f.put r ⟨(f.replicas r).kv, (f.replicas r).stream⟩).replicas r = f.replicas r from
      Function.update_self _ _ _]
    exact (h.replicas r).applied.resolve_right (by omega)
  | install r k =>
    obtain ⟨⟨index, bytes⟩, hk, hs⟩ := Option.bind_eq_some_iff.mp hs
    obtain ⟨kv, hkv, rfl⟩ := Option.map_eq_some_iff.mp hs
    obtain ⟨happ, hst⟩ := (h.snapshots _ (List.mem_of_getElem? hk)).install hkv
    refine ⟨h.put ⟨hst, Or.inl happ⟩, fun q hq => ?_⟩
    obtain rfl := Option.some.inj hq
    rw [show (f.put r ⟨kv, index⟩).replicas r = ⟨kv, index⟩ from Function.update_self _ _ _]
    exact happ
  | restart r k =>
    refine ⟨?_, fun q hq => absurd hq (by simp [FleetAction.processedBy])⟩
    cases k with
    | none =>
      obtain ⟨kv, hkv, rfl⟩ := Option.map_eq_some_iff.mp hs
      rw [KVServer.startKVServer, KVServer.restore_nil, Option.some.injEq] at hkv
      exact h.put ⟨by rw [← hkv]; rfl, Or.inr (by rw [← hkv])⟩
    | some k =>
      obtain ⟨⟨index, bytes⟩, hk, hs⟩ := Option.bind_eq_some_iff.mp hs
      obtain ⟨kv, hkv, rfl⟩ := Option.map_eq_some_iff.mp hs
      obtain ⟨happ, hst⟩ := (h.snapshots _ (List.mem_of_getElem? hk)).start hkv
      exact h.put ⟨hst, Or.inr happ⟩

theorem fleetOk_run {acts : List (FleetAction R)}
    (hf : Run (Fleet.step cd L) Any Fleet.init acts f) : FleetOk cd L f :=
  hf.preserves (I := FleetOk cd L) (fun _ _ _ h _ hs => (h.step hs).1)
    ⟨fun _ => ⟨rfl, Or.inl rfl⟩, fun snap hmem => by simp [Fleet.init] at hmem⟩

/-- After every message a replica holds the replay of the log up to its index, and in a replay
    every numbered write runs at most once. -/
theorem replica_refines_log {acts : List (FleetAction R)} {act : FleetAction R} {r : R}
    (hf : Run (Fleet.step cd L) Any Fleet.init acts f) (hs : f.step cd L act = some f')
    (hr : act.processedBy = some r) :
    (f'.replicas r).kv.store = replay (L.take (f'.replicas r).kv.lastApplied) ∧
    (∀ i op, L[i]? = some op → ¬ RunsAt L i op → replay (L.take (i + 1)) = replay (L.take i)) ∧
    ∀ i j op op', RunsAt L i op → RunsAt L j op' → op.clientId = op'.clientId →
      op.seqId = op'.seqId → i = j := by
  obtain ⟨hok, happ⟩ := (fleetOk_run hf).step hs
  refine ⟨?_, fun i op => replay_skip, fun i j op op' => RunsAt.unique⟩
  rw [happ r hr]
  exact (hok.replicas r).store

end Fleet

/-- Snapshots as values: the empty one, or a state. -/
def plainCodec : Codec (Option Store) where
  encode := some
  decode := id
  isEmpty := Option.isNone
  nil := none
  decode_encode := fun _ => rfl
  encode_nonempty := fun _ => rfl
  nil_empty := rfl

/-- A write and a retry of the same request. -/
def retried : List Op := [⟨"k", "x", .opAppend, 1, 0⟩, ⟨"k", "x", .opAppend, 1, 0⟩]

/-- One replica makes a snapshot at 1 and reads on; another, restarted from it, reads from 2 on. -/
theorem replica_refines_log_restarted : ∃ f f' : Fleet Bool (Option Store),
    Run (Fleet.step plainCodec retried) Any Fleet.init
      [.deliver false true, .deliver false false, .restart true (some 0)] f ∧
    f.step plainCodec retried (.deliver true false) = some f' ∧
    (f'.replicas true).kv.lastApplied = 2 ∧ (f'.replicas true).kv.store = replay retried := by
  obtain ⟨f, hf, hq⟩ := exists_run (Fleet.step plainCodec retried) Any Fleet.init
    [.deliver false true, .deliver false false, .restart true (some 0)]
    (fun f : Fleet Bool (Option Store) => (f.step plainCodec retried (.deliver true false)).any
      fun f' => (f'.replicas true).kv.lastApplied == 2) (by decide +kernel)
  cases hs : f.step plainCodec retried (.deliver true false) with
  | none => rw [hs] at hq; exact absurd hq (by simp)
  | some f' =>
    rw [hs, Option.any_some, beq_iff_eq] at hq
    have hst := (replica_refines_log hf hs rfl).1
    rw [hq] at hst
    exact ⟨f, f', hf, hs, hq, hst⟩

end GoServices.KvRaft
