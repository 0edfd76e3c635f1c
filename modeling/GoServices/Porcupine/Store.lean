import GoServices.Porcupine.Operations
import GoServices.Kv.Server

/-! The checker with the model of a key/value store (`models.KvModel`).

    The model knows only one key and is used for each key on its own. Its verdict is nevertheless
    about the whole store, with the state machine that the servers of `kvraft` replicate as its
    specification. -/

namespace GoServices.Porcupine

open KvRaft

/-- An operation on the store of a server: a get has to return the value there. -/
def storeStep (mkv : MemoryKVStateMachine) (v : KvOperation) : Option MemoryKVStateMachine :=
  if v.input.op = 0 then if (mkv.get v.input.key).1 = v.output.value then some mkv else none
  else if v.input.op = 1 then some (mkv.put v.input.key v.input.value).1
  else some (mkv.append v.input.key v.input.value).1

/-- A history that one store, asked for one operation after the other, could have produced. -/
def StoreLinearizable (history : List KvOperation) : Prop :=
  Locality.Linearizable Operation.call Operation.ret storeStep MemoryKVStateMachine.new history

/-- What the model keeps of a store: a missing key has the empty value. -/
def view (mkv : MemoryKVStateMachine) (key : String) : String := (mkv.kv key).getD ""

theorem get_eq_view (mkv : MemoryKVStateMachine) (key : String) : (mkv.get key).1 = view mkv key := by
  cases h : mkv.kv key <;> simp [MemoryKVStateMachine.get, view, h]

theorem view_put (mkv : MemoryKVStateMachine) (key value : String) :
    view (mkv.put key value).1 = Function.update (view mkv) key value := by
  funext k
  by_cases hk : k = key
  · subst hk
    simp [view, MemoryKVStateMachine.put]
  · simp [view, MemoryKVStateMachine.put, hk]

theorem view_append (mkv : MemoryKVStateMachine) (key value : String) :
    view (mkv.append key value).1 = Function.update (view mkv) key (view mkv key ++ value) :=
  view_put mkv key (view mkv key ++ value)

/-- The store does with an operation what the model does with the value of its key. -/
theorem map_view_storeStep (mkv : MemoryKVStateMachine) (v : KvOperation) :
    (storeStep mkv v).map view = Locality.stepAt KvModel.key
      (Operation.step (fillDefault kvModel)) (view mkv) v := by
  have hstep : (fillDefault kvModel).step = KvModel.step := rfl
  simp only [storeStep, Locality.stepAt, Operation.step, hstep, KvModel.step, get_eq_view, KvModel.key]
  by_cases hget : v.input.op = 0
  · by_cases hval : view mkv v.input.key = v.output.value
    · simp [hget, hval]
    · simp [hget, hval, Ne.symm hval]
  · by_cases hput : v.input.op = 1
    · simp [hput, view_put]
    · simp [hget, hput, view_append]

theorem isSome_foldlM_storeStep (order : List KvOperation) (mkv : MemoryKVStateMachine) :
    (order.foldlM storeStep mkv).isSome = (order.foldlM (Locality.stepAt
      KvModel.key (Operation.step (fillDefault kvModel))) (view mkv)).isSome := by
  induction order generalizing mkv with
  | nil => rfl
  | cons v order ih =>
    rw [List.foldlM_cons, List.foldlM_cons, ← map_view_storeStep]
    cases h : storeStep mkv v with
    | none => rfl
    | some mkv' => exact ih mkv'

/-- The map holds for each key its operations. -/
theorem byKey_eq (history : List KvOperation) (key : String) :
    KvModel.byKey history key = Locality.ofKey KvModel.key key history := by
  have hfold : ∀ m : String → List KvOperation,
      history.foldl (fun m v => Function.update m (KvModel.key v) (m (KvModel.key v) ++ [v])) m key =
        m key ++ Locality.ofKey KvModel.key key history := by
    induction history with
    | nil => simp [Locality.ofKey]
    | cons v history ih =>
      intro m
      rw [List.foldl_cons, ih]
      by_cases hk : KvModel.key v = key
      · subst hk
        simp [Locality.ofKey_cons_self]
      · rw [Locality.ofKey_cons_of_ne hk, Function.update_of_ne (Ne.symm hk)]
  exact (hfold fun _ => []).trans (List.nil_append _)

theorem mem_keys {history : List KvOperation} {key : String} :
    key ∈ KvModel.keys history ↔ ∃ v ∈ history, KvModel.key v = key := by
  simp [KvModel.keys]

theorem time_of_partition {history : List KvOperation} (htime : ∀ v ∈ history, v.call ≤ v.ret) :
    ∀ ops ∈ (fillDefault kvModel).partition history, ∀ v ∈ ops, v.call ≤ v.ret := by
  intro ops hops v hv
  obtain ⟨key, -, rfl⟩ := List.mem_map.mp hops
  rw [byKey_eq] at hv
  exact htime v (Locality.mem_ofKey.mp hv).1

theorem partition_ne_nil {history : List KvOperation} (h : history ≠ []) :
    (fillDefault kvModel).partition history ≠ [] := by
  obtain ⟨v, hv⟩ := List.exists_mem_of_ne_nil history h
  have hkey : KvModel.key v ∈ KvModel.keys history := mem_keys.mpr ⟨v, hv, rfl⟩
  exact List.ne_nil_of_mem (List.mem_map_of_mem hkey)

/-- All partitions are linearizable exactly if the history is, for the whole store. -/
theorem forall_partition_iff {history : List KvOperation} (htime : ∀ v ∈ history, v.call ≤ v.ret) :
    (∀ ops ∈ (fillDefault kvModel).partition history, OpsLinearizable (fillDefault kvModel) ops) ↔
      StoreLinearizable history := by
  have hlocal : Locality.Linearizable Operation.call Operation.ret
        (Locality.stepAt KvModel.key (Operation.step (fillDefault kvModel)))
        (view MemoryKVStateMachine.new) history ↔
      ∀ key, OpsLinearizable (fillDefault kvModel) (Locality.ofKey KvModel.key key history) :=
    Locality.linearizable_iff_forall_key htime
  have hstore : StoreLinearizable history ↔ Locality.Linearizable Operation.call Operation.ret
      (Locality.stepAt KvModel.key (Operation.step (fillDefault kvModel)))
      (view MemoryKVStateMachine.new) history := by
    simp only [StoreLinearizable, Locality.Linearizable, isSome_foldlM_storeStep]
  rw [hstore, hlocal]
  show (∀ ops ∈ (KvModel.keys history).map (KvModel.byKey history), _) ↔ _
  rw [List.forall_mem_map]
  constructor
  · intro h key
    by_cases hkey : key ∈ KvModel.keys history
    · rw [← byKey_eq]
      exact h key hkey
    · -- a key without operations
      have hnil : Locality.ofKey KvModel.key key history = [] := by
        rw [Locality.ofKey, List.filter_eq_nil_iff]
        intro v hv heq
        exact hkey (mem_keys.mpr ⟨v, hv, of_decide_eq_true heq⟩)
      rw [hnil]
      exact ⟨[], .nil, .nil, rfl⟩
  · intro h key hkey
    rw [byKey_eq]
    exact h key

/-- The verdict on a history of the key/value store is about the whole store, whatever the order of
    events in the checker: `Ok` means that the history is linearizable, `Illegal` that it is not, and
    `Unknown` comes only from a timeout. -/
theorem kvModel_verdict (sorter : Sorter KvInput KvOutput) {history : List KvOperation}
    (htime : ∀ v ∈ history, v.call ≤ v.ret) {computeInfo hasTimeout : Bool} {as : List PoolAction}
    {p : Pool KvInput KvOutput String}
    (hr : Runs.Run (Pool.step (fillDefault kvModel) computeInfo hasTimeout) Runs.Any
      (checkOperations sorter kvModel history) as p)
    {res : CheckResult} {info : List (List (List ℕ))} (hdone : p.phase = .done res info) :
    (res = .ok → StoreLinearizable history) ∧ (res = .illegal → ¬ StoreLinearizable history) ∧
      (res = .unknown → hasTimeout = true) := by
  rw [← forall_partition_iff htime]
  exact result_of_run sorter (congruent_fillDefault rfl) (time_of_partition htime) hr hdone

/-- A get that overlaps a put and returns the new value, and a get after both with the old value. -/
theorem kvModel_verdict_stale :
    let history : List KvOperation := [⟨0, ⟨1, "x", "1"⟩, 0, ⟨""⟩, 5⟩, ⟨1, ⟨0, "x", ""⟩, 1, ⟨"1"⟩, 2⟩,
      ⟨1, ⟨0, "x", ""⟩, 3, ⟨""⟩, 4⟩]
    ∃ as p info, Runs.Run (Pool.step (fillDefault kvModel) false false) Runs.Any
      (checkOperations (insertionSorter KvInput KvOutput) kvModel history) as p ∧
      p.phase = .done .illegal info ∧ ¬ StoreLinearizable history := by
  intro history
  obtain ⟨p, hr, hp⟩ := Runs.exists_run (Pool.step (fillDefault kvModel) false false) Runs.Any
    (checkOperations (insertionSorter KvInput KvOutput) kvModel history)
    (List.replicate 8 (.worker 0) ++ [.receive, .finish []])
    (Pool.hasResult .illegal) (by decide +kernel)
  obtain ⟨info, hdone⟩ := Pool.hasResult_iff.mp hp
  exact ⟨_, p, info, hr, hdone, (kvModel_verdict _ (by decide) hr hdone).2.1 rfl⟩

end GoServices.Porcupine
