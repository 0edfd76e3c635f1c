import GoServices.Schemes.Dedup

/-! The replicated key/value server (`kvraft`): its state machine, the deduplication table, the
    body of `applyTask`, and snapshots.

    Go maps are functions to `Option`. The bytes of a snapshot are an opaque type with a codec:
    gob is taken to be invertible and to produce at least one byte. -/

namespace GoServices.KvRaft

open Dedup

/-- The errors of the key/value servers. -/
inductive Err where | ok | errNoKey | errWrongLeader | errTimeout
  deriving DecidableEq

/-- What a command does. -/
inductive OperationType where | opGet | opPut | opAppend
  deriving DecidableEq

/-- The `Op` field of a request; any other text panics. -/
def getOperationType (v : String) : Option OperationType :=
  if v = "Put" then some .opPut else if v = "Append" then some .opAppend else none

/-- A command as it stands in the log. -/
structure Op where
  key : String
  value : String
  opType : OperationType
  clientId : ℤ
  seqId : ℤ
  deriving DecidableEq

/-- The answer to a command. -/
structure OpReply where
  value : String
  err : Err
  deriving DecidableEq

/-- What the duplicate table keeps of a client: its last number and answer. -/
structure LastOperationInfo where
  seqId : ℤ
  reply : OpReply
  deriving DecidableEq

/-- The map from keys to values. -/
structure MemoryKVStateMachine where
  kv : String → Option String

namespace MemoryKVStateMachine

/-- The empty map. -/
def new : MemoryKVStateMachine := ⟨fun _ => none⟩

/-- The value of a key; a missing key is an error. -/
def get (mkv : MemoryKVStateMachine) (key : String) : String × Err :=
  match mkv.kv key with
  | some value => (value, .ok)
  | none => ("", .errNoKey)

/-- Sets the value of a key. -/
def put (mkv : MemoryKVStateMachine) (key value : String) : MemoryKVStateMachine × Err :=
  (⟨Function.update mkv.kv key (some value)⟩, .ok)

/-- Extends the value of a key; a missing key counts as empty. -/
def append (mkv : MemoryKVStateMachine) (key value : String) : MemoryKVStateMachine × Err :=
  (⟨Function.update mkv.kv key (some ((mkv.kv key).getD "" ++ value))⟩, .ok)

end MemoryKVStateMachine

/-- What a snapshot holds: the key/value map and the deduplication table. -/
structure Store where
  stateMachine : MemoryKVStateMachine
  duplicateTable : ℤ → Option LastOperationInfo

namespace Store

/-- No values and no clients. -/
def new : Store := ⟨MemoryKVStateMachine.new, fun _ => none⟩

/-- Whether this number of the client, or a later one, has been executed. -/
def requestDuplicated (st : Store) (clientId seqId : ℤ) : Bool :=
  match st.duplicateTable clientId with
  | some info => decide (seqId ≤ info.seqId)
  | none => false

/-- Executes a command. -/
def applyToStateMachine (st : Store) (op : Op) : Store × OpReply :=
  match op.opType with
  | .opGet =>
    let (value, err) := st.stateMachine.get op.key
    (st, ⟨value, err⟩)
  | .opPut =>
    let (sm, err) := st.stateMachine.put op.key op.value
    ({ st with stateMachine := sm }, ⟨"", err⟩)
  | .opAppend =>
    let (sm, err) := st.stateMachine.append op.key op.value
    ({ st with stateMachine := sm }, ⟨"", err⟩)

/-- What `applyTask` does with a new command: skip a duplicate, otherwise run and record it. -/
def applyOp (st : Store) (op : Op) : Store × OpReply :=
  if op.opType ≠ .opGet ∧ st.requestDuplicated op.clientId op.seqId = true then
    (st, ((st.duplicateTable op.clientId).map LastOperationInfo.reply).getD ⟨"", .ok⟩)
  else
    let (st', opReply) := st.applyToStateMachine op
    if op.opType ≠ .opGet then
      ({ st' with duplicateTable :=
          Function.update st'.duplicateTable op.clientId (some ⟨op.seqId, opReply⟩) }, opReply)
    else (st', opReply)

end Store

/-- The bytes of snapshots, with gob's two directions and the test `len(snapshot) == 0`. -/
structure Codec (B : Type) where
  encode : Store → B
  decode : B → Option Store
  isEmpty : B → Bool
  nil : B
  decode_encode : ∀ st, decode (encode st) = some st
  encode_nonempty : ∀ st, isEmpty (encode st) = false
  nil_empty : isEmpty nil = true

/-- A message from Raft. -/
inductive Message (B : Type) where
  | command (index : ℕ) (op : Op)
  | snapshot (bytes : B) (index : ℕ)

/-- The variables of a server that depend on the log. -/
structure KVServer where
  lastApplied : ℕ
  store : Store

namespace KVServer

variable {B : Type} (cd : Codec B)

/-- `restoreFromSnapshot`; a decoding error panics. -/
def restoreFromSnapshot (kv : KVServer) (snapshot : B) : Option KVServer :=
  if cd.isEmpty snapshot then some kv
  else (cd.decode snapshot).map fun st => { kv with store := st }

/-- A server that starts from a snapshot. -/
def startKVServer (snapshot : B) : Option KVServer :=
  restoreFromSnapshot cd ⟨0, Store.new⟩ snapshot

/-- One message processed by `applyTask`. -/
def applyTask (kv : KVServer) : Message B → Option KVServer
  | .command index op =>
    if index ≤ kv.lastApplied then some kv
    else some ⟨index, (kv.store.applyOp op).1⟩
  | .snapshot snapshot index =>
    (kv.restoreFromSnapshot cd snapshot).map fun kv' => { kv' with lastApplied := index }

/-- The encoded store. -/
def makeSnapshot (kv : KVServer) : B := cd.encode kv.store

variable {cd}

/-- Restoring what `makeSnapshot` wrote brings back the state. -/
theorem restore_makeSnapshot (kv kv' : KVServer) :
    kv.restoreFromSnapshot cd (kv'.makeSnapshot cd) = some { kv with store := kv'.store } := by
  rw [restoreFromSnapshot, makeSnapshot, cd.encode_nonempty, cd.decode_encode]
  rfl

theorem restore_nil (kv : KVServer) : kv.restoreFromSnapshot cd cd.nil = some kv := by
  rw [restoreFromSnapshot, if_pos cd.nil_empty]

end KVServer

/-! ### What one command does -/

namespace Store

variable (st : Store) (op : Op)

/-- The command is run, not answered from the table. -/
def Runs : Prop := op.opType ≠ .opGet ∧ ¬ Blocks LastOperationInfo.seqId st.duplicateTable op.clientId op.seqId

variable {st op}

theorem requestDuplicated_iff {clientId seqId : ℤ} : st.requestDuplicated clientId seqId = true ↔
    Blocks LastOperationInfo.seqId st.duplicateTable clientId seqId := by
  unfold requestDuplicated Blocks
  cases st.duplicateTable clientId with
  | none => simp
  | some info => simp

theorem applyToStateMachine_table : (st.applyToStateMachine op).1.duplicateTable = st.duplicateTable := by
  unfold applyToStateMachine; split <;> rfl

/-- A command that is not run changes nothing. -/
theorem applyOp_skip (h : ¬ Runs st op) : (st.applyOp op).1 = st := by
  unfold applyOp
  by_cases hget : op.opType = .opGet
  · rw [if_neg (fun hx => hx.1 hget)]
    simp only [hget, ne_eq, not_true_eq_false, if_false]
    rw [applyToStateMachine, hget]
  · have hb : st.requestDuplicated op.clientId op.seqId = true := by
      rw [requestDuplicated_iff]
      by_contra hx
      exact h ⟨hget, hx⟩
    rw [if_pos ⟨hget, hb⟩]

/-- A `Get` answers from the map. -/
theorem applyOp_get (h : op.opType = .opGet) : ((st.applyOp op).2.value, (st.applyOp op).2.err) =
    st.stateMachine.get op.key := by
  unfold applyOp
  rw [if_neg (fun hx => hx.1 h)]
  simp only [h, ne_eq, not_true_eq_false, if_false]
  rw [applyToStateMachine, h]

/-- A command that is run is recorded. -/
theorem applyOp_run (h : Runs st op) : (st.applyOp op).1.duplicateTable =
    Function.update st.duplicateTable op.clientId (some ⟨op.seqId, (st.applyToStateMachine op).2⟩) := by
  unfold applyOp
  rw [if_neg (fun hx => h.2 (requestDuplicated_iff.mp hx.2))]
  simp only [if_pos h.1, applyToStateMachine_table]

theorem le_applyOp : Le LastOperationInfo.seqId st.duplicateTable (st.applyOp op).1.duplicateTable := by
  by_cases h : Runs st op
  · rw [applyOp_run h]; exact le_record h.2
  · rw [applyOp_skip h]; exact Le.refl _

/-- Afterwards every write of the command is in the table. -/
theorem blocks_applyOp (hget : op.opType ≠ .opGet) :
    Blocks LastOperationInfo.seqId (st.applyOp op).1.duplicateTable op.clientId op.seqId := by
  by_cases h : Runs st op
  · rw [applyOp_run h]; exact blocks_record _ _ _
  · have hb : Blocks LastOperationInfo.seqId st.duplicateTable op.clientId op.seqId := by
      by_contra hx
      exact h ⟨hget, hx⟩
    exact le_applyOp _ _ hb

end Store

end GoServices.KvRaft
