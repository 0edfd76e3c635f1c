import GoServices.Porcupine.Checker
import Mathlib.Data.List.Dedup
import Mathlib.Data.List.Sort
import Mathlib.Data.String.Basic

/-! The model of a key/value store (`models/kv.go`). It knows the value of one key, and a history is
    split by keys before it is checked. -/

namespace GoServices.Porcupine

/-- A request of a client: 0 is a get, 1 a put, all other numbers an append. -/
structure KvInput where
  op : UInt8
  key : String
  value : String

/-- The answer of a key/value operation. -/
structure KvOutput where
  value : String

/-- An operation on the key/value store. -/
abbrev KvOperation := Operation KvInput KvOutput

namespace KvModel

/-- The key that an operation works on. -/
def key (v : KvOperation) : String := v.input.key

/-- The map from keys to operations, in the order of the history. -/
def byKey (history : List KvOperation) : String → List KvOperation :=
  history.foldl (fun m v => Function.update m (key v) (m (key v) ++ [v])) fun _ => []

/-- The keys of the map, sorted. -/
def keys (history : List KvOperation) : List String :=
  (history.map key).dedup.insertionSort (· ≤ ·)

/-- The operations by key, the keys in the order of a map. -/
def partition (history : List KvOperation) : List (List KvOperation) :=
  (keys history).map (byKey history)

/-- A get must return the value, a put replaces it and an append extends it. -/
def step (st : String) (inp : KvInput) (out : KvOutput) : Bool × String :=
  if inp.op = 0 then (out.value = st, st)
  else if inp.op = 1 then (true, inp.value)
  else (true, st ++ inp.value)

end KvModel

/-- The model of the key/value store, one register for each key. -/
def kvModel : Model KvInput KvOutput String where
  partition := some KvModel.partition
  partitionEvent := none
  init := ""
  step := KvModel.step
  equal := none

end GoServices.Porcupine
