import GoServices.Schemes.Links
import GoServices.Porcupine.Bitset
import Mathlib.Data.Int.Notation

/-! The linearizability checker (`porcupine/checker.go`): the linked list of calls and returns, and
    the backtracking search over it.

    Nodes are numbers; what they hold never changes after they are made, while their pointers are
    the links. A nil pointer that is followed, an index out of range and a failed type assertion
    panic: `none`. What passes through `interface{}` is an input or an output. -/

namespace GoServices.Porcupine

variable {I O S : Type}

/-- One operation of a history, with the times of its call and of its return. -/
structure Operation (I O : Type) where
  clientId : ℤ
  input : I
  call : ℤ
  output : O
  ret : ℤ

/-- Whether an event is a call or a return. -/
inductive EventKind where | callEvent | returnEvent
  deriving DecidableEq

/-- One event of a history: the call of an operation or its return. -/
structure Event (I O : Type) where
  clientId : ℤ
  kind : EventKind
  value : I ⊕ O
  id : ℤ

/-- A model of the system under test; `none` is a function that is left nil. -/
structure Model (I O S : Type) where
  partition : Option (List (Operation I O) → List (List (Operation I O)))
  partitionEvent : Option (List (Event I O) → List (List (Event I O)))
  init : S
  step : S → I → O → Bool × S
  equal : Option (S → S → Bool)

/-- A model in which no function is nil. -/
structure FullModel (I O S : Type) where
  partition : List (Operation I O) → List (List (Operation I O))
  partitionEvent : List (Event I O) → List (List (Event I O))
  init : S
  step : S → I → O → Bool × S
  equal : S → S → Bool

/-- The default partition: the whole history. -/
def noPartition (history : List (Operation I O)) : List (List (Operation I O)) := [history]

/-- The default partition of a history of events. -/
def noPartitionEvent (history : List (Event I O)) : List (List (Event I O)) := [history]

/-- The default comparison of states. -/
def shallowEqual [DecidableEq S] (state1 state2 : S) : Bool := state1 = state2

/-- A model whose missing functions are replaced by the defaults. -/
def fillDefault [DecidableEq S] (model : Model I O S) : FullModel I O S where
  partition := model.partition.getD noPartition
  partitionEvent := model.partitionEvent.getD noPartitionEvent
  init := model.init
  step := model.step
  equal := model.equal.getD shallowEqual

/-- Whether an entry is a call or a return. -/
inductive EntryKind where | callEntry | returnEntry
  deriving DecidableEq

/-- What `checkSingle` works on: a call or a return of the operation `id`. -/
structure Entry (I O : Type) where
  kind : EntryKind
  value : I ⊕ O
  id : ℕ
  time : ℤ
  clientId : ℤ

/-- A pointer to a node: its number in the list of all nodes. -/
abbrev Ref := ℕ

/-- The fields of a node that are set when it is made; `matching` is nil for a return. -/
structure Node (I O : Type) where
  value : I ⊕ O
  matching : Option Ref
  id : ℕ

/-- Puts node `n` in front of node `mark`. -/
def insertBefore (l : Links Ref) (n : Ref) (mark : Option Ref) : Links Ref :=
  match mark with
  | none => l
  | some mark =>
    let beforeMark := l.prev mark
    let l := (l.setPrev mark (some n)).setNext n (some mark)
    match beforeMark with
    | none => l
    | some beforeMark => (l.setPrev n (some beforeMark)).setNext beforeMark (some n)

/-- The number of nodes from `n` on; no more than there are at all. -/
def length (l : Links Ref) : ℕ → Option Ref → ℕ
  | 0, _ => 0
  | _ + 1, none => 0
  | fuel + 1, some n => length l fuel (l.next n) + 1

/-- The variables of `makeLinkedEntries`. -/
structure Linking (I O : Type) where
  nodes : List (Node I O)
  links : Links Ref
  root : Option Ref
  matchOf : ℕ → Option Ref

namespace Linking

/-- No node yet. -/
def new : Linking I O := ⟨[], ⟨fun _ => none, fun _ => none⟩, none, fun _ => none⟩

/-- One round of the loop of `makeLinkedEntries`. -/
def add (elem : Entry I O) (k : Linking I O) : Linking I O :=
  let entry := k.nodes.length
  match elem.kind with
  | .returnEntry =>
    { nodes := k.nodes ++ [⟨elem.value, none, elem.id⟩]
      links := insertBefore k.links entry k.root
      root := some entry
      matchOf := Function.update k.matchOf elem.id (some entry) }
  | .callEntry =>
    { nodes := k.nodes ++ [⟨elem.value, k.matchOf elem.id, elem.id⟩]
      links := insertBefore k.links entry k.root
      root := some entry
      matchOf := k.matchOf }

end Linking

/-- The list is built from its end. -/
def makeLinkedEntries (entries : List (Entry I O)) : Linking I O := entries.foldr Linking.add .new

/-- A set of linearized operations and the state they lead to. -/
structure CacheEntry (S : Type) where
  linearized : Bitset
  state : S

/-- Whether the cache has an entry that the model takes for the same. -/
def cacheContains (model : FullModel I O S) (cache : BitVec 64 → List (CacheEntry S))
    (entry : CacheEntry S) : Bool :=
  (cache entry.linearized.hash).any fun elem =>
    entry.linearized.equals elem.linearized && model.equal entry.state elem.state

/-- A linearized call and the state before it. -/
structure CallsEntry (S : Type) where
  entry : Ref
  state : S

/-- Takes a call and its return out of the list; a missing neighbour panics. -/
def lift (nodes : List (Node I O)) (l : Links Ref) (entry : Ref) : Option (Links Ref) := do
  let prev ← l.prev entry
  let l := l.setNext prev (l.next entry)
  let next ← l.next entry
  let l := l.setPrev next (l.prev entry)
  let node ← nodes[entry]?
  let matching ← node.matching
  let prev ← l.prev matching
  let l := l.setNext prev (l.next matching)
  match l.next matching with
  | some next => some (l.setPrev next (l.prev matching))
  | none => some l

/-- Puts a call and its return back, in the reverse order. -/
def unlift (nodes : List (Node I O)) (l : Links Ref) (entry : Ref) : Option (Links Ref) := do
  let node ← nodes[entry]?
  let matching ← node.matching
  let prev ← l.prev matching
  let l := l.setNext prev (some matching)
  let l := match l.next matching with
    | some next => l.setPrev next (some matching)
    | none => l
  let prev ← l.prev entry
  let l := l.setNext prev (some entry)
  let next ← l.next entry
  some (l.setPrev next (some entry))

/-- The variables of `checkSingle`. A sequence of ids is made once and pointed to from `longest`. -/
structure Frame (I O S : Type) where
  nodes : List (Node I O)
  headEntry : Ref
  entry : Option Ref
  links : Links Ref
  linearized : Bitset
  cache : BitVec 64 → List (CacheEntry S)
  calls : List (CallsEntry S)
  state : S
  longest : List (Option ℕ)
  seqs : List (List ℕ)

namespace Frame

/-- The operations on the stack. -/
def callIds (f : Frame I O S) : List ℕ :=
  f.calls.filterMap fun v => f.nodes[v.entry]?.map Node.id

/-- Point to the new sequence `p`, of length `callsLen`, if what is there is shorter. -/
def recordOne (seqs : List (List ℕ)) (p callsLen : ℕ) (longest : List (Option ℕ)) (id : ℕ) :
    Option (List (Option ℕ)) := do
  let old ← longest[id]?
  match old with
  | none => some (longest.set id (some p))
  | some q =>
    let seq ← seqs[q]?
    if callsLen > seq.length then some (longest.set id (some p)) else some longest

/-- Point to the order on the stack wherever it is longer than what was found before. -/
def recordLongest (f : Frame I O S) : Option (Frame I O S) := do
  let seqs := f.seqs ++ [f.callIds]
  let longest ← f.callIds.foldlM (recordOne seqs f.seqs.length f.calls.length) f.longest
  some { f with longest := longest, seqs := seqs }

/-- What is done with the longest sequences before a call is taken back. -/
def record (computePartial : Bool) (f : Frame I O S) : Option (Frame I O S) :=
  if computePartial then f.recordLongest else some f

end Frame

/-- Where `checkSingle` stands after a round of its loop. -/
inductive Turn (I O S : Type) where
  | returned (ok : Bool) (f : Frame I O S)
  | running (f : Frame I O S)

namespace Frame

/-- The search is over: every entry of `longest` becomes the order found. -/
def finish (f : Frame I O S) : Frame I O S :=
  { f with longest := f.longest.map fun _ => some f.seqs.length, seqs := f.seqs ++ [f.callIds] }

/-- A call: put its operation next into the order, if the model accepts it and this was not tried. -/
def tryCall (model : FullModel I O S) (f : Frame I O S) (entry : Ref) (node : Node I O)
    (matching : Ref) : Option (Frame I O S) := do
  let ret ← f.nodes[matching]?
  let input ← node.value.getLeft?
  let output ← ret.value.getRight?
  let (ok, newState) := model.step f.state input output
  if ok then
    let newLinearized ← f.linearized.set node.id
    let newCacheEntry : CacheEntry S := ⟨newLinearized, newState⟩
    if !cacheContains model f.cache newCacheEntry then
      let hash := newLinearized.hash
      let linearized ← f.linearized.set node.id
      let links ← lift f.nodes f.links entry
      some { f with
        cache := Function.update f.cache hash (f.cache hash ++ [newCacheEntry])
        calls := f.calls ++ [⟨entry, f.state⟩]
        state := newState
        linearized := linearized
        links := links
        entry := links.next f.headEntry }
    else some { f with entry := f.links.next entry }
  else some { f with entry := f.links.next entry }

/-- A return: take the last operation out of the order again. -/
def backtrack (computePartial : Bool) (f : Frame I O S) (callsTop : CallsEntry S) :
    Option (Frame I O S) := do
  let f ← f.record computePartial
  let node ← f.nodes[callsTop.entry]?
  let linearized ← f.linearized.clear node.id
  let links ← unlift f.nodes f.links callsTop.entry
  some { f with
    state := callsTop.state
    linearized := linearized
    calls := f.calls.dropLast
    links := links
    entry := links.next callsTop.entry }

/-- One round of the loop of `checkSingle`; `killed` is what it reads from `kill`. -/
def iteration (model : FullModel I O S) (computePartial killed : Bool) (f : Frame I O S) :
    Option (Turn I O S) :=
  if f.links.next f.headEntry = none then some (.returned true f.finish)
  else if killed then some (.returned false f)
  else do
    let entry ← f.entry
    let node ← f.nodes[entry]?
    match node.matching with
    | some matching => .running <$> f.tryCall model entry node matching
    | none =>
      match f.calls.getLast? with
      | none => some (.returned false f)
      | some callsTop => .running <$> f.backtrack computePartial callsTop

/-- The variables when the loop of `checkSingle` starts. -/
def start (model : FullModel I O S) (history : List (Entry I O)) : Frame I O S :=
  let k := makeLinkedEntries history
  let n := length k.links k.nodes.length k.root / 2
  let headEntry := k.nodes.length
  { nodes := k.nodes
    headEntry := headEntry
    entry := k.root
    links := insertBefore k.links headEntry k.root
    linearized := Bitset.newBitset n
    cache := fun _ => []
    calls := []
    state := model.init
    longest := List.replicate n none
    seqs := [] }

end Frame

/-- One more iteration, if `checkSingle` has not returned. -/
def Turn.advance (model : FullModel I O S) (computePartial killed : Bool) :
    Turn I O S → Option (Turn I O S)
  | .running f => f.iteration model computePartial killed
  | .returned ok f => some (.returned ok f)

/-- `checkSingle` after some rounds; `kill k` is what it reads from `kill` in round `k`. -/
def checkSingle (model : FullModel I O S) (history : List (Entry I O)) (computePartial : Bool)
    (kill : ℕ → Bool) : ℕ → Option (Turn I O S)
  | 0 => some (.running (Frame.start model history))
  | k + 1 => checkSingle model history computePartial kill k >>= Turn.advance model computePartial (kill k)

end GoServices.Porcupine
