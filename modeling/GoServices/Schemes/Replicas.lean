import GoServices.Schemes.Runs
import Mathlib.Logic.Function.Basic

/-! Replicas of a state machine that apply one log, make snapshots of themselves and restart.

    A server `V` shows a state `S` and the index of the last command it has applied. Commands come in
    the order of the log, some of them again; a snapshot that any replica has made may be installed
    at any time, and a crash takes a replica back to a snapshot or to the beginning. `Lawful` says
    what the operations of a server have to do. What a command does may depend on a choice of the
    replica (`O`), but not for the commands of the log (`Settles`). -/

namespace GoServices.Replicas

open Runs

variable {V S C O B R : Type}

/-- The operations of a server. -/
structure Ops (V C O B : Type) where
  /-- the index of the last command applied -/
  applied : V → ℕ
  /-- a command with its index -/
  command : V → O → ℕ → C → V
  /-- a snapshot with its index -/
  install : V → B → ℕ → Option V
  save : V → B
  boot : B → Option V
  /-- what is stored as long as there is no snapshot -/
  blank : B

/-- How the operations act on what a server shows. -/
structure Lawful (m : Ops V C O B) (shown : V → S) (start : S) (apply : O → S → C → S) : Prop where
  old : ∀ v o i c, i ≤ m.applied v → m.command v o i c = v
  new : ∀ v o i c, m.applied v < i →
    shown (m.command v o i c) = apply o (shown v) c ∧ m.applied (m.command v o i c) = i
  install : ∀ v w i x, m.install v (m.save w) i = some x → shown x = shown w ∧ m.applied x = i
  boot : ∀ w x, m.boot (m.save w) = some x → shown x = shown w ∧ m.applied x = 0
  blank : ∀ x, m.boot m.blank = some x → shown x = start ∧ m.applied x = 0

/-- The replicas, the indexes at which their message streams stand, and the snapshots made. -/
structure Fleet (V B R : Type) where
  server : R → V
  stream : R → ℕ
  snapshots : List (ℕ × B)

/-- What can happen next to a replica. -/
inductive FleetAction (O R : Type) where
  /-- the next command, and whether a snapshot is made after it -/
  | deliver (r : R) (o : O) (snap : Bool)
  | redeliver (r : R) (o : O) (index : ℕ)
  | install (r : R) (k : ℕ)
  | restart (r : R) (k : Option ℕ)

section Step

variable [DecidableEq R] (m : Ops V C O B) (L : List C)

/-- The fleet with another state of replica `r`. -/
def Fleet.put (f : Fleet V B R) (r : R) (v : V) (i : ℕ) : Fleet V B R :=
  { f with server := Function.update f.server r v, stream := Function.update f.stream r i }

/-- One delivery, snapshot installation or restart. -/
def Fleet.step (f : Fleet V B R) : FleetAction O R → Option (Fleet V B R)
  | .deliver r o snap =>
    (L[f.stream r]?).map fun c =>
      let v := m.command (f.server r) o (f.stream r + 1) c
      let f' := f.put r v (f.stream r + 1)
      if snap then { f' with snapshots := f.snapshots ++ [(f.stream r + 1, m.save v)] } else f'
  | .redeliver r o index =>
    if 0 < index ∧ index ≤ m.applied (f.server r) then
      (L[index - 1]?).map fun c => f.put r (m.command (f.server r) o index c) (f.stream r)
    else none
  | .install r k =>
    (f.snapshots[k]?).bind fun snap =>
      (m.install (f.server r) snap.2 snap.1).map fun v => f.put r v snap.1
  | .restart r none => (m.boot m.blank).map fun v => f.put r v 0
  | .restart r (some k) =>
    (f.snapshots[k]?).bind fun snap => (m.boot snap.2).map fun v => f.put r v snap.1

end Step

/-- The log leads through the states `st`, whatever the replicas choose. -/
def Settles (apply : O → S → C → S) (L : List C) (st : ℕ → S) : Prop :=
  ∀ i c o, L[i]? = some c → apply o (st i) c = st (i + 1)

/-- Every replica shows the state at its place in the log, and so does every snapshot. -/
structure FleetOk (m : Ops V C O B) (shown : V → S) (st : ℕ → S) (f : Fleet V B R) : Prop where
  state : ∀ r, shown (f.server r) = st (f.stream r)
  index : ∀ r, m.applied (f.server r) = f.stream r ∨ m.applied (f.server r) = 0
  snapshots : ∀ snap ∈ f.snapshots, ∃ w, snap.2 = m.save w ∧ shown w = st snap.1

section Invariant

variable [DecidableEq R] {m : Ops V C O B} {L : List C} {shown : V → S} {start : S}
  {apply : O → S → C → S} {st : ℕ → S} {f f' : Fleet V B R}

theorem FleetOk.put (h : FleetOk m shown st f) {r : R} {v : V} {i : ℕ}
    (hshown : shown v = st i) (happlied : m.applied v = i ∨ m.applied v = 0) :
    FleetOk m shown st (f.put r v i) := by
  refine ⟨fun q => ?_, fun q => ?_, h.snapshots⟩
  · rcases eq_or_ne q r with rfl | hq
    · simpa [Fleet.put] using hshown
    · simpa [Fleet.put, hq] using h.state q
  · rcases eq_or_ne q r with rfl | hq
    · simpa [Fleet.put] using happlied
    · simpa [Fleet.put, hq] using h.index q

theorem FleetOk.step (hm : Lawful m shown start apply) (hL : Settles apply L st)
    (hstart : st 0 = start) (h : FleetOk m shown st f) {a : FleetAction O R}
    (hs : f.step m L a = some f') : FleetOk m shown st f' := by
  cases a with
  | deliver r o snap =>
    obtain ⟨c, hc, hs⟩ := Option.map_eq_some_iff.mp hs
    have hnew : m.applied (f.server r) < f.stream r + 1 := by rcases h.index r with h | h <;> omega
    obtain ⟨hshown, happlied⟩ := hm.new (f.server r) o (f.stream r + 1) c hnew
    rw [h.state r, hL (f.stream r) c o hc] at hshown
    have hput := h.put (r := r) hshown (Or.inl happlied)
    dsimp only at hs
    split_ifs at hs with hsnap
    · subst hs
      refine ⟨hput.state, hput.index, fun x hx => ?_⟩
      rcases List.mem_append.mp hx with hx | hx
      · exact h.snapshots x hx
      · rw [List.mem_singleton.mp hx]
        exact ⟨_, rfl, hshown⟩
    · exact hs ▸ hput
  | redeliver r o index =>
    rw [Fleet.step] at hs
    split_ifs at hs with hidx
    obtain ⟨c, -, rfl⟩ := Option.map_eq_some_iff.mp hs
    rw [hm.old (f.server r) o index c hidx.2]
    exact h.put (h.state r) (h.index r)
  | install r k =>
    obtain ⟨snap, hk, hs⟩ := Option.bind_eq_some_iff.mp hs
    obtain ⟨v, hv, rfl⟩ := Option.map_eq_some_iff.mp hs
    obtain ⟨w, hw, hshown⟩ := h.snapshots snap (List.mem_of_getElem? hk)
    rw [hw] at hv
    obtain ⟨hv₁, hv₂⟩ := hm.install _ w _ v hv
    exact h.put (hv₁.trans hshown) (Or.inl hv₂)
  | restart r k =>
    cases k with
    | none =>
      obtain ⟨v, hv, rfl⟩ := Option.map_eq_some_iff.mp hs
      obtain ⟨hv₁, hv₂⟩ := hm.blank v hv
      exact h.put (hv₁.trans hstart.symm) (Or.inr hv₂)
    | some k =>
      obtain ⟨snap, hk, hs⟩ := Option.bind_eq_some_iff.mp hs
      obtain ⟨v, hv, rfl⟩ := Option.map_eq_some_iff.mp hs
      obtain ⟨w, hw, hshown⟩ := h.snapshots snap (List.mem_of_getElem? hk)
      rw [hw] at hv
      obtain ⟨hv₁, hv₂⟩ := hm.boot w v hv
      exact h.put (hv₁.trans hshown) (Or.inr hv₂)

/-- In every run every replica shows the state at its place in the log. -/
theorem fleetOk_run (hm : Lawful m shown start apply) (hL : Settles apply L st)
    (hstart : st 0 = start) {v : V} (hv : shown v = start) (hv' : m.applied v = 0)
    {acts : List (FleetAction O R)}
    (h : Run (Fleet.step m L) Any ⟨fun _ => v, fun _ => 0, []⟩ acts f) :
    FleetOk m shown st f := by
  refine h.preserves (I := FleetOk m shown st) (fun _ _ _ hf _ hs => hf.step hm hL hstart hs)
    ⟨fun _ => hv.trans hstart.symm, fun _ => Or.inl hv', fun _ hx => ?_⟩
  cases hx

end Invariant

end GoServices.Replicas
