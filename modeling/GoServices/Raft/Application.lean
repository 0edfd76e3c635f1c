import GoServices.Raft.Server

/-! The apply loop (`raft_application.go`).

        idle ─▶ waiting ─▶ woken ─┬─▶ sendEntries ... ─────────────────────────▶ idle
                                  └─▶ readSnapshot ─▶ readIndex ─▶ readTerm
                                          ─▶ sendSnapshot ─▶ snapshotSent ─▶ idle

    Only the steps out of `idle`, `woken`, `snapshotSent` and the last one of `sendEntries` hold the
    lock; the others run while every handler may run too. -/

namespace GoServices.Consensus

variable {n : ℕ} {C : Type}

/-- The entries at indexes `start, ..., end`, read one by one with `at`. -/
def collect (log : RaftLog C) (start stop : ℕ) : Option (List (LogEntry C)) :=
  (List.range' start (stop + 1 - start)).mapM log.entryAt

theorem mapM_some {α β : Type} {f : α → Option β} {xs : List α} {ys : List β}
    (h : xs.mapM f = some ys) :
    ys.length = xs.length ∧ ∀ (j : ℕ) (y : β), ys[j]? = some y → ∃ x, xs[j]? = some x ∧ f x = some y := by
  induction xs generalizing ys with
  | nil =>
    obtain rfl : [] = ys := by simpa using h
    exact ⟨rfl, fun j y hj => by simp at hj⟩
  | cons x xs ih =>
    rw [List.mapM_cons] at h
    obtain ⟨y, hy, h⟩ := Option.bind_eq_some_iff.mp h
    obtain ⟨zs, hzs, h⟩ := Option.bind_eq_some_iff.mp h
    obtain rfl := Option.some.inj h
    obtain ⟨hlen, hget⟩ := ih hzs
    refine ⟨by rw [List.length_cons, List.length_cons, hlen], fun j z hj => ?_⟩
    cases j with
    | zero =>
      obtain rfl : y = z := by simpa using hj
      exact ⟨x, rfl, hy⟩
    | succ j => exact hget j z (by simpa using hj)

theorem collect_spec {log : RaftLog C} {start stop : ℕ} {es : List (LogEntry C)}
    (h : collect log start stop = some es) :
    es.length = stop + 1 - start ∧ ∀ j e, es[j]? = some e → log.entryAt (start + j) = some e := by
  obtain ⟨hlen, hget⟩ := mapM_some h
  rw [List.length_range'] at hlen
  refine ⟨hlen, fun j e hj => ?_⟩
  obtain ⟨x, hx, he⟩ := hget j e hj
  rw [List.getElem?_range' (by
    have := (List.getElem?_eq_some_iff.mp hj).1
    omega)] at hx
  rw [← he, ← Option.some.inj hx, Nat.one_mul]

namespace Raft

/-- The first locked section of `applicationTicker`. -/
def collectEntries (rf : Raft n C) : Option (Raft n C) :=
  if rf.snapPending then some { rf with ticker := .readSnapshot }
  else
    let lastApplied :=
      if rf.lastApplied < rf.log.snapLastIdx then rf.log.snapLastIdx else rf.lastApplied
    let stop := if rf.log.size ≤ rf.commitIndex then rf.log.size - 1 else rf.commitIndex
    (collect rf.log (lastApplied + 1) stop).map fun entries =>
      { rf with lastApplied := lastApplied, ticker := .sendEntries entries 0 }

/-- The second locked section after entries were sent. -/
def finishEntries (rf : Raft n C) (count : ℕ) : Raft n C :=
  { rf with lastApplied := rf.lastApplied + count, ticker := .idle }

/-- The second locked section after a snapshot was sent: it reads `snapLastIdx` once more. -/
def finishSnapshot (rf : Raft n C) : Raft n C :=
  { rf with
    lastApplied := rf.log.snapLastIdx
    commitIndex := if rf.commitIndex < rf.log.snapLastIdx then rf.log.snapLastIdx
      else rf.commitIndex
    snapPending := false
    ticker := .idle }

/-- One step of `applicationTicker`, with the message it sends on `applyCh`, if any. -/
def applicationTicker (rf : Raft n C) : Option (Raft n C × Option (ApplyMsg C)) :=
  match rf.ticker with
  | .idle => some ({ rf with ticker := .waiting }, none)
  | .waiting => some (rf, none)
  | .woken => rf.collectEntries.map fun rf' => (rf', none)
  | .sendEntries entries i =>
    match entries[i]? with
    | some entry =>
      some ({ rf with ticker := .sendEntries entries (i + 1) },
        some
          { commandValid := entry.commandValid
            command := entry.command
            commandIndex := rf.lastApplied + 1 + i
            snapshotValid := false
            snapshot := []
            snapshotTerm := 0
            snapshotIndex := 0 })
    | none => some (rf.finishEntries entries.length, none)
  | .readSnapshot => some ({ rf with ticker := .readIndex rf.log.snapshot }, none)
  | .readIndex snapshot =>
    some ({ rf with ticker := .readTerm snapshot rf.log.snapLastIdx }, none)
  | .readTerm snapshot index =>
    some ({ rf with ticker := .sendSnapshot snapshot index rf.log.snapLastTerm }, none)
  | .sendSnapshot snapshot index term =>
    some ({ rf with ticker := .snapshotSent },
      some
        { commandValid := false
          command := none
          commandIndex := 0
          snapshotValid := true
          snapshot := snapshot
          snapshotTerm := term
          snapshotIndex := index })
  | .snapshotSent => some (rf.finishSnapshot, none)

theorem collectEntries_cases {rf rf' : Raft n C} (h : rf.collectEntries = some rf') :
    (rf.snapPending = true ∧ rf' = { rf with ticker := .readSnapshot }) ∨
    (rf.snapPending = false ∧ ∃ entries,
      collect rf.log (max rf.lastApplied rf.log.snapLastIdx + 1)
        (min rf.commitIndex (rf.log.size - 1)) = some entries ∧
      rf' = { rf with
        lastApplied := max rf.lastApplied rf.log.snapLastIdx
        ticker := .sendEntries entries 0 }) := by
  have hstart : (if rf.lastApplied < rf.log.snapLastIdx then rf.log.snapLastIdx
      else rf.lastApplied) = max rf.lastApplied rf.log.snapLastIdx := by split_ifs <;> omega
  have hstop : (if rf.log.size ≤ rf.commitIndex then rf.log.size - 1 else rf.commitIndex) =
      min rf.commitIndex (rf.log.size - 1) := by split_ifs <;> omega
  unfold collectEntries at h
  dsimp only at h
  rw [hstart, hstop] at h
  by_cases hpend : rf.snapPending = true
  · rw [if_pos hpend] at h
    exact Or.inl ⟨hpend, (Option.some.inj h).symm⟩
  · rw [if_neg hpend] at h
    obtain ⟨es, hes, h⟩ := Option.map_eq_some_iff.mp h
    exact Or.inr ⟨by simpa using hpend, es, hes, h.symm⟩

/-- The ticker never takes the commit index back. -/
theorem applicationTicker_commitIndex {rf rf' : Raft n C} {msg : Option (ApplyMsg C)}
    (h : rf.applicationTicker = some (rf', msg)) : rf.commitIndex ≤ rf'.commitIndex := by
  unfold applicationTicker at h
  split at h
  case h_3 =>
    obtain ⟨g, hg, h⟩ := Option.map_eq_some_iff.mp h
    obtain ⟨rfl, -⟩ := Prod.mk.inj h
    rcases collectEntries_cases hg with ⟨-, rfl⟩ | ⟨-, es, -, rfl⟩ <;> exact le_refl _
  case h_4 => split at h <;> (obtain ⟨rfl, -⟩ := Prod.mk.inj (Option.some.inj h); exact le_refl _)
  case h_9 =>
    obtain ⟨rfl, -⟩ := Prod.mk.inj (Option.some.inj h)
    simp only [finishSnapshot]
    split_ifs <;> omega
  all_goals
    obtain ⟨rfl, -⟩ := Prod.mk.inj (Option.some.inj h)
    exact le_refl _

/-- The ticker touches its own place and what has been applied. -/
theorem applicationTicker_frame {rf rf' : Raft n C} {msg : Option (ApplyMsg C)}
    (h : rf.applicationTicker = some (rf', msg)) :
    ∃ lastApplied commitIndex snapPending ticker, rf' =
      { rf with
        lastApplied := lastApplied
        commitIndex := commitIndex
        snapPending := snapPending
        ticker := ticker } := by
  unfold applicationTicker at h
  split at h
  case h_3 =>
    obtain ⟨g, hg, h⟩ := Option.map_eq_some_iff.mp h
    obtain ⟨rfl, -⟩ := Prod.mk.inj h
    rcases collectEntries_cases hg with ⟨-, hg⟩ | ⟨-, es, -, hg⟩ <;> exact ⟨_, _, _, _, hg⟩
  case h_4 =>
    split at h <;> exact ⟨_, _, _, _, (Prod.mk.inj (Option.some.inj h)).1.symm⟩
  all_goals exact ⟨_, _, _, _, (Prod.mk.inj (Option.some.inj h)).1.symm⟩

end Raft

end GoServices.Consensus
