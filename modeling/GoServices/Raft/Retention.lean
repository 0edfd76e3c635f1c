import GoServices.Raft.Agreement

/-! Committed entries stay in the log.

    What a server counts as committed is chosen (`CommitOk`), and a chosen prefix is a prefix of the
    server's own log; hence the log never ends before `commitIndex`, and `Snapshot` of a delivered
    index finds its entry. This holds as long as no delivery cuts off entries that its receiver may
    have confirmed (`Gentle`): `commitIndex` only grows, so a late request that shortens the log
    leaves it behind. -/

namespace GoServices.Consensus

open TermLog Runs

variable {n : ℕ} {C : Type} {c : Cluster n C} {a : Abs n C} {ack : Fin n → ℕ → ℕ}

theorem Safe.commitIndex_lt (h : Safe c a ack) (s : Fin n) :
    (c.servers s).commitIndex < (c.servers s).log.size := by
  rw [(h.sim.servers s).log.size]
  exact Nat.lt_succ_of_le (h.servers s).commit.le_length

/-- Whatever lies at or below the commit index can be snapshotted; above it `Snapshot` declines. -/
theorem Safe.snapshot_isSome (h : Safe c a ack) (s : Fin n) (index : ℕ) (bytes : List UInt8) :
    ((c.servers s).snapshot index bytes).isSome = true := by
  have hlt := h.commitIndex_lt s
  have hrepr := (h.sim.servers s).log
  rw [hrepr.size] at hlt
  unfold Raft.snapshot
  split_ifs with hcommit hsnap
  · rfl
  · rfl
  · obtain ⟨log, hlog, -⟩ := hrepr.doSnapshot (le_of_lt (Nat.lt_of_not_le hsnap))
      (show index ≤ (a.log s).length by omega) bytes
    rw [hlog]; rfl

/-- In a run of gentle steps no server loses what it counts as committed, and `Snapshot` of an index
    that was delivered does not panic. -/
theorem committed_retained {acts : List (Action n C)}
    (hc : Run Cluster.step Gentle Cluster.init acts c) (s : Fin n) :
    (c.servers s).commitIndex ≤ (c.servers s).log.size - 1 ∧
    ∀ index bytes, c.hasDelivered s index = true →
      ((c.servers s).snapshot index bytes).isSome = true := by
  obtain ⟨a, ack, h⟩ := safe_run hc
  have hlt := h.commitIndex_lt s
  exact ⟨by omega, fun index bytes _ => h.snapshot_isSome s index bytes⟩

/-- The leader wins term 2 and sends command 10, then 10 and 20; the follower takes the second
    request, hears that both are committed and delivers them. -/
def delivering (leader follower : Fin 2) : List (Action 2 ℕ) :=
  [.tick follower, .timeout leader, .startElection leader 2, .serve 0, .return 0,
    .start leader (some 10), .startReplication leader 2, .start leader (some 20),
    .startReplication leader 2, .serve 1, .return 1, .startReplication leader 2, .serve 1,
    .tick follower, .tick follower, .tick follower]

theorem committed_retained_delivering : ∃ c : Cluster 2 ℕ,
    Run Cluster.step Gentle Cluster.init (delivering 0 1) c ∧ (c.servers 1).commitIndex = 2 ∧
      c.hasDelivered 1 2 = true ∧ 2 ≤ (c.servers 1).log.size - 1 ∧
      ((c.servers 1).snapshot 2 []).isSome = true := by
  obtain ⟨c, hc, hq⟩ := exists_run Cluster.step Gentle Cluster.init (delivering 0 1)
    (fun c : Cluster 2 ℕ => decide ((c.servers 1).commitIndex = 2 ∧ c.hasDelivered 1 2 = true))
    (by decide +kernel)
  obtain ⟨hcommit, hdel⟩ := of_decide_eq_true hq
  obtain ⟨hle, hsnap⟩ := committed_retained hc 1
  exact ⟨c, hc, hcommit, hdel, le_trans (le_of_eq hcommit.symm) hle, hsnap 2 [] hdel⟩

/-- Now the first request reaches server 1 and takes entry 2 away again, although it is committed
    and delivered; a snapshot of it panics. -/
theorem committed_lost : ∃ c : Cluster 2 ℕ,
    Run Cluster.step Any Cluster.init (delivering 0 1 ++ [.serve 0]) c ∧
      (c.servers 1).log.size - 1 < (c.servers 1).commitIndex ∧
      c.hasDelivered 1 2 = true ∧ ((c.servers 1).snapshot 2 []).isNone = true := by
  obtain ⟨c, hc, hq⟩ := exists_run Cluster.step Any Cluster.init (delivering 0 1 ++ [.serve 0])
    (fun c : Cluster 2 ℕ => decide ((c.servers 1).log.size - 1 < (c.servers 1).commitIndex ∧
      c.hasDelivered 1 2 = true ∧ ((c.servers 1).snapshot 2 []).isNone = true)) (by decide +kernel)
  exact ⟨c, hc, of_decide_eq_true hq⟩

end GoServices.Consensus
