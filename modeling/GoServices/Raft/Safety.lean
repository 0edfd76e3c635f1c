import GoServices.Raft.Steps

/-! Election safety, log matching and the order of terms, for every run of a cluster of any size. -/

namespace GoServices.Consensus

open TermLog Runs

variable {n : ℕ} {C : Type}

/-- Server `s` leads in term `t`. -/
def Leads (c : Cluster n C) (s : Fin n) (t : ℕ) : Prop :=
  (c.servers s).role = .leader ∧ (c.servers s).currentTerm = t

instance (c : Cluster n C) (s : Fin n) (t : ℕ) : Decidable (Leads c s t) :=
  inferInstanceAs (Decidable (_ ∧ _))

/-- At most one server ever leads in a term, however far apart in the run. -/
theorem election_safety {c d : Cluster n C} {acts acts' : List (Action n C)}
    (hc : Run Cluster.step Any Cluster.init acts c) (hd : Run Cluster.step Any c acts' d)
    {p q : Fin n} {t : ℕ} (hp : Leads c p t) (hq : Leads d q t) : p = q := by
  obtain ⟨a, -, ha⟩ := sim_init.run hc
  obtain ⟨b, hab, hb⟩ := ha.run hd
  have hla : a.lead t = some p := hp.2 ▸ ((ha.servers p).lead hp.1).1
  have hlb : b.lead t = some q := hq.2 ▸ ((hb.servers q).lead hq.1).1
  exact Option.some.inj ((hab.lead t p hla).symm.trans hlb)

/-- Three servers of four elect server 0 for term 2. -/
def electing : List (Action 4 ℕ) :=
  [.timeout 0, .startElection 0 2, .serve 0, .serve 1, .return 1, .return 0]

theorem election_safety_elected : ∃ c d : Cluster 4 ℕ,
    Run Cluster.step Any Cluster.init electing c ∧
    Run Cluster.step Any c [.start 0 (some 7), .timeout 1] d ∧
    Leads c 0 2 ∧ Leads d 0 2 ∧ (0 : Fin 4) = 0 := by
  obtain ⟨c, hc, hq⟩ := exists_run Cluster.step Any Cluster.init electing (fun c : Cluster 4 ℕ =>
    decide (Leads c 0 2) &&
      (exec Cluster.step Any c [.start 0 (some 7), .timeout 1]).any fun d => decide (Leads d 0 2))
    (by decide +kernel)
  rw [Bool.and_eq_true, decide_eq_true_iff] at hq
  obtain ⟨d, hd, hld⟩ := exists_run _ _ c _ _ hq.2
  have hld := of_decide_eq_true hld
  exact ⟨c, d, hc, hd, hq.1, hld, election_safety hc hd hq.1 hld⟩

/-- Where two logs hold the same term they agree on everything below, down to their snapshots. -/
theorem log_matching {c : Cluster n C} {acts : List (Action n C)}
    (hc : Run Cluster.step Any Cluster.init acts c) {p q : Fin n} {i : ℕ} {d e : LogEntry C}
    (hp : (c.servers p).log.entryAt i = some d) (hq : (c.servers q).log.entryAt i = some e)
    (ht : d.term = e.term) {j : ℕ} (hji : j ≤ i) (hjp : (c.servers p).log.snapLastIdx < j)
    (hjq : (c.servers q).log.snapLastIdx < j) :
    ∃ f, (c.servers p).log.entryAt j = some f ∧ (c.servers q).log.entryAt j = some f := by
  obtain ⟨a, -, ha⟩ := sim_init.run hc
  have hP := (ha.servers p).log
  have hQ := (ha.servers q).log
  obtain ⟨-, hpl, hdt⟩ := hP.term_of_entryAt hp
  obtain ⟨-, hql, het⟩ := hQ.term_of_entryAt hq
  have htake : (a.log p).take i = (a.log q).take i :=
    take_eq_of_termAt (ha.inv.logOk p) (ha.inv.logOk q) hpl hql
      (by rw [← hdt, ← het, ht])
  have hget : ∀ X : List (LogEntry C), X[j - 1]? = (X.take i)[j - 1]? :=
    fun X => (List.getElem?_take_of_lt (by omega)).symm
  obtain ⟨f, hf, -⟩ := exists_getElem? (X := a.log p) (i := j) (by omega) (by omega)
  refine ⟨f, by rw [hP.entryAt hjp (by omega)]; exact hf, ?_⟩
  rw [hQ.entryAt hjq (by omega), hget, ← htake, ← hget]
  exact hf

/-- The leader of three servers commits an entry, compacts it and appends another one. -/
def compacting (s : Fin n) : List (Action n ℕ) :=
  [.tick s, .timeout s, .startElection s 2, .serve 0, .return 0, .start s (some 7),
    .startReplication s 2, .serve 2, .return 2, .tick s, .tick s, .snapshot s 1 [9], .start s (some 8)]

/-- Server 1, which has missed the first entry, gets the snapshot and then the rest of the log. -/
def installing (s : Fin n) : List (Action n ℕ) :=
  compacting s ++ [.start s (some 9), .startReplication s 2, .serve 2, .return 2, .startReplication s 2,
    .serve 3]

theorem log_matching_installed : ∃ c : Cluster 3 ℕ,
    Run Cluster.step Any Cluster.init (installing 0) c ∧
    (c.servers 0).log.snapLastIdx = 1 ∧ (c.servers 1).log.snapLastIdx = 1 ∧
    (c.servers 0).log.entryAt 3 = some ⟨2, true, some 9⟩ ∧
    (c.servers 1).log.entryAt 3 = some ⟨2, true, some 9⟩ ∧
    ∃ f, (c.servers 0).log.entryAt 2 = some f ∧ (c.servers 1).log.entryAt 2 = some f := by
  obtain ⟨c, hc, hq⟩ := exists_run Cluster.step Any Cluster.init (installing 0)
    (fun c : Cluster 3 ℕ => decide ((c.servers 0).log.entryAt 3 = some ⟨2, true, some 9⟩ ∧
      (c.servers 1).log.entryAt 3 = some ⟨2, true, some 9⟩ ∧
      (c.servers 0).log.snapLastIdx = 1 ∧ (c.servers 1).log.snapLastIdx = 1)) (by decide +kernel)
  obtain ⟨h0, h1, hs0, hs1⟩ := of_decide_eq_true hq
  refine ⟨c, hc, hs0, hs1, h0, h1, log_matching hc h0 h1 rfl (by decide) ?_ ?_⟩
  · rw [hs0]
    decide
  · rw [hs1]
    decide

/-- Terms never decrease along a log and never exceed the server's term, so that `firstFor` may stop
    at the first larger term. -/
theorem log_terms_ordered {c : Cluster n C} {acts : List (Action n C)}
    (hc : Run Cluster.step Any Cluster.init acts c) (s : Fin n) :
    (c.servers s).log.tailLog.Pairwise (·.term ≤ ·.term) ∧
    (∀ e ∈ (c.servers s).log.tailLog, e.term ≤ (c.servers s).currentTerm) ∧
    ∀ t, ((∃ i e, (c.servers s).log.entryAt i = some e ∧ e.term = t) →
        IsLeast {i | ∃ e, (c.servers s).log.entryAt i = some e ∧ e.term = t}
          ((c.servers s).log.firstFor t)) ∧
      ((¬ ∃ i e, (c.servers s).log.entryAt i = some e ∧ e.term = t) →
        (c.servers s).log.firstFor t = 0) := by
  obtain ⟨a, -, ha⟩ := sim_init.run hc
  have hrepr := (ha.servers s).log
  have hsorted := hrepr.pairwise (ha.inv.pairwise (ha.inv.logOk s))
  refine ⟨hsorted, ?_, fun t => ⟨RaftLog.firstFor_isLeast hsorted, RaftLog.firstFor_eq_invalidIndex⟩⟩
  rw [(ha.servers s).cur]
  exact hrepr.term_le (ha.inv.logLe s)

theorem log_terms_ordered_compacted : ∃ c : Cluster 3 ℕ,
    Run Cluster.step Any Cluster.init (compacting 0) c ∧
    (c.servers 0).log.tailLog = [⟨2, false, none⟩, ⟨2, true, some 8⟩] ∧
    IsLeast {i | ∃ e, (c.servers 0).log.entryAt i = some e ∧ e.term = 2}
      ((c.servers 0).log.firstFor 2) := by
  obtain ⟨c, hc, hq⟩ := exists_run Cluster.step Any Cluster.init (compacting 0)
    (fun c : Cluster 3 ℕ => decide (
      (c.servers 0).log.tailLog = [⟨2, false, none⟩, ⟨2, true, some 8⟩] ∧
      (c.servers 0).log.entryAt 2 = some ⟨2, true, some 8⟩)) (by decide +kernel)
  obtain ⟨htail, h2⟩ := of_decide_eq_true hq
  exact ⟨c, hc, htail, ((log_terms_ordered hc 0).2.2 2).1 ⟨2, _, h2, rfl⟩⟩

end GoServices.Consensus
