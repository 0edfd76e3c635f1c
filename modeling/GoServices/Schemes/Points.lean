import GoServices.Schemes.Locality

/-! Linearization points.

    Every operation has a point at which it takes effect, the points agree with the times of call and
    return, and the operations at each point bring the state there to the next one. Then the points
    give an order for all operations. -/

namespace GoServices.Locality

variable {α β S : Type} {call ret : α → ℤ} {step : S → α → Option S}

/-- The operations in the order of their points. -/
def byPoint (pos : α → ℕ) (ops : List α) (n : ℕ) : List α :=
  (List.range n).flatMap fun p => ops.filter fun a => pos a = p

variable {pos : α → ℕ} {ops : List α}

theorem byPoint_succ (n : ℕ) :
    byPoint pos ops (n + 1) = byPoint pos ops n ++ ops.filter fun a => pos a = n := by
  simp [byPoint, List.range_succ]

theorem mem_byPoint {n : ℕ} {a : α} : a ∈ byPoint pos ops n ↔ a ∈ ops ∧ pos a < n := by
  simp only [byPoint, List.mem_flatMap, List.mem_range, List.mem_filter, decide_eq_true_eq]
  constructor
  · rintro ⟨p, hp, ha, rfl⟩
    exact ⟨ha, hp⟩
  · rintro ⟨ha, hp⟩
    exact ⟨pos a, hp, ha, rfl⟩

theorem byPoint_perm (n : ℕ) : (byPoint pos ops n).Perm (ops.filter fun a => pos a < n) := by
  induction n with
  | zero => simp [byPoint]
  | succ n ih =>
    rw [byPoint_succ]
    refine (ih.append_right _).trans ?_
    have hsplit := List.filter_append_perm (fun a => decide (pos a < n))
      (ops.filter fun a => pos a < n + 1)
    rw [List.filter_filter, List.filter_filter] at hsplit
    have hold : (ops.filter fun a => decide (pos a < n) && decide (pos a < n + 1)) =
        ops.filter fun a => pos a < n := by
      congr 1
      funext a
      by_cases h : pos a < n
      · simp [h, Nat.lt_succ_of_lt h]
      · simp [h]
    have hnew : (ops.filter fun a => !decide (pos a < n) && decide (pos a < n + 1)) =
        ops.filter fun a => pos a = n := by
      congr 1
      funext a
      rcases Nat.lt_trichotomy (pos a) n with h | h | h
      · simp [h, h.ne]
      · simp [h]
      · simp [h.ne', Nat.not_lt.mpr h]
    rwa [hold, hnew] at hsplit

theorem inOrder_byPoint (htime : ∀ a ∈ ops, ∀ b ∈ ops, ret b < call a → pos b < pos a) (n : ℕ) :
    InOrder call ret (byPoint pos ops n) := by
  induction n with
  | zero => simp [byPoint, InOrder]
  | succ n ih =>
    rw [byPoint_succ]
    refine List.pairwise_append.mpr ⟨ih, ?_, fun a ha b hb hlt => ?_⟩
    · rw [List.pairwise_filter]
      refine List.pairwise_of_forall_mem_list fun a ha b hb hpa hpb hlt => ?_
      have := htime a ha b hb hlt
      simp only [decide_eq_true_eq] at hpa hpb
      omega
    · obtain ⟨ha, hpa⟩ := mem_byPoint.mp ha
      obtain ⟨hb, hpb⟩ := List.mem_filter.mp hb
      have := htime a ha b hb hlt
      simp only [decide_eq_true_eq] at hpb
      omega

theorem foldlM_byPoint {st : ℕ → S} (n : ℕ)
    (hstep : ∀ p < n, (ops.filter fun a => pos a = p).foldlM step (st p) = some (st (p + 1))) :
    (byPoint pos ops n).foldlM step (st 0) = some (st n) := by
  induction n with
  | zero => rfl
  | succ n ih =>
    rw [byPoint_succ, List.foldlM_append, ih fun p hp => hstep p (by omega)]
    exact hstep n (Nat.lt_succ_self n)

theorem linearizable_of_points {n : ℕ} (pos : α → ℕ) (st : ℕ → S) (hlt : ∀ a ∈ ops, pos a < n)
    (htime : ∀ a ∈ ops, ∀ b ∈ ops, ret b < call a → pos b < pos a)
    (hstep : ∀ p < n, (ops.filter fun a => pos a = p).foldlM step (st p) = some (st (p + 1))) :
    Linearizable call ret step (st 0) ops := by
  refine ⟨byPoint pos ops n, ?_, inOrder_byPoint htime n, by rw [foldlM_byPoint n hstep]; rfl⟩
  have hall : (ops.filter fun a => decide (pos a < n)) = ops :=
    List.filter_eq_self.mpr fun a ha => decide_eq_true (hlt a ha)
  have hperm : (byPoint pos ops n).Perm (ops.filter fun a => pos a < n) := byPoint_perm n
  rwa [hall] at hperm

/-- Operations that are given by something that holds more about them. -/
theorem Linearizable.map {call ret : β → ℤ} {step : S → β → Option S} {f : α → β} {s : S}
    (h : Linearizable (call ∘ f) (ret ∘ f) (fun s a => step s (f a)) s ops) :
    Linearizable call ret step s (ops.map f) := by
  obtain ⟨order, hperm, hord, hlegal⟩ := h
  refine ⟨order.map f, hperm.map f, List.pairwise_map.mpr hord, ?_⟩
  rwa [List.foldlM_map]

end GoServices.Locality
