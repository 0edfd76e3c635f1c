import Mathlib.Data.List.Basic
import Mathlib.Tactic.SplitIfs

/-! One pass over taken numbers with a running candidate.

    The candidate goes up by one whenever it meets itself. On an ascending list it ends at the first
    gap; on other lists it may end at a number that is taken. -/

namespace GoServices.Seats

/-- Counts up at every seat that equals the count. -/
def scan : List ℕ → ℕ → ℕ
  | [], c => c
  | x :: l, c => scan l (if x = c then c + 1 else c)

theorem le_scan : ∀ (l : List ℕ) (c : ℕ), c ≤ scan l c
  | [], _ => Nat.le_refl _
  | x :: l, c => by
    have := le_scan l (if x = c then c + 1 else c)
    rw [scan]
    split_ifs at this ⊢ <;> omega

theorem scan_le : ∀ (l : List ℕ) (c : ℕ), scan l c ≤ c + l.length
  | [], _ => Nat.le_refl _
  | x :: l, c => by
    have := scan_le l (if x = c then c + 1 else c)
    rw [scan, List.length_cons]
    split_ifs at this ⊢ <;> omega

/-- A candidate below everything stays. -/
theorem scan_of_lt : ∀ {l : List ℕ} {c : ℕ}, (∀ x ∈ l, c < x) → scan l c = c
  | [], _, _ => rfl
  | x :: l, c, h => by
    have hx := h x List.mem_cons_self
    rw [scan, if_neg (by omega)]
    exact scan_of_lt fun y hy => h y (List.mem_cons_of_mem _ hy)

/-- On an ascending list the pass ends at a free number. -/
theorem scan_notMem : ∀ {l : List ℕ} (c : ℕ), l.Pairwise (· < ·) → scan l c ∉ l
  | [], _, _ => List.not_mem_nil
  | x :: l, c, h => by
    rw [List.pairwise_cons] at h
    rw [scan, List.mem_cons, not_or]
    refine ⟨?_, scan_notMem _ h.2⟩
    rcases Nat.lt_trichotomy x c with hlt | rfl | hgt
    · have := le_scan l (if x = c then c + 1 else c)
      rw [if_neg (by omega)] at this ⊢
      omega
    · have := le_scan l (x + 1)
      rw [if_pos rfl]
      omega
    · rw [if_neg (by omega), scan_of_lt fun y hy => Nat.lt_trans hgt (h.1 y hy)]
      omega

end GoServices.Seats
