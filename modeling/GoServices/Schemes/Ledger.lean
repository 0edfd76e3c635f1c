import Mathlib.Algebra.BigOperators.Group.Finset.Basic
import Mathlib.Algebra.BigOperators.Ring.Finset
import Mathlib.Algebra.Group.Int.Defs
import Mathlib.Data.Int.Order.Basic
import GoServices.Schemes.Ranges

/-! Finite maps of integers in which a missing key counts as zero: sorted sets of scores, balances,
    tallies. `total` adds all entries up; writing or erasing one entry changes it by what the key is
    worth afterwards less what it was worth before. -/

namespace GoServices.Ledger

open Ranges

variable {K : Type} [DecidableEq K] {m : Map K ℤ} {k k' : K} {v : ℤ}

/-- What a key is worth. -/
def score (m : Map K ℤ) (k : K) : ℤ := (m.get k).getD 0

/-- Add to what a key is worth. -/
def incrBy (m : Map K ℤ) (k : K) (d : ℤ) : Map K ℤ := m.set k (score m k + d)

/-- The sum of all scores. -/
def total (m : Map K ℤ) : ℤ := ∑ k ∈ m.keys, score m k

@[simp] theorem score_empty : score (Map.empty : Map K ℤ) k = 0 := rfl

@[simp] theorem score_set : score (m.set k v) k' = if k' = k then v else score m k' := by
  unfold score
  rw [Map.get_set]
  split_ifs <;> rfl

@[simp] theorem score_erase : score (m.erase k) k' = if k' = k then 0 else score m k' := by
  unfold score
  rw [Map.get_erase]
  split_ifs <;> rfl

@[simp] theorem score_incrBy {d : ℤ} :
    score (incrBy m k d) k' = score m k' + if k' = k then d else 0 := by
  rw [incrBy, score_set]
  split_ifs with h
  · rw [h]
  · rw [add_zero]

@[simp] theorem total_empty : total (Map.empty : Map K ℤ) = 0 := rfl

/-- Keys that are missing do not matter, so any larger set of keys will do. -/
theorem total_eq_sum {T : Finset K} (h : m.keys ⊆ T) : total m = ∑ k ∈ T, score m k := by
  refine Finset.sum_subset h ?_
  intro k _ hk
  rw [score, Map.get_eq_none hk, Option.getD_none]

/-- If all other keys are worth the same, the totals differ by the difference at this key. -/
theorem total_sub_total {m' : Map K ℤ} (h : ∀ k', k' ≠ k → score m' k' = score m k') :
    total m' - total m = score m' k - score m k := by
  have hm : m.keys ⊆ insert k (m.keys ∪ m'.keys) :=
    Finset.subset_union_left.trans (Finset.subset_insert _ _)
  have hm' : m'.keys ⊆ insert k (m.keys ∪ m'.keys) :=
    Finset.subset_union_right.trans (Finset.subset_insert _ _)
  have hk : k ∈ insert k (m.keys ∪ m'.keys) := Finset.mem_insert_self _ _
  rw [total_eq_sum hm, total_eq_sum hm', ← Finset.add_sum_erase _ _ hk, ← Finset.add_sum_erase _ _ hk]
  have hrest : ∑ x ∈ (insert k (m.keys ∪ m'.keys)).erase k, score m' x =
      ∑ x ∈ (insert k (m.keys ∪ m'.keys)).erase k, score m x :=
    Finset.sum_congr rfl fun x hx => h x (Finset.ne_of_mem_erase hx)
  rw [hrest]
  omega

end GoServices.Ledger
