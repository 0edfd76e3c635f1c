import Mathlib.Data.Int.Order.Basic
import Mathlib.Data.List.Basic
import Mathlib.Tactic.SplitIfs

/-! Ranking by the first difference: two lists of numbers of one length are compared place by place. -/

namespace GoServices.Ranking

/-- The difference at the first place where the lists differ. -/
def firstDiff : List ℕ → List ℕ → ℤ
  | x :: xs, y :: ys => if x = y then firstDiff xs ys else (x : ℤ) - y
  | _, _ => 0

theorem firstDiff_cons_self (x : ℕ) (xs ys : List ℕ) :
    firstDiff (x :: xs) (x :: ys) = firstDiff xs ys := if_pos rfl

theorem firstDiff_cons_of_ne {x y : ℕ} (h : x ≠ y) (xs ys : List ℕ) :
    firstDiff (x :: xs) (y :: ys) = (x : ℤ) - y := if_neg h

theorem firstDiff_swap : ∀ xs ys : List ℕ, firstDiff ys xs = -firstDiff xs ys
  | [], [] | [], _ :: _ | _ :: _, [] => rfl
  | x :: xs, y :: ys => by
    rcases eq_or_ne x y with rfl | hxy
    · rw [firstDiff_cons_self, firstDiff_cons_self, firstDiff_swap xs ys]
    · rw [firstDiff_cons_of_ne hxy, firstDiff_cons_of_ne hxy.symm, Int.neg_sub]

theorem firstDiff_eq_zero {xs ys : List ℕ} (h : xs.length = ys.length) :
    firstDiff xs ys = 0 ↔ xs = ys := by
  induction xs generalizing ys with
  | nil => cases ys <;> simp_all [firstDiff]
  | cons x xs ih =>
    cases ys with
    | nil => simp at h
    | cons y ys =>
      rcases eq_or_ne x y with rfl | hxy
      · rw [firstDiff_cons_self, ih (Nat.succ.inj h)]
        simp
      · rw [firstDiff_cons_of_ne hxy]
        simp only [List.cons.injEq, hxy, false_and, iff_false]
        omega

theorem firstDiff_nonneg_trans {xs ys zs : List ℕ} (h : xs.length = ys.length)
    (hxy : 0 ≤ firstDiff xs ys) (hyz : 0 ≤ firstDiff ys zs) : 0 ≤ firstDiff xs zs := by
  induction xs generalizing ys zs with
  | nil => exact le_of_eq rfl
  | cons x xs ih =>
    cases ys with
    | nil => simp at h
    | cons y ys =>
      cases zs with
      | nil => exact le_of_eq rfl
      | cons z zs =>
        simp only [firstDiff] at hxy hyz ⊢
        -- at the first place two of the three may agree
        split_ifs at hxy hyz ⊢
        · exact ih (Nat.succ.inj h) hxy hyz
        all_goals omega

end GoServices.Ranking
