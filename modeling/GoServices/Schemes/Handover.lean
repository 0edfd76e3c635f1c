import Mathlib.Order.Basic
import Mathlib.Data.Nat.Basic

/-! Something that is handed from owner to owner, epoch by epoch.

    Each party is in an epoch of its own, `num`, and `holds` the thing in the epochs in which it has
    got it. If a new owner gets it only from a previous owner that has left the epoch before, then
    whoever holds it has all earlier owners behind it, and of the parties that own it in their own
    epoch at most one holds it. -/

namespace GoServices.Handover

variable {P : Type} {owns : P → ℕ → Prop} {num : P → ℕ} {holds : P → ℕ → Prop} {a b : P} {m n : ℕ}

/-- Owners follow one another, and each takes over from one that has come far enough. -/
structure Orderly (owns : P → ℕ → Prop) (num : P → ℕ) (holds : P → ℕ → Prop) : Prop where
  unique : ∀ {a b n}, owns a n → owns b n → a = b
  kept : ∀ {a n}, owns a n → ∃ b, owns b (n + 1)
  reached : ∀ {a n}, holds a n → n ≤ num a
  past : ∀ {a n}, n < num a → holds a n
  taken : ∀ {a b n}, owns a n → owns b (n + 1) → a ≠ b → holds b (n + 1) → n < num a

theorem Orderly.exists_owner (h : Orderly owns num holds) (ha : owns a m) (hmn : m ≤ n) :
    ∃ b, owns b n := by
  induction hmn with
  | refl => exact ⟨a, ha⟩
  | step _ ih => obtain ⟨b, hb⟩ := ih; exact h.kept hb

/-- Every earlier owner has left its epoch. -/
theorem Orderly.lt_num (h : Orderly owns num holds) (ha : owns a m) (hmn : m < n) (hb : owns b n)
    (hh : holds b n) : m < num a := by
  induction n generalizing b with
  | zero => omega
  | succ n ih =>
    obtain ⟨x, hx⟩ := h.exists_owner ha (Nat.le_of_lt_succ hmn)
    have hlt : n < num x := by
      by_cases hxb : x = b
      · exact hxb ▸ h.reached hh
      · exact h.taken hx hb hxb hh
    rcases Nat.lt_or_ge m n with hlt' | hge
    · exact ih hlt' hx (h.past hlt)
    · obtain rfl : m = n := by omega
      rwa [h.unique ha hx]

/-- Two parties that both hold it in their current epochs are the same. -/
theorem Orderly.eq_of_holds (h : Orderly owns num holds) (ha : owns a (num a)) (hha : holds a (num a))
    (hb : owns b (num b)) (hhb : holds b (num b)) : a = b := by
  rcases Nat.lt_trichotomy (num a) (num b) with hlt | heq | hgt
  · exact absurd (h.lt_num ha hlt hb hhb) (Nat.lt_irrefl _)
  · exact h.unique ha (heq ▸ hb)
  · exact absurd (h.lt_num hb hgt ha hha) (Nat.lt_irrefl _)

end GoServices.Handover
