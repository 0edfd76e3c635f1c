import Mathlib.Algebra.BigOperators.Group.Finset.Basic
import Mathlib.Algebra.BigOperators.Ring.Finset
import Mathlib.Algebra.Order.BigOperators.Group.Finset
import Mathlib.Data.Fintype.Card

/-! Moving items between groups until the groups are balanced.

    Every item has an owner. Moving one item from a group to one that has at least two fewer lowers
    the number of ordered pairs of items with the same owner (`pairs`); draining a group `z` lowers
    the number of items it has. `weight z` combines both, so that any mixture of the two kinds of
    moves comes to an end. -/

namespace GoServices.Balance

variable {S G : Type} [Fintype S] [DecidableEq S] [DecidableEq G]

/-- How many items a group owns. -/
def count (owner : S → G) (g : G) : ℕ := (Finset.univ.filter fun s => owner s = g).card

/-- How many ordered pairs of items have the same owner. -/
def pairs (owner : S → G) : ℕ := ∑ s, count owner (owner s)

/-- First what is left in `z`, then the pairs. -/
def weight (z : G) (owner : S → G) : ℕ :=
  count owner z * (Fintype.card S * Fintype.card S + 1) + pairs owner

variable {owner : S → G} {s : S} {g h : G}

omit [DecidableEq S] in
theorem count_le : count owner g ≤ Fintype.card S := Finset.card_le_univ _

omit [DecidableEq S] in
theorem pairs_le : pairs owner ≤ Fintype.card S * Fintype.card S := by
  calc pairs owner ≤ ∑ _s : S, Fintype.card S := Finset.sum_le_sum fun _ _ => count_le
    _ = Fintype.card S * Fintype.card S := by simp

/-- The items of a group other than `s`. -/
theorem card_erase_filter (owner : S → G) (s : S) (g : G) :
    ((Finset.univ.erase s).filter fun x => owner x = g).card + (if owner s = g then 1 else 0) =
      count owner g := by
  unfold count
  rw [Finset.filter_erase]
  split_ifs with hs
  · exact Finset.card_erase_add_one (Finset.mem_filter.mpr ⟨Finset.mem_univ s, hs⟩)
  · have hout : s ∉ Finset.univ.filter fun x => owner x = g :=
      fun hmem => hs (Finset.mem_filter.mp hmem).2
    rw [Finset.erase_eq_of_notMem hout, Nat.add_zero]

/-- What a move does to the counts, without subtraction. -/
theorem count_update (owner : S → G) (s : S) (h g : G) :
    count (Function.update owner s h) g + (if owner s = g then 1 else 0) =
      count owner g + (if h = g then 1 else 0) := by
  have hold := card_erase_filter owner s g
  have hnew := card_erase_filter (Function.update owner s h) s g
  have hsame : ((Finset.univ.erase s).filter fun x => Function.update owner s h x = g) =
      (Finset.univ.erase s).filter fun x => owner x = g :=
    Finset.filter_congr fun x hx => by rw [Function.update_of_ne (Finset.ne_of_mem_erase hx)]
  rw [hsame, Function.update_self] at hnew
  omega

/-- Moving an item downhill leaves fewer pairs. -/
theorem pairs_update_lt (hlt : count owner h + 1 < count owner (owner s)) :
    pairs (Function.update owner s h) < pairs owner := by
  have hne : owner s ≠ h := fun heq => by rw [heq] at hlt; omega
  have hmem := Finset.mem_univ s
  -- both sums, with the moved item taken out
  have hold : pairs owner = count owner (owner s) +
      ∑ x ∈ Finset.univ.erase s, count owner (owner x) := (Finset.add_sum_erase _ _ hmem).symm
  have hnew : pairs (Function.update owner s h) = count (Function.update owner s h) h +
      ∑ x ∈ Finset.univ.erase s, count (Function.update owner s h) (owner x) := by
    rw [pairs, ← Finset.add_sum_erase _ _ hmem, Function.update_self]
    congr 1
    exact Finset.sum_congr rfl fun x hx => by rw [Function.update_of_ne (Finset.ne_of_mem_erase hx)]
  have hrest : ∑ x ∈ Finset.univ.erase s, count (Function.update owner s h) (owner x) +
      ((Finset.univ.erase s).filter fun x => owner x = owner s).card =
      ∑ x ∈ Finset.univ.erase s, count owner (owner x) +
      ((Finset.univ.erase s).filter fun x => owner x = h).card := by
    rw [Finset.card_filter, Finset.card_filter, ← Finset.sum_add_distrib, ← Finset.sum_add_distrib]
    refine Finset.sum_congr rfl fun x _ => ?_
    have := count_update owner s h (owner x)
    simpa only [eq_comm] using this
  have hfrom := card_erase_filter owner s (owner s)
  have hto := card_erase_filter owner s h
  have hgain := count_update owner s h h
  rw [if_pos rfl] at hfrom hgain
  rw [if_neg hne] at hto hgain
  omega

/-- Taking an item away from `z`. -/
theorem weight_drain (z : G) (hs : owner s = z) (hne : h ≠ z) :
    weight z (Function.update owner s h) < weight z owner := by
  have hcount := count_update owner s h z
  rw [if_pos hs, if_neg hne] at hcount
  have hle : pairs (Function.update owner s h) ≤ Fintype.card S * Fintype.card S := pairs_le
  unfold weight
  rw [show count owner z = count (Function.update owner s h) z + 1 by omega, Nat.add_mul]
  omega

/-- Moving an item downhill between other groups. -/
theorem weight_level (z : G) (hz : count owner z = 0) (hne : h ≠ z)
    (hlt : count owner h + 1 < count owner (owner s)) :
    weight z (Function.update owner s h) < weight z owner := by
  have hcount := count_update owner s h z
  have hs : owner s ≠ z := fun heq => by rw [heq, hz] at hlt; omega
  rw [if_neg hs, if_neg hne] at hcount
  unfold weight
  rw [show count (Function.update owner s h) z = count owner z by omega]
  have := pairs_update_lt hlt
  omega

end GoServices.Balance
