import Mathlib.Data.Int.Order.Basic
import Mathlib.Logic.Function.Basic

/-! Deduplication tables: per client, the last numbered request that took effect.

    A table blocks a request whose number is not above the recorded one. Recording a request that is
    not blocked, and merging with another table by maximum, never unblock anything; so along any
    sequence of such tables a request stops being unblocked at most once. -/

namespace GoServices.Dedup

variable {K V : Type} (seq : V → ℤ)

/-- Request `k` number `n` has been superseded. -/
def Blocks (t : K → Option V) (k : K) (n : ℤ) : Prop := ∃ v, t k = some v ∧ n ≤ seq v

instance (t : K → Option V) (k : K) (n : ℤ) : Decidable (Blocks seq t k n) :=
  match h : t k with
  | none => .isFalse fun ⟨v, hv, _⟩ => by rw [h] at hv; cases hv
  | some v => decidable_of_iff (n ≤ seq v)
      ⟨fun hn => ⟨v, h, hn⟩, fun ⟨w, hw, hn⟩ => by rw [h] at hw; cases hw; exact hn⟩

/-- `t'` blocks all that `t` blocks. -/
def Le (t t' : K → Option V) : Prop := ∀ k n, Blocks seq t k n → Blocks seq t' k n

/-- The entry with the larger number wins. -/
def merge (t u : K → Option V) : K → Option V := fun k =>
  match u k with
  | none => t k
  | some w => if Blocks seq t k (seq w) then t k else some w

variable {seq} {t t' u : K → Option V} {k : K} {n : ℤ}

theorem Le.refl (t : K → Option V) : Le seq t t := fun _ _ h => h

theorem Le.trans (h : Le seq t t') (h' : Le seq t' u) : Le seq t u := fun k n hb => h' k n (h k n hb)

theorem Blocks.down {m : ℤ} (h : Blocks seq t k n) (hm : m ≤ n) : Blocks seq t k m := by
  obtain ⟨v, hv, hn⟩ := h
  exact ⟨v, hv, le_trans hm hn⟩

/-- Of two numbers of one client, the table blocks the smaller if it blocks any. -/
theorem not_blocks_lt {v : V} (hv : t k = some v) (h : ¬ Blocks seq t k n) : seq v < n := by
  by_contra hle
  exact h ⟨v, hv, not_lt.mp hle⟩

section Record

variable [DecidableEq K]

theorem blocks_record (t : K → Option V) (k : K) (v : V) :
    Blocks seq (Function.update t k (some v)) k (seq v) :=
  ⟨v, Function.update_self _ _ _, le_refl _⟩

theorem le_record {v : V} (h : ¬ Blocks seq t k (seq v)) :
    Le seq t (Function.update t k (some v)) := by
  rintro j m ⟨w, hw, hm⟩
  rcases eq_or_ne j k with rfl | hj
  · exact (blocks_record t j v).down (le_trans hm (le_of_lt (not_blocks_lt hw h)))
  · exact ⟨w, by rw [Function.update_of_ne hj]; exact hw, hm⟩

end Record

theorem merge_of_none (h : u k = none) : merge seq t u k = t k := by
  simp only [merge, h]

theorem merge_of_some {w : V} (h : u k = some w) :
    merge seq t u k = if Blocks seq t k (seq w) then t k else some w := by
  simp only [merge, h]

theorem blocks_merge : Blocks seq (merge seq t u) k n ↔ Blocks seq t k n ∨ Blocks seq u k n := by
  cases hu : u k with
  | none =>
    constructor
    · rintro ⟨v, hv, hn⟩
      exact Or.inl ⟨v, by rw [← hv, merge_of_none hu], hn⟩
    · rintro (⟨v, hv, hn⟩ | ⟨v, hv, -⟩)
      · exact ⟨v, by rw [merge_of_none hu, hv], hn⟩
      · rw [hu] at hv; cases hv
  | some w =>
    by_cases hb : Blocks seq t k (seq w)
    · have hm : merge seq t u k = t k := by rw [merge_of_some hu, if_pos hb]
      obtain ⟨v, hv, hvw⟩ := hb
      constructor
      · rintro ⟨x, hx, hn⟩
        exact Or.inl ⟨x, by rw [← hx, hm], hn⟩
      · rintro (⟨x, hx, hn⟩ | ⟨x, hx, hn⟩)
        · exact ⟨x, by rw [hm, hx], hn⟩
        · rw [hu, Option.some.injEq] at hx
          exact ⟨v, by rw [hm, hv], le_trans (hx ▸ hn) hvw⟩
    · have hm : merge seq t u k = some w := by rw [merge_of_some hu, if_neg hb]
      constructor
      · rintro ⟨x, hx, hn⟩
        exact Or.inr ⟨x, by rw [hu, ← hx, hm], hn⟩
      · rintro (⟨x, hx, hn⟩ | ⟨x, hx, hn⟩)
        · exact ⟨w, hm, le_trans hn (le_of_lt (not_blocks_lt hx hb))⟩
        · rw [hu] at hx; exact ⟨x, by rw [hm, hx], hn⟩

/-- Along growing tables a request goes from unblocked to blocked at most once. -/
theorem at_most_once {T : ℕ → K → Option V} (hmono : ∀ i, Le seq (T i) (T (i + 1))) {i j : ℕ}
    (hi : ¬ Blocks seq (T i) k n) (hi' : Blocks seq (T (i + 1)) k n)
    (hj : ¬ Blocks seq (T j) k n) (hj' : Blocks seq (T (j + 1)) k n) : i = j := by
  have grow : ∀ {a b : ℕ}, a ≤ b → Le seq (T a) (T b) := by
    intro a b hab
    induction hab with
    | refl => exact Le.refl _
    | step _ ih => exact ih.trans (hmono _)
  rcases Nat.lt_trichotomy i j with h | h | h
  · exact absurd (grow h k n hi') hj
  · exact h
  · exact absurd (grow h k n hj') hi

end GoServices.Dedup
