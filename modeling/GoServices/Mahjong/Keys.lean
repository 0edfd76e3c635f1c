import GoServices.Mahjong.Tables
import Mathlib.Algebra.BigOperators.Fin
import Mathlib.Data.Fin.VecNotation

/-! The tables of winning suits, looked up with the counts of a suit.

    A suit is nine counts. Which ones the tables hold is said here of the counts themselves: a sum of
    combinations, or counts that lack some tiles for one. The tables are made from multisets of tiles
    (`Tables`); counts and multisets of ranks below nine are the same thing. -/

namespace GoServices.Mahjong

open Melds

/-- How many of each tile a combination has. -/
def vector (g : Combo ℕ) : Fin 9 → ℕ := fun i => g.tiles.count i.val

/-- The counts are a sum of combinations: at least one, and at most one of them a pair. -/
def IsSum (feng : Bool) (v : Fin 9 → ℕ) : Prop :=
  ∃ gs : List (Combo ℕ), gs ≠ [] ∧ (∀ g ∈ gs, g.Fits (suitRules feng)) ∧
    gs.countP Combo.isPair ≤ 1 ∧ v = (gs.map vector).sum

/-- The counts of up to fourteen tiles, with four copies of each. -/
structure InRange (v : Fin 9 → ℕ) : Prop where
  copies : ∀ i, v i ≤ 4
  total : ∑ i, v i ≤ 14

/-- A dictionary holds the sums of combinations, and its dictionary for `g` wild cards the counts that
    lack `g` tiles for a key. -/
structure Exact (feng : Bool) (dic : List ℕ → Bool) (guiDic : ℕ → List ℕ → Bool) : Prop where
  keys : ∀ v, InRange v → (dic (List.ofFn v) = true ↔ IsSum feng v)
  guiKeys : ∀ v, InRange v → ∀ g, 1 ≤ g → g ≤ 8 → (guiDic g (List.ofFn v) = true ↔
    ∃ w : Fin 9 → ℕ, ∑ i, w i = g ∧ dic (List.ofFn (v + w)) = true)

/-! ### Counts and multisets of tiles -/

/-- The tiles with these counts. -/
def tilesOf (v : Fin 9 → ℕ) : Multiset ℕ := ∑ i, Multiset.replicate (v i) i.val

section Tiles

variable {m : Multiset ℕ} {v w : Fin 9 → ℕ}

theorem count_tilesOf (v : Fin 9 → ℕ) (i : Fin 9) : (tilesOf v).count i.val = v i := by
  rw [tilesOf, Multiset.count_sum']
  simp [Multiset.count_replicate, Fin.val_inj]

theorem ranks_tilesOf (v : Fin 9 → ℕ) : Ranks (tilesOf v) := by
  intro k hk
  obtain ⟨i, -, hk⟩ := Multiset.mem_sum.mp hk
  rw [Multiset.eq_of_mem_replicate hk]
  exact i.isLt

theorem card_tilesOf (v : Fin 9 → ℕ) : (tilesOf v).card = ∑ i, v i := by
  simp [tilesOf]

theorem tilesOf_add (v w : Fin 9 → ℕ) : tilesOf (v + w) = tilesOf v + tilesOf w := by
  simp [tilesOf, Multiset.replicate_add, Finset.sum_add_distrib]

theorem counts_eq_ofFn (m : Multiset ℕ) : counts m = List.ofFn fun i : Fin 9 => m.count i.val := by
  refine List.ext_getElem? fun j => ?_
  rw [getElem?_counts, List.getElem?_ofFn]
  split_ifs <;> rfl

theorem counts_tilesOf (v : Fin 9 → ℕ) : counts (tilesOf v) = List.ofFn v := by
  simp only [counts_eq_ofFn, count_tilesOf]

theorem eq_tilesOf (hm : Ranks m) (h : List.ofFn v = counts m) : m = tilesOf v :=
  counts_inj hm (ranks_tilesOf v) (by rw [counts_tilesOf, h])

theorem tilesOf_count (hm : Ranks m) : tilesOf (fun i => m.count i.val) = m :=
  (eq_tilesOf hm (counts_eq_ofFn m).symm).symm

theorem tilesOf_inj (h : tilesOf v = tilesOf w) : v = w := by
  funext i
  rw [← count_tilesOf v, h, count_tilesOf]

theorem tilesOf_sum {gs : List (Combo ℕ)} (hgs : ∀ g ∈ gs, Ranks g.tiles) :
    tilesOf (gs.map vector).sum = total gs := by
  induction gs with
  | nil => simp [tilesOf]
  | cons g gs ih =>
    have hg : tilesOf (vector g) = g.tiles := tilesOf_count (hgs g List.mem_cons_self)
    rw [List.map_cons, List.sum_cons, tilesOf_add, hg, total_cons,
      ih fun g' hg' => hgs g' (List.mem_cons_of_mem g hg')]

theorem small_tilesOf (hv : InRange v) : Small (tilesOf v) := by
  refine ⟨fun k => ?_, by rw [card_tilesOf]; exact hv.total⟩
  by_cases hk : k < 9
  · rw [count_tilesOf v ⟨k, hk⟩]
    exact hv.copies _
  · rw [Multiset.count_eq_zero_of_notMem fun hmem => hk (ranks_tilesOf v k hmem)]
    omega

end Tiles

/-! ### What the tables hold -/

section Keys

variable {feng : Bool} {v : Fin 9 → ℕ}

theorem isKey_tilesOf (hv : InRange v) : IsKey feng (tilesOf v) ↔ IsSum feng v := by
  constructor
  · rintro ⟨hne, -, pairs, gs, hpairs, hfits, rfl, htotal⟩
    refine ⟨gs, ?_, hfits, hpairs, tilesOf_inj ?_⟩
    · rintro rfl
      exact hne htotal.symm
    · rw [tilesOf_sum fun g hg => ranks_of_tile (hfits g hg).tile, htotal]
  · rintro ⟨gs, hne, hfits, hpairs, hsum⟩
    have htotal : total gs = tilesOf v := by
      rw [hsum, tilesOf_sum fun g hg => ranks_of_tile (hfits g hg).tile]
    exact ⟨htotal ▸ total_ne_zero hne, small_tilesOf hv, _, gs, hpairs, hfits, rfl, htotal⟩

theorem exists_isKey_iff :
    (∃ m, IsKey feng m ∧ List.ofFn v = counts m) ↔ IsKey feng (tilesOf v) := by
  constructor
  · rintro ⟨m, hkey, hcounts⟩
    rwa [← eq_tilesOf hkey.ranks hcounts]
  · intro hkey
    exact ⟨tilesOf v, hkey, (counts_tilesOf v).symm⟩

/-- Tiles that are taken out of a key are tiles that it is short of. -/
theorem exists_without_iff {g : ℕ} (hpos : 1 ≤ g) (hle : g ≤ 8) :
    (∃ m u, IsKey feng (m + u) ∧ u ≠ 0 ∧ u.card ≤ 8 ∧ g = u.card ∧ List.ofFn v = counts m) ↔
      ∃ w : Fin 9 → ℕ, ∑ i, w i = g ∧ IsKey feng (tilesOf (v + w)) := by
  constructor
  · rintro ⟨m, u, hkey, -, -, rfl, hcounts⟩
    have hm : Ranks m := fun i hi => hkey.ranks i (Multiset.mem_add.mpr (.inl hi))
    have hu : Ranks u := fun i hi => hkey.ranks i (Multiset.mem_add.mpr (.inr hi))
    refine ⟨fun i => u.count i.val, ?_, ?_⟩
    · rw [← card_tilesOf, tilesOf_count hu]
    · rwa [tilesOf_add, tilesOf_count hu, ← eq_tilesOf hm hcounts]
  · rintro ⟨w, rfl, hkey⟩
    rw [tilesOf_add] at hkey
    rw [← card_tilesOf] at hpos hle ⊢
    exact ⟨tilesOf v, tilesOf w, hkey, Multiset.card_pos.mp hpos, hle, rfl, (counts_tilesOf v).symm⟩

theorem exact_of_keys {dic : List ℕ → Bool} {guiDic : ℕ → List ℕ → Bool}
    (hdic : ∀ key, dic key = true ↔ ∃ m, IsKey feng m ∧ key = counts m)
    (hguiDic : ∀ guiCount key, guiDic guiCount key = true ↔
      ∃ m u, IsKey feng (m + u) ∧ u ≠ 0 ∧ u.card ≤ 8 ∧ guiCount = u.card ∧ key = counts m) :
    Exact feng dic guiDic := by
  have hkey (v : Fin 9 → ℕ) : dic (List.ofFn v) = true ↔ IsKey feng (tilesOf v) := by
    rw [hdic, exists_isKey_iff]
  refine ⟨fun v hv => ?_, fun v _ g hpos hle => ?_⟩
  · rw [hkey, isKey_tilesOf hv]
  · rw [hguiDic, exists_without_iff hpos hle]
    simp only [hkey]

end Keys

/-- Whatever the order in which the keys are gone through, the tables are made without a panic, and
    each of them is exact, for the suits and for the winds. -/
theorem tables_exact {order : Dic → List (List ℕ)} (horder : IsOrder order) :
    ∃ t, gen order = some t ∧ Exact false t.keyDic t.keyGuiDic ∧
      Exact true t.keyFengDic t.keyFengGuiDic := by
  obtain ⟨t, hgen, ht⟩ := gen_complete horder
  exact ⟨t, hgen, exact_of_keys ht.keyDic ht.keyGuiDic, exact_of_keys ht.keyFengDic ht.keyFengGuiDic⟩

/-- Two ones, a three and a four lack a one and a two for a triplet and a run. -/
theorem tables_exact_lacking_two : ∃ t, gen Finset.toList = some t ∧
    t.keyDic [3, 1, 1, 1, 0, 0, 0, 0, 0] = true ∧ t.keyDic [2, 0, 1, 1, 0, 0, 0, 0, 0] = false ∧
    t.keyGuiDic 2 [2, 0, 1, 1, 0, 0, 0, 0, 0] = true := by
  obtain ⟨t, hgen, hsuit, -⟩ := tables_exact isOrder_toList
  have hfull : t.keyDic (List.ofFn ![3, 1, 1, 1, 0, 0, 0, 0, 0]) = true :=
    (hsuit.keys _ ⟨by decide, by decide⟩).mpr
      ⟨[.triplet 0, .run 1], by simp, by decide, by decide, by decide⟩
  have hrange : InRange ![2, 0, 1, 1, 0, 0, 0, 0, 0] := ⟨by decide, by decide⟩
  refine ⟨t, hgen, hfull, ?_, ?_⟩
  · -- four tiles are not a number of triplets and runs, with a pair or without one
    refine Bool.eq_false_iff.mpr fun hkey => ?_
    have hsum : IsSum false ![2, 0, 1, 1, 0, 0, 0, 0, 0] := (hsuit.keys _ hrange).mp hkey
    obtain ⟨-, -, pairs, gs, hpairs, hsplits⟩ := (isKey_tilesOf hrange).mpr hsum
    have hcard := hsplits.card
    have hfour : (tilesOf ![2, 0, 1, 1, 0, 0, 0, 0, 0]).card = 4 := by
      rw [card_tilesOf]
      decide
    omega
  · refine (hsuit.guiKeys _ hrange 2 (by omega) (by omega)).mpr
      ⟨![1, 1, 0, 0, 0, 0, 0, 0, 0], by decide, ?_⟩
    have hadd : ![2, 0, 1, 1, 0, 0, 0, 0, 0] + ![1, 1, 0, 0, 0, 0, 0, 0, 0] =
        ![3, 1, 1, 1, 0, 0, 0, 0, 0] := by decide
    rw [hadd]
    exact hfull

end GoServices.Mahjong
