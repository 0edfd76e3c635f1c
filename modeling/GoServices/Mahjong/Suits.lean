import GoServices.Mahjong.Tables
import Mathlib.Algebra.GroupWithZero.Nat
import Mathlib.Algebra.Ring.Int.Defs

/-! Hands as suits.

    What it means that a hand wins is said of its tiles: the wild cards can be replaced so that the
    tiles split into one pair and otherwise triplets and runs. A combination lies in one suit, so this
    can be asked suit by suit, with the wild cards shared out among the suits. -/

namespace GoServices.Mahjong

open Melds

/-- The tiles of the three suits. -/
def SuitTile (c : ℤ) : Prop := 0 < c ∧ c < 30 ∧ c % 10 ≠ 0

instance (c : ℤ) : Decidable (SuitTile c) := inferInstanceAs (Decidable (_ ∧ _ ∧ _))

/-- The rules for the tiles of the three suits. -/
def tileRules : Rules ℤ where
  tile := SuitTile
  runs := true

instance : DecidablePred tileRules.tile := inferInstanceAs (DecidablePred SuitTile)

/-- The rank of a tile, from 0. -/
def rank (c : ℤ) : ℕ := (c % 10 - 1).toNat

/-- The tile of a suit with a rank. -/
def tileOf (suit i : ℕ) : ℤ := 10 * suit + i + 1

/-- The ranks of the tiles of a suit. -/
def suitOf (suit : ℕ) (tiles : Multiset ℤ) : Multiset ℕ :=
  (tiles.filter fun c => SuitTile c ∧ c / 10 = suit).map rank

section Suits

variable {suit i : ℕ} {c : ℤ}

theorem rank_lt (c : ℤ) : rank c < 9 := by
  unfold rank
  omega

theorem tileOf_rank (hc : SuitTile c) (hsuit : c / 10 = suit) : tileOf suit (rank c) = c := by
  unfold SuitTile at hc
  unfold tileOf rank
  omega

theorem rank_tileOf (hi : i < 9) : rank (tileOf suit i) = i := by
  unfold tileOf rank
  omega

theorem suitTile_tileOf (hsuit : suit < 3) (hi : i < 9) :
    SuitTile (tileOf suit i) ∧ tileOf suit i / 10 = suit := by
  unfold SuitTile tileOf
  omega

@[simp] theorem suitOf_zero : suitOf suit 0 = 0 := rfl

theorem suitOf_add (m m' : Multiset ℤ) : suitOf suit (m + m') = suitOf suit m + suitOf suit m' := by
  rw [suitOf, Multiset.filter_add, Multiset.map_add]
  rfl

theorem suitOf_cons (m : Multiset ℤ) : suitOf suit (c ::ₘ m) =
    if SuitTile c ∧ c / 10 = suit then rank c ::ₘ suitOf suit m else suitOf suit m := by
  unfold suitOf
  split_ifs with hc
  · rw [Multiset.filter_cons_of_pos m hc, Multiset.map_cons]
  · rw [Multiset.filter_cons_of_neg m hc]

theorem ranks_suitOf (m : Multiset ℤ) : Ranks (suitOf suit m) := by
  intro i hi
  obtain ⟨c, _, rfl⟩ := Multiset.mem_map.mp hi
  exact rank_lt c

theorem count_suitOf (hsuit : suit < 3) (hi : i < 9) (m : Multiset ℤ) :
    (suitOf suit m).count i = m.count (tileOf suit i) := by
  induction m using Multiset.induction_on with
  | empty => rfl
  | cons c m ih =>
    rw [suitOf_cons, Multiset.count_cons]
    split_ifs with hc htile htile
    · rw [Multiset.count_cons, ih, ← htile, rank_tileOf hi, if_pos rfl]
    · rw [Multiset.count_cons_of_ne, ih, Nat.add_zero]
      rintro rfl
      exact htile (tileOf_rank hc.1 hc.2)
    · rw [← htile] at hc
      exact absurd (suitTile_tileOf hsuit hi) hc
    · exact ih

theorem count_map_tileOf {x : Multiset ℕ} (hx : Ranks x) (hsuit : suit < 3) :
    (x.map (tileOf suit)).count c = if SuitTile c ∧ c / 10 = suit then x.count (rank c) else 0 := by
  split_ifs with hc
  · have hinj : Function.Injective (tileOf suit) := fun i j hij => by
      unfold tileOf at hij
      omega
    rw [← Multiset.count_map_eq_count' _ x hinj, tileOf_rank hc.1 hc.2]
  · refine Multiset.count_eq_zero_of_notMem fun hmem => hc ?_
    obtain ⟨i, hi, rfl⟩ := Multiset.mem_map.mp hmem
    exact suitTile_tileOf hsuit (hx i hi)

end Suits

/-! ### Combinations lie in one suit -/

section Combos

variable {suit : ℕ} {g : Combo ℤ} {gs : List (Combo ℤ)}

/-- A run starts at a seven at the latest. -/
theorem suitTile_run {a : ℤ} (hg : (Combo.run a).Fits tileRules) : SuitTile a ∧ a % 10 ≤ 7 := by
  have h₀ : SuitTile a := hg.tile a (by simp [Combo.tiles])
  have h₁ : SuitTile (a + 1) := hg.tile (a + 1) (by simp [Combo.tiles])
  have h₂ : SuitTile (a + 1 + 1) := hg.tile (a + 1 + 1) (by simp [Combo.tiles])
  refine ⟨h₀, ?_⟩
  unfold SuitTile at h₁ h₂
  omega

theorem tiles_in_suit (hg : g.Fits tileRules) : ∀ a ∈ g.tiles, a / 10 = g.first / 10 := by
  cases g with
  | triplet a => simp [Combo.tiles, Combo.first]
  | pair a => simp [Combo.tiles, Combo.first]
  | run a =>
    obtain ⟨hsuit, hseven⟩ := suitTile_run hg
    unfold SuitTile at hsuit
    simp only [Combo.tiles, Combo.first, Multiset.insert_eq_cons, Multiset.mem_cons,
      Multiset.mem_singleton]
    rintro b (rfl | rfl | rfl) <;> omega

theorem tiles_map_rank (hg : g.Fits tileRules) : (g.map rank).tiles = g.tiles.map rank := by
  refine g.tiles_map fun hrun => ?_
  cases g with
  | triplet a => exact absurd hrun (by simp [Combo.isRun])
  | pair a => exact absurd hrun (by simp [Combo.isRun])
  | run a =>
    obtain ⟨hsuit, hseven⟩ := suitTile_run hg
    unfold SuitTile at hsuit
    simp only [Combo.first, rank]
    omega

theorem suitOf_tiles (hg : g.Fits tileRules) :
    suitOf suit g.tiles = if g.first / 10 = suit then (g.map rank).tiles else 0 := by
  split_ifs with hsuit
  · rw [tiles_map_rank hg, suitOf, Multiset.filter_eq_self.mpr]
    exact fun a ha => ⟨hg.tile a ha, (tiles_in_suit hg a ha).trans hsuit⟩
  · rw [suitOf, Multiset.filter_eq_nil.mpr, Multiset.map_zero]
    exact fun a ha h => hsuit ((tiles_in_suit hg a ha).symm.trans h.2)

/-- The combinations of a suit. -/
def inSuit (suit : ℕ) (gs : List (Combo ℤ)) : List (Combo ℕ) :=
  (gs.filter fun g => decide (g.first / 10 = (suit : ℤ))).map (Combo.map rank)

theorem suitOf_total (hgs : ∀ g ∈ gs, g.Fits tileRules) :
    suitOf suit (total gs) = total (inSuit suit gs) := by
  induction gs with
  | nil => rfl
  | cons g gs ih =>
    rw [total_cons, suitOf_add, suitOf_tiles (hgs g List.mem_cons_self),
      ih fun g' hg' => hgs g' (List.mem_cons_of_mem g hg'), inSuit, inSuit]
    by_cases hsuit : g.first / 10 = suit
    · simp [hsuit]
    · simp [hsuit]

theorem splits_suitOf {pairs : ℕ} {m : Multiset ℤ} (h : Splits tileRules pairs m gs) :
    Splits (suitRules false) ((inSuit suit gs).countP Combo.isPair) (suitOf suit m)
      (inSuit suit gs) := by
  refine ⟨fun g hg => ?_, rfl, by rw [← h.total, suitOf_total h.fits]⟩
  obtain ⟨g', hg', rfl⟩ := List.mem_map.mp hg
  have hfits := h.fits g' (List.mem_filter.mp hg').1
  refine ⟨fun i hi => ?_, fun _ => rfl⟩
  rw [tiles_map_rank hfits] at hi
  obtain ⟨c, _, rfl⟩ := Multiset.mem_map.mp hi
  exact rank_lt c

theorem splits_tileOf {pairs : ℕ} {m : Multiset ℕ} {hs : List (Combo ℕ)} (suit : ℕ)
    (hsuit : suit < 3) (h : Splits (suitRules false) pairs m hs) :
    Splits tileRules pairs (m.map (tileOf suit)) (hs.map (Combo.map (tileOf suit))) := by
  have htiles (g : Combo ℕ) : (g.map (tileOf suit)).tiles = g.tiles.map (tileOf suit) := by
    refine g.tiles_map fun _ => ?_
    unfold tileOf
    omega
  refine ⟨fun g hg => ?_, ?_, ?_⟩
  · obtain ⟨g', hg', rfl⟩ := List.mem_map.mp hg
    refine ⟨fun c hc => ?_, fun _ => rfl⟩
    rw [htiles] at hc
    obtain ⟨i, hi, rfl⟩ := Multiset.mem_map.mp hc
    exact (suitTile_tileOf hsuit ((h.fits g' hg').tile i hi)).1
  · rw [List.countP_map, ← h.pairs]
    exact List.countP_congr fun g _ => by simp
  · rw [← h.total]
    clear h
    induction hs with
    | nil => rfl
    | cons g hs ih => rw [List.map_cons, total_cons, total_cons, Multiset.map_add, ih, htiles]

end Combos

/-! ### Winning -/

/-- The tiles of a hand that are not wild cards. -/
def suitTiles (tiles : List ℤ) : Multiset ℤ := (tiles : Multiset ℤ).filter (· ≠ zhong)

/-- The wild cards can be replaced so that no tile is there more than four times and the tiles split
    into one pair and otherwise triplets and runs. -/
def CanWin (tiles : List ℤ) : Prop :=
  Completes tileRules 4 1 (tiles.count zhong) (suitTiles tiles)

/-- And so that the pair is in the given suit. -/
def WinsWith (tiles : List ℤ) (suit : ℕ) : Prop :=
  ∃ w gs, w.card = tiles.count zhong ∧ (∀ c, (suitTiles tiles + w).count c ≤ 4) ∧
    Splits tileRules 1 (suitTiles tiles + w) gs ∧ ∃ c, Combo.pair c ∈ gs ∧ c / 10 = suit

/-- The wild cards are shared out among the suits, and the suit `suit` gets its pair. -/
def WinsAt (m : ℕ → Multiset ℕ) (suit n : ℕ) : Prop :=
  ∃ g : ℕ → ℕ, g 0 + g 1 + g 2 = n ∧
    ∀ t < 3, Completes (suitRules false) 4 (if t = suit then 1 else 0) (g t) (m t)

section Winning

variable {tiles : List ℤ} {suit : ℕ}

theorem canWin_of_winsWith (h : WinsWith tiles suit) : CanWin tiles := by
  obtain ⟨w, gs, hw, hcopies, hsplits, -⟩ := h
  exact ⟨w, gs, hw, hcopies, hsplits⟩

theorem winsWith_of_canWin (h : CanWin tiles) : ∃ suit < 3, WinsWith tiles suit := by
  obtain ⟨w, gs, hw, hcopies, hsplits⟩ := h
  obtain ⟨c, hpair⟩ := hsplits.exists_pair
  have hc : SuitTile c := (hsplits.fits _ hpair).tile c (by simp [Combo.tiles])
  unfold SuitTile at hc
  exact ⟨(c / 10).toNat, by omega, w, gs, hw, hcopies, hsplits, c, hpair, by omega⟩

theorem suitOf_suitTiles (tiles : List ℤ) : suitOf suit (suitTiles tiles) = suitOf suit tiles := by
  have hzhong : ¬SuitTile zhong := by decide
  rw [suitOf, suitTiles, Multiset.filter_filter, suitOf]
  congr 1
  refine Multiset.filter_congr fun c _ => ⟨fun h => h.1, fun h => ⟨h, ?_⟩⟩
  rintro rfl
  exact hzhong h.1

theorem card_suitOf {m : Multiset ℤ} (hm : ∀ c ∈ m, SuitTile c) :
    (suitOf 0 m).card + (suitOf 1 m).card + (suitOf 2 m).card = m.card := by
  induction m using Multiset.induction_on with
  | empty => rfl
  | cons c m ih =>
    have hc := hm c (Multiset.mem_cons_self c m)
    have ih := ih fun c' hc' => hm c' (Multiset.mem_cons_of_mem hc')
    simp only [suitOf_cons, apply_ite Multiset.card, Multiset.card_cons, hc, true_and]
    unfold SuitTile at hc
    split_ifs <;> omega

/-- The one pair is among the combinations of its suit. -/
theorem countP_inSuit {gs : List (Combo ℤ)} {c : ℤ} (hone : gs.countP Combo.isPair = 1)
    (hpair : Combo.pair c ∈ gs) (hc : c / 10 = suit) (t : ℕ) :
    (inSuit t gs).countP Combo.isPair = if t = suit then 1 else 0 := by
  have hsum := List.countP_eq_countP_filter_add gs Combo.isPair
    (fun g => decide (g.first / 10 = (t : ℤ)))
  have hin : (inSuit t gs).countP Combo.isPair =
      (gs.filter fun g => decide (g.first / 10 = (t : ℤ))).countP Combo.isPair := by
    rw [inSuit, List.countP_map]
    exact List.countP_congr fun g _ => by simp
  rw [hin]
  split_ifs with ht
  · have hpos : 0 < (gs.filter fun g => decide (g.first / 10 = (t : ℤ))).countP Combo.isPair :=
      List.countP_pos_iff.mpr ⟨.pair c, List.mem_filter.mpr ⟨hpair, by simp [Combo.first, hc, ht]⟩, rfl⟩
    omega
  · have hpos : 0 < (gs.filter fun g => !decide (g.first / 10 = (t : ℤ))).countP Combo.isPair := by
      refine List.countP_pos_iff.mpr ⟨.pair c, List.mem_filter.mpr ⟨hpair, ?_⟩, rfl⟩
      simp only [Combo.first, hc, Int.natCast_inj, Bool.not_eq_true', decide_eq_false_iff_not]
      exact fun h => ht h.symm
    omega

theorem winsAt_of_winsWith (h : WinsWith tiles suit) :
    WinsAt (fun t => suitOf t tiles) suit (tiles.count zhong) := by
  obtain ⟨w, gs, hw, hcopies, hsplits, c, hpair, hc⟩ := h
  have htile : ∀ c ∈ w, SuitTile c :=
    fun c hc => hsplits.tile c (Multiset.mem_add.mpr (.inr hc))
  refine ⟨fun t => (suitOf t w).card, (card_suitOf htile).trans hw, fun t ht => ?_⟩
  have heq : suitOf t (suitTiles tiles + w) = suitOf t tiles + suitOf t w := by
    rw [suitOf_add, suitOf_suitTiles]
  refine ⟨suitOf t w, inSuit t gs, rfl, fun i => ?_, ?_⟩
  · rw [← heq]
    by_cases hi : i < 9
    · rw [count_suitOf ht hi]
      exact hcopies _
    · rw [Multiset.count_eq_zero_of_notMem fun hmem => hi (ranks_suitOf _ i hmem)]
      omega
  · rw [← heq, ← countP_inSuit hsplits.pairs hpair hc t]
    exact splits_suitOf hsplits

theorem one_pair (hsuit : suit < 3) : (if 0 = suit then 1 else 0) + (if 1 = suit then 1 else 0) +
    (if 2 = suit then 1 else 0) = 1 := by
  split_ifs <;> omega

/-- The tiles of a hand, suit by suit. -/
theorem filter_suitTile (m : Multiset ℤ) : m.filter SuitTile =
    (suitOf 0 m).map (tileOf 0) + (suitOf 1 m).map (tileOf 1) + (suitOf 2 m).map (tileOf 2) := by
  refine Multiset.ext.mpr fun c => ?_
  rw [Multiset.count_add, Multiset.count_add, count_map_tileOf (ranks_suitOf m) (by omega),
    count_map_tileOf (ranks_suitOf m) (by omega), count_map_tileOf (ranks_suitOf m) (by omega),
    Multiset.count_filter]
  by_cases hc : SuitTile c
  · have hcount {t : ℕ} (ht : t < 3) (hct : c / 10 = t) : (suitOf t m).count (rank c) = m.count c := by
      rw [count_suitOf ht (rank_lt c), tileOf_rank hc hct]
    have hcases : c / 10 = (0 : ℕ) ∨ c / 10 = (1 : ℕ) ∨ c / 10 = (2 : ℕ) := by
      unfold SuitTile at hc
      omega
    obtain h | h | h := hcases <;> simp [hc, h, hcount (by omega) h]
  · simp [hc]

theorem winsWith_of_winsAt (htiles : ∀ c ∈ tiles, c = zhong ∨ SuitTile c) (hsuit : suit < 3)
    (h : WinsAt (fun t => suitOf t tiles) suit (tiles.count zhong)) : WinsWith tiles suit := by
  obtain ⟨g, hsum, hcompletes⟩ := h
  obtain ⟨u₀, gs₀, hu₀, hcopies₀, hsplits₀⟩ := hcompletes 0 (by omega)
  obtain ⟨u₁, gs₁, hu₁, hcopies₁, hsplits₁⟩ := hcompletes 1 (by omega)
  obtain ⟨u₂, gs₂, hu₂, hcopies₂, hsplits₂⟩ := hcompletes 2 (by omega)
  have hsuits : suitTiles tiles = (tiles : Multiset ℤ).filter SuitTile := by
    refine Multiset.filter_congr fun c hc => ⟨fun h => (htiles c hc).resolve_left h, ?_⟩
    rintro h rfl
    exact absurd h (by decide)
  have hall : suitTiles tiles + (u₀.map (tileOf 0) + u₁.map (tileOf 1) + u₂.map (tileOf 2)) =
      (suitOf 0 tiles + u₀).map (tileOf 0) + (suitOf 1 tiles + u₁).map (tileOf 1) +
        (suitOf 2 tiles + u₂).map (tileOf 2) := by
    rw [hsuits, filter_suitTile, Multiset.map_add, Multiset.map_add, Multiset.map_add]
    ac_rfl
  have hsplits := ((splits_tileOf 0 (by omega) hsplits₀).append
    (splits_tileOf 1 (by omega) hsplits₁)).append (splits_tileOf 2 (by omega) hsplits₂)
  rw [one_pair hsuit, ← hall] at hsplits
  refine ⟨_, _, ?_, fun c => ?_, hsplits, ?_⟩
  · simp only [Multiset.card_add, Multiset.card_map]
    omega
  · rw [hall, Multiset.count_add, Multiset.count_add,
      count_map_tileOf (ranks_of_tile hsplits₀.tile) (by omega),
      count_map_tileOf (ranks_of_tile hsplits₁.tile) (by omega),
      count_map_tileOf (ranks_of_tile hsplits₂.tile) (by omega)]
    have h₀ := hcopies₀ (rank c)
    have h₁ := hcopies₁ (rank c)
    have h₂ := hcopies₂ (rank c)
    split_ifs <;> omega
  · have hin {t : ℕ} {gs : List (Combo ℕ)} {m : Multiset ℕ} (ht : t < 3)
        (h : Splits (suitRules false) (if t = suit then 1 else 0) m gs) (heq : t = suit) :
        ∃ c, Combo.pair c ∈ gs.map (Combo.map (tileOf t)) ∧ c / 10 = suit := by
      subst heq
      rw [if_pos rfl] at h
      obtain ⟨i, hi⟩ := h.exists_pair
      have hlt : i < 9 := (h.fits _ hi).tile i (by simp [Combo.tiles])
      exact ⟨tileOf t i, List.mem_map.mpr ⟨_, hi, rfl⟩, (suitTile_tileOf ht hlt).2⟩
    obtain heq | heq | heq : 0 = suit ∨ 1 = suit ∨ 2 = suit := by omega
    · obtain ⟨c, hc, hct⟩ := hin (by omega) hsplits₀ heq
      exact ⟨c, by simp [hc], hct⟩
    · obtain ⟨c, hc, hct⟩ := hin (by omega) hsplits₁ heq
      exact ⟨c, by simp [hc], hct⟩
    · obtain ⟨c, hc, hct⟩ := hin (by omega) hsplits₂ heq
      exact ⟨c, by simp [hc], hct⟩

end Winning

end GoServices.Mahjong
