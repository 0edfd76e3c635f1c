import Mathlib.Algebra.BigOperators.Group.Finset.Defs
import Mathlib.Algebra.Order.BigOperators.Group.Finset
import Mathlib.Algebra.Order.Group.Multiset

/-! Tiles that split into combinations: triplets, runs of three and pairs.

    Tiles are a multiset; a run takes a tile and its two successors. Which tiles there are, and whether
    runs count, is a parameter. `Completes` asks for a number of tiles more, as wild cards stand for
    them, with a bound on the copies of each tile. -/

namespace GoServices.Melds

/-- A triplet, a run or a pair. -/
inductive Combo (A : Type) where
  | triplet (a : A)
  | run (a : A)
  | pair (a : A)
  deriving DecidableEq

namespace Combo

section Basic

variable {A B : Type}

/-- Whether it is a pair. -/
def isPair : Combo A → Bool
  | triplet _ => false
  | run _ => false
  | pair _ => true

/-- Whether it is a run. -/
def isRun : Combo A → Bool
  | triplet _ => false
  | run _ => true
  | pair _ => false

/-- The tile that a combination starts with. -/
def first : Combo A → A
  | triplet a => a
  | run a => a
  | pair a => a

/-- The same with other tiles. -/
def map (f : A → B) : Combo A → Combo B
  | triplet a => triplet (f a)
  | run a => run (f a)
  | pair a => pair (f a)

@[simp] theorem isPair_map (f : A → B) (g : Combo A) : (g.map f).isPair = g.isPair := by
  cases g <;> rfl

end Basic

variable {A B : Type} [Add A] [One A] [Add B] [One B]

/-- Its tiles. -/
def tiles : Combo A → Multiset A
  | triplet a => {a, a, a}
  | run a => {a, a + 1, a + 1 + 1}
  | pair a => {a, a}

theorem first_mem (g : Combo A) : g.first ∈ g.tiles := by
  cases g <;> simp [first, tiles]

theorem card_tiles (g : Combo A) : g.tiles.card + (if g.isPair then 1 else 0) = 3 := by
  cases g <;> rfl

/-- A map that keeps the successors of the tiles of a combination maps its tiles. -/
theorem tiles_map {f : A → B} (g : Combo A) (hf : g.isRun = true →
    f (g.first + 1) = f g.first + 1 ∧ f (g.first + 1 + 1) = f g.first + 1 + 1) :
    (g.map f).tiles = g.tiles.map f := by
  cases g with
  | triplet a => rfl
  | run a =>
    obtain ⟨h₁, h₂⟩ := hf rfl
    simp only [first] at h₁ h₂
    simp [tiles, map, h₁, h₂]
  | pair a => rfl

end Combo

/-! ### Splitting -/

/-- Which tiles there are, and whether runs count. -/
structure Rules (A : Type) where
  tile : A → Prop
  runs : Bool

section Split

variable {A : Type} [Add A] [One A]

/-- It consists of tiles of the rules, and is a run only if there are runs. -/
structure Combo.Fits (R : Rules A) (g : Combo A) : Prop where
  tile : ∀ a ∈ g.tiles, R.tile a
  run : g.isRun = true → R.runs = true

instance (R : Rules A) [DecidablePred R.tile] (g : Combo A) : Decidable (g.Fits R) :=
  decidable_of_iff ((∀ a ∈ g.tiles, R.tile a) ∧ (g.isRun = true → R.runs = true))
    ⟨fun h => ⟨h.1, h.2⟩, fun h => ⟨h.tile, h.run⟩⟩

/-- The tiles of some combinations. -/
def total (gs : List (Combo A)) : Multiset A := (gs.map Combo.tiles).sum

@[simp] theorem total_nil : total ([] : List (Combo A)) = 0 := rfl

@[simp] theorem total_cons (g : Combo A) (gs : List (Combo A)) :
    total (g :: gs) = g.tiles + total gs := by simp [total]

@[simp] theorem total_append (gs hs : List (Combo A)) : total (gs ++ hs) = total gs + total hs := by
  simp [total]

theorem total_ne_zero {gs : List (Combo A)} (hne : gs ≠ []) : total gs ≠ 0 := by
  obtain ⟨g, gs, rfl⟩ := List.exists_cons_of_ne_nil hne
  intro hzero
  have hmem : g.first ∈ total (g :: gs) := by simp [g.first_mem]
  rw [hzero] at hmem
  exact absurd hmem (Multiset.notMem_zero _)

theorem card_total (gs : List (Combo A)) :
    (total gs).card + gs.countP Combo.isPair = 3 * gs.length := by
  induction gs with
  | nil => rfl
  | cons g gs ih =>
    have hg := g.card_tiles
    rw [total_cons, Multiset.card_add, List.countP_cons, List.length_cons]
    omega

/-- How often a tile is there: in its triplets and pairs, and in the runs that start with it or one or
    two tiles before it. -/
theorem count_total [DecidableEq A] [IsRightCancelAdd A] (a : A) (gs : List (Combo A)) :
    (total gs).count (a + 1 + 1) = 3 * gs.count (.triplet (a + 1 + 1)) +
      2 * gs.count (.pair (a + 1 + 1)) + gs.count (.run (a + 1 + 1)) + gs.count (.run (a + 1)) +
      gs.count (.run a) := by
  induction gs with
  | nil => rfl
  | cons g gs ih =>
    rw [total_cons, Multiset.count_add, ih]
    simp only [List.count_cons, beq_iff_eq]
    cases g with
    | triplet b =>
      simp only [Combo.tiles, Multiset.insert_eq_cons, Multiset.count_cons, Multiset.count_singleton,
        Combo.triplet.injEq, reduceCtorEq, if_false, eq_comm (a := a + 1 + 1)]
      split_ifs <;> omega
    | run b =>
      simp only [Combo.tiles, Multiset.insert_eq_cons, Multiset.count_cons, Multiset.count_singleton,
        Combo.run.injEq, reduceCtorEq, if_false, add_left_inj, eq_comm (b := b), eq_comm (b := b + 1)]
      omega
    | pair b =>
      simp only [Combo.tiles, Multiset.insert_eq_cons, Multiset.count_cons, Multiset.count_singleton,
        Combo.pair.injEq, reduceCtorEq, if_false, eq_comm (a := a + 1 + 1)]
      split_ifs <;> omega

/-- The tiles are those of combinations that fit, `pairs` of which are pairs. -/
structure Splits (R : Rules A) (pairs : ℕ) (m : Multiset A) (gs : List (Combo A)) : Prop where
  fits : ∀ g ∈ gs, g.Fits R
  pairs : gs.countP Combo.isPair = pairs
  total : total gs = m

instance [DecidableEq A] (R : Rules A) [DecidablePred R.tile] (pairs : ℕ) (m : Multiset A)
    (gs : List (Combo A)) : Decidable (Splits R pairs m gs) :=
  decidable_of_iff ((∀ g ∈ gs, g.Fits R) ∧ gs.countP Combo.isPair = pairs ∧ Melds.total gs = m)
    ⟨fun h => ⟨h.1, h.2.1, h.2.2⟩, fun h => ⟨h.fits, h.pairs, h.total⟩⟩

variable {R : Rules A} {pairs : ℕ} {m : Multiset A} {gs : List (Combo A)}

theorem Splits.nil : Splits R 0 0 [] := ⟨fun _ h => absurd h List.not_mem_nil, rfl, rfl⟩

theorem Splits.cons {g : Combo A} (h : Splits R pairs m gs) (hg : g.Fits R) :
    Splits R (pairs + if g.isPair then 1 else 0) (m + g.tiles) (g :: gs) := by
  refine ⟨fun g' hg' => ?_, ?_, ?_⟩
  · obtain rfl | hmem := List.mem_cons.mp hg'
    · exact hg
    · exact h.fits g' hmem
  · rw [List.countP_cons, h.pairs]
  · rw [total_cons, h.total, add_comm]

theorem Splits.append {pairs' : ℕ} {m' : Multiset A} {gs' : List (Combo A)}
    (h : Splits R pairs m gs) (h' : Splits R pairs' m' gs') :
    Splits R (pairs + pairs') (m + m') (gs ++ gs') := by
  refine ⟨fun g hg => ?_, ?_, ?_⟩
  · obtain hg | hg := List.mem_append.mp hg
    · exact h.fits g hg
    · exact h'.fits g hg
  · rw [List.countP_append, h.pairs, h'.pairs]
  · rw [total_append, h.total, h'.total]

theorem Splits.card (h : Splits R pairs m gs) : m.card + pairs = 3 * gs.length := by
  rw [← h.total, ← h.pairs, card_total]

theorem Splits.tile (h : Splits R pairs m gs) : ∀ a ∈ m, R.tile a := by
  obtain ⟨hfits, -, rfl⟩ := h
  induction gs with
  | nil => exact fun a ha => absurd ha (Multiset.notMem_zero a)
  | cons g gs ih =>
    intro a ha
    rw [total_cons, Multiset.mem_add] at ha
    obtain ha | ha := ha
    · exact (hfits g List.mem_cons_self).tile a ha
    · exact ih (fun g' hg' => hfits g' (List.mem_cons_of_mem g hg')) a ha

theorem Splits.count_pair [DecidableEq A] (h : Splits R 0 m gs) (a : A) : gs.count (.pair a) = 0 := by
  refine List.count_eq_zero.mpr fun hmem => ?_
  exact absurd rfl (List.countP_eq_zero.mp h.pairs _ hmem)

theorem Splits.count_run [DecidableEq A] (h : Splits R pairs m gs) {a : A} (ha : ¬R.tile (a + 1 + 1)) :
    gs.count (.run a) = 0 := by
  refine List.count_eq_zero.mpr fun hmem => ha ?_
  exact (h.fits _ hmem).tile _ (by simp [Combo.tiles])

theorem Splits.exists_pair (h : Splits R 1 m gs) : ∃ a, Combo.pair a ∈ gs := by
  have hpos : 0 < gs.countP Combo.isPair := by
    rw [h.pairs]
    exact Nat.one_pos
  obtain ⟨g, hg, hpair⟩ := List.countP_pos_iff.mp hpos
  cases g with
  | triplet a => exact absurd hpair (by simp [Combo.isPair])
  | run a => exact absurd hpair (by simp [Combo.isPair])
  | pair a => exact ⟨a, hg⟩

end Split

/-! ### Completing -/

/-- Among many kinds of tiles and few tiles there is one with few copies. -/
theorem exists_count_lt {A : Type} [DecidableEq A] {m : Multiset A} {K : Finset A} {k : ℕ}
    (hm : ∀ a ∈ m, a ∈ K) (hcard : m.card < k * K.card) : ∃ a ∈ K, m.count a < k := by
  by_contra hnone
  push Not at hnone
  have hle : K.card * k ≤ ∑ a ∈ K, m.count a := by
    simpa using Finset.card_nsmul_le_sum K (fun a => m.count a) k hnone
  rw [Multiset.sum_count_eq_card hm] at hle
  rw [Nat.mul_comm] at hcard
  omega

theorem count_le_of_forall_mem {A : Type} [DecidableEq A] {m : Multiset A} {k : ℕ}
    (h : ∀ a ∈ m, m.count a ≤ k) (a : A) : m.count a ≤ k := by
  by_cases ha : a ∈ m
  · exact h a ha
  · rw [Multiset.count_eq_zero_of_notMem ha]
    exact Nat.zero_le k

section Complete

variable {A : Type} [Add A] [One A] [DecidableEq A]

/-- With `n` tiles more, and at most `copies` of each, the tiles split. -/
def Completes (R : Rules A) (copies pairs n : ℕ) (m : Multiset A) : Prop :=
  ∃ u gs, u.card = n ∧ (∀ a, (m + u).count a ≤ copies) ∧ Splits R pairs (m + u) gs

variable {R : Rules A} {copies pairs n : ℕ} {m : Multiset A}

theorem completes_zero : Completes R copies 0 0 0 :=
  ⟨0, [], rfl, fun _ => by simp, Splits.nil⟩

/-- How many tiles are missing is fixed up to triplets. -/
theorem Completes.mod_three (h : Completes R copies pairs n m) : (m.card + n + pairs) % 3 = 0 := by
  obtain ⟨u, gs, rfl, -, hsplits⟩ := h
  have hcard := hsplits.card
  rw [Multiset.card_add] at hcard
  omega

/-- A combination of equal tiles more. -/
theorem Completes.add_combo {K : Finset A} {k : ℕ} (hK : ∀ a, R.tile a ↔ a ∈ K)
    (mk : A → Combo A) (htiles : ∀ a, (mk a).tiles = Multiset.replicate k a)
    (hrun : ∀ a, (mk a).isRun = false) {isPair : Bool} (hpair : ∀ a, (mk a).isPair = isPair)
    (h : Completes R copies pairs n m) (hfew : m.card + n < (copies + 1 - k) * K.card) :
    Completes R copies (pairs + if isPair then 1 else 0) (n + k) m := by
  obtain ⟨u, gs, rfl, hcopies, hsplits⟩ := h
  rw [← Multiset.card_add] at hfew
  obtain ⟨a, ha, hcount⟩ := exists_count_lt (fun b hb => (hK b).mp (hsplits.tile b hb)) hfew
  have hfits : (mk a).Fits R := by
    refine ⟨fun b hb => ?_, fun h => absurd (hrun a ▸ h) (by simp)⟩
    rw [htiles] at hb
    rw [Multiset.eq_of_mem_replicate hb]
    exact (hK a).mpr ha
  refine ⟨u + Multiset.replicate k a, mk a :: gs, ?_, fun b => ?_, ?_⟩
  · rw [Multiset.card_add, Multiset.card_replicate]
  · rw [← add_assoc, Multiset.count_add, Multiset.count_replicate]
    split_ifs with hb
    · subst hb
      omega
    · exact hcopies b
  · rw [← add_assoc, ← htiles, ← hpair a]
    exact hsplits.cons hfits

theorem Completes.add_triplet {K : Finset A} (hK : ∀ a, R.tile a ↔ a ∈ K)
    (h : Completes R copies pairs n m) (hfew : m.card + n < (copies + 1 - 3) * K.card) :
    Completes R copies pairs (n + 3) m :=
  h.add_combo hK .triplet (fun _ => rfl) (fun _ => rfl) (fun _ => rfl) hfew

theorem Completes.add_pair {K : Finset A} (hK : ∀ a, R.tile a ↔ a ∈ K)
    (h : Completes R copies pairs n m) (hfew : m.card + n < (copies + 1 - 2) * K.card) :
    Completes R copies (pairs + 1) (n + 2) m :=
  h.add_combo hK .pair (fun _ => rfl) (fun _ => rfl) (fun _ => rfl) hfew

end Complete

end GoServices.Melds
