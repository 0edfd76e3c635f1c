import GoServices.Mahjong.Table
import GoServices.Schemes.Melds
import GoServices.Schemes.Search

/-! What is in the tables of winning suits.

    A suit is a multiset of ranks below nine, and its key is the list of its counts. The recursion of
    `genTableNoGui` puts one combination after the other, and a key is reached whatever the order of
    its combinations is, so the limits on the way never cut off a key that is within them itself.
    `genGui` is a search over the keys with tiles taken out that does not go twice into the same
    key. -/

namespace GoServices.Mahjong

open Melds Search

/-! ### Suits and their counts -/

/-- How often each rank occurs. -/
def counts (m : Multiset ℕ) : List ℕ := (List.range 9).map fun i => m.count i

/-- All numbers are ranks. -/
def Ranks (m : Multiset ℕ) : Prop := ∀ i ∈ m, i < 9

/-- At most four copies of each tile and at most fourteen tiles. -/
structure Small (m : Multiset ℕ) : Prop where
  copies : ∀ i, m.count i ≤ 4
  card : m.card ≤ 14

section Counts

variable {m m' : Multiset ℕ} {i n : ℕ}

theorem Small.mono (h : Small m) (hle : m' ≤ m) : Small m' :=
  ⟨fun i => (Multiset.count_le_of_le i hle).trans (h.copies i), (Multiset.card_le_card hle).trans h.card⟩

theorem getElem?_counts (m : Multiset ℕ) (j : ℕ) :
    (counts m)[j]? = if j < 9 then some (m.count j) else none := by
  rw [counts, List.getElem?_map]
  split_ifs with hj
  · rw [List.getElem?_range hj, Option.map_some]
  · rw [List.getElem?_eq_none (by simpa using hj), Option.map_none]

theorem getD_counts (hm : Ranks m) (i : ℕ) : (counts m).getD i 0 = m.count i := by
  rw [List.getD_eq_getElem?_getD, getElem?_counts]
  split_ifs with hi
  · rfl
  · rw [Multiset.count_eq_zero_of_notMem fun hmem => hi (hm i hmem)]
    rfl

theorem addAt_counts (m : Multiset ℕ) (hi : i < 9) (n : ℕ) :
    addAt (counts m) i n = counts (m + Multiset.replicate n i) := by
  refine List.ext_getElem? fun j => ?_
  rw [addAt, List.getElem?_modify, getElem?_counts, getElem?_counts, Multiset.count_add,
    Multiset.count_replicate]
  by_cases hij : i = j
  · subst hij
    simp [hi]
  · by_cases hj : j < 9
    · simp [hij, hj]
    · simp [hij, hj]

theorem counts_erase (m : Multiset ℕ) (hi : i < 9) :
    (counts m).modify i (· - 1) = counts (m.erase i) := by
  refine List.ext_getElem? fun j => ?_
  rw [List.getElem?_modify, getElem?_counts, getElem?_counts]
  by_cases hij : i = j
  · subst hij
    simp [hi]
  · rw [Multiset.count_erase_of_ne (Ne.symm hij)]
    by_cases hj : j < 9
    · simp [hij, hj]
    · simp [hij, hj]

theorem generateKey_counts (h : ∀ i, m.count i ≤ 4) : generateKey (counts m) = some (counts m) := by
  refine if_pos fun v hv => ?_
  obtain ⟨i, _, rfl⟩ := List.mem_map.mp hv
  exact h i

theorem calTotalCardCount_counts (hm : Ranks m) : calTotalCardCount (counts m) = m.card := by
  have hsum : calTotalCardCount (counts m) = (counts m).sum := List.sum_eq_foldl.symm
  rw [hsum, ← Multiset.sum_count_eq_card (s := Finset.range 9) fun i hi =>
    Finset.mem_range.mpr (hm i hi)]
  exact (Multiset.sum_coe (counts m)).symm

theorem counts_inj (hm : Ranks m) (hm' : Ranks m') (h : counts m = counts m') : m = m' := by
  refine Multiset.ext.mpr fun i => ?_
  rw [← getD_counts hm, ← getD_counts hm', h]

end Counts

/-! ### Functions that add keys -/

/-- The function does not panic and adds the keys with `P`. -/
def Adds (f : Dic → Option Dic) (P : List ℕ → Prop) : Prop :=
  ∀ dic, ∃ dic', f dic = some dic' ∧ ∀ key, key ∈ dic' ↔ key ∈ dic ∨ P key

section Adds

variable {f f' : Dic → Option Dic} {P P' : List ℕ → Prop}

theorem adds_none : Adds some fun _ => False := fun dic => ⟨dic, rfl, fun key => by simp⟩

theorem Adds.congr (h : Adds f P) (hP : ∀ key, P key ↔ P' key) : Adds f P' := by
  intro dic
  obtain ⟨dic', hf, hkeys⟩ := h dic
  exact ⟨dic', hf, fun key => by rw [hkeys, hP]⟩

theorem Adds.bind (h : Adds f P) (h' : Adds f' P') :
    Adds (fun dic => (f dic).bind f') fun key => P key ∨ P' key := by
  intro dic
  obtain ⟨dic₁, hf, hkeys⟩ := h dic
  obtain ⟨dic₂, hf', hkeys'⟩ := h' dic₁
  refine ⟨dic₂, ?_, fun key => ?_⟩
  · simp only [hf, Option.bind_some, hf']
  · rw [hkeys', hkeys, or_assoc]

theorem Adds.guard {c : Prop} [Decidable c] (h : c → Adds f P) :
    Adds (fun dic => if c then f dic else some dic) fun key => c ∧ P key := by
  intro dic
  by_cases hc : c
  · simpa [hc] using h hc dic
  · exact ⟨dic, if_neg hc, fun key => by simp [hc]⟩

theorem Adds.loop {F : Dic → ℕ → Option Dic} {Q : ℕ → List ℕ → Prop} : ∀ (is : List ℕ),
    (∀ i ∈ is, Adds (F · i) (Q i)) → Adds (fun dic => is.foldlM F dic) fun key => ∃ i ∈ is, Q i key
  | [], _ => adds_none.congr fun key => by simp
  | i :: is, h => by
    have hi := h i List.mem_cons_self
    have his := Adds.loop is fun j hj => h j (List.mem_cons_of_mem i hj)
    exact (hi.bind his).congr fun key => by simp

theorem adds_addKey {m : Multiset ℕ} (hm : ∀ i, m.count i ≤ 4) :
    Adds (addKey · (counts m)) (· = counts m) := by
  intro dic
  refine ⟨insert (counts m) dic, ?_, fun key => ?_⟩
  · simp only [addKey, generateKey_counts hm, Option.map_some]
  · rw [Finset.mem_insert, or_comm]

end Adds

/-! ### The keys without wild cards -/

/-- The winds have seven tiles and no runs. -/
def suitRules (feng : Bool) : Rules ℕ where
  tile i := i < if feng then 7 else 9
  runs := !feng

instance (feng : Bool) : DecidablePred (suitRules feng).tile :=
  fun i => inferInstanceAs (Decidable (i < if feng then 7 else 9))

section NoGui

variable {feng jiang : Bool} {m : Multiset ℕ} {i : ℕ}

theorem ranks_of_tile (h : ∀ j ∈ m, (suitRules feng).tile j) : Ranks m := by
  intro j hj
  have hlt : j < if feng then 7 else 9 := h j hj
  split_ifs at hlt <;> omega

/-- The combination can be put to the tiles that lie there. -/
structure Put (feng jiang : Bool) (m : Multiset ℕ) (g : Combo ℕ) : Prop where
  fits : g.Fits (suitRules feng)
  pair : g.isPair = true → jiang = false
  small : Small (m + g.tiles)

theorem small_add_replicate (hm : Small m) (n : ℕ) :
    Small (m + Multiset.replicate n i) ↔ m.card + n ≤ 14 ∧ m.count i + n ≤ 4 := by
  constructor
  · rintro ⟨hcopies, hcard⟩
    have hi := hcopies i
    rw [Multiset.count_add, Multiset.count_replicate_self] at hi
    rw [Multiset.card_add, Multiset.card_replicate] at hcard
    exact ⟨hcard, hi⟩
  · rintro ⟨hcard, hi⟩
    refine ⟨fun j => ?_, by rwa [Multiset.card_add, Multiset.card_replicate]⟩
    rw [Multiset.count_add, Multiset.count_replicate]
    split_ifs with hij
    · rwa [← hij]
    · exact hm.copies j

theorem small_add_run (hm : Small m) : Small (m + (Combo.run i).tiles) ↔
    m.card ≤ 11 ∧ m.count i ≤ 3 ∧ m.count (i + 1) ≤ 3 ∧ m.count (i + 2) ≤ 3 := by
  have hcount (j : ℕ) : (m + (Combo.run i).tiles).count j =
      m.count j + if j = i ∨ j = i + 1 ∨ j = i + 2 then 1 else 0 := by
    rw [Multiset.count_add, Combo.tiles]
    simp only [Multiset.insert_eq_cons, Multiset.count_cons, Multiset.count_singleton]
    split_ifs <;> omega
  have hcard : (m + (Combo.run i).tiles).card = m.card + 3 := Multiset.card_add _ _
  constructor
  · rintro ⟨hcopies, hle⟩
    have h₀ := hcopies i
    have h₁ := hcopies (i + 1)
    have h₂ := hcopies (i + 2)
    simp only [hcount, true_or, or_true, if_true] at h₀ h₁ h₂
    omega
  · rintro ⟨hle, h₀, h₁, h₂⟩
    refine ⟨fun j => ?_, by omega⟩
    rw [hcount]
    split_ifs with hj
    · obtain rfl | rfl | rfl := hj <;> omega
    · exact hm.copies j

theorem put_triplet (hm : Small m) (hi : i < if feng then 7 else 9) :
    Put feng jiang m (.triplet i) ↔ m.card ≤ 11 ∧ m.count i ≤ 1 := by
  have hsmall := small_add_replicate (i := i) hm 3
  constructor
  · rintro ⟨-, -, h⟩
    have := hsmall.mp h
    omega
  · intro h
    refine ⟨⟨fun a ha => ?_, fun h => absurd h (by simp [Combo.isRun])⟩,
      fun h => absurd h (by simp [Combo.isPair]), hsmall.mpr (by omega)⟩
    rw [Multiset.eq_of_mem_replicate (n := 3) ha]
    exact hi

theorem put_pair (hm : Small m) (hi : i < if feng then 7 else 9) :
    Put feng jiang m (.pair i) ↔ jiang = false ∧ m.card ≤ 12 ∧ m.count i ≤ 2 := by
  have hsmall := small_add_replicate (i := i) hm 2
  constructor
  · rintro ⟨-, hjiang, h⟩
    have := hsmall.mp h
    exact ⟨hjiang rfl, by omega⟩
  · rintro ⟨hjiang, h⟩
    refine ⟨⟨fun a ha => ?_, fun h => absurd h (by simp [Combo.isRun])⟩, fun _ => hjiang,
      hsmall.mpr (by omega)⟩
    rw [Multiset.eq_of_mem_replicate (n := 2) ha]
    exact hi

theorem put_run (hm : Small m) :
    Put feng jiang m (.run i) ↔ feng = false ∧ m.card ≤ 11 ∧ i < 7 ∧ m.count i ≤ 3 ∧
      m.count (i + 1) ≤ 3 ∧ m.count (i + 2) ≤ 3 := by
  constructor
  · rintro ⟨⟨htile, hruns⟩, -, h⟩
    obtain ⟨hcard, hcounts⟩ := (small_add_run hm).mp h
    have hfeng : feng = false := by simpa [suitRules] using hruns rfl
    subst hfeng
    have hlt : i + 1 + 1 < 9 := htile (i + 1 + 1) (by simp [Combo.tiles])
    exact ⟨rfl, hcard, by omega, hcounts⟩
  · rintro ⟨rfl, hcard, hi, hcounts⟩
    refine ⟨⟨fun a ha => ?_, fun _ => rfl⟩, fun h => absurd h (by simp [Combo.isPair]),
      (small_add_run hm).mpr ⟨hcard, hcounts⟩⟩
    change a < 9
    simp only [Combo.tiles, Multiset.insert_eq_cons, Multiset.mem_cons, Multiset.mem_singleton] at ha
    omega

/-- Put a combination, record the key, and go on with `deeper`. -/
def putAt (deeper : List ℕ → Bool → Dic → Option Dic) (jiang : Bool) (m : Multiset ℕ) (g : Combo ℕ)
    (dic : Dic) : Option Dic :=
  (addKey dic (counts (m + g.tiles))).bind (deeper (counts (m + g.tiles)) jiang)

theorem genAt_counts {deeper : List ℕ → Bool → Dic → Option Dic} {dic : Dic} (hranks : Ranks m)
    (hi : i < 9) (hskip : ¬(feng = true ∧ 6 < i)) :
    genAt feng deeper (counts m) jiang dic i =
      (if m.card ≤ 11 ∧ m.count i ≤ 1 then putAt deeper jiang m (.triplet i) dic
      else some dic).bind fun dic =>
      (if feng = false ∧ m.card ≤ 11 ∧ i < 7 ∧ m.count i ≤ 3 ∧ m.count (i + 1) ≤ 3 ∧
          m.count (i + 2) ≤ 3 then putAt deeper jiang m (.run i) dic
      else some dic).bind fun dic =>
      if jiang = false ∧ m.card ≤ 12 ∧ m.count i ≤ 2 then putAt deeper true m (.pair i) dic
      else some dic := by
  rw [genAt, if_neg hskip]
  simp only [calTotalCardCount_counts hranks, getD_counts hranks, addAt_counts _ hi]
  by_cases hrun : i < 7
  · have htiles : m + Multiset.replicate 1 i + Multiset.replicate 1 (i + 1) +
        Multiset.replicate 1 (i + 2) = m + (Combo.run i).tiles := by
      rw [add_assoc, add_assoc]
      rfl
    simp only [addAt_counts _ (show i + 1 < 9 by omega), addAt_counts _ (show i + 2 < 9 by omega),
      htiles]
    rfl
  · simp only [hrun, false_and, and_false, if_false, Option.bind_some]
    rfl

/-- What `genTableNoGui` adds at one place: the keys of the combinations that can be put there, and
    what the next level adds behind each. -/
theorem adds_genAt {deeper : List ℕ → Bool → Dic → Option Dic}
    {Deeper : Bool → Multiset ℕ → List ℕ → Prop}
    (hdeeper : ∀ jiang m, Ranks m → Small m → Adds (deeper (counts m) jiang) (Deeper jiang m))
    (hranks : Ranks m) (hm : Small m) (hi : i < 9) :
    Adds (genAt feng deeper (counts m) jiang · i) fun key => ∃ g : Combo ℕ, g.first = i ∧
      Put feng jiang m g ∧ (key = counts (m + g.tiles) ∨
        Deeper (jiang || g.isPair) (m + g.tiles) key) := by
  have hput {g : Combo ℕ} (jiang' : Bool) (hput : Put feng jiang m g) : Adds (putAt deeper jiang' m g)
      fun key => key = counts (m + g.tiles) ∨ Deeper jiang' (m + g.tiles) key := by
    refine (adds_addKey hput.small.copies).bind (hdeeper jiang' _ (fun j hj => ?_) hput.small)
    obtain hj | hj := Multiset.mem_add.mp hj
    · exact hranks j hj
    · exact ranks_of_tile hput.fits.tile j hj
  by_cases hskip : feng = true ∧ 6 < i
  · -- no wind lies there
    have hnone : Adds (genAt feng deeper (counts m) jiang · i) fun _ => False :=
      fun dic => ⟨dic, if_pos hskip, fun key => by simp⟩
    refine hnone.congr fun key => iff_of_false id ?_
    rintro ⟨g, hfirst, hput, -⟩
    have htile : g.first < if feng then 7 else 9 := hput.fits.tile _ g.first_mem
    rw [hskip.1, if_pos rfl] at htile
    omega
  have htile : i < if feng then 7 else 9 := by
    cases feng <;> simp at hskip ⊢ <;> omega
  have htriplet : Put feng jiang m (.triplet i) ↔ _ := put_triplet hm htile
  have hrun : Put feng jiang m (.run i) ↔ _ := put_run hm
  have hpair : Put feng jiang m (.pair i) ↔ _ := put_pair hm htile
  have hall := (Adds.guard fun h => hput jiang (htriplet.mpr h)).bind
    ((Adds.guard fun h => hput jiang (hrun.mpr h)).bind
      (Adds.guard fun h => hput true (hpair.mpr h)))
  simp only [genAt_counts hranks hi hskip]
  refine hall.congr fun key => ?_
  rw [← htriplet, ← hrun, ← hpair]
  constructor
  · rintro (⟨hput, hkey⟩ | ⟨hput, hkey⟩ | ⟨hput, hkey⟩)
    · exact ⟨.triplet i, rfl, hput, by simpa [Combo.isPair] using hkey⟩
    · exact ⟨.run i, rfl, hput, by simpa [Combo.isPair] using hkey⟩
    · exact ⟨.pair i, rfl, hput, by simpa [Combo.isPair] using hkey⟩
  · rintro ⟨g, rfl, hput, hkey⟩
    cases g with
    | triplet j => exact .inl ⟨hput, by simpa [Combo.isPair, Combo.first] using hkey⟩
    | run j => exact .inr (.inl ⟨hput, by simpa [Combo.isPair, Combo.first] using hkey⟩)
    | pair j => exact .inr (.inr ⟨hput, by simpa [Combo.isPair, Combo.first] using hkey⟩)

theorem adds_level {deeper : List ℕ → Bool → Dic → Option Dic}
    (Deeper : Bool → Multiset ℕ → List ℕ → Prop)
    (hdeeper : ∀ jiang m, Ranks m → Small m → Adds (deeper (counts m) jiang) (Deeper jiang m))
    (hranks : Ranks m) (hm : Small m) :
    Adds (fun dic => (List.range 9).foldlM (genAt feng deeper (counts m) jiang) dic) fun key =>
      ∃ g : Combo ℕ, Put feng jiang m g ∧ (key = counts (m + g.tiles) ∨
        Deeper (jiang || g.isPair) (m + g.tiles) key) := by
  refine (Adds.loop (List.range 9) fun i hi =>
    adds_genAt hdeeper hranks hm (List.mem_range.mp hi)).congr fun key => ?_
  constructor
  · rintro ⟨_, _, g, _, h⟩
    exact ⟨g, h⟩
  · rintro ⟨g, hput, hkey⟩
    have hfirst := ranks_of_tile hput.fits.tile g.first g.first_mem
    exact ⟨g.first, List.mem_range.mpr hfirst, g, rfl, hput, hkey⟩

/-- The keys that combinations put to `m` one after the other lead to, `below + 1` at most. -/
def Gets (feng : Bool) (below : ℕ) (jiang : Bool) (m : Multiset ℕ) (key : List ℕ) : Prop :=
  ∃ gs : List (Combo ℕ), gs ≠ [] ∧ gs.length ≤ below + 1 ∧ (∀ g ∈ gs, g.Fits (suitRules feng)) ∧
    jiang.toNat + gs.countP Combo.isPair ≤ 1 ∧ Small (m + total gs) ∧ key = counts (m + total gs)

theorem gets_of_put {below : ℕ} {g : Combo ℕ} (hput : Put feng jiang m g) :
    Gets feng below jiang m (counts (m + g.tiles)) := by
  have htotal : total [g] = g.tiles := by simp
  refine ⟨[g], List.cons_ne_nil g [], by simp, fun g' hg' => ?_, ?_, ?_, by rw [htotal]⟩
  · rw [List.mem_singleton.mp hg']
    exact hput.fits
  · have hpair := hput.pair
    cases hg : g.isPair <;> cases jiang <;> simp_all
  · rw [htotal]
    exact hput.small

theorem put_of_cons {g : Combo ℕ} {gs : List (Combo ℕ)}
    (hfits : ∀ g' ∈ g :: gs, g'.Fits (suitRules feng))
    (hpairs : jiang.toNat + (g :: gs).countP Combo.isPair ≤ 1) (hsmall : Small (m + total (g :: gs))) :
    Put feng jiang m g := by
  rw [total_cons, ← add_assoc] at hsmall
  refine ⟨hfits g List.mem_cons_self, fun hg => ?_, hsmall.mono (Multiset.le_add_right _ _)⟩
  rw [List.countP_cons, hg] at hpairs
  cases jiang
  · rfl
  · simp at hpairs

/-- The first combination can be put, and the others after it. -/
theorem gets_succ_iff {below : ℕ} {key : List ℕ} : Gets feng (below + 1) jiang m key ↔
    ∃ g : Combo ℕ, Put feng jiang m g ∧ (key = counts (m + g.tiles) ∨
      Gets feng below (jiang || g.isPair) (m + g.tiles) key) := by
  constructor
  · rintro ⟨gs, hne, hlen, hfits, hpairs, hsmall, rfl⟩
    obtain ⟨g, gs, rfl⟩ := List.exists_cons_of_ne_nil hne
    refine ⟨g, put_of_cons hfits hpairs hsmall, ?_⟩
    rw [total_cons, ← add_assoc] at hsmall ⊢
    rw [List.countP_cons] at hpairs
    cases hgs : gs with
    | nil => simp
    | cons g' gs' =>
      rw [← hgs]
      refine .inr ⟨gs, by simp [hgs], by simpa using hlen,
        fun g' hg' => hfits g' (List.mem_cons_of_mem g hg'), ?_, hsmall, rfl⟩
      cases jiang <;> cases hg : g.isPair <;> simp_all
  · rintro ⟨g, hput, rfl | ⟨gs, hne, hlen, hfits, hpairs, hsmall, rfl⟩⟩
    · exact gets_of_put hput
    · refine ⟨g :: gs, List.cons_ne_nil g gs, by simpa using hlen, fun g' hg' => ?_, ?_, ?_, ?_⟩
      · obtain rfl | hg' := List.mem_cons.mp hg'
        · exact hput.fits
        · exact hfits g' hg'
      · have hpair := hput.pair
        rw [List.countP_cons]
        cases jiang <;> cases hg : g.isPair <;> simp_all
      · rwa [total_cons, ← add_assoc]
      · rw [total_cons, ← add_assoc]

theorem gets_zero_iff {key : List ℕ} : Gets feng 0 jiang m key ↔
    ∃ g : Combo ℕ, Put feng jiang m g ∧ key = counts (m + g.tiles) := by
  constructor
  · rintro ⟨gs, hne, hlen, hfits, hpairs, hsmall, rfl⟩
    obtain ⟨g, gs, rfl⟩ := List.exists_cons_of_ne_nil hne
    obtain rfl : gs = [] := List.eq_nil_of_length_eq_zero (by simpa using hlen)
    exact ⟨g, put_of_cons hfits hpairs hsmall, by simp⟩
  · rintro ⟨g, hput, rfl⟩
    exact gets_of_put hput

theorem adds_genTableNoGui (feng : Bool) : ∀ (below : ℕ) (jiang : Bool) (m : Multiset ℕ), Ranks m →
    Small m → Adds (genTableNoGui feng below (counts m) jiang) (Gets feng below jiang m)
  | 0, jiang, m, hranks, hm => by
    refine (adds_level (fun _ _ _ => False) (fun _ _ _ _ => adds_none) hranks hm).congr
      fun key => ?_
    rw [gets_zero_iff]
    simp
  | below + 1, jiang, m, hranks, hm => by
    refine (adds_level _ (adds_genTableNoGui feng below) hranks hm).congr fun key => ?_
    rw [gets_succ_iff]

/-- A suit that is a winning one without wild cards. -/
def IsKey (feng : Bool) (m : Multiset ℕ) : Prop :=
  m ≠ 0 ∧ Small m ∧ ∃ pairs gs, pairs ≤ 1 ∧ Splits (suitRules feng) pairs m gs

theorem IsKey.ranks (h : IsKey feng m) : Ranks m := by
  obtain ⟨-, -, pairs, gs, -, hsplits⟩ := h
  exact ranks_of_tile hsplits.tile

/-- Five levels are enough. -/
theorem gets_iff_isKey {key : List ℕ} :
    Gets feng 5 false 0 key ↔ ∃ m, IsKey feng m ∧ key = counts m := by
  constructor
  · rintro ⟨gs, hne, -, hfits, hpairs, hsmall, rfl⟩
    rw [zero_add] at hsmall ⊢
    have hkey : IsKey feng (total gs) :=
      ⟨total_ne_zero hne, hsmall, gs.countP Combo.isPair, gs, by simpa using hpairs, hfits, rfl, rfl⟩
    exact ⟨total gs, hkey, rfl⟩
  · rintro ⟨m, ⟨hne, hsmall, pairs, gs, hpairs, hsplits⟩, rfl⟩
    have hcard := hsplits.card
    have hle := hsmall.card
    obtain ⟨hfits, rfl, rfl⟩ := hsplits
    refine ⟨gs, ?_, by omega, hfits, by simpa using hpairs, by rwa [zero_add], by rw [zero_add]⟩
    rintro rfl
    exact hne rfl

theorem genTableNoGui_spec (feng : Bool) : ∃ dic,
    genTableNoGui feng 5 (List.replicate 9 0) false ∅ = some dic ∧
      ∀ key, key ∈ dic ↔ ∃ m, IsKey feng m ∧ key = counts m := by
  have hzero : Small 0 := ⟨fun i => by simp, by simp⟩
  obtain ⟨dic, hdic, hkeys⟩ := adds_genTableNoGui feng 5 false 0 (fun i hi => absurd hi (by simp)) hzero ∅
  refine ⟨dic, hdic, fun key => ?_⟩
  rw [hkeys, gets_iff_isKey]
  simp

end NoGui

/-! ### The keys with wild cards -/

/-- One tile less and one wild card more. -/
def guiChildren (n : ℕ × List ℕ) : List (ℕ × List ℕ) :=
  if n.1 < 8 then
    ((List.range 9).filter fun i => n.2.getD i 0 ≠ 0).map fun i => (n.1 + 1, n.2.modify i (· - 1))
  else []

section Gui

variable {m : Multiset ℕ} {cards : List ℕ} {dic : GuiDic}

/-- A loop that skips some of its turns. -/
theorem foldlM_filter {I : Type} {F : GuiDic → I → Option GuiDic} {p : I → Prop} [DecidablePred p]
    {c : I → ℕ × List ℕ} {h : GuiDic → ℕ × List ℕ → GuiDic} : ∀ (is : List I) (dic : GuiDic),
    (∀ dic, ∀ i ∈ is, F dic i = some (if p i then h dic (c i) else dic)) →
    is.foldlM F dic = some (((is.filter p).map c).foldl h dic)
  | [], dic, _ => rfl
  | i :: is, dic, hF => by
    have ih := foldlM_filter is (if p i then h dic (c i) else dic)
      fun dic j hj => hF dic j (List.mem_cons_of_mem i hj)
    rw [List.foldlM_cons, hF dic i List.mem_cons_self]
    change is.foldlM F _ = _
    rw [ih]
    by_cases hp : p i
    · simp [hp]
    · simp [hp]

theorem tryAdd_eq (hcards : ∀ v ∈ cards, v ≤ 4) (guiCount : ℕ) : tryAdd cards guiCount dic =
    some (if (guiCount, cards) ∈ dic then (false, dic) else (true, insert (guiCount, cards) dic)) := by
  have hno : ¬∃ v ∈ cards, 4 < v := fun ⟨v, hv, hlt⟩ => absurd (hcards v hv) (by omega)
  have hkey : generateKey cards = some cards := if_pos hcards
  rw [tryAdd, if_neg hno, hkey, Option.map_some]

theorem modify_le_four (hcards : ∀ v ∈ cards, v ≤ 4) (i : ℕ) :
    ∀ v ∈ cards.modify i (· - 1), v ≤ 4 := by
  intro v hv
  obtain ⟨j, hj⟩ := List.mem_iff_getElem?.mp hv
  rw [List.getElem?_modify] at hj
  obtain ⟨w, hw, rfl⟩ := Option.map_eq_some_iff.mp hj
  have hle := hcards w (List.mem_of_getElem? hw)
  split_ifs <;> omega

/-- The loop of `genGui` is a loop over the children. -/
theorem genGui_level {n below : ℕ} {deeper : List ℕ → GuiDic → Option GuiDic} (hn : n < 8)
    (hcards : ∀ v ∈ cards, v ≤ 4)
    (hdeeper : ∀ cards dic, (∀ v ∈ cards, v ≤ 4) →
      deeper cards dic = some (explore guiChildren below (n + 1, cards) dic)) :
    (List.range 9).foldlM (genGuiAt deeper cards (n + 1)) dic =
      some (explore guiChildren (below + 1) (n, cards) dic) := by
  rw [explore, guiChildren, if_pos hn]
  refine foldlM_filter (List.range 9) dic fun dic i _ => ?_
  have hle := modify_le_four hcards i
  by_cases hzero : cards.getD i 0 = 0
  · rw [genGuiAt, if_pos hzero, if_neg (not_not.mpr hzero)]
  rw [genGuiAt, if_neg hzero, if_pos hzero, tryAdd_eq hle]
  by_cases hmem : (n + 1, cards.modify i (· - 1)) ∈ dic
  · rw [if_pos hmem, if_pos hmem]
    rfl
  · rw [if_neg hmem, if_neg hmem]
    exact hdeeper _ _ hle

theorem genGui_eq_explore : ∀ (below n : ℕ) (cards : List ℕ) (dic : GuiDic), n + below = 7 →
    (∀ v ∈ cards, v ≤ 4) →
    genGui below cards (n + 1) dic = some (explore guiChildren (below + 1) (n, cards) dic)
  | 0, n, cards, dic, hn, hcards => by
    rw [genGui]
    exact genGui_level (by omega) hcards fun cards dic _ => rfl
  | below + 1, n, cards, dic, hn, hcards => by
    rw [genGui]
    exact genGui_level (by omega) hcards fun cards dic hle =>
      genGui_eq_explore below (n + 1) cards dic (by omega) hle

theorem mem_guiChildren (hm : Ranks m) {n : ℕ} {y : ℕ × List ℕ} :
    y ∈ guiChildren (n, counts m) ↔ n < 8 ∧ ∃ i ∈ m, y = (n + 1, counts (m.erase i)) := by
  unfold guiChildren
  split_ifs with hn
  · simp only [List.mem_map, List.mem_filter, List.mem_range, decide_eq_true_eq]
    constructor
    · rintro ⟨i, ⟨hi, hcount⟩, rfl⟩
      rw [getD_counts hm] at hcount
      exact ⟨hn, i, Multiset.count_ne_zero.mp hcount, by rw [counts_erase m hi]⟩
    · rintro ⟨-, i, hi, rfl⟩
      refine ⟨i, ⟨hm i hi, ?_⟩, by rw [counts_erase m (hm i hi)]⟩
      rw [getD_counts hm]
      exact Multiset.count_ne_zero.mpr hi
  · exact iff_of_false List.not_mem_nil fun h => hn h.1

/-- What lies behind a suit: what is left of it when tiles are taken out, one wild card for each. -/
theorem behind_iff (hm : Ranks m) {n : ℕ} {y : ℕ × List ℕ} :
    Behind guiChildren (n, counts m) y ↔ ∃ u m', u ≠ 0 ∧ m = m' + u ∧ n + u.card ≤ 8 ∧
      y = (n + u.card, counts m') := by
  constructor
  · intro h
    induction h with
    | single hy =>
      obtain ⟨hn, i, hi, rfl⟩ := (mem_guiChildren hm).mp hy
      refine ⟨{i}, m.erase i, by simp, ?_, hn, rfl⟩
      rw [add_comm, Multiset.singleton_add, Multiset.cons_erase hi]
    | tail _ hz ih =>
      obtain ⟨u, m', hu, rfl, hle, rfl⟩ := ih
      have hm' : Ranks m' := fun i hi => hm i (Multiset.mem_add.mpr (.inl hi))
      obtain ⟨hn, i, hi, rfl⟩ := (mem_guiChildren hm').mp hz
      refine ⟨i ::ₘ u, m'.erase i, by simp, ?_, by rw [Multiset.card_cons]; omega,
        by rw [Multiset.card_cons]; rfl⟩
      rw [Multiset.add_cons, ← Multiset.cons_add, Multiset.cons_erase hi]
  · rintro ⟨u, m', hu, rfl, hle, rfl⟩
    induction u using Multiset.induction_on generalizing m' with
    | empty => exact absurd rfl hu
    | cons i u ih =>
      rw [Multiset.card_cons] at hle ⊢
      rw [Multiset.add_cons, ← Multiset.cons_add] at hm ⊢
      have hlast : (n + (u.card + 1), counts m') ∈ guiChildren (n + u.card, counts (i ::ₘ m')) := by
        refine (mem_guiChildren fun j hj => hm j (Multiset.mem_add.mpr (.inl hj))).mpr
          ⟨by omega, i, Multiset.mem_cons_self i m', ?_⟩
        rw [Multiset.erase_cons_head, Nat.add_assoc]
      by_cases hzero : u = 0
      · subst hzero
        rw [add_zero] at hm ⊢
        exact .single hlast
      · exact .tail (ih (i ::ₘ m') hzero hm (by omega)) hlast

/-- The tables with wild cards hold what is left of the keys when tiles are taken out. -/
theorem genTableGui_spec {feng : Bool} {keys : List (List ℕ)}
    (hkeys : ∀ key, key ∈ keys ↔ ∃ m, IsKey feng m ∧ key = counts m) :
    ∃ dic, genTableGui keys ∅ = some dic ∧ ∀ guiCount key, (guiCount, key) ∈ dic ↔
      ∃ m u, IsKey feng (m + u) ∧ u ≠ 0 ∧ u.card ≤ 8 ∧ guiCount = u.card ∧ key = counts m := by
  have hexplore := foldlM_filter (p := fun _ => True) (c := fun key => (0, key))
    (h := fun seen r => explore guiChildren 8 r seen) (F := fun dic key => genGui 7 key 1 dic) keys ∅
    fun dic key hkey => by
      obtain ⟨m, hm, rfl⟩ := (hkeys key).mp hkey
      rw [if_pos trivial]
      refine genGui_eq_explore 7 0 (counts m) dic rfl fun v hv => ?_
      obtain ⟨i, _, rfl⟩ := List.mem_map.mp hv
      exact hm.2.1.copies i
  have hrank : ∀ n, ∀ y ∈ guiChildren n, 8 - y.1 < 8 - n.1 := by
    intro n y hy
    unfold guiChildren at hy
    split_ifs at hy with hn
    · obtain ⟨i, _, rfl⟩ := List.mem_map.mp hy
      dsimp only
      omega
    · exact absurd hy List.not_mem_nil
  refine ⟨_, hexplore, fun guiCount key => ?_⟩
  rw [mem_explore_roots hrank _ _ ∅ (fun r _ => Nat.sub_le 8 r.1) fun y hy => absurd hy (by simp)]
  simp only [Finset.notMem_empty, false_or, List.mem_map, List.mem_filter, decide_true, and_true]
  constructor
  · rintro ⟨_, ⟨key', hmem, rfl⟩, hbehind⟩
    obtain ⟨m, hm, rfl⟩ := (hkeys key').mp hmem
    obtain ⟨u, m', hu, rfl, hle, heq⟩ := (behind_iff hm.ranks).mp hbehind
    obtain ⟨rfl, rfl⟩ := Prod.mk.inj heq
    exact ⟨m', u, hm, hu, by omega, by omega, rfl⟩
  · rintro ⟨m, u, hkey, hu, hle, rfl, rfl⟩
    refine ⟨_, ⟨counts (m + u), (hkeys _).mpr ⟨m + u, hkey, rfl⟩, rfl⟩, ?_⟩
    exact (behind_iff hkey.ranks).mpr ⟨u, m, hu, rfl, by omega, by rw [Nat.zero_add]⟩

end Gui

/-! ### The tables -/

/-- What the tables hold, and that they are made without a panic. -/
structure Table.Complete (t : Table) : Prop where
  keyDic : ∀ key, t.keyDic key = true ↔ ∃ m, IsKey false m ∧ key = counts m
  keyGuiDic : ∀ guiCount key, t.keyGuiDic guiCount key = true ↔
    ∃ m u, IsKey false (m + u) ∧ u ≠ 0 ∧ u.card ≤ 8 ∧ guiCount = u.card ∧ key = counts m
  keyFengDic : ∀ key, t.keyFengDic key = true ↔ ∃ m, IsKey true m ∧ key = counts m
  keyFengGuiDic : ∀ guiCount key, t.keyFengGuiDic guiCount key = true ↔
    ∃ m u, IsKey true (m + u) ∧ u ≠ 0 ∧ u.card ≤ 8 ∧ guiCount = u.card ∧ key = counts m

theorem isOrder_toList : IsOrder Finset.toList :=
  fun dic => ⟨dic.nodup_toList, fun _ => Finset.mem_toList⟩

theorem gen_complete {order : Dic → List (List ℕ)} (horder : IsOrder order) :
    ∃ t, gen order = some t ∧ t.Complete := by
  obtain ⟨keyDic, hkeyDic, hkeys⟩ := genTableNoGui_spec false
  obtain ⟨keyFengDic, hkeyFengDic, hfengKeys⟩ := genTableNoGui_spec true
  obtain ⟨keyGuiDic, hkeyGuiDic, hguiKeys⟩ := genTableGui_spec fun key => by
    rw [(horder keyDic).2, hkeys key]
  obtain ⟨keyFengGuiDic, hkeyFengGuiDic, hfengGuiKeys⟩ := genTableGui_spec fun key => by
    rw [(horder keyFengDic).2, hfengKeys key]
  refine ⟨_, by rw [gen, hkeyDic, Option.bind_some, hkeyGuiDic, Option.bind_some, hkeyFengDic,
    Option.bind_some, hkeyFengGuiDic, Option.map_some], ?_⟩
  exact ⟨fun key => by rw [decide_eq_true_eq, hkeys], fun g key => by rw [decide_eq_true_eq, hguiKeys],
    fun key => by rw [decide_eq_true_eq, hfengKeys],
    fun g key => by rw [decide_eq_true_eq, hfengGuiKeys]⟩

end GoServices.Mahjong
