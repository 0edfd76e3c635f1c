import GoServices.Mahjong.Suits

/-! The winning-hand check against what a winning hand is.

    `isHu` takes the suits one after the other. For each it spends the fewest wild cards that complete
    it, with a pair or without, as long as there is no pair, and without a pair from then on. A suit
    that is completed with a pair is never taken back. So the pair goes to the first suit that needs
    fewer wild cards with a pair than without one, and the check is exact when that choice is as good
    as any other. -/

namespace GoServices.Mahjong

open Melds

/-- The hands that are checked. -/
structure Hand (tiles : List ℤ) : Prop where
  tile : ∀ c ∈ tiles, c = zhong ∨ SuitTile c
  copies : ∀ c, SuitTile c → tiles.count c ≤ 4
  wild : tiles.count zhong ≤ 8
  length : tiles.length ∈ [2, 5, 8, 11, 14]

instance (tiles : List ℤ) : Decidable (Hand tiles) :=
  decidable_of_iff ((∀ c ∈ tiles, c = zhong ∨ SuitTile c) ∧
    (∀ c ∈ tiles, SuitTile c → tiles.count c ≤ 4) ∧ tiles.count zhong ≤ 8 ∧
    tiles.length ∈ [2, 5, 8, 11, 14])
    ⟨fun ⟨htile, hcopies, hwild, hlength⟩ => ⟨htile, fun c hc => by
        by_cases hmem : c ∈ tiles
        · exact hcopies c hmem hc
        · rw [List.count_eq_zero.mpr hmem]
          omega, hwild, hlength⟩,
      fun h => ⟨h.tile, fun c _ => h.copies c, h.wild, h.length⟩⟩

/-! ### Counting -/

/-- The counts of three suits; the winds are not there. -/
def rows (m : ℕ → Multiset ℕ) : List (List ℕ) := [counts (m 0), counts (m 1), counts (m 2), counts 0]

theorem countCard_suitTile {c : ℤ} (hc : SuitTile c) (m : ℕ → Multiset ℕ) (g : ℕ) :
    countCard [zhong] (rows m, g) c =
      some (rows fun t => if c / 10 = (t : ℤ) then rank c ::ₘ m t else m t, g) := by
  have hzhong : c ∉ [zhong] := by
    rw [List.mem_singleton]
    rintro rfl
    exact absurd hc (by decide)
  have hadd (x : Multiset ℕ) : (counts x).modify (rank c) (· + 1) = counts (rank c ::ₘ x) := by
    have h := addAt_counts x (rank_lt c) 1
    rwa [addAt, Multiset.replicate_one, add_comm, Multiset.singleton_add] at h
  have hpos : 0 ≤ c := hc.1.le
  have hrow (i : ℕ) (hi : c / 10 = i) : countCard [zhong] (rows m, g) c =
      some ((rows m).modify i fun row => row.modify (rank c) (· + 1), g) := by
    have hbounds : 0 ≤ c / 10 ∧ c / 10 < 4 ∧ 0 ≤ c % 10 - 1 ∧ c % 10 - 1 < 9 := by
      unfold SuitTile at hc
      omega
    unfold countCard
    rw [if_neg hzhong, Int.tdiv_eq_ediv_of_nonneg hpos, Int.tmod_eq_emod_of_nonneg hpos]
    dsimp only
    rw [if_pos hbounds, hi]
    rfl
  obtain h | h | h : c / 10 = (0 : ℕ) ∨ c / 10 = (1 : ℕ) ∨ c / 10 = (2 : ℕ) := by
    unfold SuitTile at hc
    omega
  · rw [hrow 0 h]
    simp [rows, h, hadd]
  · rw [hrow 1 h]
    simp [rows, h, hadd]
  · rw [hrow 2 h]
    simp [rows, h, hadd]

theorem foldlM_countCard {tiles : List ℤ} (htile : ∀ c ∈ tiles, c = zhong ∨ SuitTile c) :
    ∀ (m : ℕ → Multiset ℕ) (g : ℕ), tiles.foldlM (countCard [zhong]) (rows m, g) =
      some (rows fun t => m t + suitOf t tiles, g + tiles.count zhong) := by
  induction tiles with
  | nil =>
    intro m g
    simp [rows]
  | cons c tiles ih =>
    intro m g
    have ih := ih fun c' hc' => htile c' (List.mem_cons_of_mem c hc')
    have hcons (t : ℕ) : suitOf t (↑(c :: tiles)) = suitOf t (c ::ₘ ↑tiles) := rfl
    rw [List.foldlM_cons]
    obtain rfl | hc := htile c List.mem_cons_self
    · have hwild : countCard [zhong] (rows m, g) zhong = some (rows m, g + 1) := if_pos (by simp)
      rw [hwild]
      change tiles.foldlM (countCard [zhong]) (rows m, g + 1) = _
      have hno (t : ℕ) : ¬(SuitTile zhong ∧ zhong / 10 = (t : ℤ)) := fun h => absurd h.1 (by decide)
      simp only [ih, hcons, suitOf_cons, if_neg (hno _), List.count_cons_self, Nat.add_assoc,
        Nat.add_comm 1]
    · rw [countCard_suitTile hc]
      change tiles.foldlM (countCard [zhong]) (rows _, g) = _
      have hne : c ≠ zhong := by
        rintro rfl
        exact absurd hc (by decide)
      have hrow (t : ℕ) : (if c / 10 = (t : ℤ) then rank c ::ₘ m t else m t) + suitOf t tiles =
          m t + suitOf t (c ::ₘ ↑tiles) := by
        rw [suitOf_cons]
        by_cases h : c / 10 = (t : ℤ)
        · simp [h, hc]
        · simp [h]
      simp only [ih, hrow, hcons, List.count_cons_of_ne hne]

/-! ### One suit -/

/-- `n` wild cards complete the suit, with `pairs` pairs. -/
abbrev Filled (pairs n : ℕ) (m : Multiset ℕ) : Prop := Completes (suitRules false) 4 pairs n m

/-- The check takes the suit with `n` wild cards, given whether there is a pair already. -/
def Takes (jiang : Bool) (n : ℕ) (m : Multiset ℕ) : Prop :=
  Filled 0 n m ∨ jiang = false ∧ Filled 1 n m

/-- The suit is taken with `g` of `n` wild cards, and not with fewer. -/
structure Took (jiang : Bool) (n : ℕ) (m : Multiset ℕ) (data : CardData) (g : ℕ) : Prop where
  le : g ≤ n
  filled : data.jiang = jiang ∧ Filled 0 g m ∨ jiang = false ∧ data.jiang = true ∧ Filled 1 g m
  least : ∀ g' < g, ¬Takes jiang g' m
  guiCount : data.guiCount = n - g

section Suit

variable {t : Table} {m : Multiset ℕ} {jiang : Bool} {n g : ℕ}

theorem isKey_iff_filled (hne : m ≠ 0) (hcard : m.card + g ≤ 14) :
    (∃ u, u.card = g ∧ IsKey false (m + u)) ↔ Filled 0 g m ∨ Filled 1 g m := by
  constructor
  · rintro ⟨u, hu, -, hsmall, pairs, gs, hpairs, hsplits⟩
    obtain rfl | rfl : pairs = 0 ∨ pairs = 1 := by omega
    · exact .inl ⟨u, gs, hu, hsmall.copies, hsplits⟩
    · exact .inr ⟨u, gs, hu, hsmall.copies, hsplits⟩
  · have hkey {u : Multiset ℕ} (hu : u.card = g) (hcopies : ∀ i, (m + u).count i ≤ 4) :
        m + u ≠ 0 ∧ Small (m + u) :=
      ⟨fun h => hne (by simpa using (add_eq_zero.mp h).1), hcopies, by rwa [Multiset.card_add, hu]⟩
    rintro (⟨u, gs, hu, hcopies, hsplits⟩ | ⟨u, gs, hu, hcopies, hsplits⟩)
    · exact ⟨u, hu, (hkey hu hcopies).1, (hkey hu hcopies).2, 0, gs, by omega, hsplits⟩
    · exact ⟨u, hu, (hkey hu hcopies).1, (hkey hu hcopies).2, 1, gs, by omega, hsplits⟩

/-- A look at the table. -/
theorem findCards_spec (ht : t.Complete) (hranks : Ranks m) (hcopies : ∀ i, m.count i ≤ 4)
    (hne : m ≠ 0) (hg : g ≤ 8) (hcard : m.card + g ≤ 14) :
    ∃ b, t.findCards (counts m) g false = some b ∧ (b = true ↔ Filled 0 g m ∨ Filled 1 g m) := by
  rw [Table.findCards, generateKey_counts hcopies, Option.map_some]
  refine ⟨_, rfl, ?_⟩
  rw [← isKey_iff_filled hne hcard]
  by_cases hpos : 0 < g
  · rw [if_pos hpos, if_neg Bool.false_ne_true, ht.keyGuiDic]
    constructor
    · rintro ⟨m', u, hkey, -, -, rfl, hcounts⟩
      have hm' : Ranks m' := fun i hi => hkey.ranks i (Multiset.mem_add.mpr (.inl hi))
      rw [counts_inj hranks hm' hcounts]
      exact ⟨u, rfl, hkey⟩
    · rintro ⟨u, rfl, hkey⟩
      exact ⟨m, u, hkey, Multiset.card_pos.mp hpos, hg, rfl, rfl⟩
  · obtain rfl : g = 0 := by omega
    rw [if_neg hpos, if_neg Bool.false_ne_true, ht.keyDic]
    constructor
    · rintro ⟨m', hkey, hcounts⟩
      rw [← counts_inj hranks hkey.ranks hcounts] at hkey
      exact ⟨0, rfl, by rwa [add_zero]⟩
    · rintro ⟨u, hu, hkey⟩
      rw [Multiset.card_eq_zero.mp hu, add_zero] at hkey
      exact ⟨m, hkey, rfl⟩

theorem not_takes_of_lt_succ (hleast : ∀ g' < g, ¬Takes jiang g' m) (h : ¬Takes jiang g m) :
    ∀ g' < g + 1, ¬Takes jiang g' m := by
  intro g' hg'
  obtain hlt | rfl := Nat.lt_succ_iff_lt_or_eq.mp hg'
  · exact hleast g' hlt
  · exact h

/-- One try: with `g` wild cards the suit is taken, or the check goes on. -/
theorem checkOnce_spec (ht : t.Complete) (hranks : Ranks m) (hcopies : ∀ i, m.count i ≤ 4)
    (hne : m ≠ 0) (hg : g ≤ n) (hn : n ≤ 8) (hcard : m.card + n ≤ 14)
    (hleast : ∀ g' < g, ¬Takes jiang g' m) (more : Option (Bool × CardData)) :
    (∃ data, checkOnce t false ⟨counts m, n, jiang⟩ g more = some (true, data) ∧
      Took jiang n m data g) ∨
    checkOnce t false ⟨counts m, n, jiang⟩ g more = more ∧ ∀ g' < g + 1, ¬Takes jiang g' m := by
  obtain ⟨b, hfind, hb⟩ := findCards_spec ht hranks hcopies hne (g := g) (by omega) (by omega)
  have hpos : m.card ≠ 0 := fun h => hne (Multiset.card_eq_zero.mp h)
  unfold checkOnce
  simp only [calTotalCardCount_counts hranks, if_neg hpos, hfind, Option.bind_some]
  -- a suit that is completed without a pair leaves another remainder than one with a pair
  have hzero (h : Filled 0 g m) : (m.card + g) % 3 ≠ 2 := by
    have := h.mod_three
    omega
  have hone (h : Filled 1 g m) : (m.card + g) % 3 = 2 := by
    have := h.mod_three
    omega
  by_cases htakes : Takes jiang g m
  · refine .inl ?_
    obtain h | ⟨rfl, h⟩ := htakes
    · rw [if_neg (by simp [hb.mpr (.inl h)]), if_neg (hzero h)]
      exact ⟨_, rfl, hg, .inl ⟨rfl, h⟩, hleast, rfl⟩
    · rw [if_neg (by simp [hb.mpr (.inr h)]), if_pos (hone h), if_pos rfl]
      exact ⟨_, rfl, hg, .inr ⟨rfl, rfl, h⟩, hleast, rfl⟩
  · refine .inr ⟨?_, not_takes_of_lt_succ hleast htakes⟩
    by_cases hfound : b = true
    · rw [if_neg (by simp [hfound])]
      obtain h | h := hb.mp hfound
      · exact absurd (.inl h) htakes
      · rw [if_pos (hone h), if_neg]
        exact fun hjiang => htakes (.inr ⟨hjiang, h⟩)
    · rw [if_pos (by simpa using hfound)]

/-- The recursion tries more and more wild cards and stops at the first number that is enough. -/
theorem checkCardsFrom_spec (ht : t.Complete) (hranks : Ranks m) (hcopies : ∀ i, m.count i ≤ 4)
    (hne : m ≠ 0) (hn : n ≤ 8) (hcard : m.card + n ≤ 14) : ∀ (rest g : ℕ), g + rest = n →
    (∀ g' < g, ¬Takes jiang g' m) →
    ∃ r, checkCardsFrom t false ⟨counts m, n, jiang⟩ rest g = some r ∧
      (r.1 = true → ∃ g, Took jiang n m r.2 g) ∧ (r.1 = false → ∀ g ≤ n, ¬Takes jiang g m)
  | 0, g, hg, hleast => by
    rw [checkCardsFrom]
    obtain ⟨data, hdata, htook⟩ | ⟨hmore, hnone⟩ := checkOnce_spec ht hranks hcopies hne
      (Nat.le.intro hg) hn hcard hleast (some (false, ⟨counts m, n, jiang⟩))
    · exact ⟨_, hdata, fun _ => ⟨g, htook⟩, by simp⟩
    · exact ⟨_, hmore, by simp, fun _ g' hg' => hnone g' (by omega)⟩
  | rest + 1, g, hg, hleast => by
    rw [checkCardsFrom]
    obtain ⟨data, hdata, htook⟩ | ⟨hmore, hnone⟩ := checkOnce_spec ht hranks hcopies hne
      (Nat.le.intro hg) hn hcard hleast (checkCardsFrom t false ⟨counts m, n, jiang⟩ rest (g + 1))
    · exact ⟨_, hdata, fun _ => ⟨g, htook⟩, by simp⟩
    · rw [hmore]
      exact checkCardsFrom_spec ht hranks hcopies hne hn hcard rest (g + 1) (by omega) hnone

/-- A suit is taken with the fewest wild cards that complete it, if there are as many. -/
theorem checkCards_spec (jiang : Bool) (ht : t.Complete) (hranks : Ranks m)
    (hcopies : ∀ i, m.count i ≤ 4) (hn : n ≤ 8) (hcard : m.card + n ≤ 14) :
    ∃ r, checkCards t ⟨counts m, n, jiang⟩ 0 false = some r ∧
      (r.1 = true → ∃ g, Took jiang n m r.2 g) ∧ (r.1 = false → ∀ g ≤ n, ¬Takes jiang g m) := by
  by_cases hne : m = 0
  · -- a suit without tiles is passed over
    subst hne
    have htotal : calTotalCardCount (counts 0) = 0 := by decide
    have hpass (more : Option (Bool × CardData)) :
        checkOnce t false ⟨counts 0, n, jiang⟩ 0 more = some (true, ⟨counts 0, n, jiang⟩) := by
      simp only [checkOnce, htotal, if_true]
    refine ⟨(true, ⟨counts 0, n, jiang⟩), ?_,
      fun _ => ⟨0, by omega, .inl ⟨rfl, completes_zero⟩, by simp, rfl⟩, by simp⟩
    unfold checkCards
    cases n - 0 <;> exact hpass _
  · exact checkCardsFrom_spec ht hranks hcopies hne hn hcard (n - 0) 0 (by omega) (by simp)

end Suit

/-! ### One suit after the other -/

/-- A suit that needs fewer wild cards with a pair than without one. -/
def PairSaves (m : Multiset ℕ) : Prop := ∃ g, Filled 1 g m ∧ ∀ g' ≤ g, ¬Filled 0 g' m

theorem exists_filled_of_not_pairSaves {m : Multiset ℕ} {g : ℕ} (hno : ¬PairSaves m)
    (hg : Filled 1 g m) : ∃ a ≤ g, Filled 0 a m := by
  by_contra hnone
  push Not at hnone
  exact hno ⟨g, hg, hnone⟩

/-- `n` wild cards complete the suits without a pair. -/
def Melded : List (Multiset ℕ) → ℕ → Prop
  | [], n => n = 0
  | m :: ms, n => ∃ g k, Filled 0 g m ∧ Melded ms k ∧ n = g + k

/-- What the check does with `n` wild cards: the pair goes to the first suit where it saves some. -/
def Greedy : List (Multiset ℕ) → ℕ → Prop
  | [], _ => True
  | m :: ms, n => PairSaves m ∧ (∃ g k, Filled 1 g m ∧ Melded ms k ∧ g + k ≤ n) ∨
      ¬PairSaves m ∧ ∃ g ≤ n, Filled 0 g m ∧ Greedy ms (n - g)

theorem Greedy.mono : ∀ {ms : List (Multiset ℕ)} {n n' : ℕ}, n ≤ n' → Greedy ms n → Greedy ms n'
  | [], _, _, _, _ => trivial
  | m :: ms, n, n', hle, h => by
    obtain ⟨hsaves, g, k, hg, hk, hsum⟩ | ⟨hsaves, g, hg, hfilled, hrest⟩ := h
    · exact .inl ⟨hsaves, g, k, hg, hk, by omega⟩
    · exact .inr ⟨hsaves, g, by omega, hfilled, hrest.mono (by omega)⟩

/-- The suits as the check gets them, the winds being empty. -/
def suitRows (ms : List (Multiset ℕ)) : List (List ℕ × Bool) :=
  ms.map (fun m => (counts m, false)) ++ [(counts 0, true)]

/-- The number of all tiles. -/
def cardSum (ms : List (Multiset ℕ)) : ℕ := (ms.map Multiset.card).sum

section Chain

variable {t : Table} {n : ℕ} {m : Multiset ℕ} {ms : List (Multiset ℕ)} {cards : List ℕ}

theorem checkSuits_nil (n : ℕ) (jiang : Bool) : checkSuits t (suitRows []) ⟨cards, n, jiang⟩ =
    some (!jiang && n % 3 == 2 || jiang && n % 3 == 0) := by
  have htotal : calTotalCardCount (counts 0) = 0 := by decide
  have hpass (g : ℕ) (more : Option (Bool × CardData)) :
      checkOnce t true ⟨counts 0, n, jiang⟩ g more = some (true, ⟨counts 0, n, jiang⟩) := by
    simp only [checkOnce, htotal, if_true]
  have hcheck : checkCards t ⟨counts 0, n, jiang⟩ 0 true = some (true, ⟨counts 0, n, jiang⟩) := by
    unfold checkCards
    cases n - 0 <;> exact hpass _ _
  rw [suitRows, List.map_nil, List.nil_append, checkSuits, hcheck]
  rfl

theorem checkSuits_cons (jiang : Bool) : checkSuits t (suitRows (m :: ms)) ⟨cards, n, jiang⟩ =
    (checkCards t ⟨counts m, n, jiang⟩ 0 false).bind fun r =>
      if r.1 then checkSuits t (suitRows ms) r.2 else some false := rfl

/-- Once there is a pair, the other suits are completed without one. -/
theorem checkSuits_jiang (ht : t.Complete) : ∀ (ms : List (Multiset ℕ)) (n : ℕ) (cards : List ℕ),
    (∀ m ∈ ms, Ranks m ∧ ∀ i, m.count i ≤ 4) → n ≤ 8 → cardSum ms + n ≤ 14 →
    (cardSum ms + n) % 3 = 0 →
    ∃ b, checkSuits t (suitRows ms) ⟨cards, n, true⟩ = some b ∧ (b = true ↔ ∃ k ≤ n, Melded ms k)
  | [], n, cards, _, _, _, hmod => by
    have hzero : n % 3 = 0 := by simpa [cardSum] using hmod
    refine ⟨true, by rw [checkSuits_nil]; simp [hzero], iff_of_true rfl ⟨0, by omega, rfl⟩⟩
  | m :: ms, n, cards, hms, hn, hcard, hmod => by
    obtain ⟨hranks, hcopies⟩ := hms m List.mem_cons_self
    have hsum : cardSum (m :: ms) = m.card + cardSum ms := by simp [cardSum]
    rw [hsum] at hcard hmod
    obtain ⟨⟨taken, data⟩, hr, htook, hnone⟩ := checkCards_spec true ht hranks hcopies hn (by omega)
    rw [checkSuits_cons, hr, Option.bind_some]
    cases taken with
    | false =>
      refine ⟨false, rfl, iff_of_false Bool.false_ne_true ?_⟩
      rintro ⟨_, hle, g, k, hg, -, rfl⟩
      exact hnone rfl g (by omega) (.inl hg)
    | true =>
      obtain ⟨g, hle, ⟨hjiang, hg⟩ | ⟨habs, -⟩, hleast, hgui⟩ := htook rfl
      · have hmod_g := hg.mod_three
        obtain ⟨b, hb, hiff⟩ := checkSuits_jiang ht ms (n - g) data.cards
          (fun m' hm' => hms m' (List.mem_cons_of_mem m hm')) (by omega) (by omega) (by omega)
        refine ⟨b, ?_, hiff.trans ⟨?_, ?_⟩⟩
        · rw [if_pos rfl, ← hb, ← hgui, ← hjiang]
        · rintro ⟨k, hk, hmelded⟩
          exact ⟨g + k, by omega, g, k, hg, hmelded, rfl⟩
        · rintro ⟨_, hk', g', k, hg', hmelded, rfl⟩
          have hge : g ≤ g' := Nat.le_of_not_lt fun hlt => hleast g' hlt (.inl hg')
          exact ⟨k, by omega, hmelded⟩
      · exact absurd habs (by simp)

theorem not_pairSaves {g : ℕ} (hg : Filled 0 g m) (hleast : ∀ g' < g, ¬Takes false g' m) :
    ¬PairSaves m := by
  rintro ⟨g', hg', hno⟩
  have hlt : g' < g := Nat.lt_of_not_le fun hle => hno g hle hg
  exact hleast g' hlt (.inr ⟨rfl, hg'⟩)

theorem pairSaves_of_took {g : ℕ} (hg : Filled 1 g m) (hleast : ∀ g' < g, ¬Takes false g' m) :
    PairSaves m := by
  refine ⟨g, hg, fun g' hle hg' => ?_⟩
  have hmod := hg.mod_three
  have hmod' := hg'.mod_three
  exact hleast g' (by omega) (.inl hg')

/-- As long as there is no pair, it goes to the first suit where it saves wild cards. -/
theorem checkSuits_greedy (ht : t.Complete) : ∀ (ms : List (Multiset ℕ)) (n : ℕ) (cards : List ℕ),
    (∀ m ∈ ms, Ranks m ∧ ∀ i, m.count i ≤ 4) → n ≤ 8 → cardSum ms + n ≤ 14 →
    (cardSum ms + n) % 3 = 2 →
    ∃ b, checkSuits t (suitRows ms) ⟨cards, n, false⟩ = some b ∧ (b = true ↔ Greedy ms n)
  | [], n, cards, _, _, _, hmod => by
    have htwo : n % 3 = 2 := by simpa [cardSum] using hmod
    exact ⟨true, by rw [checkSuits_nil]; simp [htwo], iff_of_true rfl trivial⟩
  | m :: ms, n, cards, hms, hn, hcard, hmod => by
    obtain ⟨hranks, hcopies⟩ := hms m List.mem_cons_self
    have hrest := fun m' hm' => hms m' (List.mem_cons_of_mem m hm')
    have hsum : cardSum (m :: ms) = m.card + cardSum ms := by simp [cardSum]
    rw [hsum] at hcard hmod
    obtain ⟨⟨taken, data⟩, hr, htook, hnone⟩ := checkCards_spec false ht hranks hcopies hn (by omega)
    rw [checkSuits_cons, hr, Option.bind_some]
    cases taken with
    | false =>
      refine ⟨false, rfl, iff_of_false Bool.false_ne_true ?_⟩
      rintro (⟨-, g, k, hg, -, hle⟩ | ⟨-, g, hle, hg, -⟩)
      · exact hnone rfl g (by omega) (.inr ⟨rfl, hg⟩)
      · exact hnone rfl g hle (.inl hg)
    | true =>
      obtain ⟨g, hle, ⟨hjiang, hg⟩ | ⟨-, hjiang, hg⟩, hleast, hgui⟩ := htook rfl
      · -- taken without a pair
        have hmod_g := hg.mod_three
        have hsaves := not_pairSaves hg hleast
        obtain ⟨b, hb, hiff⟩ := checkSuits_greedy ht ms (n - g) data.cards hrest (by omega) (by omega)
          (by omega)
        refine ⟨b, by rw [if_pos rfl, ← hb, ← hgui, ← hjiang], hiff.trans ⟨fun h => ?_, ?_⟩⟩
        · exact .inr ⟨hsaves, g, hle, hg, h⟩
        · rintro (⟨h, -⟩ | ⟨-, g', hle', hg', h⟩)
          · exact absurd h hsaves
          · have hge : g ≤ g' := Nat.le_of_not_lt fun hlt => hleast g' hlt (.inl hg')
            exact h.mono (by omega)
      · -- taken with the pair
        have hmod_g := hg.mod_three
        have hsaves := pairSaves_of_took hg hleast
        obtain ⟨b, hb, hiff⟩ := checkSuits_jiang ht ms (n - g) data.cards hrest (by omega) (by omega)
          (by omega)
        refine ⟨b, by rw [if_pos rfl, ← hb, ← hgui, ← hjiang], hiff.trans ⟨?_, ?_⟩⟩
        · rintro ⟨k, hk, hmelded⟩
          exact .inl ⟨hsaves, g, k, hg, hmelded, by omega⟩
        · rintro (⟨-, g', k, hg', hmelded, hsum'⟩ | ⟨h, -⟩)
          · have hge : g ≤ g' := Nat.le_of_not_lt fun hlt => hleast g' hlt (.inr ⟨rfl, hg'⟩)
            exact ⟨k, by omega, hmelded⟩
          · exact absurd hsaves h

end Chain

/-! ### Sharing out the wild cards -/

/-- The first suit that needs fewer wild cards with a pair than without one. -/
def FirstSaving (m : ℕ → Multiset ℕ) (suit : ℕ) : Prop :=
  suit < 3 ∧ PairSaves (m suit) ∧ ∀ t < suit, ¬PairSaves (m t)

/-- `n` wild cards are enough to complete the three suits, the suit `suit` with a pair. -/
def Enough (m : ℕ → Multiset ℕ) (suit n : ℕ) : Prop :=
  ∃ a b c, a + b + c ≤ n ∧ Filled (if 0 = suit then 1 else 0) a (m 0) ∧
    Filled (if 1 = suit then 1 else 0) b (m 1) ∧ Filled (if 2 = suit then 1 else 0) c (m 2)

section Share

variable {m : ℕ → Multiset ℕ} {n suit : ℕ}

theorem FirstSaving.unique {suit' : ℕ} (h : FirstSaving m suit) (h' : FirstSaving m suit') :
    suit = suit' := by
  obtain hlt | heq | hgt := Nat.lt_trichotomy suit suit'
  · exact absurd h.2.1 (h'.2.2 suit hlt)
  · exact heq
  · exact absurd h'.2.1 (h.2.2 suit' hgt)

theorem exists_firstSaving (h : ∃ t < 3, PairSaves (m t)) : ∃ suit, FirstSaving m suit := by
  classical
  obtain ⟨hlt, hsaves⟩ := Nat.find_spec h
  exact ⟨Nat.find h, hlt, hsaves, fun t ht hp => Nat.find_min h ht ⟨by omega, hp⟩⟩

theorem melded_two (m₁ m₂ : Multiset ℕ) : Melded [m₁, m₂] n ↔
    ∃ b c, b + c = n ∧ Filled 0 b m₁ ∧ Filled 0 c m₂ := by
  constructor
  · rintro ⟨b, k, hb, ⟨c, k', hc, hzero, hk⟩, hn⟩
    subst hzero
    exact ⟨b, c, by omega, hb, hc⟩
  · rintro ⟨b, c, rfl, hb, hc⟩
    exact ⟨b, c, hb, ⟨c, 0, hc, rfl, rfl⟩, rfl⟩

/-- The check completes the suits before the first one where a pair saves wild cards without a pair,
    and the suits behind it as well. -/
theorem greedy_iff_enough (hfirst : FirstSaving m suit) :
    Greedy [m 0, m 1, m 2] n ↔ Enough m suit n := by
  obtain ⟨hlt, hsaves, hbefore⟩ := hfirst
  obtain rfl | rfl | rfl : suit = 0 ∨ suit = 1 ∨ suit = 2 := by omega
  · simp only [Greedy, hsaves, not_true, false_and, or_false, true_and, melded_two]
    constructor
    · rintro ⟨a, _, ha, ⟨b, c, rfl, hb, hc⟩, hle⟩
      exact ⟨a, b, c, by omega, ha, hb, hc⟩
    · rintro ⟨a, b, c, hle, ha, hb, hc⟩
      exact ⟨a, b + c, ha, ⟨b, c, rfl, hb, hc⟩, by omega⟩
  · have h₀ := hbefore 0 (by omega)
    simp only [Greedy, hsaves, h₀, not_true, false_and, or_false, true_and, not_false_iff, false_or]
    constructor
    · rintro ⟨a, hle, ha, b, k, hb, ⟨c, k', hc, hzero, hk⟩, hle'⟩
      subst hzero
      exact ⟨a, b, c, by omega, ha, hb, hc⟩
    · rintro ⟨a, b, c, hle, ha, hb, hc⟩
      exact ⟨a, by omega, ha, b, c, hb, ⟨c, 0, hc, rfl, rfl⟩, by omega⟩
  · have h₀ := hbefore 0 (by omega)
    have h₁ := hbefore 1 (by omega)
    simp only [Greedy, hsaves, h₀, h₁, not_true, false_and, or_false, true_and, not_false_iff, false_or]
    constructor
    · rintro ⟨a, hle, ha, b, hle', hb, c, _, hc, rfl, hle''⟩
      exact ⟨a, b, c, by omega, ha, hb, hc⟩
    · rintro ⟨a, b, c, hle, ha, hb, hc⟩
      exact ⟨a, by omega, ha, b, by omega, hb, c, 0, hc, rfl, by omega⟩

/-- Where no pair saves wild cards, the pair is left to the end. -/
theorem greedy_iff_enough_three (hno : ∀ t < 3, ¬PairSaves (m t)) :
    Greedy [m 0, m 1, m 2] n ↔ Enough m 3 n := by
  have h₀ := hno 0 (by omega)
  have h₁ := hno 1 (by omega)
  have h₂ := hno 2 (by omega)
  simp only [Greedy, h₀, h₁, h₂, false_and, true_and, not_false_iff, false_or, and_true]
  constructor
  · rintro ⟨a, hle, ha, b, hle', hb, c, hle'', hc⟩
    exact ⟨a, b, c, by omega, ha, hb, hc⟩
  · rintro ⟨a, b, c, hle, ha, hb, hc⟩
    exact ⟨a, by omega, ha, b, by omega, hb, c, by omega, hc⟩

theorem tile_iff (i : ℕ) : (suitRules false).tile i ↔ i ∈ Finset.range 9 := by
  simp [suitRules]

/-- Wild cards that are left over make triplets. -/
theorem filled_add_triplets {m : Multiset ℕ} {pairs a : ℕ} (h : Filled pairs a m) :
    ∀ k, m.card + a + 3 * k ≤ 14 → Filled pairs (a + 3 * k) m
  | 0, _ => h
  | k + 1, hcard => by
    have ih := filled_add_triplets h k (by omega)
    have hfew : m.card + (a + 3 * k) < (4 + 1 - 3) * (Finset.range 9).card := by
      rw [Finset.card_range]
      omega
    exact Completes.add_triplet tile_iff ih hfew

theorem winsAt_iff_enough (hsuit : suit < 3) (hcard : (m 0).card + (m 1).card + (m 2).card + n ≤ 14)
    (hmod : ((m 0).card + (m 1).card + (m 2).card + n) % 3 = 2) :
    WinsAt m suit n ↔ Enough m suit n := by
  constructor
  · rintro ⟨g, hsum, hg⟩
    exact ⟨g 0, g 1, g 2, hsum.le, hg 0 (by omega), hg 1 (by omega), hg 2 (by omega)⟩
  · rintro ⟨a, b, c, hle, ha, hb, hc⟩
    have hmod_a := ha.mod_three
    have hmod_b := hb.mod_three
    have hmod_c := hc.mod_three
    have hpairs := one_pair hsuit
    obtain ⟨k, hk⟩ : ∃ k, n = a + 3 * k + b + c := ⟨(n - (a + b + c)) / 3, by omega⟩
    have ha' := filled_add_triplets ha k (by omega)
    refine ⟨fun t => if t = 0 then a + 3 * k else if t = 1 then b else c, hk.symm, fun t ht => ?_⟩
    obtain rfl | rfl | rfl : t = 0 ∨ t = 1 ∨ t = 2 := by omega
    · exact ha'
    · exact hb
    · exact hc

/-- Without a suit that asks for the pair, two wild cards that are left over make it. -/
theorem exists_winsAt_iff_enough (hno : ∀ t < 3, ¬PairSaves (m t))
    (hcard : (m 0).card + (m 1).card + (m 2).card + n ≤ 14)
    (hmod : ((m 0).card + (m 1).card + (m 2).card + n) % 3 = 2) :
    (∃ suit < 3, WinsAt m suit n) ↔ Enough m 3 n := by
  constructor
  · rintro ⟨suit, hsuit, g, hsum, hg⟩
    have hfill (t : ℕ) (ht : t < 3) : ∃ a ≤ g t, Filled 0 a (m t) := by
      have h := hg t ht
      split_ifs at h
      · exact exists_filled_of_not_pairSaves (hno t ht) h
      · exact ⟨g t, le_rfl, h⟩
    obtain ⟨a, hle_a, ha⟩ := hfill 0 (by omega)
    obtain ⟨b, hle_b, hb⟩ := hfill 1 (by omega)
    obtain ⟨c, hle_c, hc⟩ := hfill 2 (by omega)
    exact ⟨a, b, c, by omega, ha, hb, hc⟩
  · rintro ⟨a, b, c, hle, ha, hb, hc⟩
    have hmod_a := ha.mod_three
    have hmod_b := hb.mod_three
    have hmod_c := hc.mod_three
    rw [if_neg (by omega)] at hmod_a hmod_b hmod_c
    refine ⟨0, by omega, (winsAt_iff_enough (by omega) hcard hmod).mpr ?_⟩
    refine ⟨a + 2, b, c, by omega, Completes.add_pair tile_iff ha ?_, hb, hc⟩
    rw [Finset.card_range]
    omega

end Share

/-! ### The whole hand -/

section Whole

variable {t : Table} {tiles : List ℤ} {order : Dic → List (List ℕ)}

theorem Hand.card (h : Hand tiles) : (suitOf 0 tiles).card + (suitOf 1 tiles).card +
    (suitOf 2 tiles).card + tiles.count zhong = tiles.length := by
  have hsuit : ∀ c ∈ suitTiles tiles, SuitTile c := by
    intro c hc
    obtain ⟨hmem, hne⟩ := Multiset.mem_filter.mp hc
    exact (h.tile c hmem).resolve_left hne
  have hcard := card_suitOf hsuit
  simp only [suitOf_suitTiles] at hcard
  have hsplit := congrArg Multiset.card (Multiset.filter_add_not (· = zhong) (tiles : Multiset ℤ))
  rw [Multiset.card_add, Multiset.filter_eq', Multiset.card_replicate, Multiset.coe_card,
    Multiset.coe_count] at hsplit
  change tiles.count zhong + (suitTiles tiles).card = tiles.length at hsplit
  omega

theorem Hand.length_le (h : Hand tiles) : tiles.length ≤ 14 ∧ tiles.length % 3 = 2 := by
  have hlength := h.length
  simp only [List.mem_cons, List.not_mem_nil, or_false] at hlength
  omega

theorem Hand.count_suitOf_le (h : Hand tiles) {suit : ℕ} (hsuit : suit < 3) (i : ℕ) :
    (suitOf suit tiles).count i ≤ 4 := by
  by_cases hi : i < 9
  · rw [count_suitOf hsuit hi, Multiset.coe_count]
    exact h.copies _ (suitTile_tileOf hsuit hi).1
  · rw [Multiset.count_eq_zero_of_notMem fun hmem => hi (ranks_suitOf _ i hmem)]
    omega

/-- The check of a hand is the greedy one. -/
theorem isHu_spec (ht : t.Complete) (h : Hand tiles) : ∃ b, isHu t tiles [zhong] = some b ∧
    (b = true ↔ Greedy [suitOf 0 tiles, suitOf 1 tiles, suitOf 2 tiles] (tiles.count zhong)) := by
  have hcount : tiles.foldlM (countCard [zhong]) (List.replicate 4 (List.replicate 9 0), 0) =
      some (rows fun t => suitOf t tiles, tiles.count zhong) := by
    have hempty : List.replicate 4 (List.replicate 9 0) = rows fun _ => 0 := by decide
    rw [hempty, foldlM_countCard h.tile]
    simp only [zero_add]
  have hsuits : (rows fun t => suitOf t tiles).zip [false, false, false, true] =
      suitRows [suitOf 0 tiles, suitOf 1 tiles, suitOf 2 tiles] := rfl
  have hcard := h.card
  have hlength := h.length_le
  have hsum : cardSum [suitOf 0 tiles, suitOf 1 tiles, suitOf 2 tiles] =
      (suitOf 0 tiles).card + (suitOf 1 tiles).card + (suitOf 2 tiles).card := by
    simp [cardSum, Nat.add_assoc]
  rw [isHu, hcount, Option.bind_some, hsuits]
  refine checkSuits_greedy ht _ _ [] ?_ h.wild (by omega) (by omega)
  simp only [List.mem_cons, List.not_mem_nil, or_false]
  rintro m (rfl | rfl | rfl)
  · exact ⟨ranks_suitOf _, h.count_suitOf_le (by omega)⟩
  · exact ⟨ranks_suitOf _, h.count_suitOf_le (by omega)⟩
  · exact ⟨ranks_suitOf _, h.count_suitOf_le (by omega)⟩

theorem winsWith_iff_winsAt (h : Hand tiles) {suit : ℕ} (hsuit : suit < 3) :
    WinsWith tiles suit ↔ WinsAt (fun t => suitOf t tiles) suit (tiles.count zhong) :=
  ⟨winsAt_of_winsWith, winsWith_of_winsAt h.tile hsuit⟩

theorem canWin_iff_winsWith : CanWin tiles ↔ ∃ suit < 3, WinsWith tiles suit :=
  ⟨winsWith_of_canWin, fun ⟨_, _, h⟩ => canWin_of_winsWith h⟩

/-- The check finds the hands that win with their pair in the first suit where it saves wild cards. -/
theorem isHu_of_firstSaving (ht : t.Complete) (h : Hand tiles) {suit : ℕ}
    (hfirst : FirstSaving (fun t => suitOf t tiles) suit) :
    ∃ b, isHu t tiles [zhong] = some b ∧ (b = true ↔ WinsWith tiles suit) := by
  obtain ⟨b, hb, hiff⟩ := isHu_spec ht h
  have hcard := h.card
  have hlength := h.length_le
  refine ⟨b, hb, hiff.trans ((greedy_iff_enough hfirst).trans ?_)⟩
  rw [winsWith_iff_winsAt h hfirst.1]
  exact (winsAt_iff_enough hfirst.1 (by omega) (by omega)).symm

/-- Without such a suit it finds all hands that win. -/
theorem isHu_of_no_saving (ht : t.Complete) (h : Hand tiles)
    (hno : ∀ suit < 3, ¬PairSaves (suitOf suit tiles)) :
    ∃ b, isHu t tiles [zhong] = some b ∧ (b = true ↔ CanWin tiles) := by
  obtain ⟨b, hb, hiff⟩ := isHu_spec ht h
  have hcard := h.card
  have hlength := h.length_le
  refine ⟨b, hb, hiff.trans ((greedy_iff_enough_three hno).trans ?_)⟩
  rw [← exists_winsAt_iff_enough hno (by omega) (by omega), canWin_iff_winsWith]
  exact exists_congr fun suit => and_congr_right fun hsuit => (winsWith_iff_winsAt h hsuit).symm

/-- The check is exact for a hand if and only if the hand, when it wins, also wins with its pair in
    the first suit that needs fewer wild cards with a pair than without one. -/
theorem isHu_exact_iff (horder : IsOrder order) (hgen : gen order = some t) (h : Hand tiles) :
    (∃ b, isHu t tiles [zhong] = some b ∧ (b = true ↔ CanWin tiles)) ↔
      ∀ suit, FirstSaving (fun t => suitOf t tiles) suit → CanWin tiles → WinsWith tiles suit := by
  obtain ⟨t', hgen', ht⟩ := gen_complete horder
  obtain rfl : t' = t := Option.some.inj (hgen'.symm.trans hgen)
  constructor
  · rintro ⟨b, hb, hiff⟩ suit hfirst hwin
    obtain ⟨b', hb', hiff'⟩ := isHu_of_firstSaving ht h hfirst
    obtain rfl : b' = b := Option.some.inj (hb'.symm.trans hb)
    exact hiff'.mp (hiff.mpr hwin)
  · intro hwins
    by_cases hsaving : ∃ suit < 3, PairSaves (suitOf suit tiles)
    · obtain ⟨suit, hfirst⟩ := exists_firstSaving (m := fun t => suitOf t tiles) hsaving
      obtain ⟨b, hb, hiff⟩ := isHu_of_firstSaving ht h hfirst
      exact ⟨b, hb, hiff.trans ⟨canWin_of_winsWith, hwins suit hfirst⟩⟩
    · push Not at hsaving
      exact isHu_of_no_saving ht h hsaving

/-- A hand of the repository's own test: the pair is in the first suit. -/
def testHand : List ℤ := [1, 1, 1, 2, 3, 5, 5, 5, 11, 11, 11, 35, 14, 12]

theorem firstSaving_testHand : FirstSaving (fun t => suitOf t testHand) 0 := by
  have hpair : Filled 1 0 (suitOf 0 testHand) :=
    ⟨0, [.pair 0, .run 0, .triplet 4], rfl, count_le_of_forall_mem (by decide +kernel),
      by decide +kernel⟩
  exact ⟨by omega, pairSaves_of_took hpair (by simp), by simp⟩

theorem winsWith_testHand : WinsWith testHand 0 :=
  ⟨{13}, [.pair 1, .run 1, .triplet 5, .triplet 11, .run 12], by decide +kernel,
    count_le_of_forall_mem (by decide +kernel), by decide +kernel, 1, by decide +kernel, by decide⟩

theorem isHu_exact_test : ∃ t, gen Finset.toList = some t ∧ Hand testHand ∧ CanWin testHand ∧
    isHu t testHand [zhong] = some true := by
  obtain ⟨t, hgen, -⟩ := gen_complete isOrder_toList
  have hhand : Hand testHand := by decide +kernel
  have hwin := canWin_of_winsWith winsWith_testHand
  obtain ⟨b, hb, hiff⟩ := (isHu_exact_iff isOrder_toList hgen hhand).mpr fun suit hfirst _ => by
    rw [hfirst.unique firstSaving_testHand]
    exact winsWith_testHand
  exact ⟨t, hgen, hhand, hwin, by rw [hb, hiff.mpr hwin]⟩

/-- The pair of fives is taken first, and then there is no triplet for the last suit. -/
def missedHand : List ℤ := [5, 5, 27, 27, 27, 27, 28, 28, 29, 29, 35]

theorem firstSaving_missedHand : FirstSaving (fun t => suitOf t missedHand) 0 := by
  have hpair : Filled 1 0 (suitOf 0 missedHand) :=
    ⟨0, [.pair 4], rfl, count_le_of_forall_mem (by decide +kernel), by decide +kernel⟩
  exact ⟨by omega, pairSaves_of_took hpair (by simp), by simp⟩

/-- With one more tile, and no fifth seven, the four sevens, two eights and two nines do not split into
    triplets and runs. -/
theorem not_filled_missedHand : ¬Filled 0 1 (suitOf 2 missedHand) := by
  rintro ⟨u, gs, hu, hcopies, hsplits⟩
  obtain ⟨x, rfl⟩ := Multiset.card_eq_one.mp hu
  have hsuit : suitOf 2 missedHand = {6, 6, 6, 6, 7, 7, 8, 8} := by decide +kernel
  have hrun₇ : gs.count (.run 7) = 0 := hsplits.count_run (by decide)
  have hrun₈ : gs.count (.run 8) = 0 := hsplits.count_run (by decide)
  have hcount (i : ℕ) := count_total i gs
  simp only [hsplits.total, hsplits.count_pair, hsuit, Multiset.count_add,
    Multiset.count_singleton] at hcount hcopies
  have hfour : x ≠ 6 := by
    rintro rfl
    exact absurd (hcopies 6) (by decide)
  have h₄ := hcount 2
  have h₅ := hcount 3
  have h₆ := hcount 4
  have h₇ := hcount 5
  have h₈ := hcount 6
  simp [hfour.symm, hrun₇, hrun₈] at h₄ h₅ h₆ h₇ h₈
  split_ifs at h₄ h₅ h₇ h₈ <;> omega

theorem isHu_misses_win : ∃ t, gen Finset.toList = some t ∧ Hand missedHand ∧ CanWin missedHand ∧
    isHu t missedHand [zhong] = some false := by
  obtain ⟨t, hgen, ht⟩ := gen_complete isOrder_toList
  have hhand : Hand missedHand := by decide +kernel
  have hwin : CanWin missedHand := ⟨{5}, [.triplet 5, .pair 27, .run 27, .run 27], by decide +kernel,
    count_le_of_forall_mem (by decide +kernel), by decide +kernel⟩
  obtain ⟨b, hb, hiff⟩ := isHu_of_firstSaving ht hhand firstSaving_missedHand
  have hmiss : ¬WinsWith missedHand 0 := by
    intro h
    obtain ⟨g, hsum, hg⟩ := winsAt_of_winsWith h
    have hlast : Filled 0 (g 2) (suitOf 2 missedHand) := hg 2 (by omega)
    have hmod := hlast.mod_three
    have hcard : (suitOf 2 missedHand).card = 8 := by decide +kernel
    have hwild : missedHand.count zhong = 1 := by decide +kernel
    have hone : g 2 = 1 := by omega
    exact not_filled_missedHand (hone ▸ hlast)
  exact ⟨t, hgen, hhand, hwin, by rw [hb, Bool.eq_false_iff.mpr fun h => hmiss (hiff.mp h)]⟩

end Whole

end GoServices.Mahjong
