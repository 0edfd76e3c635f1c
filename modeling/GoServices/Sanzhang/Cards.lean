import GoServices.Schemes.Ranking
import Mathlib.Data.List.Sort

/-! The cards of the three-card game (`game/component/sz/logic.go`).

    A card is a number: the colour in the upper half of a byte, 1 to 13 in the lower. Hands are lists,
    where `[]` is Go's `nil`, and `none` is an index out of range.

    `CompareCards` looks at the types of two hands and then, place by place, at their sorted values,
    where a pair is compared pair first. Behind it stands a ranking (`rank`): a hand has a list of four
    numbers, and the result is the first difference of two such lists. -/

namespace GoServices.Sanzhang

open Ranking

/-- The types of hands, from the lowest. -/
inductive CardsType where
  | danZhang
  | duiZi
  | shunZi
  | jinHua
  | shunJin
  | baoZi
  deriving DecidableEq

/-- The number of a type. -/
def CardsType.code : CardsType → ℕ
  | .danZhang => 1
  | .duiZi => 2
  | .shunZi => 3
  | .jinHua => 4
  | .shunJin => 5
  | .baoZi => 6

/-- The colours of the cards. -/
inductive Color where
  | fangKuai
  | meiHua
  | hongTao
  | heiTao
  deriving DecidableEq

/-- The colours in the order of the card numbers. -/
def colors : List Color := [.fangKuai, .meiHua, .hongTao, .heiTao]

/-- The cards before they are mixed. -/
def deck : List ℕ :=
  [0x01, 0x02, 0x03, 0x04, 0x05, 0x06, 0x07, 0x08, 0x09, 0x0a, 0x0b, 0x0c, 0x0d,
    0x11, 0x12, 0x13, 0x14, 0x15, 0x16, 0x17, 0x18, 0x19, 0x1a, 0x1b, 0x1c, 0x1d,
    0x21, 0x22, 0x23, 0x24, 0x25, 0x26, 0x27, 0x28, 0x29, 0x2a, 0x2b, 0x2c, 0x2d,
    0x31, 0x32, 0x33, 0x34, 0x35, 0x36, 0x37, 0x38, 0x39, 0x3a, 0x3b, 0x3c, 0x3d]

/-- Exchanges two cards. -/
def swap (l : List ℕ) (i j : ℕ) : List ℕ := (l.set i (l.getD j 0)).set j (l.getD i 0)

/-- `random i` is what `utils.Rand` returned in round `i`. -/
def washCards (random : ℕ → ℕ) : List ℕ :=
  (List.range deck.length).foldl (fun cards i => swap cards i (random i % deck.length)) deck

/-- The last three cards, and what is left. -/
def getCards (cards : List ℕ) : Option (List ℕ × List ℕ) :=
  if cards.length < 3 then none
  else some ((cards.drop (cards.length - 3)).reverse, cards.take (cards.length - 3))

/-- An ace counts 14. -/
def getCardsValue (card : ℕ) : ℕ :=
  let value := card &&& 0x0f
  if value = 1 then value + 13 else value

/-- The number of a card, its low four bits. -/
def getCardsNumber (card : ℕ) : ℕ := card &&& 0x0f

/-- The colour of a card, its high four bits. -/
def getCardsColor (card : ℕ) : Option Color :=
  if 0x01 ≤ card ∧ card ≤ 0x3d then colors[card / 0x10]? else none

/-- The values of a hand, sorted. -/
def getCardValues (cards : List ℕ) : List ℕ := (cards.map getCardsValue).insertionSort (· ≤ ·)

/-- The type of a hand of three cards. -/
def getCardsType (cards : List ℕ) : Option CardsType := do
  let card0 ← cards[0]?
  let card1 ← cards[1]?
  let card2 ← cards[2]?
  let values := getCardValues cards
  let oneV ← values[0]?
  let twoV ← values[1]?
  let threeV ← values[2]?
  let jinhua := getCardsColor card0 = getCardsColor card1 ∧ getCardsColor card1 = getCardsColor card2
  let shunzi := (oneV + 1 = twoV ∧ twoV + 1 = threeV) ∨ (oneV = 2 ∧ twoV = 3 ∧ threeV = 14)
  some (
    if getCardsNumber card0 = getCardsNumber card1 ∧ getCardsNumber card1 = getCardsNumber card2 then
      .baoZi
    else if jinhua ∧ shunzi then .shunJin
    else if jinhua then .jinHua
    else if shunzi then .shunZi
    else if oneV = twoV ∨ twoV = threeV then .duiZi
    else .danZhang)

/-- The value of the pair and that of the single card. -/
def getDuiZi (cards : List ℕ) : Option (ℕ × ℕ) := do
  let values := getCardValues cards
  let value0 ← values[0]?
  let value1 ← values[1]?
  let value2 ← values[2]?
  some (if value0 = value1 then (value0, value2) else (value1, value0))

/-- Compares two pairs: by the pair, then by the third card. -/
def compareDuiZi (fromCards toCards : List ℕ) : Option ℤ := do
  let dui ← getDuiZi fromCards
  let duiTo ← getDuiZi toCards
  some (if dui.1 ≠ duiTo.1 then (dui.1 : ℤ) - duiTo.1 else (dui.2 : ℤ) - duiTo.2)

/-- The largest values first. -/
def compareValues (valuesFrom valuesTo : List ℕ) : Option ℤ := do
  let from2 : ℕ ← valuesFrom[2]?
  let to2 : ℕ ← valuesTo[2]?
  let from1 : ℕ ← valuesFrom[1]?
  let to1 : ℕ ← valuesTo[1]?
  let from0 : ℕ ← valuesFrom[0]?
  let to0 : ℕ ← valuesTo[0]?
  some (
    if from2 ≠ to2 then (from2 : ℤ) - to2
    else if from1 ≠ to1 then (from1 : ℤ) - to1
    else if from0 ≠ to0 then (from0 : ℤ) - to0
    else 0)

/-- The sign says who wins. -/
def compareCards (fromCards toCards : List ℕ) : Option ℤ :=
  (getCardsType fromCards).bind fun fromType => (getCardsType toCards).bind fun toType =>
    if fromType ≠ toType then some ((fromType.code : ℤ) - toType.code)
    else if fromType = .duiZi then compareDuiZi fromCards toCards
    else compareValues (getCardValues fromCards) (getCardValues toCards)

/-! ### Values and types of three cards -/

/-- A hand that was not dealt has no first card. -/
theorem getCardsType_nil : getCardsType [] = none := rfl

theorem getCardValues_perm (cards : List ℕ) : (getCardValues cards).Perm (cards.map getCardsValue) :=
  List.perm_insertionSort _ _

/-- The sorted values say the same as the values. -/
theorem getCardValues_eq_iff {a b : List ℕ} :
    getCardValues a = getCardValues b ↔ (a.map getCardsValue).Perm (b.map getCardsValue) := by
  constructor
  · intro h
    exact (getCardValues_perm a).symm.trans (h ▸ getCardValues_perm b)
  · intro h
    exact ((getCardValues_perm a).trans (h.trans (getCardValues_perm b).symm)).eq_of_pairwise
      (fun _ _ _ _ => le_antisymm) (List.pairwise_insertionSort _ _) (List.pairwise_insertionSort _ _)

theorem exists_values {cards : List ℕ} (h : cards.length = 3) :
    ∃ x y z, getCardValues cards = [x, y, z] ∧ x ≤ y ∧ y ≤ z := by
  have hlen : (getCardValues cards).length = 3 := by
    rw [(getCardValues_perm cards).length_eq, List.length_map, h]
  obtain ⟨x, y, z, hxyz⟩ := List.length_eq_three.mp hlen
  have hs : (getCardValues cards).Pairwise (· ≤ ·) := List.pairwise_insertionSort _ _
  rw [hxyz] at hs
  simp only [List.pairwise_cons, List.mem_cons] at hs
  exact ⟨x, y, z, hxyz, hs.1 y (Or.inl rfl), hs.2.1 z (Or.inl rfl)⟩

/-- The type of a hand by what its cards share and by its sorted values. -/
def kind (sameNumber sameColor : Bool) (x y z : ℕ) : CardsType :=
  let shunzi := (x + 1 = y ∧ y + 1 = z) ∨ (x = 2 ∧ y = 3 ∧ z = 14)
  if sameNumber then .baoZi
  else if sameColor ∧ shunzi then .shunJin
  else if sameColor then .jinHua
  else if shunzi then .shunZi
  else if x = y ∨ y = z then .duiZi
  else .danZhang

/-- All cards agree under `f`. -/
def agree {A : Type} [DecidableEq A] (f : ℕ → A) (cards : List ℕ) : Bool :=
  cards.all fun p => cards.all fun q => f p = f q

theorem agree_perm {A : Type} [DecidableEq A] (f : ℕ → A) {a b : List ℕ} (h : a.Perm b) :
    agree f a = agree f b := by
  rw [Bool.eq_iff_iff]
  simp only [agree, List.all_eq_true, h.mem_iff]

theorem agree_three {A : Type} [DecidableEq A] (f : ℕ → A) (p q r : ℕ) :
    agree f [p, q, r] = decide (f p = f q ∧ f q = f r) := by
  rw [Bool.eq_iff_iff]
  simp only [agree, List.all_cons, List.all_nil, Bool.and_true, Bool.and_eq_true, decide_eq_true_eq]
  constructor
  · rintro ⟨⟨-, hpq, -⟩, ⟨-, -, hqr⟩, -⟩
    exact ⟨hpq, hqr⟩
  · rintro ⟨hpq, hqr⟩
    simp [hpq, hqr]

theorem getCardsType_eq {cards : List ℕ} {x y z : ℕ} (hlen : cards.length = 3)
    (h : getCardValues cards = [x, y, z]) :
    getCardsType cards = some (kind (agree getCardsNumber cards) (agree getCardsColor cards) x y z) := by
  obtain ⟨p, q, r, rfl⟩ := List.length_eq_three.mp hlen
  rw [agree_three, agree_three]
  simp only [getCardsType, h, kind, List.getElem?_cons_zero, List.getElem?_cons_succ, bind,
    Option.bind_some, decide_eq_true_eq]

/-- A pair has two equal values side by side. -/
theorem eq_of_kind_duiZi {sameNumber sameColor : Bool} {x y z : ℕ}
    (h : kind sameNumber sameColor x y z = .duiZi) : x = y ∨ y = z := by
  simp only [kind] at h
  split_ifs at h
  assumption

/-! ### The ranking -/

/-- Type first; then the values from the largest down, or the pair and the single card. -/
def rank (t : CardsType) (x y z : ℕ) : List ℕ :=
  t.code :: if t = .duiZi then (if x = y then [x, z, 0] else [y, x, 0]) else [z, y, x]

theorem length_rank (t : CardsType) (x y z : ℕ) : (rank t x y z).length = 4 := by
  unfold rank
  split_ifs <;> rfl

theorem code_injective {t t' : CardsType} (h : t.code = t'.code) : t = t' := by
  cases t <;> cases t' <;> first | rfl | exact absurd h (by decide)

theorem rank_eq_iff {t t' : CardsType} {x y z x' y' z' : ℕ} (hxy : x ≤ y) (hyz : y ≤ z)
    (hxy' : x' ≤ y') (hyz' : y' ≤ z') (ht : t = .duiZi → x = y ∨ y = z)
    (ht' : t' = .duiZi → x' = y' ∨ y' = z') :
    rank t x y z = rank t' x' y' z' ↔ t = t' ∧ [x, y, z] = [x', y', z'] := by
  constructor
  · intro h
    obtain ⟨hcode, hrest⟩ := List.cons.inj h
    obtain rfl := code_injective hcode
    refine ⟨rfl, ?_⟩
    by_cases hd : t = .duiZi
    · have hpair := ht hd
      have hpair' := ht' hd
      rw [if_pos hd, if_pos hd] at hrest
      split_ifs at hrest <;> simp only [List.cons.injEq, and_true] at hrest ⊢ <;> omega
    · rw [if_neg hd, if_neg hd] at hrest
      simp only [List.cons.injEq, and_true] at hrest ⊢
      omega
  · rintro ⟨rfl, h⟩
    simp only [List.cons.injEq, and_true] at h
    obtain ⟨rfl, rfl, rfl⟩ := h
    rfl

/-- A hand of three cards has a type, sorted values and with them a rank. -/
structure Ranked (cards : List ℕ) (t : CardsType) (x y z : ℕ) : Prop where
  type : getCardsType cards = some t
  values : getCardValues cards = [x, y, z]
  le : x ≤ y
  le' : y ≤ z
  pair : t = .duiZi → x = y ∨ y = z

theorem exists_ranked {cards : List ℕ} (h : cards.length = 3) : ∃ t x y z, Ranked cards t x y z := by
  obtain ⟨x, y, z, hxyz, hxy, hyz⟩ := exists_values h
  exact ⟨_, x, y, z, getCardsType_eq h hxyz, hxyz, hxy, hyz, eq_of_kind_duiZi⟩

theorem compareCards_eq {a b : List ℕ} {t t' : CardsType} {x y z x' y' z' : ℕ}
    (ha : Ranked a t x y z) (hb : Ranked b t' x' y' z') :
    compareCards a b = some (firstDiff (rank t x y z) (rank t' x' y' z')) := by
  rw [compareCards, ha.type, hb.type, Option.bind_some, Option.bind_some, rank, rank]
  rcases eq_or_ne t t' with rfl | hne
  · rw [firstDiff_cons_self, if_neg (not_not_intro rfl)]
    by_cases hd : t = .duiZi
    · rw [if_pos hd, if_pos hd, if_pos hd]
      simp only [compareDuiZi, getDuiZi, ha.values, hb.values, bind, Option.bind_some,
        List.getElem?_cons_zero, List.getElem?_cons_succ]
      split_ifs <;> simp_all [firstDiff]
    · rw [if_neg hd, if_neg hd, if_neg hd]
      simp only [compareValues, ha.values, hb.values, bind, Option.bind_some,
        List.getElem?_cons_zero, List.getElem?_cons_succ]
      split_ifs <;> simp_all [firstDiff]
  · rw [if_pos hne, firstDiff_cons_of_ne fun h => hne (code_injective h)]

/-- The order of the cards in a hand does not matter. -/
theorem Ranked.perm {a b : List ℕ} {t : CardsType} {x y z : ℕ} (ha : Ranked a t x y z)
    (hlen : a.length = 3) (h : b.Perm a) : Ranked b t x y z := by
  have hvalues : getCardValues b = [x, y, z] :=
    (getCardValues_eq_iff.mpr (h.map getCardsValue)).trans ha.values
  refine ⟨?_, hvalues, ha.le, ha.le', ha.pair⟩
  rw [← ha.type, getCardsType_eq (h.length_eq.trans hlen) hvalues, getCardsType_eq hlen ha.values,
    agree_perm _ h, agree_perm _ h]

/-- `CompareCards` ranks the hands of three cards: it is the same for all orders of the cards, its
    sign turns when the hands are exchanged, it is transitive, and it is 0 exactly for hands of one
    type with the same values. -/
theorem compareCards_ranking {a b c : List ℕ} (ha : a.length = 3) (hb : b.length = 3)
    (hc : c.length = 3) :
    ∃ ab bc ac : ℤ, compareCards a b = some ab ∧ compareCards b c = some bc ∧
      compareCards a c = some ac ∧
      (∀ a' b' : List ℕ, a'.Perm a → b'.Perm b → compareCards a' b' = some ab) ∧
      compareCards b a = some (-ab) ∧ (0 ≤ ab → 0 ≤ bc → 0 ≤ ac) ∧
      (ab = 0 ↔ getCardsType a = getCardsType b ∧
        (a.map getCardsValue).Perm (b.map getCardsValue)) := by
  obtain ⟨t, x, y, z, hra⟩ := exists_ranked ha
  obtain ⟨t', x', y', z', hrb⟩ := exists_ranked hb
  obtain ⟨t'', x'', y'', z'', hrc⟩ := exists_ranked hc
  have hlen : (rank t x y z).length = (rank t' x' y' z').length := by rw [length_rank, length_rank]
  refine ⟨_, _, _, compareCards_eq hra hrb, compareCards_eq hrb hrc, compareCards_eq hra hrc, ?_, ?_,
    firstDiff_nonneg_trans hlen, ?_⟩
  · intro a' b' ha' hb'
    exact compareCards_eq (hra.perm ha ha') (hrb.perm hb hb')
  · rw [compareCards_eq hrb hra, firstDiff_swap]
  · rw [firstDiff_eq_zero hlen, rank_eq_iff hra.le hra.le' hrb.le hrb.le' hra.pair hrb.pair,
      hra.type, hrb.type, ← getCardValues_eq_iff, hra.values, hrb.values, Option.some.injEq]

/-- A pair of fives loses to the run ace, two, three, and wins nothing back when the hands change
    places. -/
theorem compareCards_ranking_run : compareCards [0x05, 0x12, 0x25] [0x01, 0x13, 0x22] = some (-1) ∧
    compareCards [0x01, 0x13, 0x22] [0x05, 0x12, 0x25] = some 1 := by
  obtain ⟨ab, _, _, hab, -, -, -, hba, -⟩ := compareCards_ranking (a := [0x05, 0x12, 0x25])
    (b := [0x01, 0x13, 0x22]) (c := [0x32, 0x23, 0x11]) rfl rfl rfl
  have h : compareCards [0x05, 0x12, 0x25] [0x01, 0x13, 0x22] = some (-1) := by decide +kernel
  obtain rfl := Option.some.inj (hab.symm.trans h)
  exact ⟨h, hba⟩

end GoServices.Sanzhang
