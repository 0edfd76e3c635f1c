import GoServices.Schemes.Slices
import Mathlib.Data.Int.Notation

/-! The winning-hand check of the mahjong game (`game/component/mj/alg/hu.go`, and the lookup of
    `table.go`). `none` is a panic: an index out of range in the count of a suit, or a tile counted
    more often than `generateKey` has digits for. -/

namespace GoServices.Mahjong

open Slices

/-- A card, as a number: its suit and its rank are the two digits. -/
abbrev CardID := ℤ

/-- The wild card. -/
def zhong : CardID := 35

/-- The dictionaries of winning suits, without and with wild cards. A key is the list of its digits. -/
structure Table where
  keyDic : List ℕ → Bool
  keyGuiDic : ℕ → List ℕ → Bool
  keyFengDic : List ℕ → Bool
  keyFengGuiDic : ℕ → List ℕ → Bool

/-- There are digits for up to four tiles. -/
def generateKey (cards : List ℕ) : Option (List ℕ) :=
  if ∀ v ∈ cards, v ≤ 4 then some cards else none

/-- Looks up the counts of a suit, with so many jokers. -/
def Table.findCards (t : Table) (cards : List ℕ) (guiCount : ℕ) (feng : Bool) : Option Bool :=
  (generateKey cards).map fun key =>
    if 0 < guiCount then
      if feng then t.keyFengGuiDic guiCount key else t.keyGuiDic guiCount key
    else if feng then t.keyFengDic key else t.keyDic key

/-- The number of cards of a suit. -/
def calTotalCardCount (cards : List ℕ) : ℕ := cards.foldl (fun count v => count + v) 0

/-- What is passed from suit to suit: the counts, the jokers left and whether there is a pair. -/
structure CardData where
  cards : List ℕ
  guiCount : ℕ
  jiang : Bool

/-- One look at the table with `guiCount` wild cards; `more` is what a look with one more gives. -/
def checkOnce (t : Table) (feng : Bool) (data : CardData) (guiCount : ℕ)
    (more : Option (Bool × CardData)) : Option (Bool × CardData) :=
  let totalCardCount := calTotalCardCount data.cards
  if totalCardCount = 0 then some (true, data)
  else (t.findCards data.cards guiCount feng).bind fun found =>
    if found = false then more
    else if (totalCardCount + guiCount) % 3 = 2 then
      if data.jiang = false then
        some (true, { data with jiang := true, guiCount := data.guiCount - guiCount })
      else more
    else some (true, { data with guiCount := data.guiCount - guiCount })

/-- The recursion of `checkCards`: `rest` wild cards are left to try, `guiCount` are tried. -/
def checkCardsFrom (t : Table) (feng : Bool) (data : CardData) : ℕ → ℕ → Option (Bool × CardData)
  | 0, guiCount => checkOnce t feng data guiCount (some (false, data))
  | rest + 1, guiCount =>
    checkOnce t feng data guiCount (checkCardsFrom t feng data rest (guiCount + 1))

/-- Tries a suit with more and more jokers. -/
def checkCards (t : Table) (data : CardData) (guiCount : ℕ) (feng : Bool) :
    Option (Bool × CardData) :=
  checkCardsFrom t feng data (data.guiCount - guiCount) guiCount

/-- Sort one card into its suit, or count it as a wild card. -/
def countCard (guiList : List CardID) (s : List (List ℕ) × ℕ) (card : CardID) :
    Option (List (List ℕ) × ℕ) :=
  if card ∈ guiList then some (s.1, s.2 + 1)
  else
    let i := card.tdiv 10
    let j := card.tmod 10 - 1
    if 0 ≤ i ∧ i < 4 ∧ 0 ≤ j ∧ j < 9 then
      some (s.1.modify i.toNat fun row => row.modify j.toNat (· + 1), s.2)
    else none

/-- The suits one after the other, the last one being the winds. -/
def checkSuits (t : Table) : List (List ℕ × Bool) → CardData → Option Bool
  | [], data => some
      (!data.jiang && data.guiCount % 3 == 2 || data.jiang && data.guiCount % 3 == 0)
  | (cards, feng) :: suits, data =>
    (checkCards t { data with cards } 0 feng).bind fun r =>
      if r.1 then checkSuits t suits r.2 else some false

/-- Whether cards win: every suit must be completed with the jokers. -/
def isHu (t : Table) (cardList guiList : List CardID) : Option Bool :=
  (cardList.foldlM (countCard guiList) (List.replicate 4 (List.replicate 9 0), 0)).bind fun s =>
    checkSuits t (s.1.zip [false, false, false, true]) ⟨[], s.2, false⟩

/-- The card that completes the hand is appended to the caller's slice: in place, if it has room. -/
def checkHu (t : Table) (spare : ℕ → ℕ) (heap : Heap CardID) (cards : Slice) (guiList : List CardID)
    (card : CardID) : Option (Heap CardID × Bool) :=
  let s := if 0 < card ∧ card < 36 ∧ cards.len < 14 then heap.append 0 spare cards [card]
    else (heap, cards)
  (isHu t (s.1.read s.2) guiList).map fun hu => (s.1, hu)

end GoServices.Mahjong
