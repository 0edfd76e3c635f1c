import GoServices.Mahjong.Hu
import Mathlib.Data.Finset.Insert

/-! The generation of the tables of winning suits (`game/component/mj/alg/table.go`).

    A suit is a list of nine counts, so that no index of the loops is out of range; a dictionary is the
    set of its keys, and `none` is the panic of `generateKey`. The arrays that the recursions change
    and restore are passed as values. The order in which a loop goes over a dictionary is not fixed by
    the language and is a parameter. -/

namespace GoServices.Mahjong

/-- A dictionary without wild cards. -/
abbrev Dic := Finset (List ℕ)

/-- The dictionaries with wild cards: a key with the number of wild cards it is for. -/
abbrev GuiDic := Finset (ℕ × List ℕ)

/-- `cards[i] += n` -/
def addAt (cards : List ℕ) (i n : ℕ) : List ℕ := cards.modify i (· + n)

/-- A key is added to a table. -/
def addKey (dic : Dic) (cards : List ℕ) : Option Dic := (generateKey cards).map (insert · dic)

/-- One turn of the loop of `genTableNoGui`; `deeper` is the recursive call, which does nothing on the
    last level. -/
def genAt (feng : Bool) (deeper : List ℕ → Bool → Dic → Option Dic) (cards : List ℕ) (jiang : Bool)
    (dic : Dic) (i : ℕ) : Option Dic :=
  if feng = true ∧ 6 < i then some dic
  else
    let totalCardCount := calTotalCardCount cards
    (if totalCardCount ≤ 11 ∧ cards.getD i 0 ≤ 1 then
      (addKey dic (addAt cards i 3)).bind (deeper (addAt cards i 3) jiang)
    else some dic).bind fun dic =>
    (if feng = false ∧ totalCardCount ≤ 11 ∧ i < 7 ∧ cards.getD i 0 ≤ 3 ∧ cards.getD (i + 1) 0 ≤ 3 ∧
        cards.getD (i + 2) 0 ≤ 3 then
      (addKey dic (addAt (addAt (addAt cards i 1) (i + 1) 1) (i + 2) 1)).bind
        (deeper (addAt (addAt (addAt cards i 1) (i + 1) 1) (i + 2) 1) jiang)
    else some dic).bind fun dic =>
    if jiang = false ∧ totalCardCount ≤ 12 ∧ cards.getD i 0 ≤ 2 then
      (addKey dic (addAt cards i 2)).bind (deeper (addAt cards i 2) true)
    else some dic

/-- The number is how many levels are below, `5 - level`. -/
def genTableNoGui (feng : Bool) : ℕ → List ℕ → Bool → Dic → Option Dic
  | 0, cards, jiang, dic => (List.range 9).foldlM (genAt feng (fun _ _ => some) cards jiang) dic
  | below + 1, cards, jiang, dic =>
    (List.range 9).foldlM (genAt feng (genTableNoGui feng below) cards jiang) dic

/-- Whether the key is new. -/
def tryAdd (cards : List ℕ) (guiCount : ℕ) (dic : GuiDic) : Option (Bool × GuiDic) :=
  if ∃ v ∈ cards, 4 < v then some (false, dic)
  else (generateKey cards).map fun key =>
    if (guiCount, key) ∈ dic then (false, dic) else (true, insert (guiCount, key) dic)

/-- One turn of the loop of `genGui`. -/
def genGuiAt (deeper : List ℕ → GuiDic → Option GuiDic) (cards : List ℕ) (guiCount : ℕ)
    (dic : GuiDic) (i : ℕ) : Option GuiDic :=
  if cards.getD i 0 = 0 then some dic
  else (tryAdd (cards.modify i (· - 1)) guiCount dic).bind fun r =>
    if r.1 then deeper (cards.modify i (· - 1)) r.2 else some r.2

/-- The first number is how many levels are below, `8 - guiCount`. -/
def genGui : ℕ → List ℕ → ℕ → GuiDic → Option GuiDic
  | 0, cards, guiCount, dic => (List.range 9).foldlM (genGuiAt (fun _ => some) cards guiCount) dic
  | below + 1, cards, guiCount, dic => (List.range 9).foldlM
      (genGuiAt (fun cards => genGui below cards (guiCount + 1)) cards guiCount) dic

/-- `keys` is the dictionary in the order of the loop. -/
def genTableGui (keys : List (List ℕ)) (dic : GuiDic) : Option GuiDic :=
  keys.foldlM (fun dic key => genGui 7 key 1 dic) dic

/-- The keys of a dictionary in some order. -/
def IsOrder (order : Dic → List (List ℕ)) : Prop :=
  ∀ dic, (order dic).Nodup ∧ ∀ key, key ∈ order dic ↔ key ∈ dic

/-- All tables; `order` is the order of the loops over maps. -/
def gen (order : Dic → List (List ℕ)) : Option Table :=
  let cards := List.replicate 9 0
  (genTableNoGui false 5 cards false ∅).bind fun keyDic =>
  (genTableGui (order keyDic) ∅).bind fun keyGuiDic =>
  (genTableNoGui true 5 cards false ∅).bind fun keyFengDic =>
  (genTableGui (order keyFengDic) ∅).map fun keyFengGuiDic =>
    { keyDic := fun key => decide (key ∈ keyDic)
      keyGuiDic := fun guiCount key => decide ((guiCount, key) ∈ keyGuiDic)
      keyFengDic := fun key => decide (key ∈ keyFengDic)
      keyFengGuiDic := fun guiCount key => decide ((guiCount, key) ∈ keyFengGuiDic) }

end GoServices.Mahjong
