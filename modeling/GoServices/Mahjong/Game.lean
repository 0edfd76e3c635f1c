import GoServices.Mahjong.Hu
import GoServices.Schemes.Runs
import Mathlib.Data.Finset.Basic

/-! The mahjong game of a room (`game/component/mj/game.go`, `logic.go`).

    Hands and wall are slices, as in the source: `getCards` hands out windows on the array of the
    wall. A method is one step, and `none` is a panic, which ends the process. Timers are part of the
    state: those of `turnSchedule`, the functions of timers that have gone off and not run yet
    (`launched`), and how many deals and ends of a game are still to come. Messages to the clients are
    left out; what they read of the room is which chairs are taken (`seated`). -/

namespace GoServices.Mahjong

open Slices Runs

/-- A number from a client that is none of the others acts as `none`. -/
inductive OperateType where
  | none
  | huChi
  | huZi
  | peng
  | gangChi
  | gangBu
  | gangZi
  | guo
  | qi
  | get
  deriving DecidableEq

/-- How far a round has come. -/
inductive GameStatus where
  | none
  | dices
  | sendCards
  | playing
  | zhaMa
  | result
  deriving DecidableEq

/-- One entry of the operation record. -/
structure OperateRecord where
  chairID : ℕ
  card : CardID
  operate : OperateType
  deriving DecidableEq

/-- A card that is drawn at the end of a round. -/
structure MyMaCard where
  card : ℤ
  win : Bool
  deriving DecidableEq

/-- The result holds the very array of hands of the game data (`Hands` is `Unit`) until it is copied. -/
structure GameResult (Hands Cards : Type) where
  scores : List ℤ
  handCards : Hands
  myMaCards : List MyMaCard
  restCards : Cards
  winChairIDArray : List ℕ
  gangChairID : ℤ
  fangGangArray : List ℤ
  huType : OperateType
  deriving DecidableEq

/-- The data of a game. `Cards` is a slice in the game and a list in a view; `Hands` is what a result
    says about the hands. -/
structure GameData (Hands Cards : Type) where
  bankerChairID : ℕ
  chairCount : ℕ
  curBureau : ℕ
  gameStatus : GameStatus
  gameStarted : Bool
  tick : ℤ
  maxBureau : ℤ
  curChairID : ℤ
  userTrustArray : List ℤ
  handCards : List Cards
  operateArrays : List (List OperateType)
  operateRecord : List OperateRecord
  restCardsCount : ℕ
  result : Option (GameResult Hands Cards)
  deriving DecidableEq

/-- A timer of `turnSchedule` with what its function was made with. -/
structure Timer where
  card : CardID
  operateArray : List OperateType
  running : Bool
  deriving DecidableEq

/-- A timer that has gone off and whose function has not run yet. -/
structure Launch where
  chairID : ℕ
  card : CardID
  operateArray : List OperateType
  deriving DecidableEq

/-- The game, its wall, its timers and the arrays behind its slices. -/
structure GameFrame where
  gameData : GameData Unit Slice
  /-- the wall -/
  cards : Slice
  heap : Heap CardID
  testCardArray : List CardID
  turnSchedule : List (Option Timer)
  launched : List Launch
  deals : ℕ
  ends : ℕ
  seated : Finset ℕ

/-- What does not change during a game: the rule, the tables, and how arrays grow. -/
structure Setup where
  gameFrameType : ℤ
  maxPlayerCount : ℕ
  table : Table
  spare : ℕ → ℕ

/-- The variant with eight red dragons. -/
def hongZhong8 : ℤ := 2

/-- The seconds that a player has for an operation. -/
def operateTime : ℤ := 30

variable (E : Setup)

/-- The number of cards in the game. -/
def fullCount : ℕ := if E.gameFrameType = hongZhong8 then 9 * 3 * 4 + 8 else 9 * 3 * 4 + 4

/-- The data of a new game. -/
def initGameData : GameData Unit Slice where
  bankerChairID := 0
  chairCount := E.maxPlayerCount
  curBureau := 0
  gameStatus := .none
  gameStarted := false
  tick := 0
  maxBureau := 0
  curChairID := -1
  userTrustArray := []
  handCards := List.replicate E.maxPlayerCount Slice.nil
  operateArrays := List.replicate E.maxPlayerCount []
  operateRecord := []
  restCardsCount := fullCount E
  result := none

/-- A new game. -/
def newGameFrame : GameFrame where
  gameData := initGameData E
  cards := Slice.nil
  heap := Heap.empty
  testCardArray := List.replicate E.maxPlayerCount 0
  turnSchedule := List.replicate E.maxPlayerCount none
  launched := []
  deals := 0
  ends := 0
  seated := ∅

/-! ### Assignments -/

namespace GameFrame

/-- A change of the data. -/
def update (g : GameFrame) (f : GameData Unit Slice → GameData Unit Slice) : GameFrame :=
  { g with gameData := f g.gameData }

/-- Chair `i` gets another hand. -/
def setHand (g : GameFrame) (i : ℕ) (hand : Slice) : GameFrame :=
  g.update fun d => { d with handCards := d.handCards.set i hand }

/-- Chair `i` is offered these operations. -/
def setOperateArray (g : GameFrame) (i : ℕ) (operateArray : List OperateType) : GameFrame :=
  g.update fun d => { d with operateArrays := d.operateArrays.set i operateArray }

/-- An operation is added to the record. -/
def record (g : GameFrame) (r : OperateRecord) : GameFrame :=
  g.update fun d => { d with operateRecord := d.operateRecord ++ [r] }

/-- It becomes the turn of a chair. -/
def setCurChair (g : GameFrame) (chairID : ℕ) : GameFrame :=
  g.update fun d => { d with curChairID := chairID }

/-- The time left is set. -/
def setTick (g : GameFrame) (tick : ℤ) : GameFrame := g.update fun d => { d with tick }

/-- The status is set. -/
def setStatus (g : GameFrame) (gameStatus : GameStatus) : GameFrame :=
  g.update fun d => { d with gameStatus }

/-- Every chair has a user; otherwise a message to one of them panics. -/
def full (g : GameFrame) : Bool := decide (∀ i < g.gameData.chairCount, i ∈ g.seated)

end GameFrame

/-! ### The wall -/

/-- The wall before it is mixed. -/
def sortedCards : List CardID :=
  (List.replicate 4 [1, 2, 3, 4, 5, 6, 7, 8, 9]).flatten ++
    (List.replicate 4 [11, 12, 13, 14, 15, 16, 17, 18, 19]).flatten ++
    (List.replicate 4 [21, 22, 23, 24, 25, 26, 27, 28, 29]).flatten ++
    List.replicate 4 zhong

/-- Exchanges two cards. -/
def swap (l : List CardID) (i j : ℕ) : List CardID := (l.set i (l.getD j 0)).set j (l.getD i 0)

/-- The 300 exchanges of `washCards`, with what `utils.Rand` returned for each. -/
def shuffle (random : ℕ → ℕ) (l : List CardID) : List CardID :=
  (List.range 300).foldl (fun cards i => swap cards (i % l.length) (random i % l.length)) l

/-- A new wall, shuffled. -/
def washCards (random : ℕ → ℕ) (g : GameFrame) : GameFrame :=
  let s := g.heap.make sortedCards
  let s := if E.gameFrameType = hongZhong8 then s.1.append 0 E.spare s.2 [zhong, zhong, zhong, zhong]
    else s
  { g with
    heap := s.1.write s.2.array s.2.offset (shuffle random (s.1.read s.2))
    cards := s.2 }

/-- The first cards of the wall; none if there are too few. -/
def getCards (g : GameFrame) (num : ℕ) : GameFrame × Slice :=
  if g.cards.len < num then (g, Slice.nil)
  else ({ g with cards := g.cards.drop num }, g.cards.take num)

/-- The tail of the wall is moved over the card that is taken, inside the array. -/
def getCard (g : GameFrame) (card : CardID) : GameFrame × CardID :=
  let wall := g.heap.read g.cards
  if card ∈ wall then
    let i := wall.idxOf card
    let s := g.heap.append 0 E.spare (g.cards.take i) (wall.drop (i + 1))
    ({ g with heap := s.1, cards := s.2 }, card)
  else (g, 0)

/-- Whether a hand wins, with `card` or, for -1, as it is. -/
def canHu (g : GameFrame) (cards : Slice) (card : CardID) : Option (GameFrame × Bool) :=
  (checkHu E.table E.spare g.heap cards [zhong] card).map fun s => ({ g with heap := s.1 }, s.2)

/-- What the owner of a hand may do with a card another player put down. -/
def getOperateArray (g : GameFrame) (cards : Slice) (card : CardID) :
    Option (GameFrame × List OperateType) :=
  let sameCount := (g.heap.read cards).count card
  (canHu E g cards card).map fun s =>
    let operateArray := (if 2 ≤ sameCount then [OperateType.peng] else []) ++
      (if 3 ≤ sameCount then [.gangChi] else []) ++ (if s.2 then [.huChi] else [])
    (s.1, if operateArray = [] then [] else operateArray ++ [.guo])

/-! ### Turns -/

/-- The timer of a chair is started. -/
def turnScheduleExecute (g : GameFrame) (chairID : ℕ) (card : CardID)
    (operateArray : List OperateType) : GameFrame :=
  { g with turnSchedule := g.turnSchedule.set chairID (some ⟨card, operateArray, true⟩) }

/-- The timer of a chair is stopped, if there is one. -/
def stopTimer (g : GameFrame) (chairID : ℕ) : GameFrame :=
  { g with
    turnSchedule := g.turnSchedule.modify chairID
      (Option.map fun timer => { timer with running := false }) }

/-- What a chair may do with the card it has drawn. -/
def getMyOperateArray (g : GameFrame) (chairID : ℕ) (hand : Slice) (card : CardID) :
    Option (GameFrame × List OperateType) :=
  let cardCount := (g.heap.read hand).count card
  (canHu E g hand (-1)).map fun s =>
    (s.1, [OperateType.qi] ++ (if s.2 then [.huZi] else []) ++
      (if cardCount = 4 then [.gangZi] else []) ++
      ((g.gameData.operateRecord.filter (· = ⟨chairID, card, .peng⟩)).map fun _ => .gangBu))

/-- The card that `setTurn` draws: the one asked for, if it is in the wall, or the next one. -/
def drawCard (g : GameFrame) (chairID : ℕ) : GameFrame × Option CardID :=
  let test := g.testCardArray.getD chairID 0
  let s := if 0 < test ∧ test < 36 then
      let s := getCard E g test
      ({ s.1 with testCardArray := s.1.testCardArray.set chairID 0 }, s.2)
    else (g, test)
  if s.2 ≤ 0 ∨ 36 ≤ s.2 then
    let t := getCards s.1 1
    (t.1, (t.1.heap.read t.2).head?)
  else (s.1, some s.2)

/-- The rest of `setTurn`, once a card is drawn. -/
def takeCard (g : GameFrame) (chairID : ℕ) (hand : Slice) (card : CardID) : Option GameFrame :=
  let s := g.heap.append 0 E.spare hand [card]
  let g := { g with heap := s.1 }.setHand chairID s.2
  (getMyOperateArray E g chairID s.2 card).bind fun t =>
    if t.1.full then
      some (turnScheduleExecute (((t.1.setTick operateTime).setOperateArray chairID t.2).record
        ⟨chairID, card, .get⟩) chairID card t.2)
    else none

/-- The turn of a chair: it draws unless it has fourteen cards. -/
def setTurn (g : GameFrame) (chairID : ℕ) : Option GameFrame :=
  (g.gameData.handCards[chairID]?).bind fun hand =>
    let g := g.setCurChair chairID
    if 14 ≤ hand.len then some g
    else
      let s := drawCard E g chairID
      s.2.elim (some s.1) (takeCard E s.1 chairID hand)

/-- What `nextTurn` does for one of the other chairs; the flag is `hasOtherOperate`. -/
def offer (lastCard : CardID) (s : GameFrame × Bool) (i : ℕ) : Option (GameFrame × Bool) :=
  if (i : ℤ) = s.1.gameData.curChairID then some s
  else (s.1.gameData.handCards[i]?).bind fun hand =>
    (getOperateArray E s.1 hand lastCard).map fun t =>
      if t.2 = [] then (t.1, s.2)
      else (turnScheduleExecute ((t.1.setTick operateTime).setOperateArray i t.2) i 0 t.2, true)

/-- After a discard: the other chairs are asked, and if none may do anything, the next one draws. -/
def nextTurn (g : GameFrame) (lastCard : CardID) : Option GameFrame :=
  (if 0 < lastCard ∧ lastCard < 36 then
    (List.range g.gameData.chairCount).foldlM (offer E lastCard) (g, false)
  else some (g, false)).bind fun s =>
    if s.2 then some s.1
    else setTurn E s.1 ((s.1.gameData.curChairID + 1) % s.1.gameData.chairCount).toNat

/-! ### The end of a game -/

/-- The end of a round; a win leaves a result. -/
def gameEnd (g : GameFrame) : GameFrame :=
  let g := g.setStatus .result
  match g.gameData.operateRecord.getLast? with
  | none => g
  | some last =>
    if last.operate = .huChi ∨ last.operate = .huZi then
      { g.update fun d => { d with
          result := some
            { scores := List.replicate d.chairCount 0
              handCards := ()
              myMaCards := []
              restCards := g.cards
              winChairIDArray := [last.chairID]
              gangChairID := 0
              fangGangArray := []
              huType := last.operate } } with
        ends := g.ends + 1 }
    else g

/-- What is cleared between two rounds. -/
def resetGame (g : GameFrame) : GameFrame :=
  g.update fun d => { d with
    gameStarted := false
    gameStatus := .none
    handCards := d.handCards.map fun _ => Slice.nil
    operateArrays := d.operateArrays.map fun _ => []
    operateRecord := []
    curChairID := -1
    result := none }

/-! ### Operations -/

/-- What is left of a hand without the first `times` copies of a card. -/
def remaining (card : CardID) : ℕ → List CardID → List CardID
  | _, [] => []
  | 0, v :: cards => v :: remaining card 0 cards
  | times + 1, v :: cards =>
    if v = card then remaining card times cards else v :: remaining card (times + 1) cards

/-- The rest is collected in a new slice, card by card. -/
def delCards (g : GameFrame) (cards : Slice) (card : CardID) (times : ℕ) : GameFrame × Slice :=
  let s := (remaining card times (g.heap.read cards)).foldl
    (fun s v => s.1.append 0 E.spare s.2 [v]) (g.heap.make [])
  ({ g with heap := s.1 }, s.2)

/-- Cards leave the hand of a chair. -/
def discard (g : GameFrame) (chairID : ℕ) (hand : Slice) (card : CardID) (times : ℕ) : GameFrame :=
  let s := delCards E g hand card times
  s.1.setHand chairID s.2

/-- The card of the last record stands in for a card the client did not give. -/
def givenCard (g : GameFrame) (card : CardID) : CardID :=
  if card = 0 then (g.gameData.operateRecord.getLast?).elim 0 (·.card) else card

/-- `Peng` and `GangChi`: take `times` cards out of the hand and wait for a discard. -/
def expose (g : GameFrame) (chairID : ℕ) (hand : Slice) (card : CardID) (operate : OperateType)
    (times : ℕ) : GameFrame :=
  let card := givenCard g card
  (((discard E g chairID hand card times).record ⟨chairID, card, operate⟩).setOperateArray chairID
    [.qi]).setCurChair chairID

/-- `GangZi` and `GangBu`: the last card of the hand, `times` times, and another turn. -/
def gangLast (g : GameFrame) (chairID : ℕ) (hand : Slice) (operate : OperateType) (times : ℕ) :
    Option GameFrame :=
  ((g.heap.read hand).getLast?).bind fun card =>
    if g.full then
      setTurn E ((discard E g chairID hand card times).record ⟨chairID, card, operate⟩) chairID
    else none

/-- `HuChi` and `HuZi` after the card: record, nothing left to do for the winner, the end. -/
def win (g : GameFrame) (chairID : ℕ) (card : CardID) (operate : OperateType) : GameFrame :=
  gameEnd (((g.record ⟨chairID, card, operate⟩).setOperateArray chairID []).setCurChair chairID)

/-- The operation of a player. -/
def onGameTurnOperate (g : GameFrame) (chairID : ℕ) (operate : OperateType) (card : CardID) :
    Option GameFrame :=
  let g := stopTimer g chairID
  (g.gameData.handCards[chairID]?).bind fun hand =>
    match operate with
    | .qi => nextTurn E (((discard E g chairID hand card 1).record
        ⟨chairID, card, .qi⟩).setOperateArray chairID []) card
    | .guo => setTurn E (g.record ⟨chairID, card, .guo⟩) chairID
    | .peng => some (expose E g chairID hand card .peng 2)
    | .gangChi => some (expose E g chairID hand card .gangChi 3)
    | .huChi =>
      let card := givenCard g card
      let s := g.heap.append 0 E.spare hand [card]
      some (win ({ g with heap := s.1 }.setHand chairID s.2) chairID card .huChi)
    | .huZi => some (win g chairID card .huZi)
    | .gangZi => gangLast E g chairID hand .gangZi 4
    | .gangBu =>
      if g.gameData.curChairID = chairID then gangLast E g chairID hand .gangBu 1 else some g
    | .none | .get => some g

/-- What is done for a player whose time is up: discard, else pass. -/
def userAutoOperate (g : GameFrame) (chairID : ℕ) (card : CardID)
    (operateArray : List OperateType) : Option GameFrame :=
  if .qi ∈ operateArray then
    if chairID ∈ g.seated then onGameTurnOperate E g chairID .qi card else none
  else if .guo ∈ operateArray then
    if chairID ∈ g.seated then onGameTurnOperate E g chairID .guo 0 else none
  else some g

/-- The function of a timer. -/
def onTimer (g : GameFrame) (l : Launch) : Option GameFrame :=
  if g.gameData.tick ≤ 0 then
    userAutoOperate E (stopTimer g l.chairID) l.chairID l.card l.operateArray
  else
    some { g.setTick (g.gameData.tick - 1) with
      turnSchedule := g.turnSchedule.modify l.chairID
        (Option.map fun timer => { timer with running := true }) }

/-- A player asks for the card to be drawn next. -/
def onGetCard (g : GameFrame) (chairID : ℕ) (card : CardID) : Option GameFrame :=
  if chairID < g.testCardArray.length then
    some { g with testCardArray := g.testCardArray.set chairID card }
  else none

/-! ### The start of a game -/

/-- The hand that chair 1 always gets, in place of the cards drawn for it. -/
def fixedHand : List CardID := [1, 1, 2, 2, 3, 5, 5, 5, 11, 11, 11, zhong, 14]

/-- Thirteen cards for chair `i`; chair 1 has a fixed hand. -/
def dealHand (g : GameFrame) (i : ℕ) : GameFrame :=
  let s := getCards g 13
  if i = 1 then
    let t := s.1.heap.make fixedHand
    { s.1 with heap := t.1 }.setHand i t.2
  else s.1.setHand i s.2

/-- A new wall, and a hand for every chair. -/
def sendHandCards (random : ℕ → ℕ) (g : GameFrame) : Option GameFrame :=
  let g := (List.range g.gameData.chairCount).foldl dealHand (washCards E random g)
  if g.full then some { g with deals := g.deals + 1 } else none

/-- A round starts. -/
def startGame (random : ℕ → ℕ) (g : GameFrame) : Option GameFrame :=
  (sendHandCards E random (g.update fun d => { d with
    gameStarted := true
    gameStatus := .dices
    bankerChairID := if d.curBureau = 0 then 0 else d.bankerChairID })).map
      fun g => g.update fun d => { d with curBureau := d.curBureau + 1 }

/-! ### Steps -/

/-- What can happen next in a game. -/
inductive Event where
  /-- users come and go -/
  | seat (seated : Finset ℕ)
  | start (random : ℕ → ℕ)
  /-- the timer of `sendHandCards` -/
  | deal
  | operate (chairID : ℕ) (operate : OperateType) (card : CardID)
  | getCard (chairID : ℕ) (card : CardID)
  /-- a timer of `turnSchedule` goes off -/
  | fire (chairID : ℕ)
  /-- the function of a timer that has gone off runs -/
  | timer (l : Launch)
  /-- the timer of `gameEnd` -/
  | finish

/-- One event; `none` if it cannot happen or the server panics. -/
def step (g : GameFrame) : Event → Option GameFrame
  | .seat seated => some { g with seated }
  | .start random => startGame E random g
  | .deal =>
    if g.deals = 0 then none
    else setTurn E ({ g with deals := g.deals - 1 }.setStatus .playing) g.gameData.bankerChairID
  | .operate chairID operate card =>
    if chairID ∈ g.seated then onGameTurnOperate E g chairID operate card else none
  | .getCard chairID card =>
    if chairID ∈ g.seated then onGetCard g chairID card else none
  | .fire chairID =>
    ((g.turnSchedule[chairID]?).join).bind fun t =>
      if t.running then
        some { stopTimer g chairID with
          launched := g.launched ++ [⟨chairID, t.card, t.operateArray⟩] }
      else none
  | .timer l =>
    if l ∈ g.launched then onTimer E { g with launched := g.launched.erase l } l else none
  | .finish => if g.ends = 0 then none else some (resetGame { g with ends := g.ends - 1 })

end GoServices.Mahjong
