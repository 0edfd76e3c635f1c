import GoServices.Room.Room
import GoServices.Sanzhang.Cards
import GoServices.Schemes.Runs
import Mathlib.Algebra.Group.Nat.Defs

/-! The three-card game of a room (`game/component/sz/game.go`).

    The game reads the users of its room at any time, so the room is part of the state and takes its
    own steps. A method is one step, and `none` is a panic, which ends the process. Timers are part of
    the state: how many calls of `endPourScore` after an `Abandon` are still to come (`abandons`), and
    how often all users are still to be made ready (`readies`). Messages to the clients are left out.

    Scores are 64-bit integers as the source has them, so sums of bets wrap around. -/

namespace GoServices.Sanzhang

open Ranges Runs Rooms

/-- How far a game has come. -/
inductive GameStatus where
  | none
  | sendCards
  | pourScore
  | result
  deriving DecidableEq

/-- What `UserStatusArray` says of a chair. -/
inductive ChairStatus where
  | none
  | abandon
  | timeoutAbandon
  | look
  | lose
  | win
  | he
  deriving DecidableEq

/-- The data of a message. -/
structure MessageData where
  cuopai : Bool
  score : Int64
  type : ℤ
  chairID : ℤ
  deriving DecidableEq

/-- A message of a player. -/
structure MessageReq where
  type : ℤ
  data : MessageData
  deriving DecidableEq

/-- The player looks at the cards. -/
def gameLookNotify : ℤ := 303
/-- The player bets. -/
def gamePourScoreNotify : ℤ := 304
/-- The player compares. -/
def gameCompareNotify : ℤ := 305
/-- The player gives up. -/
def gameAbandonNotify : ℤ := 312

/-- The game type `PinSanZhang`. -/
def pinSanZhang : ℤ := 1

/-- The rule of a game. -/
structure GameRule where
  maxPlayerCount : ℕ
  minPlayerCount : ℤ
  baseScore : Int64
  addScores : List Int64
  /-- it is an `int` -/
  maxPlayerCount_lt : maxPlayerCount < 2 ^ 63

/-- Hands and bets of a chair are `[]` where the source has `nil`. -/
structure GameData where
  bankerChairID : ℕ
  chairCount : ℕ
  curBureau : ℕ
  curScore : Int64
  curScores : List Int64
  gameStatus : GameStatus
  handCards : List (List ℕ)
  lookCards : List ℕ
  loser : List ℕ
  winner : List ℕ
  pourScores : List (List Int64)
  round : ℕ
  userStatusArray : List ChairStatus
  curChairID : ℕ
  deriving DecidableEq

/-- The result of a game. -/
structure GameResult where
  winners : List ℕ
  handCards : List (List ℕ)
  curScores : List Int64
  losers : List ℕ
  winScores : List Int64
  deriving DecidableEq

/-- What chance decides when a game starts. -/
structure Draw where
  random : ℕ → ℕ
  banker : ℕ

/-- The room, the game in it and its timers. -/
structure GameFrame (Uid : Type) [DecidableEq Uid] where
  r : Room Uid
  gameData : GameData
  cards : List ℕ
  gameResult : Option GameResult
  abandons : ℕ
  readies : ℕ

variable {Uid : Type} [DecidableEq Uid] (rule : GameRule)

/-- The data of a new game. -/
def initGameData : GameData where
  bankerChairID := 0
  chairCount := rule.maxPlayerCount
  curBureau := 0
  curScore := 0
  curScores := List.replicate rule.maxPlayerCount 0
  gameStatus := .none
  handCards := List.replicate rule.maxPlayerCount []
  lookCards := List.replicate rule.maxPlayerCount 0
  loser := []
  winner := []
  pourScores := List.replicate rule.maxPlayerCount []
  round := 0
  userStatusArray := List.replicate rule.maxPlayerCount .none
  curChairID := 0

/-- A new room with a new game. -/
def newGameFrame : GameFrame Uid where
  r := newRoom ⟨pinSanZhang, rule.maxPlayerCount, rule.minPlayerCount⟩
  gameData := initGameData rule
  cards := []
  gameResult := none
  abandons := 0
  readies := 0

namespace GameFrame

variable (g : GameFrame Uid)

/-- A change of the data. -/
def update (f : GameData → GameData) : GameFrame Uid := { g with gameData := f g.gameData }

/-- Whether a user who plays sits on this chair. -/
def isPlayingChairID (chairID : ℕ) : Bool :=
  decide (∃ uid ∈ g.r.users.keys,
    ((g.r.users.get uid).any fun v => v.chairID = chairID ∧ v.userStatus = .playing) = true)

/-- A playing chair that has not lost. -/
def inGame (chairID : ℕ) : Bool :=
  g.isPlayingChairID chairID && !decide (chairID ∈ g.gameData.loser)

/-- How many of the chairs are still in the game. -/
def gamerCount : ℕ := (List.range g.gameData.chairCount).countP g.inGame

end GameFrame

/-! ### The start of a game -/

/-- A playing chair gets three cards. -/
def dealChair (g : GameFrame Uid) (i : ℕ) : Option (GameFrame Uid) :=
  if g.isPlayingChairID i then
    (getCards g.cards).map fun s =>
      { g.update fun d => { d with handCards := d.handCards.set i s.1 } with cards := s.2 }
  else some g

/-- Three cards for every chair that plays. -/
def sendCards (random : ℕ → ℕ) (g : GameFrame Uid) : Option (GameFrame Uid) :=
  (List.range g.gameData.chairCount).foldlM dealChair { g with cards := washCards random }

/-- A game starts with the banker's turn. -/
def startGame (draw : Draw) (g : GameFrame Uid) : Option (GameFrame Uid) :=
  let g := g.update fun d =>
    let banker := if d.curBureau = 0 then draw.banker % g.r.size else d.bankerChairID
    { d with
      bankerChairID := banker
      curChairID := banker
      curBureau := d.curBureau + 1
      gameStatus := .sendCards }
  (sendCards draw.random g).bind fun g => (rule.addScores[0]?).map fun score =>
    g.update fun d => { d with gameStatus := .pourScore, curScore := score * rule.baseScore, round := 1 }

/-- `UserReady` of the room, which calls `StartGame` once all users are ready. -/
def userReady (draw : Draw) (g : GameFrame Uid) (uid : Uid) : Option (GameFrame Uid) :=
  let g' := { g with r := g.r.userReady uid }
  if !g.r.gameStarted && g'.r.gameStarted then startGame rule draw g' else some g'

/-! ### The end of a game -/

/-- The loop that sums up the bets of a chair. -/
def sumScores (pours : List Int64) : Int64 := pours.foldl (fun scores v => scores + v) 0

/-- The source adds the share of a chair at the places `0, 1, ...` of the list of winners. -/
def payWinners (share : Int64) (count : ℕ) (winScores : List Int64) : Option (List Int64) :=
  (List.range count).foldlM (fun ws win =>
    if win < ws.length then some (ws.modify win (· + share)) else none) winScores

/-- One round of the loop over the chairs. -/
def settleChair (d : GameData) (winScores : List Int64) (i : ℕ) : Option (List Int64) :=
  (d.pourScores[i]?).bind fun pours =>
    if pours = [] then some winScores
    else payWinners (sumScores pours / Int64.ofNat d.winner.length) d.winner.length
      (winScores.set i (-sumScores pours))

/-- What every chair wins or loses. -/
def settle (d : GameData) : Option (List Int64) :=
  (List.range d.chairCount).foldlM (settleChair d) (List.replicate d.chairCount 0)

/-- The data are those of a new game, and the room ends the game. -/
def resetGame (g : GameFrame Uid) : GameFrame Uid :=
  { g with gameData := initGameData rule, r := g.r.endGame }

/-- The last chair that wins anything is the next banker. -/
def gameEnd (winScores : List Int64) (g : GameFrame Uid) : GameFrame Uid :=
  let g := (List.range g.gameData.chairCount).foldl (fun g i =>
    if 0 < winScores.getD i 0 then
      g.update fun d => { d with bankerChairID := i, curChairID := i }
    else g) g
  { g with readies := g.readies + 1 }

/-- The game is settled and ended. -/
def startResult (g : GameFrame Uid) : Option (GameFrame Uid) :=
  (settle g.gameData).map fun winScores =>
    gameEnd winScores (resetGame rule { g with
      gameResult := some
        { winners := g.gameData.winner
          handCards := g.gameData.handCards
          curScores := g.gameData.curScores
          losers := g.gameData.loser
          winScores := winScores } })

/-! ### Turns -/

/-- The next chair that is playing, at most `n` chairs on. -/
def seek (playing : ℕ → Bool) (chairCount : ℕ) : ℕ → ℕ → ℕ
  | 0, cur => cur
  | n + 1, cur =>
    if playing ((cur + 1) % chairCount) then (cur + 1) % chairCount
    else seek playing chairCount n ((cur + 1) % chairCount)

/-- After a move: the game ends when one player is left, else the turn goes on. -/
def endPourScore (g : GameFrame Uid) : Option (GameFrame Uid) :=
  if g.gamerCount = 1 then startResult rule g
  else some (g.update fun d => { d with
    curChairID := seek g.isPlayingChairID d.chairCount d.chairCount d.curChairID
    gameStatus := .pourScore })

/-! ### Messages

    A handler returns the state and whether it goes on with `endPourScore`. -/

section Messages

variable (g : GameFrame Uid) (user : RoomUser Uid)

/-- The player looks at the cards. -/
def onGameLook : Option (GameFrame Uid × Bool) :=
  if g.gameData.gameStatus ≠ .pourScore ∨ g.gameData.curChairID ≠ user.chairID then some (g, false)
  else if !g.isPlayingChairID user.chairID then some (g, false)
  else if user.chairID < g.gameData.userStatusArray.length then
    some (g.update fun d => { d with
      userStatusArray := d.userStatusArray.set user.chairID .look
      lookCards := d.lookCards.set user.chairID 1 }, false)
  else none

/-- The player bets; a negative bet is ignored. -/
def onGamePourScore (score : Int64) : Option (GameFrame Uid × Bool) :=
  if g.gameData.gameStatus ≠ .pourScore ∨ g.gameData.curChairID ≠ user.chairID then some (g, false)
  else if !g.isPlayingChairID user.chairID then some (g, false)
  else if score < 0 then some (g, false)
  else if user.chairID < g.gameData.pourScores.length then
    some (g.update fun d => { d with
      pourScores := d.pourScores.modify user.chairID (· ++ [score]) }, true)
  else none

/-- The chair of the other hand comes from the client. Whoever asks loses a tie. -/
def onGameCompare (chairID : ℤ) : Option (GameFrame Uid × Bool) :=
  (g.gameData.handCards[user.chairID]?).bind fun fromCards =>
    (if chairID < 0 then none else g.gameData.handCards[chairID.toNat]?).bind fun toCards =>
      (compareCards fromCards toCards).map fun result =>
        let winChairID := if 0 < result then user.chairID else chairID.toNat
        let loseChairID := if 0 < result then chairID.toNat else user.chairID
        (g.update fun d => { d with
          userStatusArray := (d.userStatusArray.set winChairID .win).set loseChairID .lose
          loser := d.loser ++ [loseChairID]
          winner := d.winner ++ [winChairID] }, true)

/-- `endPourScore` follows a second later. -/
def onGameAbandon : Option (GameFrame Uid × Bool) :=
  if !g.isPlayingChairID user.chairID then some (g, false)
  else if user.chairID ∈ g.gameData.loser then some (g, false)
  else if user.chairID < g.gameData.userStatusArray.length then
    some ({ g.update fun d => { d with
      loser := d.loser ++ [user.chairID]
      winner := d.winner ++ (List.range d.chairCount).filter fun i =>
        g.isPlayingChairID i && i != user.chairID
      userStatusArray := d.userStatusArray.set user.chairID .abandon } with
      abandons := g.abandons + 1 }, false)
  else none

/-- The message of a player; the answer says whether `endPourScore` follows. -/
def gameMessageHandle (req : MessageReq) : Option (GameFrame Uid × Bool) :=
  if req.type = gameLookNotify then onGameLook g user
  else if req.type = gamePourScoreNotify then onGamePourScore g user req.data.score
  else if req.type = gameCompareNotify then onGameCompare g user req.data.chairID
  else if req.type = gameAbandonNotify then onGameAbandon g user
  else some (g, false)

end Messages

/-! ### Steps -/

/-- What can happen next in the room and in the game. -/
inductive Event (Uid : Type) [DecidableEq Uid] where
  /-- users come, go, and vote; the room ends a game only when the game says so -/
  | room (ev : Rooms.Event Uid)
  | ready (uid : Uid) (draw : Draw)
  | message (uid : Uid) (req : MessageReq)
  /-- the timer of `onGameAbandon` -/
  | abandoned
  /-- the timer of `gameEnd` -/
  | nextGame (o : Order Uid) (draw : Draw)

/-- An event up to the call of `endPourScore`, if there is one. -/
def handle (g : GameFrame Uid) : Event Uid → Option (GameFrame Uid × Bool)
  | .room (.ready _) | .room .endGame => none
  | .room ev => (Rooms.step g.r ev).map fun r => ({ g with r }, false)
  | .ready uid draw => (userReady rule draw g uid).map fun g => (g, false)
  | .message uid req =>
    (g.r.users.get uid).elim (some (g, false)) fun user => gameMessageHandle g user req
  | .abandoned => if g.abandons = 0 then none else some ({ g with abandons := g.abandons - 1 }, true)
  | .nextGame o draw =>
    if g.readies = 0 then none
    else (((g.r.visit o).map fun v => v.userInfo.uid).foldlM (userReady rule draw)
      { g with readies := g.readies - 1 }).map fun g => (g, false)

/-- One event, and `endPourScore` after a move. -/
def step (g : GameFrame Uid) (ev : Event Uid) : Option (GameFrame Uid) :=
  (handle rule g ev).bind fun s => if s.2 then endPourScore rule s.1 else some s.1

end GoServices.Sanzhang
