import GoServices.Schemes.Ranges
import GoServices.Schemes.Seats

/-! A room of the game server (`game/component/room/room.go`).

    Every method is one step. What is started and goes on later is part of the state: goroutines
    that wait to run `addKickScheduleEvent` (`pending`), timers that have gone off and whose function
    has not run yet (`launched`), and the mutex once its holder waits for itself (`locked`). Messages
    to the clients are left out, except for the arrays of `askForDismiss`, whose indices matter. User
    ids are only compared. -/

namespace GoServices.Rooms

open Ranges Seats

/-- What is known of a user. -/
structure UserInfo (Uid : Type) where
  uid : Uid
  nickname : String
  avatar : String
  deriving DecidableEq

/-- What a user in a room is doing. -/
inductive UserStatus where
  | none
  | ready
  | playing
  | offline
  | dismiss
  deriving DecidableEq

/-- The number of a status. -/
def UserStatus.code : UserStatus → ℕ
  | .none => 0
  | .ready => 1
  | .playing => 2
  | .offline => 4
  | .dismiss => 8

/-- A user in a room. -/
structure RoomUser (Uid : Type) where
  userInfo : UserInfo Uid
  chairID : ℕ
  userStatus : UserStatus
  deriving DecidableEq

/-- A user who sits down. -/
def toRoomUser {Uid : Type} (data : UserInfo Uid) (chairID : ℕ) : RoomUser Uid := ⟨data, chairID, .none⟩

/-- The rule of a room. -/
structure GameRule where
  gameType : ℤ
  maxPlayerCount : ℤ
  minPlayerCount : ℤ
  deriving DecidableEq

/-- The game type `HongZhong`. -/
def hongZhong : ℤ := 5

/-- A room with its users, their timers, and whether its lock is held. -/
structure Room (Uid : Type) [DecidableEq Uid] where
  gameRule : GameRule
  users : Map Uid (RoomUser Uid)
  /-- the timers by user, `true` as long as they run -/
  kickSchedules : Map Uid Bool
  roomDismissed : Bool
  gameStarted : Bool
  askDismiss : Finset ℕ
  pending : List Uid
  launched : List Uid
  locked : Bool

/-- What `askForDismiss` shows the users. -/
structure DismissPushData where
  nameArr : List String
  chairIDArr : List Bool
  avatarArr : List String
  onlineArr : List Bool
  askChairId : ℕ
  deriving DecidableEq

variable {Uid : Type} [DecidableEq Uid]

/-- How a call ends: it returns, it waits forever, or it panics. -/
inductive Outcome (Uid : Type) [DecidableEq Uid] where
  | done (r : Room Uid)
  | blocked (r : Room Uid)
  | panic

/-- The room after a call that did not panic. -/
def Outcome.room : Outcome Uid → Option (Room Uid)
  | .done r => some r
  | .blocked r => some r
  | .panic => none

/-- An empty room. -/
def newRoom (rule : GameRule) : Room Uid :=
  ⟨rule, Map.empty, Map.empty, false, false, ∅, [], [], false⟩

namespace Room

variable (r : Room Uid)

/-- `len(r.users)` -/
def size : ℕ := r.users.keys.card

/-- The users as a loop with order `o` visits them. -/
def visit (o : Order Uid) : List (RoomUser Uid) := (o.range r.users).map Prod.snd

/-- The chair for the next user. -/
def getEmptyChairID (o : Order Uid) : ℕ :=
  if r.size = 0 then 0 else scan ((r.visit o).map RoomUser.chairID) 0

/-- The chair is chosen under the lock, unless the room is empty. -/
def userEntryRoom (o : Order Uid) (data : UserInfo Uid) : Outcome Uid :=
  if r.size ≠ 0 ∧ r.locked then .blocked r
  else
    let chairID := r.getEmptyChairID o
    let users := if (r.users.get data.uid).isSome then r.users
      else r.users.set data.uid (toRoomUser data chairID)
    .done { r with users := users, pending := data.uid :: r.pending }

/-- `JoinRoom` -/
def joinRoom (o : Order Uid) (data : UserInfo Uid) : Outcome Uid := r.userEntryRoom o data

/-- Once it has the lock: the timer of the user is replaced by a new one. -/
def addKickScheduleEvent (uid : Uid) : Room Uid :=
  { r with kickSchedules := (r.kickSchedules.erase uid).set uid true }

/-- A user is removed. -/
def kickUser (user : RoomUser Uid) : Room Uid :=
  { r with users := r.users.erase user.userInfo.uid }

/-- `TryLock` followed by `Lock`: whoever gets the lock here waits for itself. Under the lock of
    the caller (`held`) or of somebody else the rest is done without it. -/
def dismissRoom (held : Bool) : Outcome Uid :=
  if !held && !r.locked then .blocked { r with locked := true }
  else if r.roomDismissed then .done r
  else .done { r with roomDismissed := true, kickSchedules := Map.empty }

/-- The function of the timer of `addKickScheduleEvent`. -/
def kickTimeout (uid : Uid) : Outcome Uid :=
  let r := { r with kickSchedules := r.kickSchedules.erase uid }
  match r.users.get uid with
  | none => .done r
  | some user =>
    if user.userStatus.code < UserStatus.ready.code then
      let r := r.kickUser user
      if r.size = 0 then r.dismissRoom false else .done r
    else .done r

/-- Whether enough users are there and all are ready. -/
def isStartGame : Bool :=
  let userReadyCount := (r.users.keys.filter fun uid =>
    (r.users.get uid).map RoomUser.userStatus = some .ready).card
  if r.gameRule.gameType = hongZhong ∧ r.size = userReadyCount ∧
      (userReadyCount : ℤ) ≥ r.gameRule.maxPlayerCount then true
  else decide (r.size = userReadyCount ∧ (userReadyCount : ℤ) ≥ r.gameRule.minPlayerCount)

/-- All users get one status. -/
def setStatus (s : UserStatus) : Room Uid :=
  { r with users := r.users.map fun user => { user with userStatus := s } }

/-- The game starts; all users play. -/
def startGame : Room Uid :=
  if r.gameStarted then r else { r with gameStarted := true }.setStatus .playing

/-- A user is ready; the game may start. -/
def userReady (uid : Uid) : Room Uid :=
  match r.users.get uid with
  | none => r
  | some user =>
    let r := { r with
      users := r.users.set uid { user with userStatus := .ready }
      kickSchedules := r.kickSchedules.erase uid }
    if r.isStartGame then r.startGame else r

/-- The game is over; no user plays. -/
def endGame : Room Uid := { r with gameStarted := false }.setStatus .none

/-- The loop over the users, which writes at their chairs; `none` is an index out of range. -/
def fillArrays : List (RoomUser Uid) → DismissPushData → Option DismissPushData
  | [], data => some data
  | v :: rest, data =>
    if v.chairID < data.nameArr.length then
      fillArrays rest { data with
        nameArr := data.nameArr.set v.chairID v.userInfo.nickname
        avatarArr := data.avatarArr.set v.chairID v.userInfo.avatar
        chairIDArr := if v.chairID ∈ r.askDismiss then data.chairIDArr.set v.chairID true
          else data.chairIDArr
        onlineArr := data.onlineArr.set v.chairID true }
    else none

/-- What is sent about a vote; `none` if an index is out of range. -/
def dismissPushData (o : Order Uid) (user : RoomUser Uid) : Option DismissPushData :=
  r.fillArrays (r.visit o) ⟨List.replicate r.size "", List.replicate r.size false,
    List.replicate r.size "", List.replicate r.size false, user.chairID⟩

/-- All users are kicked, and an empty room is dismissed; the caller has the lock. -/
def kickAll (o : Order Uid) : Outcome Uid :=
  let r := (r.visit o).foldl kickUser r
  if r.size = 0 then r.dismissRoom true else .done r

/-- The chair of a user who agrees is recorded. -/
def vote (chairID : ℕ) : Room Uid := { r with askDismiss := insert chairID r.askDismiss }

/-- `o` is the order of the loop that fills the arrays, `o'` that of the loop that kicks. A user who
    is not in the room is a nil pointer. -/
def askForDismiss (o o' : Order Uid) (uid : Uid) (exist : Bool) : Outcome Uid :=
  if r.locked then .blocked r
  else match r.users.get uid with
    | none => .panic
    | some user =>
      let r := if exist then r.vote user.chairID else r
      match r.dismissPushData o user with
      | none => .panic
      | some _ => if exist ∧ r.askDismiss.card = r.size then r.kickAll o' else .done r

end Room

/-- What can happen to a room. -/
inductive Event (Uid : Type) [DecidableEq Uid] where
  | enter (data : UserInfo Uid) (o : Order Uid)
  | join (data : UserInfo Uid) (o : Order Uid)
  /-- a waiting goroutine gets to run `addKickScheduleEvent` -/
  | schedule (uid : Uid)
  /-- a timer goes off -/
  | expire (uid : Uid)
  /-- the function of a timer that has gone off runs -/
  | timeout (uid : Uid)
  | ready (uid : Uid)
  | endGame
  | ask (uid : Uid) (exist : Bool) (o o' : Order Uid)

/-- One event; `none` if it cannot happen or the server panics. -/
def step (r : Room Uid) : Event Uid → Option (Room Uid)
  | .enter data o => (r.userEntryRoom o data).room
  | .join data o => (r.joinRoom o data).room
  | .schedule uid =>
    if uid ∈ r.pending ∧ ¬ r.locked then
      some { r.addKickScheduleEvent uid with pending := r.pending.erase uid }
    else none
  | .expire uid =>
    if r.kickSchedules.get uid = some true then
      some { r with kickSchedules := r.kickSchedules.set uid false, launched := uid :: r.launched }
    else none
  | .timeout uid =>
    if uid ∈ r.launched then ({ r with launched := r.launched.erase uid }.kickTimeout uid).room else none
  | .ready uid => some (r.userReady uid)
  | .endGame => some r.endGame
  | .ask uid exist o o' => (r.askForDismiss o o' uid exist).room

end GoServices.Rooms
