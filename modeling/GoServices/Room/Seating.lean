import GoServices.Room.Room
import GoServices.Schemes.Runs
import Mathlib.Data.Fintype.Basic

/-! Who sits where.

    Only entries, kicks and a dismissal change the seats (`Effect`). A new user gets the chair at
    which one pass over the map ends; that chair is free if the pass meets the chairs in ascending
    order, and Go's map order is arbitrary. -/

namespace GoServices.Rooms

open Ranges Seats Runs

variable {Uid : Type} [DecidableEq Uid] {r r' : Room Uid} {uid u : Uid}

/-- The chair of a user. -/
def Room.seat (r : Room Uid) (u : Uid) : Option ℕ := (r.users.get u).map RoomUser.chairID

/-- Users are stored under their own ids. -/
def Keyed (r : Room Uid) : Prop := ∀ u x, r.users.get u = some x → x.userInfo.uid = u

theorem seat_eq_some {c : ℕ} : r.seat u = some c ↔ ∃ x, r.users.get u = some x ∧ x.chairID = c :=
  Option.map_eq_some_iff

theorem mem_visit {o : Order Uid} {x : RoomUser Uid} :
    x ∈ r.visit o ↔ ∃ u, r.users.get u = some x := by
  rw [Room.visit, List.mem_map]
  constructor
  · rintro ⟨⟨u, x⟩, hmem, rfl⟩
    exact ⟨u, Order.mem_range.mp hmem⟩
  · rintro ⟨u, hu⟩
    exact ⟨(u, x), Order.mem_range.mpr hu, rfl⟩

theorem length_visit (o : Order Uid) : (r.visit o).length = r.size := by
  rw [Room.visit, List.length_map, Order.length_range, Room.size]

/-! ### What methods do to the seats -/

theorem seat_setStatus (s : UserStatus) : (r.setStatus s).seat u = r.seat u := by
  simp only [Room.seat, Room.setStatus, Map.get_map, Option.map_map]
  rfl

theorem keyed_setStatus (h : Keyed r) (s : UserStatus) : Keyed (r.setStatus s) := by
  intro u x hx
  obtain ⟨y, hy, rfl⟩ := Option.map_eq_some_iff.mp hx
  exact h u y hy

/-- Everything but the users, the timers and the game stays. -/
structure Same (r r' : Room Uid) : Prop where
  rule : r'.gameRule = r.gameRule
  votes : r'.askDismiss = r.askDismiss
  lock : r'.locked = r.locked
  dismissed : r'.roomDismissed = r.roomDismissed

theorem startGame_spec (h : Keyed r) :
    Keyed r.startGame ∧ Same r r.startGame ∧ ∀ u, r.startGame.seat u = r.seat u := by
  unfold Room.startGame
  split_ifs
  · exact ⟨h, ⟨rfl, rfl, rfl, rfl⟩, fun _ => rfl⟩
  · exact ⟨keyed_setStatus h _, ⟨rfl, rfl, rfl, rfl⟩, fun _ => seat_setStatus _⟩

/-- Getting ready changes the user's status and may start the game. -/
theorem userReady_spec (h : Keyed r) (uid : Uid) :
    Keyed (r.userReady uid) ∧ Same r (r.userReady uid) ∧ ∀ u, (r.userReady uid).seat u = r.seat u := by
  unfold Room.userReady
  cases hget : r.users.get uid with
  | none => exact ⟨h, ⟨rfl, rfl, rfl, rfl⟩, fun _ => rfl⟩
  | some user =>
    have hkeyed : Keyed { r with
        users := r.users.set uid { user with userStatus := .ready }
        kickSchedules := r.kickSchedules.erase uid } := by
      intro u x hx
      rw [Map.get_set] at hx
      split_ifs at hx with hu
      · rw [← Option.some.inj hx, hu]
        exact h uid user hget
      · exact h u x hx
    have hseat : ∀ u, Room.seat { r with
        users := r.users.set uid { user with userStatus := .ready }
        kickSchedules := r.kickSchedules.erase uid } u = r.seat u := by
      intro u
      rw [Room.seat, Room.seat, Map.get_set]
      split_ifs with hu
      · rw [hu, hget]; rfl
      · rfl
    dsimp only
    split_ifs
    · obtain ⟨hk, hsame, hs⟩ := startGame_spec hkeyed
      exact ⟨hk, ⟨hsame.rule, hsame.votes, hsame.lock, hsame.dismissed⟩,
        fun u => (hs u).trans (hseat u)⟩
    · exact ⟨hkeyed, ⟨rfl, rfl, rfl, rfl⟩, hseat⟩

theorem seat_kickUser {x : RoomUser Uid} (hx : x.userInfo.uid = uid) :
    (r.kickUser x).seat u = if u = uid then none else r.seat u := by
  rw [Room.seat, Room.kickUser, hx, Map.get_erase]
  split_ifs <;> rfl

theorem keyed_kickUser (h : Keyed r) (x : RoomUser Uid) : Keyed (r.kickUser x) := by
  intro u y hy
  rw [Room.kickUser, Map.get_erase] at hy
  split_ifs at hy
  exact h u y hy

/-- Kicking everybody one by one leaves nobody. -/
theorem foldl_kickUser (l : List (RoomUser Uid)) (hk : Keyed r)
    (hall : ∀ u x, r.users.get u = some x → x ∈ l) :
    (l.foldl Room.kickUser r).users = Map.empty := by
  induction l generalizing r with
  | nil =>
    ext1 u
    cases hu : r.users.get u with
    | none => exact hu
    | some x => exact absurd (hall u x hu) List.not_mem_nil
  | cons x l ih =>
    rw [List.foldl_cons]
    refine ih (keyed_kickUser hk x) fun u y hy => ?_
    rw [Room.kickUser, Map.get_erase] at hy
    split_ifs at hy with hu
    refine (List.mem_cons.mp (hall u y hy)).resolve_left fun heq => hu ?_
    rw [← heq]
    exact (hk u y hy).symm

/-- What `foldl_kickUser` does to everything but the users. -/
theorem foldl_kickUser_eq (l : List (RoomUser Uid)) (r : Room Uid) :
    l.foldl Room.kickUser r = { r with users := (l.foldl Room.kickUser r).users } := by
  induction l generalizing r with
  | nil => rfl
  | cons x l ih => rw [List.foldl_cons, ih]; rfl

/-- With the lock in hand, everybody is kicked and the room is dismissed. -/
theorem kickAll_eq (hk : Keyed r) (o : Order Uid) :
    ∃ r', r.kickAll o = .done r' ∧ r'.users = Map.empty ∧ r'.roomDismissed = true ∧
      r'.locked = r.locked ∧ r'.gameRule = r.gameRule := by
  obtain ⟨r₁, hr₁⟩ : ∃ r₁, (r.visit o).foldl Room.kickUser r = r₁ := ⟨_, rfl⟩
  have husers : r₁.users = Map.empty :=
    hr₁ ▸ foldl_kickUser (r.visit o) hk fun u x hx => mem_visit.mpr ⟨u, hx⟩
  have heq : r₁ = { r with users := r₁.users } := by
    rw [← hr₁]; exact foldl_kickUser_eq _ r
  have hzero : r₁.size = 0 := by rw [Room.size, husers]; rfl
  unfold Room.kickAll
  simp only [hr₁, hzero, if_true]
  unfold Room.dismissRoom
  rw [if_neg (by simp)]
  split_ifs with hd
  · exact ⟨r₁, rfl, husers, hd, by rw [heq], by rw [heq]⟩
  · exact ⟨_, rfl, husers, rfl, by rw [heq], by rw [heq]⟩

/-! ### Steps -/

/-- What an event may do: to the seats, and to the votes. -/
inductive Effect (r r' : Room Uid) : Event Uid → Prop where
  | keep {ev : Event Uid} (hsame : Same r r') (hseat : ∀ u, r'.seat u = r.seat u) : Effect r r' ev
  | sit {data : UserInfo Uid} {o : Order Uid} {ev : Event Uid} (hev : ev = .enter data o ∨ ev = .join data o)
      (hsame : Same r r') (hnew : r.seat data.uid = none)
      (hseat : ∀ u, r'.seat u = if u = data.uid then some (r.getEmptyChairID o) else r.seat u) :
      Effect r r' ev
  | leave {uid : Uid} {user : RoomUser Uid} (hsame : Same r r') (hget : r.users.get uid = some user)
      (hstatus : user.userStatus = .none)
      (hseat : ∀ u, r'.seat u = if u = uid then none else r.seat u) : Effect r r' (.timeout uid)
  /-- the last user is kicked by a timer -/
  | alone {uid : Uid} {user : RoomUser Uid} (hrule : r'.gameRule = r.gameRule)
      (hget : r.users.get uid = some user) (hstatus : user.userStatus = .none) (hlast : r.size = 1)
      (hseat : ∀ u, r'.seat u = if u = uid then none else r.seat u) : Effect r r' (.timeout uid)
  | vote {uid : Uid} {c : ℕ} {o o' : Order Uid} (hold : r.seat uid = some c)
      (hsame : Same (r.vote c) r')
      (hseat : ∀ u, r'.seat u = r.seat u) : Effect r r' (.ask uid true o o')
  | clear {uid : Uid} {c : ℕ} {o o' : Order Uid} (hold : r.seat uid = some c)
      (hall : (insert c r.askDismiss).card = r.size) (hrule : r'.gameRule = r.gameRule)
      (hlock : r'.locked = r.locked) (hdismissed : r'.roomDismissed = true)
      (hseat : ∀ u, r'.seat u = none) : Effect r r' (.ask uid true o o')

theorem enter_effect (hk : Keyed r) {data : UserInfo Uid} {o : Order Uid} {ev : Event Uid}
    (hev : ev = .enter data o ∨ ev = .join data o) (h : (r.userEntryRoom o data).room = some r') :
    Keyed r' ∧ Effect r r' ev := by
  by_cases hfree : r.size ≠ 0 ∧ r.locked = true
  · rw [Room.userEntryRoom, if_pos hfree] at h
    obtain rfl := Option.some.inj h
    exact ⟨hk, .keep ⟨rfl, rfl, rfl, rfl⟩ fun _ => rfl⟩
  rw [Room.userEntryRoom, if_neg hfree] at h
  obtain rfl := Option.some.inj h
  cases hget : r.users.get data.uid with
  | some x => exact ⟨hk, .keep ⟨rfl, rfl, rfl, rfl⟩ fun _ => rfl⟩
  | none =>
    refine ⟨fun u x hx => ?_, .sit hev ⟨rfl, rfl, rfl, rfl⟩ ?_ fun u => ?_⟩
    · simp only [Option.isSome_none, Bool.false_eq_true, if_false] at hx
      rw [Map.get_set] at hx
      split_ifs at hx with hu
      · rw [← Option.some.inj hx, hu]; rfl
      · exact hk u x hx
    · rw [Room.seat, hget]; rfl
    · simp only [Room.seat, Option.isSome_none, Bool.false_eq_true, if_false]
      rw [Map.get_set]
      split_ifs <;> rfl

theorem UserStatus.eq_none_of_lt {s : UserStatus} (h : s.code < UserStatus.ready.code) : s = .none := by
  cases s <;> first | rfl | exact absurd h (by decide)

theorem timeout_effect (hk : Keyed r) (h : (r.kickTimeout uid).room = some r') :
    Keyed r' ∧ Effect r r' (.timeout uid) := by
  cases hget : r.users.get uid with
  | none =>
    simp only [Room.kickTimeout, hget] at h
    obtain rfl := Option.some.inj h
    exact ⟨hk, .keep ⟨rfl, rfl, rfl, rfl⟩ fun _ => rfl⟩
  | some user =>
    have hseat : ∀ u, (r.kickUser user).seat u = if u = uid then none else r.seat u :=
      fun u => seat_kickUser (hk uid user hget)
    simp only [Room.kickTimeout, hget] at h
    split_ifs at h with hlow hzero
    · have hstatus := UserStatus.eq_none_of_lt hlow
      have hlast : r.size = 1 := by
        have hmem : uid ∈ r.users.keys := Map.mem_keys_of_get hget
        have hcard : (r.users.keys.erase user.userInfo.uid).card = 0 := hzero
        rw [hk uid user hget, Finset.card_erase_of_mem hmem] at hcard
        have := Finset.card_pos.mpr ⟨uid, hmem⟩
        unfold Room.size
        omega
      unfold Room.dismissRoom at h
      split_ifs at h
      all_goals
        obtain rfl := Option.some.inj h
        exact ⟨keyed_kickUser hk user, .alone rfl hget hstatus hlast hseat⟩
    · obtain rfl := Option.some.inj h
      exact ⟨keyed_kickUser hk user,
        .leave ⟨rfl, rfl, rfl, rfl⟩ hget (UserStatus.eq_none_of_lt hlow) hseat⟩
    · obtain rfl := Option.some.inj h
      exact ⟨hk, .keep ⟨rfl, rfl, rfl, rfl⟩ fun _ => rfl⟩

theorem askForDismiss_no {user : RoomUser Uid} {data : DismissPushData} {o : Order Uid} (o' : Order Uid)
    (hlock : r.locked = false) (hget : r.users.get uid = some user)
    (hdata : r.dismissPushData o user = some data) : r.askForDismiss o o' uid false = .done r := by
  simp [Room.askForDismiss, hlock, hget, hdata]

/-- A yes that is not the last one is recorded, and the last one clears the room. -/
theorem askForDismiss_yes {user : RoomUser Uid} {data : DismissPushData} {o : Order Uid} (o' : Order Uid)
    (hlock : r.locked = false) (hget : r.users.get uid = some user)
    (hdata : (r.vote user.chairID).dismissPushData o user = some data) :
    r.askForDismiss o o' uid true = if (insert user.chairID r.askDismiss).card = r.size then
      (r.vote user.chairID).kickAll o' else .done (r.vote user.chairID) := by
  simp only [Room.askForDismiss, hlock, hget, hdata, Bool.false_eq_true, if_false, if_true, true_and]
  rfl

theorem ask_effect (hk : Keyed r) {exist : Bool} {o o' : Order Uid}
    (h : (r.askForDismiss o o' uid exist).room = some r') :
    Keyed r' ∧ Effect r r' (.ask uid exist o o') := by
  cases hlock : r.locked with
  | true =>
    rw [Room.askForDismiss, hlock] at h
    obtain rfl := Option.some.inj h
    exact ⟨hk, .keep ⟨rfl, rfl, rfl, rfl⟩ fun _ => rfl⟩
  | false =>
    cases hget : r.users.get uid with
    | none => simp [Room.askForDismiss, hlock, hget, Outcome.room] at h
    | some user =>
      have hold : r.seat uid = some user.chairID := by rw [Room.seat, hget]; rfl
      cases exist with
      | false =>
        cases hdata : r.dismissPushData o user with
        | none => simp [Room.askForDismiss, hlock, hget, hdata, Outcome.room] at h
        | some data =>
          rw [askForDismiss_no o' hlock hget hdata] at h
          obtain rfl := Option.some.inj h
          exact ⟨hk, .keep ⟨rfl, rfl, rfl, rfl⟩ fun _ => rfl⟩
      | true =>
        cases hdata : (r.vote user.chairID).dismissPushData o user with
        | none =>
          simp [Room.askForDismiss, hlock, hget, hdata, Outcome.room] at h
        | some data =>
          rw [askForDismiss_yes o' hlock hget hdata] at h
          split_ifs at h with hall
          · obtain ⟨r₂, hdone, hempty, hdismissed, hlock₂, hrule⟩ :=
              kickAll_eq (r := r.vote user.chairID) hk o'
            rw [hdone] at h
            obtain rfl := Option.some.inj h
            refine ⟨fun u x hx => ?_, .clear hold hall hrule hlock₂ hdismissed fun u => ?_⟩
            · rw [hempty] at hx; exact absurd hx (by simp)
            · rw [Room.seat, hempty]; rfl
          · obtain rfl := Option.some.inj h
            exact ⟨hk, .vote hold ⟨rfl, rfl, rfl, rfl⟩ fun _ => rfl⟩

theorem step_effect (hk : Keyed r) {ev : Event Uid} (h : step r ev = some r') :
    Keyed r' ∧ Effect r r' ev := by
  cases ev with
  | enter data o => exact enter_effect hk (Or.inl rfl) h
  | join data o => exact enter_effect hk (Or.inr rfl) h
  | schedule uid =>
    obtain ⟨-, h⟩ := Option.ite_none_right_eq_some.mp h
    obtain rfl := Option.some.inj h
    exact ⟨hk, .keep ⟨rfl, rfl, rfl, rfl⟩ fun _ => rfl⟩
  | expire uid =>
    obtain ⟨-, h⟩ := Option.ite_none_right_eq_some.mp h
    obtain rfl := Option.some.inj h
    exact ⟨hk, .keep ⟨rfl, rfl, rfl, rfl⟩ fun _ => rfl⟩
  | timeout uid =>
    obtain ⟨-, h⟩ := Option.ite_none_right_eq_some.mp h
    obtain ⟨hk', heff⟩ := timeout_effect (r := { r with launched := r.launched.erase uid }) hk h
    refine ⟨hk', ?_⟩
    cases heff with
    | keep hsame hseat => exact .keep ⟨hsame.1, hsame.2, hsame.3, hsame.4⟩ hseat
    | leave hsame hget hstatus hseat =>
      exact .leave ⟨hsame.1, hsame.2, hsame.3, hsame.4⟩ hget hstatus hseat
    | alone hrule hget hstatus hlast hseat => exact .alone hrule hget hstatus hlast hseat
    | sit hev => rcases hev with hev | hev <;> cases hev
  | ready uid =>
    obtain rfl := Option.some.inj h
    obtain ⟨hk', hsame, hseat⟩ := userReady_spec hk uid
    exact ⟨hk', .keep hsame hseat⟩
  | endGame =>
    obtain rfl := Option.some.inj h
    exact ⟨keyed_setStatus hk _, .keep ⟨rfl, rfl, rfl, rfl⟩ fun u => seat_setStatus _⟩
  | ask uid exist o o' => exact ask_effect hk h

/-! ### Seats are unique -/

/-- No two users have one chair. -/
def Distinct (r : Room Uid) : Prop := ∀ u v, ∀ c ∈ r.seat u, c ∈ r.seat v → u = v

instance [Fintype Uid] (r : Room Uid) : Decidable (Distinct r) :=
  inferInstanceAs (Decidable (∀ u v, ∀ c ∈ r.seat u, c ∈ r.seat v → u = v))

/-- A pass in ascending order ends at a chair that nobody has. -/
theorem getEmptyChairID_free {o : Order Uid} (hd : Distinct r)
    (hasc : ((r.visit o).map RoomUser.chairID).Pairwise (· ≤ ·)) (u : Uid) :
    r.seat u ≠ some (r.getEmptyChairID o) := by
  intro hu
  obtain ⟨x, hx, hchair⟩ := seat_eq_some.mp hu
  have hmem : x.chairID ∈ (r.visit o).map RoomUser.chairID :=
    List.mem_map_of_mem (mem_visit.mpr ⟨u, hx⟩)
  have hsize : r.size ≠ 0 := Finset.card_ne_zero_of_mem (Map.mem_keys_of_get hx)
  have hnodup : ((r.visit o).map RoomUser.chairID).Nodup := by
    rw [Room.visit, List.map_map]
    refine List.Nodup.map_on ?_ (List.Nodup.of_map _ Order.nodup_range)
    rintro ⟨v, y⟩ hy ⟨w, z⟩ hz heq
    have hy := Order.mem_range.mp hy
    have hz := Order.mem_range.mp hz
    obtain rfl : v = w := hd v w y.chairID (seat_eq_some.mpr ⟨y, hy, rfl⟩)
      (seat_eq_some.mpr ⟨z, hz, heq.symm⟩)
    rw [Option.some.inj (hy.symm.trans hz)]
  have hlt : ((r.visit o).map RoomUser.chairID).Pairwise (· < ·) :=
    (hasc.and hnodup).imp fun h => Nat.lt_of_le_of_ne h.1 h.2
  rw [hchair, Room.getEmptyChairID, if_neg hsize] at hmem
  exact scan_notMem 0 hlt hmem

theorem getEmptyChairID_le (o : Order Uid) : r.getEmptyChairID o ≤ r.size := by
  unfold Room.getEmptyChairID
  split_ifs with h
  · exact Nat.zero_le _
  · have := scan_le ((r.visit o).map RoomUser.chairID) 0
    rwa [List.length_map, length_visit, Nat.zero_add] at this

/-- A new user finds room, and the loop that looks for a chair meets the chairs in ascending order. -/
def Orderly (r : Room Uid) : Event Uid → Prop
  | .enter data o | .join data o => r.users.get data.uid = none →
      (r.size : ℤ) < r.gameRule.maxPlayerCount ∧ ((r.visit o).map RoomUser.chairID).Pairwise (· ≤ ·)
  | _ => True

/-- Chairs are distinct and within the number of players. -/
structure Seated (rule : GameRule) (r : Room Uid) : Prop where
  keyed : Keyed r
  gameRule : r.gameRule = rule
  distinct : Distinct r
  bounded : ∀ u c, r.seat u = some c → (c : ℤ) < rule.maxPlayerCount

theorem keyed_newRoom (rule : GameRule) : Keyed (newRoom rule : Room Uid) := by
  intro u x hx
  cases hx

theorem seated_newRoom (rule : GameRule) : Seated rule (newRoom rule : Room Uid) := by
  refine ⟨keyed_newRoom rule, rfl, fun u v c hu => ?_, fun u c hu => ?_⟩ <;> cases hu

/-- Where nobody gets a new chair, nothing can go wrong. -/
theorem Seated.of_le {rule : GameRule} (h : Seated rule r) (hk : Keyed r') (hrule : r'.gameRule = r.gameRule)
    (hle : ∀ u c, r'.seat u = some c → r.seat u = some c) : Seated rule r' :=
  ⟨hk, hrule.trans h.gameRule, fun u v c hu hv => h.distinct u v c (hle u c hu) (hle v c hv),
    fun u c hu => h.bounded u c (hle u c hu)⟩

theorem Seated.step {rule : GameRule} (h : Seated rule r) {ev : Event Uid} (ho : Orderly r ev)
    (hs : step r ev = some r') : Seated rule r' := by
  obtain ⟨hk, heff⟩ := step_effect h.keyed hs
  cases heff with
  | keep hsame hseat => exact h.of_le hk hsame.rule fun u c hu => hseat u ▸ hu
  | leave hsame hget hstatus hseat =>
    refine h.of_le hk hsame.rule fun u c hu => ?_
    rw [hseat] at hu
    split_ifs at hu
    exact hu
  | alone hrule hget hstatus hlast hseat =>
    refine h.of_le hk hrule fun u c hu => ?_
    rw [hseat] at hu
    split_ifs at hu
    exact hu
  | vote hold hsame hseat => exact h.of_le hk hsame.rule fun u c hu => hseat u ▸ hu
  | clear hold hall hrule hlock hdismissed hseat =>
    exact h.of_le hk hrule fun u c hu => absurd ((hseat u).symm.trans hu) (by simp)
  | @sit data o _ hev hsame hnew hseat =>
    obtain ⟨hroom, hasc⟩ : (r.size : ℤ) < r.gameRule.maxPlayerCount ∧
        ((r.visit o).map RoomUser.chairID).Pairwise (· ≤ ·) := by
      rcases hev with rfl | rfl <;> exact ho (Option.map_eq_none_iff.mp hnew)
    have hfree := getEmptyChairID_free h.distinct hasc
    refine ⟨hk, hsame.rule.trans h.gameRule, fun u v c hu hv => ?_, fun u c hu => ?_⟩
    · rw [hseat] at hu hv
      split_ifs at hu hv with heq heq'
      · rw [heq, heq']
      · exact absurd (hv.trans hu.symm) (hfree v)
      · exact absurd (hu.trans hv.symm) (hfree u)
      · exact h.distinct u v c hu hv
    · rw [hseat] at hu
      split_ifs at hu
      · have hle := getEmptyChairID_le (r := r) o
        rw [h.gameRule] at hroom
        rw [← Option.some.inj hu]
        omega
      · exact h.bounded u c hu

/-- In a room that is never overfilled and whose loops meet the chairs in ascending order, the users
    have different chairs, all of them within the number of players. -/
theorem seats_unique (rule : GameRule) {evs : List (Event Uid)}
    (h : Run step Orderly (newRoom rule) evs r) :
    (∀ u v x y, r.users.get u = some x → r.users.get v = some y → u ≠ v → x.chairID ≠ y.chairID) ∧
    ∀ u x, r.users.get u = some x → 0 ≤ (x.chairID : ℤ) ∧ (x.chairID : ℤ) ≤ rule.maxPlayerCount - 1 := by
  have hseated : Seated rule r :=
    h.preserves (I := Seated rule) (fun _ _ _ hs ho hst => hs.step ho hst) (seated_newRoom rule)
  refine ⟨fun u v x y hx hy hne heq => hne ?_, fun u x hx => ?_⟩
  · exact hseated.distinct u v x.chairID (seat_eq_some.mpr ⟨x, hx, rfl⟩) (seat_eq_some.mpr ⟨y, hy, heq.symm⟩)
  · have := hseated.bounded u x.chairID (seat_eq_some.mpr ⟨x, hx, rfl⟩)
    omega

/-- A room for three of the game type 5. -/
def three : GameRule := ⟨5, 3, 3⟩

/-- User `n` arrives while the loop over the map visits the users of `l` first. -/
def arrive (n : Fin 3) (l : List (Fin 3)) : Event (Fin 3) := .enter ⟨n, "", ""⟩ (Order.first l)

theorem seats_unique_ascending : ∃ r : Room (Fin 3),
    Run step Orderly (newRoom three) [arrive 2 [], arrive 0 [], .join ⟨1, "", ""⟩ (Order.first [2])] r ∧
    r.size = 3 ∧ r.seat 2 = some 0 ∧ r.seat 0 = some 1 ∧ r.seat 1 = some 2 ∧
    ∀ u v x y, r.users.get u = some x → r.users.get v = some y → u ≠ v → x.chairID ≠ y.chairID := by
  have hrun : ∃ r : Room (Fin 3),
      Run step Orderly (newRoom three) [arrive 2 [], arrive 0 [], .join ⟨1, "", ""⟩ (Order.first [2])] r ∧
      r.size = 3 ∧ r.seat 2 = some 0 ∧ r.seat 0 = some 1 ∧ r.seat 1 = some 2 := by
    refine ⟨_, .cons ?_ rfl (.cons ?_ rfl (.cons ?_ rfl (.nil _))), ?_⟩
    · exact fun _ => ⟨by decide, by decide⟩
    · exact fun _ => ⟨by decide, by decide⟩
    · exact fun _ => ⟨by decide, by decide⟩
    · decide +kernel
  obtain ⟨r, hrun, hseats⟩ := hrun
  exact ⟨r, hrun, hseats.1, hseats.2.1, hseats.2.2.1, hseats.2.2.2, (seats_unique three hrun).1⟩

/-- The third user gets the chair of the second, whom the loop happens to visit first. -/
theorem seats_shared : ∃ r : Room (Fin 3),
    Run step Any (newRoom three) [arrive 0 [], arrive 1 [], arrive 2 [1, 0]] r ∧
    r.seat 1 = some 1 ∧ r.seat 2 = some 1 := by
  obtain ⟨r, hrun, hq⟩ := exists_run step Any (newRoom three) [arrive 0 [], arrive 1 [], arrive 2 [1, 0]]
    (fun r : Room (Fin 3) => decide (r.seat 1 = some 1 ∧ r.seat 2 = some 1)) (by decide +kernel)
  exact ⟨r, hrun, of_decide_eq_true hq⟩

end GoServices.Rooms
