import GoServices.Room.Seating

/-! Who has to agree to a dismissal.

    `askForDismiss` counts the chairs that have voted and writes into arrays as long as the number of
    users. Both are right as long as the chairs are `0 … n - 1` and every vote is that of somebody
    who is still there (`Fair`). A kick breaks this unless it takes the last chair and its user has
    not voted (`Calm`). -/

namespace GoServices.Rooms

open Ranges Runs

variable {Uid : Type} [DecidableEq Uid] {r r' : Room Uid} {uid u : Uid}

/-- A room, and who has voted yes since entering it. -/
structure Ledger (Uid : Type) [DecidableEq Uid] where
  room : Room Uid
  voted : Finset Uid

/-- A new room, in which nobody has voted. -/
def newLedger (rule : GameRule) : Ledger Uid := ⟨newRoom rule, ∅⟩

/-- The votes after an event, before those who left are taken out. -/
def record (voted : Finset Uid) : Event Uid → Finset Uid
  | .ask uid true _ _ => insert uid voted
  | _ => voted

/-- One event of the room, with the votes that have been given. -/
def Ledger.step (l : Ledger Uid) (ev : Event Uid) : Option (Ledger Uid) :=
  (Rooms.step l.room ev).map fun r => ⟨r, (record l.voted ev).filter (· ∈ r.users.keys)⟩

/-- A timer kicks only the user with the highest chair, who has not voted and is not alone, and
    nobody enters a dismissed room. -/
def Calm (l : Ledger Uid) : Event Uid → Prop
  | .enter _ _ | .join _ _ => l.room.roomDismissed = false
  | .timeout uid => ∀ user ∈ l.room.users.get uid, user.userStatus = .none →
      (∀ u, ∀ c ∈ l.room.seat u, c ≤ user.chairID) ∧ uid ∉ l.voted ∧ l.room.size ≠ 1
  | _ => True

/-- The chairs stay pairwise distinct. -/
def KeepsDistinct (l : Ledger Uid) (ev : Event Uid) : Prop :=
  ∀ r' ∈ step l.room ev, Distinct r'

instance [Fintype Uid] (l : Ledger Uid) (ev : Event Uid) : Decidable (Calm l ev) :=
  match ev with
  | .enter _ _ | .join _ _ => inferInstanceAs (Decidable (_ = _))
  | .timeout uid => inferInstanceAs (Decidable (∀ user ∈ l.room.users.get uid, user.userStatus = .none →
      (∀ u, ∀ c ∈ l.room.seat u, c ≤ user.chairID) ∧ uid ∉ l.voted ∧ l.room.size ≠ 1))
  | .schedule _ | .expire _ | .ready _ | .endGame | .ask _ _ _ _ => inferInstanceAs (Decidable True)

instance [Fintype Uid] (l : Ledger Uid) (ev : Event Uid) : Decidable (KeepsDistinct l ev) :=
  inferInstanceAs (Decidable (∀ r' ∈ step l.room ev, Distinct r'))

/-! ### The arrays -/

theorem fillArrays_isSome (l : List (RoomUser Uid)) (data : DismissPushData)
    (h : ∀ x ∈ l, x.chairID < data.nameArr.length) : (r.fillArrays l data).isSome = true := by
  induction l generalizing data with
  | nil => rfl
  | cons x l ih =>
    rw [Room.fillArrays, if_pos (h x List.mem_cons_self)]
    refine ih _ fun y hy => ?_
    rw [List.length_set]
    exact h y (List.mem_cons_of_mem _ hy)

/-- With the chairs below the number of users, all indices are in range. -/
theorem dismissPushData_isSome (h : ∀ u c, r.seat u = some c → c < r.size) (o : Order Uid)
    (user : RoomUser Uid) : ∃ data, r.dismissPushData o user = some data := by
  refine Option.isSome_iff_exists.mp (fillArrays_isSome _ _ fun x hx => ?_)
  obtain ⟨u, hu⟩ := mem_visit.mp hx
  rw [List.length_replicate]
  exact h u x.chairID (seat_eq_some.mpr ⟨x, hu, rfl⟩)

/-! ### Counting users and votes -/

theorem mem_users : u ∈ r.users.keys ↔ ∃ c, r.seat u = some c := by
  rw [r.users.mem_keys, ← Option.isSome_iff_exists, Room.seat, Option.isSome_map]

theorem size_eq_of_seat (h : ∀ u, r'.seat u = r.seat u) : r'.size = r.size := by
  unfold Room.size
  congr 1
  ext u
  rw [mem_users, mem_users, h]

/-- As many votes as users, each by one of them: everybody has voted. -/
theorem all_voted {votes : Finset ℕ} {voted : Finset Uid}
    (h : ∀ c ∈ votes, ∃ u ∈ voted, r.seat u = some c) (hcard : votes.card = r.size) :
    ∀ u ∈ r.users.keys, u ∈ voted := by
  have hsub : votes ⊆ (r.users.keys.filter (· ∈ voted)).image fun u => (r.seat u).getD 0 := by
    intro c hc
    obtain ⟨u, hu, hseat⟩ := h c hc
    exact Finset.mem_image.mpr ⟨u, Finset.mem_filter.mpr ⟨mem_users.mpr ⟨c, hseat⟩, hu⟩, by rw [hseat]; rfl⟩
  have hle : r.users.keys.card ≤ (r.users.keys.filter (· ∈ voted)).card := by
    calc r.users.keys.card = votes.card := hcard.symm
      _ ≤ _ := Finset.card_le_card hsub
      _ ≤ _ := Finset.card_image_le
  have heq := Finset.eq_of_subset_of_card_le (Finset.filter_subset _ _) hle
  intro u hu
  rw [← heq] at hu
  exact (Finset.mem_filter.mp hu).2

/-! ### The invariant -/

/-- The lock is free; a dismissed room is empty; in any other one the chairs are distinct and below
    the number of users, and every vote is that of a user who is there. -/
structure Fair (l : Ledger Uid) : Prop where
  keyed : Keyed l.room
  free : l.room.locked = false
  distinct : Distinct l.room
  gone : l.room.roomDismissed = true → ∀ u, l.room.seat u = none
  filled : ∀ u c, l.room.seat u = some c → c < l.room.size
  counted : l.room.roomDismissed = false → ∀ c ∈ l.room.askDismiss, ∃ u ∈ l.voted, l.room.seat u = some c

theorem fair_new (rule : GameRule) : Fair (newLedger rule : Ledger Uid) := by
  refine ⟨keyed_newRoom rule, rfl, fun u v c hu => ?_, fun _ _ => rfl, fun u c hu => ?_, fun _ c hc => ?_⟩
  · cases hu
  · cases hu
  · exact absurd hc (Finset.notMem_empty c)

/-- A seated user is in a room that is not dismissed. -/
theorem Fair.open {l : Ledger Uid} (h : Fair l) {c : ℕ} (hu : l.room.seat u = some c) :
    l.room.roomDismissed = false := by
  by_contra hd
  rw [Bool.not_eq_false] at hd
  exact absurd ((h.gone hd u).symm.trans hu) (by simp)

/-- Where the seats and the votes stay, so does the invariant. -/
theorem Fair.keep {l : Ledger Uid} (h : Fair l) (hk : Keyed r') (hsame : Same l.room r')
    (hseat : ∀ u, r'.seat u = l.room.seat u) {voted : Finset Uid} (hvoted : l.voted ⊆ voted) :
    Fair ⟨r', voted.filter (· ∈ r'.users.keys)⟩ := by
  refine ⟨hk, hsame.lock.trans h.free, fun u v c hu hv => ?_, fun hd u => ?_, fun u c hu => ?_,
    fun hd c hc => ?_⟩
  · exact h.distinct u v c (hseat u ▸ hu) (hseat v ▸ hv)
  · rw [hseat]
    exact h.gone (hsame.dismissed ▸ hd) u
  · rw [size_eq_of_seat hseat]
    exact h.filled u c (hseat u ▸ hu)
  · obtain ⟨u, hu, hc⟩ := h.counted (hsame.dismissed ▸ hd) c (hsame.votes ▸ hc)
    have hu' : r'.seat u = some c := (hseat u).trans hc
    exact ⟨u, Finset.mem_filter.mpr ⟨hvoted hu, mem_users.mpr ⟨c, hu'⟩⟩, hu'⟩

/-- A vote is counted for the user who gave it. -/
theorem Fair.vote {l : Ledger Uid} (h : Fair l) {c : ℕ} (hold : l.room.seat uid = some c) :
    Fair ⟨l.room.vote c, insert uid l.voted⟩ := by
  refine ⟨h.keyed, h.free, h.distinct, h.gone, h.filled, fun hd c' hc' => ?_⟩
  rcases Finset.mem_insert.mp hc' with rfl | hc'
  · exact ⟨uid, Finset.mem_insert_self _ _, hold⟩
  · obtain ⟨u, hu, hseat⟩ := h.counted hd c' hc'
    exact ⟨u, Finset.mem_insert_of_mem hu, hseat⟩

theorem subset_record (voted : Finset Uid) (ev : Event Uid) : voted ⊆ record voted ev := by
  unfold record
  split
  · exact Finset.subset_insert _ _
  · exact Finset.Subset.refl _

/-- One user who has not voted takes a chair or leaves it. -/
theorem Fair.reseat {l : Ledger Uid} (h : Fair l) (hk : Keyed r') (hsame : Same l.room r')
    (hd : Distinct r') (hopen : l.room.roomDismissed = false)
    (hvoted : ∀ u ∈ l.voted, ∀ c, l.room.seat u = some c → u ≠ uid)
    (hothers : ∀ u, u ≠ uid → r'.seat u = l.room.seat u)
    (hfilled : ∀ u c, r'.seat u = some c → c < r'.size) :
    Fair ⟨r', l.voted.filter (· ∈ r'.users.keys)⟩ := by
  refine ⟨hk, hsame.lock.trans h.free, hd, fun hgone => ?_, hfilled, fun _ c hc => ?_⟩
  · rw [hsame.dismissed, hopen] at hgone
    exact absurd hgone (by simp)
  · obtain ⟨u, hu, hold⟩ := h.counted hopen c (hsame.votes ▸ hc)
    have hnew : r'.seat u = some c := (hothers u (hvoted u hu c hold)).trans hold
    exact ⟨u, Finset.mem_filter.mpr ⟨hu, mem_users.mpr ⟨c, hnew⟩⟩, hnew⟩

theorem Fair.sit {l : Ledger Uid} (h : Fair l) (hk : Keyed r') (hsame : Same l.room r')
    (hd : Distinct r') (hopen : l.room.roomDismissed = false) (hnew : l.room.seat uid = none) {c : ℕ}
    (hc : c ≤ l.room.size) (hseat : ∀ u, r'.seat u = if u = uid then some c else l.room.seat u) :
    Fair ⟨r', l.voted.filter (· ∈ r'.users.keys)⟩ := by
  have hkeys : r'.users.keys = insert uid l.room.users.keys := by
    ext u
    rw [Finset.mem_insert, mem_users, mem_users, hseat]
    split_ifs with hu <;> simp [hu]
  have hout : uid ∉ l.room.users.keys := fun hin => by
    obtain ⟨c', hc'⟩ := mem_users.mp hin
    exact absurd (hnew.symm.trans hc') (by simp)
  have hsize : r'.size = l.room.size + 1 := by
    rw [Room.size, hkeys, Finset.card_insert_of_notMem hout, Room.size]
  refine h.reseat hk hsame hd hopen (fun u _ c' hold heq => ?_) (fun u hne => by rw [hseat, if_neg hne])
    fun u c' hu => ?_
  · rw [heq, hnew] at hold
    exact absurd hold (by simp)
  · rw [hseat] at hu
    split_ifs at hu
    · have := Option.some.inj hu
      omega
    · have := h.filled u c' hu
      omega

/-- The user with the highest chair goes, without having voted. -/
theorem Fair.leave {l : Ledger Uid} (h : Fair l) (hk : Keyed r') (hsame : Same l.room r')
    (hd : Distinct r') {c : ℕ} (hold : l.room.seat uid = some c)
    (htop : ∀ u c', l.room.seat u = some c' → c' ≤ c) (hvoted : uid ∉ l.voted)
    (hseat : ∀ u, r'.seat u = if u = uid then none else l.room.seat u) :
    Fair ⟨r', l.voted.filter (· ∈ r'.users.keys)⟩ := by
  have hkeys : r'.users.keys = l.room.users.keys.erase uid := by
    ext u
    rw [Finset.mem_erase, mem_users, mem_users, hseat]
    split_ifs with hu <;> simp [hu]
  have hsize : r'.size = l.room.size - 1 := by
    rw [Room.size, hkeys, Finset.card_erase_of_mem (mem_users.mpr ⟨c, hold⟩), Room.size]
  have hstay : ∀ u ∈ l.voted, ∀ c', l.room.seat u = some c' → u ≠ uid :=
    fun u hu _ _ heq => hvoted (heq ▸ hu)
  refine h.reseat hk hsame hd (h.open hold) hstay (fun u hne => by rw [hseat, if_neg hne])
    fun u c' hu => ?_
  rw [hseat] at hu
  split_ifs at hu with hne
  have hle := htop u c' hu
  have hlt := h.filled uid c hold
  have hdiff : c' ≠ c := fun heq => hne (h.distinct u uid c (heq ▸ hu) hold)
  omega

theorem Fair.step {l l' : Ledger Uid} (h : Fair l) {ev : Event Uid} (hcalm : Calm l ev)
    (hdistinct : KeepsDistinct l ev) (hs : l.step ev = some l') : Fair l' := by
  obtain ⟨r', hr, rfl⟩ := Option.map_eq_some_iff.mp hs
  have hd := hdistinct r' hr
  obtain ⟨hk, heff⟩ := step_effect h.keyed hr
  cases heff with
  | keep hsame hseat => exact h.keep hk hsame hseat (subset_record _ _)
  | sit hev hsame hnew hseat =>
    rcases hev with rfl | rfl <;> exact h.sit hk hsame hd hcalm hnew (getEmptyChairID_le _) hseat
  | leave hsame hget hstatus hseat =>
    obtain ⟨htop, hvoted, -⟩ := hcalm _ hget hstatus
    exact h.leave hk hsame hd (seat_eq_some.mpr ⟨_, hget, rfl⟩) htop hvoted hseat
  | alone hrule hget hstatus hlast hseat => exact absurd hlast (hcalm _ hget hstatus).2.2
  | vote hold hsame hseat => exact (h.vote hold).keep hk hsame hseat (Finset.Subset.refl _)
  | clear hold hall hrule hlock hdismissed hseat =>
    refine ⟨hk, hlock.trans h.free, hd, fun _ => hseat, fun u c hu => ?_, fun hopen => ?_⟩
    · exact absurd ((hseat u).symm.trans hu) (by simp)
    · exact absurd (hdismissed.symm.trans hopen) (by simp)

/-- In a calm history with distinct chairs, whoever sits in the room can ask for its dismissal, and
    users are kicked and the room is dismissed only when all of them have said yes. -/
theorem dismissal_unanimous (rule : GameRule) {evs : List (Event Uid)} {l : Ledger Uid}
    (h : Run Ledger.step (fun l ev => Calm l ev ∧ KeepsDistinct l ev) (newLedger rule) evs l)
    (hseated : uid ∈ l.room.users.keys) (exist : Bool) (o o' : Order Uid) :
    ∃ r', l.room.askForDismiss o o' uid exist = .done r' ∧
      (r'.users ≠ l.room.users ∨ r'.roomDismissed ≠ l.room.roomDismissed →
        exist = true ∧ ∀ u ∈ l.room.users.keys, u = uid ∨ u ∈ l.voted) := by
  have hfair : Fair l := h.preserves (I := Fair) (fun _ _ _ hl hP hst => hl.step hP.1 hP.2 hst) (fair_new rule)
  obtain ⟨user, hget⟩ := Map.exists_get hseated
  have hold : l.room.seat uid = some user.chairID := seat_eq_some.mpr ⟨user, hget, rfl⟩
  cases exist with
  | false =>
    obtain ⟨data, hdata⟩ := dismissPushData_isSome hfair.filled o user
    refine ⟨l.room, askForDismiss_no o' hfair.free hget hdata, fun hchange => ?_⟩
    exact absurd hchange (by simp)
  | true =>
    have hvote := hfair.vote hold
    obtain ⟨data, hdata⟩ := dismissPushData_isSome hvote.filled o user
    rw [askForDismiss_yes o' hfair.free hget hdata]
    split_ifs with hall
    · obtain ⟨r', hdone, -⟩ := kickAll_eq hvote.keyed o'
      refine ⟨r', hdone, fun _ => ⟨rfl, fun u hu => ?_⟩⟩
      exact Finset.mem_insert.mp (all_voted (hvote.counted (hfair.open hold)) hall u hu)
    · exact ⟨_, rfl, fun hchange => absurd hchange (by simp [Room.vote])⟩

/-- User `n` arrives, and its timer is started. -/
def settle (n : Fin 4) (l : List (Fin 4)) : List (Event (Fin 4)) :=
  [.enter ⟨n, "", ""⟩ (Order.first l), .schedule n]

/-- Three users arrive, the third is kicked, and the first asks for the dismissal. -/
def asked (a b c : Fin 4) : List (Event (Fin 4)) :=
  settle a [] ++ settle b [] ++ settle c [a, b] ++ [.expire c, .timeout c, .ask a true (.first []) (.first [])]

theorem dismissal_unanimous_asked : ∃ l : Ledger (Fin 4),
    Run Ledger.step (fun l ev => Calm l ev ∧ KeepsDistinct l ev) (newLedger three) (asked 0 1 2) l ∧
    l.room.users.keys = {0, 1} ∧ l.voted = {0} ∧
    ∃ r', l.room.askForDismiss (.first []) (.first []) 1 true = .done r' ∧
      (r'.users ≠ l.room.users ∨ r'.roomDismissed ≠ l.room.roomDismissed →
        true = true ∧ ∀ u ∈ l.room.users.keys, u = 1 ∨ u ∈ l.voted) := by
  obtain ⟨l, hrun, hq⟩ := exists_run Ledger.step (fun l ev => Calm l ev ∧ KeepsDistinct l ev)
    (newLedger three) (asked 0 1 2)
    (fun l : Ledger (Fin 4) => decide (l.room.users.keys = {0, 1} ∧ l.voted = {0})) (by decide +kernel)
  obtain ⟨hkeys, hvoted⟩ := of_decide_eq_true hq
  exact ⟨l, hrun, hkeys, hvoted, dismissal_unanimous three hrun (by rw [hkeys]; decide) true _ _⟩

theorem Outcome.eq_panic {x : Outcome Uid} (h : x.room.isNone = true) : x = .panic := by
  cases x with
  | done r => cases h
  | blocked r => cases h
  | panic => rfl

/-- The third of three users votes and is kicked. -/
def stale (a b c : Fin 4) : List (Event (Fin 4)) :=
  settle a [] ++ settle b [] ++ settle c [a, b] ++ [.ask c true (.first []) (.first []), .expire c, .timeout c]

/-- When the first of two users has been kicked and the other one, on chair 1, asks for the dismissal,
    the arrays have length 1. When a third one has voted and been kicked, the yes of one of the two who
    are left dismisses the room. -/
theorem dismissal_out_of_range :
    (∃ l : Ledger (Fin 4), Run Ledger.step KeepsDistinct (newLedger three)
        (settle 0 [] ++ settle 1 [] ++ [.expire 0, .timeout 0]) l ∧
      1 ∈ l.room.users.keys ∧ l.room.askForDismiss (.first []) (.first []) 1 true = .panic) ∧
    ∃ (l : Ledger (Fin 4)) (r' : Room (Fin 4)),
      Run Ledger.step KeepsDistinct (newLedger three) (stale 0 1 2) l ∧ l.room.users.keys = {0, 1} ∧ 1 ∉ l.voted ∧
      (l.room.askForDismiss (.first []) (.first []) 0 true).room = some r' ∧ r'.roomDismissed = true := by
  constructor
  · obtain ⟨l, hrun, hq⟩ := exists_run Ledger.step KeepsDistinct (newLedger three)
      (settle 0 [] ++ settle 1 [] ++ [.expire 0, .timeout 0])
      (fun l : Ledger (Fin 4) => decide (1 ∈ l.room.users.keys ∧
        (l.room.askForDismiss (.first []) (.first []) 1 true).room.isNone = true)) (by decide +kernel)
    obtain ⟨hseated, hpanic⟩ := of_decide_eq_true hq
    exact ⟨l, hrun, hseated, Outcome.eq_panic hpanic⟩
  · obtain ⟨l, hrun, hq⟩ := exists_run Ledger.step KeepsDistinct (newLedger three) (stale 0 1 2)
      (fun l : Ledger (Fin 4) => decide (l.room.users.keys = {0, 1} ∧ 1 ∉ l.voted ∧
        (l.room.askForDismiss (.first []) (.first []) 0 true).room.any fun r' => r'.roomDismissed))
      (by decide +kernel)
    obtain ⟨hkeys, hvoted, hdone⟩ := of_decide_eq_true hq
    obtain ⟨r', hr', hdismissed⟩ := (Option.any_eq_true _ _).mp hdone
    exact ⟨l, r', hrun, hkeys, hvoted, hr', hdismissed⟩

end GoServices.Rooms
