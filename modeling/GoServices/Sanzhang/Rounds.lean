import GoServices.Sanzhang.Game

/-! The shape of the game data, and whose turn it is.

    All arrays of the game data keep the length that the rule gives them, whatever users and timers do
    (`Regular`). The turn goes to the next chair that is playing; a chair that has lost counts as
    playing until the game ends, and the search does not look at the list of losers. -/

namespace GoServices.Sanzhang

open Ranges Runs Rooms

variable {Uid : Type} [DecidableEq Uid] {rule : GameRule} {g h : GameFrame Uid}

/-! ### The arrays of the game data -/

/-- The slices have their lengths, losers are chairs, and no bet is negative. -/
structure Regular (n : ℕ) (d : GameData) : Prop where
  count : d.chairCount = n
  hands : d.handCards.length = n
  dealt : ∀ cards ∈ d.handCards, cards = [] ∨ cards.length = 3
  pours : d.pourScores.length = n
  status : d.userStatusArray.length = n
  loser : ∀ i ∈ d.loser, i < n
  bets : ∀ pours ∈ d.pourScores, ∀ score ∈ pours, 0 ≤ score

theorem regular_init (rule : GameRule) : Regular rule.maxPlayerCount (initGameData rule) where
  count := rfl
  hands := List.length_replicate
  dealt := fun _ h => Or.inl (List.eq_of_mem_replicate h)
  pours := List.length_replicate
  status := List.length_replicate
  loser := fun _ h => absurd h List.not_mem_nil
  bets := fun _ h _ hscore => absurd hscore (by rw [List.eq_of_mem_replicate h]; exact List.not_mem_nil)

theorem length_getCards {cards : List ℕ} {s : List ℕ × List ℕ} (h : getCards cards = some s) :
    s.1.length = 3 := by
  unfold getCards at h
  split_ifs at h with hlt
  rw [← Option.some.inj h, List.length_reverse, List.length_drop]
  omega

theorem mem_modify {α : Type} {f : α → α} {l : List α} {i : ℕ} {x : α} (h : x ∈ l.modify i f) :
    x ∈ l ∨ ∃ y ∈ l, f y = x := by
  obtain ⟨j, hj⟩ := List.getElem?_of_mem h
  rw [List.getElem?_modify] at hj
  obtain ⟨y, hy, hx⟩ := Option.map_eq_some_iff.mp hj
  have hmem := List.mem_of_getElem? hy
  split_ifs at hx
  · exact Or.inr ⟨y, hmem, hx⟩
  · exact Or.inl (hx ▸ hmem)

/-- `gameEnd` only chooses the next banker and starts a timer. -/
theorem gameEnd_eq (winScores : List Int64) (g : GameFrame Uid) :
    ∃ banker cur, gameEnd winScores g =
      { g.update fun d => { d with bankerChairID := banker, curChairID := cur } with
        readies := g.readies + 1 } := by
  have hloop : ∀ (is : List ℕ) (g : GameFrame Uid), ∃ banker cur, is.foldl (fun g i =>
      if 0 < winScores.getD i 0 then
        g.update fun d => { d with bankerChairID := i, curChairID := i }
      else g) g = g.update fun d => { d with bankerChairID := banker, curChairID := cur } := by
    intro is
    induction is with
    | nil => exact fun g => ⟨_, _, rfl⟩
    | cons i is ih =>
      intro g
      rw [List.foldl_cons]
      split_ifs
      · exact ih _
      · exact ih g
  obtain ⟨banker, cur, heq⟩ := hloop (List.range g.gameData.chairCount) g
  refine ⟨banker, cur, ?_⟩
  simp only [gameEnd, heq]
  rfl

/-- After `startResult` the game data are new, and the result is on record. -/
theorem startResult_eq_some (hh : startResult rule g = some h) : ∃ winScores banker cur,
    settle g.gameData = some winScores ∧ h.gameResult.map GameResult.winScores = some winScores ∧
    h.gameData = { initGameData rule with bankerChairID := banker, curChairID := cur } := by
  obtain ⟨winScores, hsettle, rfl⟩ := Option.map_eq_some_iff.mp hh
  obtain ⟨banker, cur, heq⟩ := gameEnd_eq winScores (resetGame rule { g with
    gameResult := some ⟨g.gameData.winner, g.gameData.handCards, g.gameData.curScores,
      g.gameData.loser, winScores⟩ })
  exact ⟨winScores, banker, cur, hsettle, by rw [heq]; rfl, by rw [heq]; rfl⟩

namespace Regular

variable {n : ℕ} {user : RoomUser Uid} {b : Bool}

theorem deal_chair {i : ℕ} (hg : Regular n g.gameData) (hh : dealChair g i = some h) :
    Regular n h.gameData := by
  unfold dealChair at hh
  split_ifs at hh with hi
  · obtain ⟨s, hs, rfl⟩ := Option.map_eq_some_iff.mp hh
    refine ⟨hg.count, (List.length_set ..).trans hg.hands, ?_, hg.pours, hg.status, hg.loser, hg.bets⟩
    intro cards hcards
    rcases List.mem_or_eq_of_mem_set hcards with hmem | rfl
    · exact hg.dealt cards hmem
    · exact Or.inr (length_getCards hs)
  · exact Option.some.inj hh ▸ hg

theorem send_cards {random : ℕ → ℕ} (hg : Regular n g.gameData) (hh : sendCards random g = some h) :
    Regular n h.gameData :=
  (run_of_foldlM hh).preserves (I := fun g => Regular n g.gameData)
    (fun _ _ _ hg _ hs => hg.deal_chair hs) hg

theorem start_game {draw : Draw} (hg : Regular n g.gameData) (hh : startGame rule draw g = some h) :
    Regular n h.gameData := by
  obtain ⟨g', hsend, hh⟩ := Option.bind_eq_some_iff.mp hh
  obtain ⟨score, -, rfl⟩ := Option.map_eq_some_iff.mp hh
  have hg' : Regular n g'.gameData := by
    refine send_cards ?_ hsend
    exact ⟨hg.count, hg.hands, hg.dealt, hg.pours, hg.status, hg.loser, hg.bets⟩
  exact ⟨hg'.count, hg'.hands, hg'.dealt, hg'.pours, hg'.status, hg'.loser, hg'.bets⟩

theorem user_ready {draw : Draw} {uid : Uid} (hg : Regular n g.gameData)
    (hh : userReady rule draw g uid = some h) : Regular n h.gameData := by
  simp only [userReady] at hh
  split_ifs at hh
  · exact start_game (g := { g with r := g.r.userReady uid }) hg hh
  · exact Option.some.inj hh ▸ hg

theorem look (hg : Regular n g.gameData) (hh : onGameLook g user = some (h, b)) :
    Regular n h.gameData := by
  unfold onGameLook at hh
  split_ifs at hh <;> obtain ⟨rfl, -⟩ := Prod.mk.inj (Option.some.inj hh)
  · exact hg
  · exact hg
  · exact ⟨hg.count, hg.hands, hg.dealt, hg.pours, (List.length_set ..).trans hg.status, hg.loser,
      hg.bets⟩

theorem pour {score : Int64} (hg : Regular n g.gameData) (hh : onGamePourScore g user score = some (h, b)) :
    Regular n h.gameData := by
  unfold onGamePourScore at hh
  split_ifs at hh with _ _ hneg hlt <;> obtain ⟨rfl, -⟩ := Prod.mk.inj (Option.some.inj hh)
  · exact hg
  · exact hg
  · exact hg
  · refine ⟨hg.count, hg.hands, hg.dealt, (List.length_modify ..).trans hg.pours, hg.status, hg.loser, ?_⟩
    intro pours hpours x hx
    rcases mem_modify hpours with hmem | ⟨old, hmem, rfl⟩
    · exact hg.bets pours hmem x hx
    · rcases List.mem_append.mp hx with hx | hx
      · exact hg.bets old hmem x hx
      · exact List.mem_singleton.mp hx ▸ Int64.not_lt.mp hneg

theorem compare {chairID : ℤ} (hg : Regular n g.gameData)
    (hh : onGameCompare g user chairID = some (h, b)) : Regular n h.gameData := by
  obtain ⟨fromCards, hfrom, hh⟩ := Option.bind_eq_some_iff.mp hh
  obtain ⟨toCards, hto, hh⟩ := Option.bind_eq_some_iff.mp hh
  obtain ⟨result, -, hh⟩ := Option.map_eq_some_iff.mp hh
  obtain ⟨rfl, -⟩ := Prod.mk.inj hh
  have hfrom := (List.getElem?_eq_some_iff.mp hfrom).1
  have hto : chairID.toNat < g.gameData.handCards.length := by
    split_ifs at hto
    exact (List.getElem?_eq_some_iff.mp hto).1
  rw [hg.hands] at hfrom hto
  refine ⟨hg.count, hg.hands, hg.dealt, hg.pours, ?_, ?_, hg.bets⟩
  · simp only [GameFrame.update, List.length_set]
    exact hg.status
  · intro i hi
    rcases List.mem_append.mp hi with hi | hi
    · exact hg.loser i hi
    · rw [List.mem_singleton.mp hi]
      split_ifs
      · exact hto
      · exact hfrom

theorem abandon (hg : Regular n g.gameData) (hh : onGameAbandon g user = some (h, b)) :
    Regular n h.gameData := by
  unfold onGameAbandon at hh
  split_ifs at hh with hplay hlost hlt <;> obtain ⟨rfl, -⟩ := Prod.mk.inj (Option.some.inj hh)
  · exact hg
  · exact hg
  · rw [hg.status] at hlt
    refine ⟨hg.count, hg.hands, hg.dealt, hg.pours, (List.length_set ..).trans hg.status, ?_,
      hg.bets⟩
    intro i hi
    rcases List.mem_append.mp hi with hi | hi
    · exact hg.loser i hi
    · exact List.mem_singleton.mp hi ▸ hlt

theorem message {req : MessageReq} (hg : Regular n g.gameData)
    (hh : gameMessageHandle g user req = some (h, b)) : Regular n h.gameData := by
  unfold gameMessageHandle at hh
  split_ifs at hh
  · exact hg.look hh
  · exact hg.pour hh
  · exact hg.compare hh
  · exact hg.abandon hh
  · exact (Prod.mk.inj (Option.some.inj hh)).1 ▸ hg

theorem handle {ev : Event Uid} (hg : Regular n g.gameData)
    (hh : Sanzhang.handle rule g ev = some (h, b)) : Regular n h.gameData := by
  cases ev with
  | room ev =>
    have hroom : ∃ r, h = { g with r } := by
      cases ev <;> simp only [Sanzhang.handle, Option.map_eq_some_iff, Prod.mk.injEq, reduceCtorEq] at hh
      all_goals
        obtain ⟨r, -, rfl, -⟩ := hh
        exact ⟨r, rfl⟩
    obtain ⟨r, rfl⟩ := hroom
    exact hg
  | ready uid draw =>
    obtain ⟨g', hg', hh⟩ := Option.map_eq_some_iff.mp hh
    exact (Prod.mk.inj hh).1 ▸ hg.user_ready hg'
  | message uid req =>
    simp only [Sanzhang.handle] at hh
    cases hu : g.r.users.get uid with
    | none =>
      rw [hu, Option.elim_none] at hh
      exact (Prod.mk.inj (Option.some.inj hh)).1 ▸ hg
    | some user =>
      rw [hu, Option.elim_some] at hh
      exact hg.message hh
  | abandoned =>
    simp only [Sanzhang.handle] at hh
    split_ifs at hh
    exact (Prod.mk.inj (Option.some.inj hh)).1 ▸ hg
  | nextGame o draw =>
    simp only [Sanzhang.handle] at hh
    split_ifs at hh
    obtain ⟨g', hg', hh⟩ := Option.map_eq_some_iff.mp hh
    refine (Prod.mk.inj hh).1 ▸ (run_of_foldlM hg').preserves (I := fun g => Regular n g.gameData) ?_ hg
    exact fun _ _ _ hg _ hs => hg.user_ready hs

theorem end_pourScore (hg : Regular rule.maxPlayerCount g.gameData)
    (hh : endPourScore rule g = some h) : Regular rule.maxPlayerCount h.gameData := by
  unfold endPourScore at hh
  split_ifs at hh
  · obtain ⟨-, banker, cur, -, -, hdata⟩ := startResult_eq_some hh
    have hinit := regular_init rule
    rw [hdata]
    exact ⟨hinit.count, hinit.hands, hinit.dealt, hinit.pours, hinit.status, hinit.loser, hinit.bets⟩
  · rw [← Option.some.inj hh]
    exact ⟨hg.count, hg.hands, hg.dealt, hg.pours, hg.status, hg.loser, hg.bets⟩

theorem step {ev : Event Uid} (hg : Regular rule.maxPlayerCount g.gameData)
    (hh : Sanzhang.step rule g ev = some h) : Regular rule.maxPlayerCount h.gameData := by
  obtain ⟨⟨g', b⟩, hg', hh⟩ := Option.bind_eq_some_iff.mp hh
  dsimp only at hh
  split_ifs at hh
  · exact (hg.handle hg').end_pourScore hh
  · exact Option.some.inj hh ▸ hg.handle hg'

end Regular

theorem regular_of_run {evs : List (Event Uid)}
    (hg : Run (step rule) Any (newGameFrame rule) evs g) : Regular rule.maxPlayerCount g.gameData :=
  hg.preserves (I := fun g => Regular rule.maxPlayerCount g.gameData) (fun _ _ _ hg _ hs => hg.step hs)
    (regular_init rule)

/-! ### The next turn -/

theorem inGame_iff {i : ℕ} :
    g.inGame i = true ↔ g.isPlayingChairID i = true ∧ i ∉ g.gameData.loser := by
  simp [GameFrame.inGame]

/-- Every chair is some steps ahead. -/
theorem exists_ahead {c i : ℕ} (hi : i < c) (cur : ℕ) : ∃ k, 1 ≤ k ∧ k ≤ c ∧ (cur + k) % c = i := by
  have hcur := Nat.mod_lt cur (Nat.zero_lt_of_lt hi)
  have hsplit := Nat.div_add_mod cur c
  rcases Nat.lt_or_ge (cur % c) i with hlt | hge
  · refine ⟨i - cur % c, by omega, by omega, ?_⟩
    rw [show cur + (i - cur % c) = i + c * (cur / c) by omega, Nat.add_mul_mod_self_left,
      Nat.mod_eq_of_lt hi]
  · refine ⟨c - cur % c + i, by omega, by omega, ?_⟩
    rw [show cur + (c - cur % c + i) = i + c + c * (cur / c) by omega, Nat.add_mul_mod_self_left,
      Nat.add_mod_right, Nat.mod_eq_of_lt hi]

/-- The search stops at the first playing chair. -/
theorem seek_spec (playing : ℕ → Bool) (c : ℕ) {n cur k : ℕ} (hk : 1 ≤ k) (hkn : k ≤ n)
    (hp : playing ((cur + k) % c) = true) : ∃ m, 1 ≤ m ∧ m ≤ n ∧ seek playing c n cur = (cur + m) % c ∧
      playing ((cur + m) % c) = true ∧ ∀ j, 1 ≤ j → j < m → playing ((cur + j) % c) = false := by
  induction n generalizing cur k with
  | zero => omega
  | succ n ih =>
    rw [seek]
    by_cases hnext : playing ((cur + 1) % c) = true
    · exact ⟨1, le_rfl, by omega, if_pos hnext, hnext, fun j hj hj' => by omega⟩
    · have hk1 : k ≠ 1 := fun h => hnext (h ▸ hp)
      obtain ⟨k, rfl⟩ : ∃ k', k = k' + 1 := ⟨k - 1, by omega⟩
      have hshift : ∀ m, ((cur + 1) % c + m) % c = (cur + (m + 1)) % c := by
        intro m
        rw [Nat.mod_add_mod, Nat.add_right_comm, Nat.add_assoc]
      have hp' : playing (((cur + 1) % c + k) % c) = true := by
        rw [hshift]
        exact hp
      obtain ⟨m, hm, hmn, hseek, hpm, hbefore⟩ := ih (by omega) (by omega) hp'
      rw [hshift] at hseek hpm
      refine ⟨m + 1, by omega, by omega, by rw [if_neg hnext, hseek], hpm, ?_⟩
      intro j hj hjm
      obtain ⟨j, rfl⟩ : ∃ j', j = j' + 1 := ⟨j - 1, by omega⟩
      rcases Nat.eq_zero_or_pos j with rfl | hpos
      · exact Bool.not_eq_true _ ▸ hnext
      · rw [← hshift]
        exact hbefore j hpos (by omega)

/-- While two chairs are in the game the turn goes to one of them exactly when, counted from the
    chair after the present one, no chair that has lost and still counts as playing comes first. -/
theorem turn_in_game_iff (rule : GameRule) (g : GameFrame Uid) (h2 : 2 ≤ g.gamerCount) :
    (∃ h, endPourScore rule g = some h ∧ h.inGame h.gameData.curChairID = true) ↔
    ∀ k, 1 ≤ k → k ≤ g.gameData.chairCount →
      g.isPlayingChairID ((g.gameData.curChairID + k) % g.gameData.chairCount) = true →
      (g.gameData.curChairID + k) % g.gameData.chairCount ∈ g.gameData.loser →
      ∃ j, 1 ≤ j ∧ j < k ∧ g.inGame ((g.gameData.curChairID + j) % g.gameData.chairCount) = true := by
  obtain ⟨i, hi, hin⟩ := List.countP_pos_iff.mp (Nat.lt_of_lt_of_le (by decide : 0 < 2) h2)
  obtain ⟨k₀, hk₀, hk₀', heq⟩ := exists_ahead (List.mem_range.mp hi) g.gameData.curChairID
  obtain ⟨m, hm, hmc, hseek, hpm, hbefore⟩ := seek_spec g.isPlayingChairID g.gameData.chairCount hk₀ hk₀'
    (heq ▸ (inGame_iff.mp hin).1)
  have hend : endPourScore rule g = some (g.update fun d => { d with
      curChairID := (g.gameData.curChairID + m) % g.gameData.chairCount, gameStatus := .pourScore }) := by
    rw [endPourScore, if_neg (by omega), ← hseek]
    rfl
  rw [hend]
  constructor
  · rintro ⟨h, hh, hcur⟩ k hk hkc hpk hlost
    obtain rfl := Option.some.inj hh
    refine ⟨m, hm, ?_, hcur⟩
    rcases Nat.lt_trichotomy m k with hlt | rfl | hgt
    · exact hlt
    · exact absurd hlost (inGame_iff.mp hcur).2
    · exact absurd hpk (by rw [hbefore k hk hgt]; exact Bool.false_ne_true)
  · intro hcond
    refine ⟨_, rfl, inGame_iff.mpr ⟨hpm, fun hlost => ?_⟩⟩
    obtain ⟨j, hj, hjm, hinj⟩ := hcond m hm hmc hpm hlost
    exact absurd (inGame_iff.mp hinj).1 (by rw [hbefore j hj hjm]; exact Bool.false_ne_true)

/-! ### Games of three -/

/-- A table for three. -/
def three : GameRule := ⟨3, 2, 1, [1], by decide⟩

/-- The cards stay as they are, and chair 0 begins. -/
def unmixed : Draw := ⟨fun i => i, 0⟩

/-- A user enters. -/
def arrive (uid : ℕ) : Event ℕ := .room (.enter ⟨uid, "", ""⟩ (Order.first []))

/-- Three users sit down and start a game: chair 0 gets the best cards, chair 2 the worst. -/
def dealt : List (Event ℕ) :=
  [arrive 0, arrive 1, arrive 2, .ready 0 unmixed, .ready 1 unmixed, .ready 2 unmixed]

/-- A user bets. -/
def pour (uid : ℕ) (score : Int64) : Event ℕ :=
  .message uid ⟨gamePourScoreNotify, ⟨false, score, 1, 0⟩⟩

/-- A user compares with a chair. -/
def compareWith (uid : ℕ) (chairID : ℤ) : Event ℕ :=
  .message uid ⟨gameCompareNotify, ⟨false, 0, 0, chairID⟩⟩

/-- A user gives up. -/
def giveUp (uid : ℕ) : Event ℕ := .message uid ⟨gameAbandonNotify, ⟨false, 0, 0, 0⟩⟩

/-- Chair 0 beats chair 2, which then comes behind chair 1. -/
theorem turn_in_game_compared : ∃ g h : GameFrame ℕ,
    Run (step three) Any (newGameFrame three) dealt g ∧
    handle three g (compareWith 0 2) = some (h, true) ∧ h.gameData.loser = [2] ∧ 2 ≤ h.gamerCount ∧
    ∃ h', endPourScore three h = some h' ∧ h'.inGame h'.gameData.curChairID = true := by
  obtain ⟨g, hg, hq⟩ := exists_run (step three) Any (newGameFrame three) dealt
    (fun g : GameFrame ℕ => (handle three g (compareWith 0 2)).any fun s : GameFrame ℕ × Bool =>
      s.2 && decide (2 ≤ s.1.gamerCount ∧ s.1.gameData.loser = [2] ∧ s.1.gameData.chairCount = 3 ∧
        s.1.gameData.curChairID = 0 ∧ s.1.inGame 1 = true)) (by decide +kernel)
  obtain ⟨⟨h, b⟩, hh, hq⟩ := (Option.any_eq_true _ _).mp hq
  obtain ⟨rfl, hq⟩ := Bool.and_eq_true_iff.mp hq
  obtain ⟨h2, hloser, hcount, hcur, hin⟩ := of_decide_eq_true hq
  refine ⟨g, h, hg, hh, hloser, h2, (turn_in_game_iff three h h2).mpr ?_⟩
  rw [hloser, hcount, hcur]
  intro k hk hk3 _ hlost
  have hk2 : k ≠ 1 := by
    rintro rfl
    exact absurd hlost (by decide)
  exact ⟨1, le_rfl, by omega, hin⟩

/-- Chair 0 beats chair 1, and the next turn is that of chair 1, which is out of the game. -/
theorem turn_to_loser : ∃ h : GameFrame ℕ,
    Run (step three) Any (newGameFrame three) (dealt ++ [compareWith 0 1]) h ∧
    h.gameData.gameStatus = .pourScore ∧ h.gamerCount = 2 ∧ h.gameData.curChairID = 1 ∧
    h.gameData.loser = [1] ∧ h.inGame h.gameData.curChairID = false := by
  obtain ⟨h, hh, hq⟩ := exists_run (step three) Any (newGameFrame three) (dealt ++ [compareWith 0 1])
    (fun h : GameFrame ℕ => decide (h.gameData.gameStatus = .pourScore ∧ h.gamerCount = 2 ∧
      h.gameData.curChairID = 1 ∧ h.gameData.loser = [1] ∧
      h.inGame h.gameData.curChairID = false)) (by decide +kernel)
  exact ⟨h, hh, of_decide_eq_true hq⟩

end GoServices.Sanzhang
