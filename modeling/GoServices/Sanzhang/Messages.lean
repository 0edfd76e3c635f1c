import GoServices.Sanzhang.Settlement

/-! Messages of users whose turn it is not.

    `onGameLook` and `onGamePourScore` begin with the same guard; `onGameCompare` has none, so that it
    acts for anybody at any time, with a hand that may not be dealt and a chair that the client made up.
    Behind the guard an index can still be out of range: the first banker is drawn among the users, of
    whom there may be more than chairs, and the list of winners can be longer than that of the chairs
    when a bet ends the game. -/

namespace GoServices.Sanzhang

open Runs Rooms

variable {Uid : Type} [DecidableEq Uid] {rule : GameRule} {g h : GameFrame Uid} {user : RoomUser Uid}

/-- The guard of `onGameLook` and `onGamePourScore`. -/
def OnTurn (g : GameFrame Uid) (user : RoomUser Uid) : Prop :=
  g.gameData.gameStatus = .pourScore ∧ g.gameData.curChairID = user.chairID ∧
    g.isPlayingChairID user.chairID = true

instance (g : GameFrame Uid) (user : RoomUser Uid) : Decidable (OnTurn g user) :=
  inferInstanceAs (Decidable (_ ∧ _ ∧ _))

/-- The chair that loses a comparison with this result. -/
def loserOf (user : RoomUser Uid) (chairID : ℤ) (result : ℤ) : ℕ :=
  if 0 < result then chairID.toNat else user.chairID

/-- How many chairs are in the game besides one. -/
def GameFrame.othersCount (g : GameFrame Uid) (chairID : ℕ) : ℕ :=
  (List.range g.gameData.chairCount).countP fun i => g.inGame i && i != chairID

/-- When a message is handled as it should be: a user on turn has a chair of the game, and a bet that
    settles the game finds no more winners than chairs; a comparison is made on turn, between two
    dealt hands, and if it settles the game and somebody has bet, there is room for one more winner. -/
def Allowed (g : GameFrame Uid) (user : RoomUser Uid) (req : MessageReq) : Prop :=
  if req.type = gameLookNotify then OnTurn g user → user.chairID < g.gameData.chairCount
  else if req.type = gamePourScoreNotify then
    OnTurn g user → 0 ≤ req.data.score → user.chairID < g.gameData.chairCount ∧
      (g.gamerCount = 1 → g.gameData.winner.length ≤ g.gameData.chairCount)
  else OnTurn g user ∧ 0 ≤ req.data.chairID ∧ ∃ fromCards toCards,
    g.gameData.handCards[user.chairID]? = some fromCards ∧ fromCards ≠ [] ∧
    g.gameData.handCards[req.data.chairID.toNat]? = some toCards ∧ toCards ≠ [] ∧
    ∀ result, compareCards fromCards toCards = some result →
      g.othersCount (loserOf user req.data.chairID result) = 1 → g.gameData.Poured →
        g.gameData.winner.length < g.gameData.chairCount

/-! ### Where the handlers end -/

/-- `endPourScore` panics only in a settlement with more winners than chairs. -/
theorem endPourScore_isSome (hreg : Regular rule.maxPlayerCount g.gameData) :
    (∃ h, endPourScore rule g = some h) ↔ (g.gamerCount = 1 → g.gameData.Poured →
      g.gameData.winner.length ≤ g.gameData.chairCount) := by
  have hlen : g.gameData.pourScores.length = g.gameData.chairCount := hreg.pours.trans hreg.count.symm
  rw [endPourScore]
  split_ifs with h1
  · constructor
    · rintro ⟨h, hh⟩ -
      obtain ⟨ws, _, _, hsettle, -⟩ := startResult_eq_some hh
      exact winners_le_of_settle hlen hsettle
    · intro hle
      obtain ⟨ws, hws⟩ := exists_settle hlen (hle h1)
      rw [startResult, hws]
      exact ⟨_, rfl⟩
  · exact ⟨fun _ h => absurd h h1, fun _ => ⟨_, rfl⟩⟩

/-- Two hands can be compared if both are dealt. -/
theorem compareCards_isSome {a b : List ℕ} (ha : a = [] ∨ a.length = 3) (hb : b = [] ∨ b.length = 3) :
    (∃ result, compareCards a b = some result) ↔ a ≠ [] ∧ b ≠ [] := by
  rcases ha with rfl | ha
  · constructor
    · rintro ⟨_, h⟩
      rw [compareCards, getCardsType_nil, Option.bind_none] at h
      exact absurd h (by simp)
    · exact fun h => absurd rfl h.1
  rcases hb with rfl | hb
  · constructor
    · rintro ⟨_, h⟩
      obtain ⟨_, -, h⟩ := Option.bind_eq_some_iff.mp h
      rw [getCardsType_nil, Option.bind_none] at h
      exact absurd h (by simp)
    · exact fun h => absurd rfl h.2
  obtain ⟨_, _, _, _, hra⟩ := exists_ranked ha
  obtain ⟨_, _, _, _, hrb⟩ := exists_ranked hb
  have hne : ∀ {l : List ℕ}, l.length = 3 → l ≠ [] := by
    rintro l hl rfl
    exact absurd hl (by decide)
  exact ⟨fun _ => ⟨hne ha, hne hb⟩, fun _ => ⟨_, compareCards_eq hra hrb⟩⟩

/-- The rest of an event after its handler. -/
def finish (rule : GameRule) (s : GameFrame Uid × Bool) : Option (GameFrame Uid) :=
  if s.2 then endPourScore rule s.1 else some s.1

/-- The handler ends without a panic, and out of turn it has changed nothing. -/
def Proper (rule : GameRule) (g : GameFrame Uid) (user : RoomUser Uid)
    (x : Option (GameFrame Uid × Bool)) : Prop :=
  ∃ h, x.bind (finish rule) = some h ∧ (¬ OnTurn g user → h.gameData = g.gameData)

theorem proper_of_refused : Proper rule g user (some (g, false)) := ⟨g, rfl, fun _ => rfl⟩

theorem not_proper_none : ¬ Proper rule g user none := by
  rintro ⟨h, hh, -⟩
  exact absurd hh (by simp)

/-- On turn the handler only has to end. -/
theorem proper_of_onTurn {x : Option (GameFrame Uid × Bool)} (ht : OnTurn g user) :
    Proper rule g user x ↔ ∃ h, x.bind (finish rule) = some h :=
  ⟨fun ⟨h, hh, _⟩ => ⟨h, hh⟩, fun ⟨h, hh⟩ => ⟨h, hh, fun hn => absurd ht hn⟩⟩

/-- The guard written as a chain of conditions. -/
theorem guard_eq {A : Type} (x y : A) :
    (if g.gameData.gameStatus ≠ .pourScore ∨ g.gameData.curChairID ≠ user.chairID then x
      else if !g.isPlayingChairID user.chairID then x else y) = if OnTurn g user then y else x := by
  by_cases hstatus : g.gameData.gameStatus = .pourScore <;>
    by_cases hcur : g.gameData.curChairID = user.chairID <;>
    cases hplay : g.isPlayingChairID user.chairID <;> simp [OnTurn, hstatus, hcur, hplay]

theorem look_iff (hreg : Regular rule.maxPlayerCount g.gameData) :
    Proper rule g user (onGameLook g user) ↔ (OnTurn g user → user.chairID < g.gameData.chairCount) := by
  rw [onGameLook, guard_eq, hreg.status, ← hreg.count]
  by_cases ht : OnTurn g user
  · rw [if_pos ht, proper_of_onTurn ht]
    by_cases hlt : user.chairID < g.gameData.chairCount
    · rw [if_pos hlt]
      exact ⟨fun _ _ => hlt, fun _ => ⟨_, rfl⟩⟩
    · rw [if_neg hlt]
      exact ⟨fun ⟨_, h⟩ => absurd h (by simp), fun h => absurd (h ht) hlt⟩
  · rw [if_neg ht]
    exact ⟨fun _ h => absurd h ht, fun _ => proper_of_refused⟩

theorem pour_iff (hreg : Regular rule.maxPlayerCount g.gameData) (score : Int64) :
    Proper rule g user (onGamePourScore g user score) ↔ (OnTurn g user → 0 ≤ score →
      user.chairID < g.gameData.chairCount ∧
      (g.gamerCount = 1 → g.gameData.winner.length ≤ g.gameData.chairCount)) := by
  by_cases ht : OnTurn g user
  · by_cases hscore : score < 0
    · rw [onGamePourScore, guard_eq, if_pos ht, if_pos hscore]
      exact ⟨fun _ _ h => absurd hscore (Int64.not_lt.mpr h), fun _ => proper_of_refused⟩
    by_cases hlt : user.chairID < g.gameData.pourScores.length
    · have hpour : onGamePourScore g user score = some (g.update fun d => { d with
          pourScores := d.pourScores.modify user.chairID (· ++ [score]) }, true) := by
        rw [onGamePourScore, guard_eq, if_pos ht, if_neg hscore, if_pos hlt]
      have hpoured : GameData.Poured (g.update fun d => { d with
          pourScores := d.pourScores.modify user.chairID (· ++ [score]) }).gameData := by
        refine ⟨g.gameData.pourScores[user.chairID] ++ [score], ?_, by simp⟩
        refine List.mem_of_getElem? (i := user.chairID) ?_
        simp [GameFrame.update, List.getElem?_eq_getElem hlt]
      rw [proper_of_onTurn ht, hpour]
      have hend := endPourScore_isSome (hreg.pour hpour)
      rw [hreg.pours, ← hreg.count] at hlt
      constructor
      · intro h _ _
        exact ⟨hlt, fun h1 => hend.mp h h1 hpoured⟩
      · intro h
        exact hend.mpr fun h1 _ => (h ht (Int64.not_lt.mp hscore)).2 h1
    · rw [onGamePourScore, guard_eq, if_pos ht, if_neg hscore, if_neg hlt]
      rw [hreg.pours, ← hreg.count] at hlt
      exact ⟨fun h => absurd h not_proper_none, fun h => absurd (h ht (Int64.not_lt.mp hscore)).1 hlt⟩
  · rw [onGamePourScore, guard_eq, if_neg ht]
    exact ⟨fun _ h => absurd h ht, fun _ => proper_of_refused⟩

/-! ### Comparisons -/

/-- The result of a comparison, written down. -/
def recorded (g : GameFrame Uid) (user : RoomUser Uid) (chairID result : ℤ) : GameFrame Uid :=
  g.update fun d => { d with
    userStatusArray := (d.userStatusArray.set (if 0 < result then user.chairID else chairID.toNat)
      .win).set (loserOf user chairID result) .lose
    loser := d.loser ++ [loserOf user chairID result]
    winner := d.winner ++ [if 0 < result then user.chairID else chairID.toNat] }

theorem onGameCompare_eq_some {chairID : ℤ} {s : GameFrame Uid × Bool} :
    onGameCompare g user chairID = some s ↔ ∃ fromCards toCards result,
      g.gameData.handCards[user.chairID]? = some fromCards ∧ 0 ≤ chairID ∧
      g.gameData.handCards[chairID.toNat]? = some toCards ∧
      compareCards fromCards toCards = some result ∧ s = (recorded g user chairID result, true) := by
  constructor
  · intro h
    obtain ⟨fromCards, hfrom, h⟩ := Option.bind_eq_some_iff.mp h
    obtain ⟨toCards, hto, h⟩ := Option.bind_eq_some_iff.mp h
    obtain ⟨result, hresult, h⟩ := Option.map_eq_some_iff.mp h
    split_ifs at hto with hneg
    exact ⟨fromCards, toCards, result, hfrom, not_lt.mp hneg, hto, hresult, h.symm⟩
  · rintro ⟨fromCards, toCards, result, hfrom, hpos, hto, hresult, rfl⟩
    rw [onGameCompare, hfrom, Option.bind_some, if_neg (not_lt.mpr hpos), hto, Option.bind_some, hresult]
    rfl

theorem gamerCount_recorded (g : GameFrame Uid) (user : RoomUser Uid) (chairID result : ℤ) :
    (recorded g user chairID result).gamerCount = g.othersCount (loserOf user chairID result) := by
  unfold GameFrame.gamerCount GameFrame.othersCount
  refine List.countP_congr fun i _ => ?_
  rw [inGame_iff, Bool.and_eq_true, inGame_iff, bne_iff_ne]
  show g.isPlayingChairID i = true ∧ i ∉ g.gameData.loser ++ [loserOf user chairID result] ↔ _
  rw [List.mem_append, List.mem_singleton, not_or, and_assoc]

/-- A comparison never leaves the game data as they were. -/
theorem recorded_changes {chairID result : ℤ} {cards : List ℕ}
    (hcards : g.gameData.handCards[user.chairID]? = some cards) (hne : cards ≠ [])
    (hh : endPourScore rule (recorded g user chairID result) = some h) : h.gameData ≠ g.gameData := by
  intro heq
  unfold endPourScore at hh
  split_ifs at hh
  · -- the game has been settled, and no hand is dealt any more
    obtain ⟨_, _, _, -, -, hdata⟩ := startResult_eq_some hh
    have hmem := List.mem_of_getElem? hcards
    rw [← heq, hdata] at hmem
    exact hne (List.eq_of_mem_replicate hmem)
  · have hlen := congrArg (fun d => d.loser.length) heq
    rw [← Option.some.inj hh] at hlen
    simp [recorded, GameFrame.update] at hlen

theorem compare_iff (hreg : Regular rule.maxPlayerCount g.gameData) (chairID : ℤ) :
    Proper rule g user (onGameCompare g user chairID) ↔ OnTurn g user ∧ 0 ≤ chairID ∧
      ∃ fromCards toCards, g.gameData.handCards[user.chairID]? = some fromCards ∧ fromCards ≠ [] ∧
        g.gameData.handCards[chairID.toNat]? = some toCards ∧ toCards ≠ [] ∧
        ∀ result, compareCards fromCards toCards = some result →
          g.othersCount (loserOf user chairID result) = 1 → g.gameData.Poured →
            g.gameData.winner.length < g.gameData.chairCount := by
  have hdealt : ∀ {i : ℕ} {cards : List ℕ}, g.gameData.handCards[i]? = some cards →
      cards = [] ∨ cards.length = 3 := fun h => hreg.dealt _ (List.mem_of_getElem? h)
  constructor
  · rintro ⟨h, hh, hkeep⟩
    obtain ⟨s, hs, hh⟩ := Option.bind_eq_some_iff.mp hh
    obtain ⟨fromCards, toCards, result, hfrom, hpos, hto, hresult, rfl⟩ := onGameCompare_eq_some.mp hs
    obtain ⟨hne, hne'⟩ := (compareCards_isSome (hdealt hfrom) (hdealt hto)).mp ⟨result, hresult⟩
    have hend : endPourScore rule (recorded g user chairID result) = some h := hh
    refine ⟨?_, hpos, fromCards, toCards, hfrom, hne, hto, hne', ?_⟩
    · by_contra ht
      exact recorded_changes hfrom hne hend (hkeep ht)
    · intro result' hresult' h1 hpoured
      obtain rfl := Option.some.inj (hresult.symm.trans hresult')
      have hle := (endPourScore_isSome (hreg.compare hs)).mp ⟨h, hend⟩
        ((gamerCount_recorded ..).trans h1) hpoured
      simpa [recorded, GameFrame.update] using hle
  · rintro ⟨ht, hpos, fromCards, toCards, hfrom, hne, hto, hne', hcond⟩
    obtain ⟨result, hresult⟩ := (compareCards_isSome (hdealt hfrom) (hdealt hto)).mpr ⟨hne, hne'⟩
    have hs : onGameCompare g user chairID = some (recorded g user chairID result, true) :=
      onGameCompare_eq_some.mpr ⟨fromCards, toCards, result, hfrom, hpos, hto, hresult, rfl⟩
    rw [proper_of_onTurn ht, hs]
    refine (endPourScore_isSome (hreg.compare hs)).mpr fun h1 hpoured => ?_
    rw [gamerCount_recorded] at h1
    have hlt := hcond result hresult h1 hpoured
    simpa [recorded, GameFrame.update] using hlt

/-! ### Messages -/

/-- A message `Look`, `PourScore` or `Compare` of a seated user is handled without an index out of
    range, and without effect out of turn, exactly if it is allowed. -/
theorem message_proper_iff {evs : List (Event Uid)}
    (hg : Run (step rule) Any (newGameFrame rule) evs g) {uid : Uid}
    (huser : g.r.users.get uid = some user) (req : MessageReq)
    (htype : req.type = gameLookNotify ∨ req.type = gamePourScoreNotify ∨
      req.type = gameCompareNotify) :
    (∃ h, step rule g (.message uid req) = some h ∧
      (g.gameData.gameStatus ≠ .pourScore ∨ g.gameData.curChairID ≠ user.chairID ∨
        g.isPlayingChairID user.chairID = false → h.gameData = g.gameData)) ↔ Allowed g user req := by
  have hreg := regular_of_run hg
  have hturn : (g.gameData.gameStatus ≠ .pourScore ∨ g.gameData.curChairID ≠ user.chairID ∨
      g.isPlayingChairID user.chairID = false) ↔ ¬ OnTurn g user := by
    rw [OnTurn, not_and_or, not_and_or, Bool.not_eq_true]
  have hstep : step rule g (.message uid req) = (gameMessageHandle g user req).bind (finish rule) := by
    rw [step, handle, huser]
    rfl
  rw [hstep, hturn]
  show Proper rule g user (gameMessageHandle g user req) ↔ _
  rcases htype with htype | htype | htype
  · rw [gameMessageHandle, Allowed, if_pos htype, if_pos htype]
    exact look_iff hreg
  · have hlook : req.type ≠ gameLookNotify := by rw [htype]; decide
    rw [gameMessageHandle, Allowed, if_neg hlook, if_neg hlook, if_pos htype, if_pos htype]
    exact pour_iff hreg _
  · have hlook : req.type ≠ gameLookNotify := by rw [htype]; decide
    have hpour : req.type ≠ gamePourScoreNotify := by rw [htype]; decide
    rw [gameMessageHandle, Allowed, if_neg hlook, if_neg hlook, if_neg hpour, if_neg hpour, if_pos htype]
    exact compare_iff hreg _

/-- Out of turn, a bet of chair 1 is ignored. -/
theorem message_proper_ignored : ∃ g h : GameFrame ℕ,
    Run (step three) Any (newGameFrame three) dealt g ∧ g.gameData.curChairID = 0 ∧
    step three g (pour 1 5) = some h ∧ h.gameData = g.gameData := by
  obtain ⟨g, hg, hq⟩ := exists_run (step three) Any (newGameFrame three) dealt
    (fun g : GameFrame ℕ => decide (g.gameData.curChairID = 0) &&
      (g.r.users.get 1).any fun user : RoomUser ℕ => decide (user.chairID = 1)) (by decide +kernel)
  obtain ⟨hcur, huser⟩ := Bool.and_eq_true_iff.mp hq
  obtain ⟨user, huser, hchair⟩ := (Option.any_eq_true _ _).mp huser
  have hcur := of_decide_eq_true hcur
  have hchair := of_decide_eq_true hchair
  have hne : g.gameData.curChairID ≠ user.chairID := by rw [hcur, hchair]; decide
  obtain ⟨h, hh, hkeep⟩ := (message_proper_iff hg huser ⟨gamePourScoreNotify, ⟨false, 5, 1, 0⟩⟩
    (Or.inr (Or.inl rfl))).mpr (fun ht => absurd ht.2.1 hne)
  exact ⟨g, h, hg, hcur, hh, hkeep (Or.inr (Or.inl hne))⟩

/-- Before any card is dealt a comparison is an index out of range, and after that it ends the game for
    chair 1 although it is the turn of chair 0. -/
theorem compare_unguarded : (∃ g : GameFrame ℕ,
      Run (step three) Any (newGameFrame three) [arrive 0, arrive 1] g ∧
      step three g (compareWith 0 1) = none) ∧
    ∃ g h : GameFrame ℕ, Run (step three) Any (newGameFrame three) dealt g ∧
      g.gameData.curChairID = 0 ∧ step three g (compareWith 1 0) = some h ∧
      g.gameData.loser = [] ∧ h.gameData.loser = [1] := by
  constructor
  · obtain ⟨g, hg, hq⟩ := exists_run (step three) Any (newGameFrame three) [arrive 0, arrive 1]
      (fun g : GameFrame ℕ => (step three g (compareWith 0 1)).isNone) (by decide +kernel)
    exact ⟨g, hg, Option.isNone_iff_eq_none.mp hq⟩
  · obtain ⟨g, hg, hq⟩ := exists_run (step three) Any (newGameFrame three) dealt
      (fun g : GameFrame ℕ => decide (g.gameData.curChairID = 0 ∧ g.gameData.loser = []) &&
        (step three g (compareWith 1 0)).any fun h : GameFrame ℕ => decide (h.gameData.loser = [1]))
      (by decide +kernel)
    obtain ⟨hdata, hh⟩ := Bool.and_eq_true_iff.mp hq
    obtain ⟨hcur, hloser⟩ := of_decide_eq_true hdata
    obtain ⟨h, hh, hlost⟩ := (Option.any_eq_true _ _).mp hh
    exact ⟨g, h, hg, hcur, hh, hloser, of_decide_eq_true hlost⟩

end GoServices.Sanzhang
