import GoServices.Mahjong.Game

/-! What a player gets to see of a mahjong game (`GetGameData`).

    The view is the whole game data with the other hands blotted out. It also shows the cards in the
    records of what other players drew or melded face down, the operations that are offered to them,
    which depend on their hands, and the result with all cards. So it hides the other hands only as long
    as none of this is there (`Quiet`). -/

namespace GoServices.Mahjong

open Slices Runs

variable (E : Setup)

/-- A card that is not shown. -/
def hiddenCard : CardID := 36

/-- The hands, read from their slices. -/
def readHands (g : GameFrame) : List (List CardID) := g.gameData.handCards.map g.heap.read

/-- The result, with the hands as they are now. -/
def readResult (g : GameFrame) : Option (GameResult (List (List CardID)) (List CardID)) :=
  g.gameData.result.map fun r =>
    { scores := r.scores
      handCards := readHands g
      myMaCards := r.myMaCards
      restCards := g.heap.read r.restCards
      winChairIDArray := r.winChairIDArray
      gangChairID := r.gangChairID
      fangGangArray := r.fangGangArray
      huType := r.huType }

/-- The copy of the game data, with the slices read out. -/
def copyGameData (g : GameFrame) : GameData (List (List CardID)) (List CardID) where
  bankerChairID := g.gameData.bankerChairID
  chairCount := g.gameData.chairCount
  curBureau := g.gameData.curBureau
  gameStatus := g.gameData.gameStatus
  gameStarted := g.gameData.gameStarted
  tick := g.gameData.tick
  maxBureau := g.gameData.maxBureau
  curChairID := g.gameData.curChairID
  userTrustArray := g.gameData.userTrustArray
  handCards := readHands g
  operateArrays := g.gameData.operateArrays
  operateRecord := g.gameData.operateRecord
  restCardsCount := g.gameData.restCardsCount
  result := readResult g

/-- The hands as the player on `chairID` may see them. -/
def maskHands (chairID : ℕ) (hands : List (List CardID)) : List (List CardID) :=
  hands.mapIdx fun i hand =>
    if i = chairID then hand else List.replicate hand.length hiddenCard

/-- Before a game the whole wall is left. -/
def restShown (gameStatus : GameStatus) (restCardsCount : ℕ) : ℕ :=
  if gameStatus = .none then fullCount E else restCardsCount

/-- What the server sends to a chair. -/
def getGameData (g : GameFrame) (chairID : ℕ) : GameData (List (List CardID)) (List CardID) :=
  let gameData := copyGameData g
  { gameData with
    handCards := maskHands chairID gameData.handCards
    restCardsCount := restShown E gameData.gameStatus gameData.restCardsCount }

/-! ### What the game data tell

    Most of the game only moves cards around. What it assigns beside that are the records, the
    operations offered to each chair, and the result. -/

/-- The fields of the game data that no method assigns. -/
structure Fixed where
  chairCount : ℕ
  maxBureau : ℤ
  userTrustArray : List ℤ
  restCardsCount : ℕ

/-- What the moves of cards keep. -/
structure Kept where
  fixed : Fixed
  operateArrays : List (List OperateType)
  operateRecord : List OperateRecord
  result : Option (GameResult Unit Slice)

namespace GameFrame

/-- The fields that no event changes. -/
def fixed (g : GameFrame) : Fixed :=
  ⟨g.gameData.chairCount, g.gameData.maxBureau, g.gameData.userTrustArray, g.gameData.restCardsCount⟩

/-- The fields that moves of cards leave as they are. -/
def kept (g : GameFrame) : Kept :=
  ⟨g.fixed, g.gameData.operateArrays, g.gameData.operateRecord, g.gameData.result⟩

variable (g : GameFrame)

@[simp] theorem kept_heap (heap : Heap CardID) : ({ g with heap } : GameFrame).kept = g.kept := rfl

@[simp] theorem kept_setHand (i : ℕ) (hand : Slice) : (g.setHand i hand).kept = g.kept := rfl

@[simp] theorem kept_setCurChair (chairID : ℕ) : (g.setCurChair chairID).kept = g.kept := rfl

@[simp] theorem kept_setTick (tick : ℤ) : (g.setTick tick).kept = g.kept := rfl

@[simp] theorem kept_setOperateArray (i : ℕ) (operateArray : List OperateType) :
    (g.setOperateArray i operateArray).kept =
      { g.kept with operateArrays := g.kept.operateArrays.set i operateArray } := rfl

@[simp] theorem kept_record (r : OperateRecord) :
    (g.record r).kept = { g.kept with operateRecord := g.kept.operateRecord ++ [r] } := rfl

end GameFrame

section Moves

variable {E} {g : GameFrame}

@[simp] theorem kept_turnScheduleExecute (chairID : ℕ) (card : CardID)
    (operateArray : List OperateType) :
    (turnScheduleExecute g chairID card operateArray).kept = g.kept := rfl

@[simp] theorem kept_washCards (random : ℕ → ℕ) : (washCards E random g).kept = g.kept := by
  simp only [GameFrame.kept, GameFrame.fixed, washCards]

@[simp] theorem kept_delCards (hand : Slice) (card : CardID) (times : ℕ) :
    (delCards E g hand card times).1.kept = g.kept := by
  simp only [GameFrame.kept, GameFrame.fixed, delCards]

@[simp] theorem kept_discard (chairID : ℕ) (hand : Slice) (card : CardID) (times : ℕ) :
    (discard E g chairID hand card times).kept = g.kept := by
  simp [discard]

@[simp] theorem kept_getCards (num : ℕ) : (getCards g num).1.kept = g.kept := by
  unfold getCards
  split_ifs <;> rfl

@[simp] theorem kept_getCard (card : CardID) : (getCard E g card).1.kept = g.kept := by
  unfold getCard
  dsimp only
  split_ifs <;> rfl

@[simp] theorem kept_drawCard (chairID : ℕ) : (drawCard E g chairID).1.kept = g.kept := by
  have htest (s : GameFrame × CardID) (l : List CardID) :
      ({ s.1 with testCardArray := l } : GameFrame).kept = s.1.kept := rfl
  unfold drawCard
  dsimp only
  split_ifs <;> simp [htest]

@[simp] theorem kept_dealHand (i : ℕ) : (dealHand g i).kept = g.kept := by
  unfold dealHand
  dsimp only
  split_ifs
  · exact kept_getCards 13
  · simp

theorem canHu_kept {hand : Slice} {card : CardID} {s : GameFrame × Bool}
    (h : canHu E g hand card = some s) : s.1.kept = g.kept := by
  obtain ⟨t, _, rfl⟩ := Option.map_eq_some_iff.mp h
  rfl

/-- What is offered for a card another player put down, can be declined. -/
theorem getOperateArray_kept {hand : Slice} {card : CardID} {s : GameFrame × List OperateType}
    (h : getOperateArray E g hand card = some s) :
    s.1.kept = g.kept ∧ (s.2 ≠ [] → .guo ∈ s.2) := by
  obtain ⟨t, ht, rfl⟩ := Option.map_eq_some_iff.mp h
  have hguo : ∀ ops : List OperateType, (if ops = [] then [] else ops ++ [.guo]) ≠ [] →
      .guo ∈ (if ops = [] then [] else ops ++ [.guo]) := by
    intro ops hne
    split_ifs at hne ⊢
    · exact absurd rfl hne
    · exact List.mem_append_right ops (List.mem_singleton_self _)
  exact ⟨canHu_kept ht, hguo _⟩

theorem getMyOperateArray_kept {chairID : ℕ} {hand : Slice} {card : CardID}
    {s : GameFrame × List OperateType} (h : getMyOperateArray E g chairID hand card = some s) :
    s.1.kept = g.kept := by
  obtain ⟨t, ht, rfl⟩ := Option.map_eq_some_iff.mp h
  exact canHu_kept ht

end Moves

/-- What an operation leaves its player to do, if it assigns that. -/
def leaves : OperateType → Option (List OperateType)
  | .peng | .gangChi => some [.qi]
  | .qi | .huChi | .huZi => some []
  | _ => none

/-- What a chair has to do after its own operations. -/
def due (records : List OperateRecord) (chairID : ℕ) : List OperateType :=
  records.foldl (fun ops r => if r.chairID = chairID then (leaves r.operate).getD ops else ops) []

@[simp] theorem due_concat (records : List OperateRecord) (r : OperateRecord) (i : ℕ) :
    due (records ++ [r]) i =
      if r.chairID = i then (leaves r.operate).getD (due records i) else due records i := by
  rw [due, List.foldl_append]
  rfl

/-- The records tell what is offered to a chair, unless it has drawn a card or is asked about a
    discard, and they tell whether there is a result. -/
structure Told (k : Kept) : Prop where
  fixed : k.fixed = (newGameFrame E).fixed
  chairs : k.operateArrays.length = E.maxPlayerCount
  offered : ∀ i ops, k.operateArrays[i]? = some ops →
    ops = due k.operateRecord i ∨ .guo ∈ ops ∨ ∃ r ∈ k.operateRecord, r.chairID = i ∧ r.operate = .get
  result : k.result ≠ none → ∃ r ∈ k.operateRecord, r.operate = .huChi ∨ r.operate = .huZi

namespace Told

variable {E} {k : Kept}

/-- An operation that assigns nothing. -/
theorem record (h : Told E k) {r : OperateRecord} (hr : leaves r.operate = none) :
    Told E { k with operateRecord := k.operateRecord ++ [r] } := by
  refine ⟨h.fixed, h.chairs, fun i ops hi => ?_, fun hres => ?_⟩
  · rcases h.offered i ops hi with hops | hguo | ⟨r', hr', hget⟩
    · refine Or.inl ?_
      rw [due_concat, hr, Option.getD_none, ite_self]
      exact hops
    · exact Or.inr (Or.inl hguo)
    · exact Or.inr (Or.inr ⟨r', List.mem_append_left _ hr', hget⟩)
  · obtain ⟨r', hr', hhu⟩ := h.result hres
    exact ⟨r', List.mem_append_left _ hr', hhu⟩

/-- An operation together with what it offers to its player. -/
theorem assign (h : Told E k) {r : OperateRecord} {ops : List OperateType}
    (hr : leaves r.operate = some ops ∨ r.operate = .get) :
    Told E { k with
      operateArrays := k.operateArrays.set r.chairID ops
      operateRecord := k.operateRecord ++ [r] } := by
  refine ⟨h.fixed, by rw [List.length_set, h.chairs], fun i ops' hi => ?_, fun hres => ?_⟩
  · dsimp only at hi ⊢
    rw [due_concat]
    rw [List.getElem?_set] at hi
    split_ifs at hi with heq hlt
    · obtain rfl := Option.some.inj hi
      rcases hr with hr | hget
      · exact Or.inl (by rw [if_pos heq, hr, Option.getD_some])
      · exact Or.inr (Or.inr ⟨r, by simp, heq, hget⟩)
    · rw [if_neg heq]
      rcases h.offered i ops' hi with hops | hguo | ⟨r', hr', hget⟩
      · exact Or.inl hops
      · exact Or.inr (Or.inl hguo)
      · exact Or.inr (Or.inr ⟨r', List.mem_append_left _ hr', hget⟩)
  · obtain ⟨r', hr', hhu⟩ := h.result hres
    exact ⟨r', List.mem_append_left _ hr', hhu⟩

/-- A question about a discard. -/
theorem ask (h : Told E k) {i : ℕ} {ops : List OperateType} (hops : .guo ∈ ops) :
    Told E { k with operateArrays := k.operateArrays.set i ops } := by
  refine ⟨h.fixed, by rw [List.length_set, h.chairs], fun j ops' hj => ?_, h.result⟩
  dsimp only at hj
  rw [List.getElem?_set] at hj
  split_ifs at hj
  · obtain rfl := Option.some.inj hj
    exact Or.inr (Or.inl hops)
  · exact h.offered j ops' hj

/-- A result after a winning operation. -/
theorem finish (h : Told E k) {r : OperateRecord} (hr : r ∈ k.operateRecord)
    (hhu : r.operate = .huChi ∨ r.operate = .huZi) (result : Option (GameResult Unit Slice)) :
    Told E { k with result } :=
  ⟨h.fixed, h.chairs, h.offered, fun _ => ⟨r, hr, hhu⟩⟩

end Told

section Runs

variable {E} {g g' : GameFrame}

theorem takeCard_told {chairID : ℕ} {hand : Slice} {card : CardID} (hg : Told E g.kept)
    (h : takeCard E g chairID hand card = some g') : Told E g'.kept := by
  obtain ⟨t, ht, h⟩ := Option.bind_eq_some_iff.mp h
  split_ifs at h
  obtain rfl := Option.some.inj h
  have hkept : t.1.kept = g.kept := by simpa using getMyOperateArray_kept ht
  simp only [kept_turnScheduleExecute, GameFrame.kept_record, GameFrame.kept_setOperateArray,
    GameFrame.kept_setTick, hkept]
  exact hg.assign (r := ⟨chairID, card, .get⟩) (Or.inr rfl)

theorem setTurn_told {chairID : ℕ} (hg : Told E g.kept) (h : setTurn E g chairID = some g') :
    Told E g'.kept := by
  obtain ⟨hand, _, h⟩ := Option.bind_eq_some_iff.mp h
  dsimp only at h
  split_ifs at h
  · obtain rfl := Option.some.inj h
    exact hg
  · have hdraw : Told E (drawCard E (g.setCurChair chairID) chairID).1.kept := by simpa using hg
    cases hc : (drawCard E (g.setCurChair chairID) chairID).2 with
    | none =>
      rw [hc] at h
      obtain rfl := Option.some.inj h
      exact hdraw
    | some card =>
      rw [hc] at h
      exact takeCard_told hdraw h

theorem offer_told {lastCard : CardID} {s t : GameFrame × Bool} {i : ℕ} (hs : Told E s.1.kept)
    (h : offer E lastCard s i = some t) : Told E t.1.kept := by
  unfold offer at h
  split_ifs at h
  · rw [← Option.some.inj h]
    exact hs
  · obtain ⟨hand, _, h⟩ := Option.bind_eq_some_iff.mp h
    obtain ⟨o, ho, rfl⟩ := Option.map_eq_some_iff.mp h
    obtain ⟨hkept, hguo⟩ := getOperateArray_kept ho
    split_ifs with hnil
    · rw [hkept]
      exact hs
    · simp only [kept_turnScheduleExecute, GameFrame.kept_setOperateArray, GameFrame.kept_setTick, hkept]
      exact hs.ask (hguo hnil)

theorem nextTurn_told {lastCard : CardID} (hg : Told E g.kept) (h : nextTurn E g lastCard = some g') :
    Told E g'.kept := by
  obtain ⟨s, hs, h⟩ := Option.bind_eq_some_iff.mp h
  have hoffer : Told E s.1.kept := by
    split_ifs at hs
    · -- the loop over the chairs is a run of offers
      exact (run_of_foldlM hs).preserves (I := fun t => Told E t.1.kept)
        (fun _ _ _ ht _ hoff => offer_told ht hoff) hg
    · rw [← Option.some.inj hs]
      exact hg
  split_ifs at h
  · rw [← Option.some.inj h]
    exact hoffer
  · exact setTurn_told hoffer h

theorem expose_told {chairID : ℕ} {hand : Slice} {card : CardID} {operate : OperateType} {times : ℕ}
    (hg : Told E g.kept) (hr : leaves operate = some [.qi]) :
    Told E (expose E g chairID hand card operate times).kept := by
  simp only [expose, GameFrame.kept_setCurChair, GameFrame.kept_setOperateArray, GameFrame.kept_record,
    kept_discard]
  exact hg.assign (r := ⟨chairID, givenCard g card, operate⟩) (Or.inl hr)

theorem gangLast_told {chairID : ℕ} {hand : Slice} {operate : OperateType} {times : ℕ}
    (hg : Told E g.kept) (hr : leaves operate = none)
    (h : gangLast E g chairID hand operate times = some g') : Told E g'.kept := by
  obtain ⟨card, _, h⟩ := Option.bind_eq_some_iff.mp h
  split_ifs at h
  refine setTurn_told ?_ h
  rw [GameFrame.kept_record, kept_discard]
  exact hg.record hr

theorem gameEnd_told (hg : Told E g.kept) : Told E (gameEnd g).kept := by
  unfold gameEnd
  dsimp only
  split
  · exact hg
  · rename_i last hlast
    split_ifs with hhu
    · exact hg.finish (List.mem_of_getLast? hlast) hhu _
    · exact hg

theorem win_told {chairID : ℕ} {card : CardID} {operate : OperateType} (hg : Told E g.kept)
    (hr : leaves operate = some []) : Told E (win g chairID card operate).kept := by
  refine gameEnd_told ?_
  simp only [GameFrame.kept_setCurChair, GameFrame.kept_setOperateArray, GameFrame.kept_record]
  exact hg.assign (r := ⟨chairID, card, operate⟩) (Or.inl hr)

theorem onGameTurnOperate_told {chairID : ℕ} {operate : OperateType} {card : CardID}
    (hg : Told E g.kept) (h : onGameTurnOperate E g chairID operate card = some g') :
    Told E g'.kept := by
  have hstop : Told E (stopTimer g chairID).kept := hg
  obtain ⟨hand, _, h⟩ := Option.bind_eq_some_iff.mp h
  cases operate <;> dsimp only at h
  case qi =>
    refine nextTurn_told ?_ h
    simp only [GameFrame.kept_setOperateArray, GameFrame.kept_record, kept_discard]
    exact hstop.assign (r := ⟨chairID, card, .qi⟩) (Or.inl rfl)
  case guo => exact setTurn_told (hstop.record (r := ⟨chairID, card, .guo⟩) rfl) h
  case peng => exact Option.some.inj h ▸ expose_told hstop rfl
  case gangChi => exact Option.some.inj h ▸ expose_told hstop rfl
  case huChi => exact Option.some.inj h ▸ win_told hstop rfl
  case huZi => exact Option.some.inj h ▸ win_told hstop rfl
  case gangZi => exact gangLast_told hstop rfl h
  case gangBu =>
    split_ifs at h
    · exact gangLast_told hstop rfl h
    · exact Option.some.inj h ▸ hstop
  case none => exact Option.some.inj h ▸ hstop
  case get => exact Option.some.inj h ▸ hstop

theorem onTimer_told {l : Launch} (hg : Told E g.kept) (h : onTimer E g l = some g') :
    Told E g'.kept := by
  have hstop : Told E (stopTimer g l.chairID).kept := hg
  unfold onTimer userAutoOperate at h
  split_ifs at h
  · exact onGameTurnOperate_told hstop h
  · exact onGameTurnOperate_told hstop h
  · exact Option.some.inj h ▸ hg
  · exact Option.some.inj h ▸ hg

theorem startGame_told {random : ℕ → ℕ} (hg : Told E g.kept) (h : startGame E random g = some g') :
    Told E g'.kept := by
  obtain ⟨s, hs, rfl⟩ := Option.map_eq_some_iff.mp h
  have hdeal : ∀ (chairs : List ℕ) (f : GameFrame), (chairs.foldl dealHand f).kept = f.kept := by
    intro chairs
    induction chairs with
    | nil => intro f; rfl
    | cons i chairs ih => intro f; rw [List.foldl_cons, ih, kept_dealHand]
  unfold sendHandCards at hs
  dsimp only at hs
  split_ifs at hs
  obtain rfl := Option.some.inj hs
  have hkept := (hdeal (List.range g.gameData.chairCount) (washCards E random (g.update fun d => { d with
    gameStarted := true
    gameStatus := .dices
    bankerChairID := if d.curBureau = 0 then 0 else d.bankerChairID }))).trans (kept_washCards random)
  exact Eq.mpr (congrArg (Told E) hkept) hg

theorem resetGame_told (hg : Told E g.kept) : Told E (resetGame g).kept where
  fixed := hg.fixed
  chairs := (List.length_map ..).trans hg.chairs
  offered := by
    intro i ops hi
    obtain ⟨_, -, rfl⟩ := Option.map_eq_some_iff.mp ((List.getElem?_map ..).symm.trans hi)
    exact Or.inl rfl
  result := fun h => absurd rfl h

theorem step_told {e : Event} (hg : Told E g.kept) (h : step E g e = some g') : Told E g'.kept := by
  cases e <;> dsimp only [step] at h
  case seat seated => exact Option.some.inj h ▸ hg
  case start random => exact startGame_told hg h
  case deal =>
    split_ifs at h
    exact setTurn_told (g := { g with deals := g.deals - 1 }.setStatus .playing) hg h
  case operate chairID operate card =>
    split_ifs at h
    exact onGameTurnOperate_told hg h
  case getCard chairID card =>
    unfold onGetCard at h
    split_ifs at h
    exact Option.some.inj h ▸ hg
  case fire chairID =>
    obtain ⟨t, _, h⟩ := Option.bind_eq_some_iff.mp h
    split_ifs at h
    exact Option.some.inj h ▸ hg
  case timer l =>
    split_ifs at h
    exact onTimer_told (g := { g with launched := g.launched.erase l }) hg h
  case finish =>
    split_ifs at h
    exact Option.some.inj h ▸ resetGame_told hg

theorem told_init : Told E (newGameFrame E).kept where
  fixed := rfl
  chairs := List.length_replicate
  offered := fun _ _ hi => Or.inl (List.eq_of_mem_replicate (List.mem_of_getElem? hi))
  result := fun h => absurd rfl h

theorem told_of_run {es : List Event} (h : Run (step E) Any (newGameFrame E) es g) : Told E g.kept :=
  h.preserves (I := fun g => Told E g.kept) (fun _ _ _ hg _ hstep => step_told hg hstep) told_init

end Runs

/-! ### Public and concealed -/

/-- Another player's card that nobody saw: drawn, or melded face down. -/
def concealed (chairID : ℕ) (r : OperateRecord) : Bool :=
  r.chairID ≠ chairID ∧ (r.operate = .get ∨ r.operate = .gangZi)

/-- A record as chair `chairID` may know it. -/
def maskRecord (chairID : ℕ) (r : OperateRecord) : OperateRecord :=
  if concealed chairID r then { r with card := hiddenCard } else r

/-- What the player on a chair sees of the table. -/
structure Public where
  hand : List CardID
  sizes : List ℕ
  records : List OperateRecord
  offered : List OperateType
  wall : ℕ
  turn : ℤ
  gameStatus : GameStatus
  gameStarted : Bool
  tick : ℤ
  bankerChairID : ℕ
  curBureau : ℕ
  deriving DecidableEq

/-- What chair `chairID` may know. -/
def publicPart (g : GameFrame) (chairID : ℕ) : Public where
  hand := (readHands g).getD chairID []
  sizes := (readHands g).map List.length
  records := g.gameData.operateRecord.map (maskRecord chairID)
  offered := g.gameData.operateArrays.getD chairID []
  wall := g.cards.len
  turn := g.gameData.curChairID
  gameStatus := g.gameData.gameStatus
  gameStarted := g.gameData.gameStarted
  tick := g.gameData.tick
  bankerChairID := g.gameData.bankerChairID
  curBureau := g.gameData.curBureau

/-- A time of the game in which the others have nothing to hide: since the last reset none of them has
    drawn a card or melded one face down and nobody has won, and none of them is asked about a discard. -/
structure Quiet (g : GameFrame) (chairID : ℕ) : Prop where
  drawn : ∀ r ∈ g.gameData.operateRecord, concealed chairID r = false
  won : ∀ r ∈ g.gameData.operateRecord, r.operate ≠ .huChi ∧ r.operate ≠ .huZi
  asked : ∀ i ops, i ≠ chairID → g.gameData.operateArrays[i]? = some ops → .guo ∉ ops

/-- Records without concealed cards are what is shown of them. -/
theorem records_eq {chairID : ℕ} {l l' : List OperateRecord}
    (hmask : l.map (maskRecord chairID) = l'.map (maskRecord chairID))
    (hl : ∀ r ∈ l, concealed chairID r = false) (hl' : ∀ r ∈ l', concealed chairID r = false) :
    l = l' := by
  have hshown : ∀ {l : List OperateRecord}, (∀ r ∈ l, concealed chairID r = false) →
      l.map (maskRecord chairID) = l := by
    intro l hl
    refine (List.map_congr_left fun r hr => ?_).trans l.map_id
    rw [maskRecord, hl r hr]
    rfl
  rwa [hshown hl, hshown hl'] at hmask

/-- The masked hands are the own hand and the sizes. -/
theorem maskHands_eq {chairID : ℕ} {hands hands' : List (List CardID)}
    (hown : hands.getD chairID [] = hands'.getD chairID [])
    (hsizes : hands.map List.length = hands'.map List.length) :
    maskHands chairID hands = maskHands chairID hands' := by
  refine List.ext_getElem? fun i => ?_
  have hsize : hands[i]?.map List.length = hands'[i]?.map List.length := by
    simpa using congrArg (·[i]?) hsizes
  simp only [maskHands, List.getElem?_mapIdx]
  cases hi : hands[i]? with
  | none =>
    rw [hi, Option.map_none, eq_comm, Option.map_eq_none_iff] at hsize
    rw [hsize]
  | some hand =>
    rw [hi, Option.map_some, eq_comm] at hsize
    obtain ⟨hand', hi', hlen⟩ := Option.map_eq_some_iff.mp hsize
    rw [hi', Option.map_some, Option.map_some, hlen]
    split_ifs with h
    · subst h
      simpa [hi, hi'] using hown
    · rfl

/-- In a quiet game the records and the own chair tell everything that is offered. -/
theorem operateArrays_eq {g g' : GameFrame} {chairID : ℕ} (hg : Told E g.kept) (hg' : Told E g'.kept)
    (hquiet : Quiet g chairID) (hquiet' : Quiet g' chairID)
    (hrecord : g.gameData.operateRecord = g'.gameData.operateRecord)
    (hown : g.gameData.operateArrays.getD chairID [] = g'.gameData.operateArrays.getD chairID []) :
    g.gameData.operateArrays = g'.gameData.operateArrays := by
  have hdue : ∀ {g : GameFrame}, Told E g.kept → Quiet g chairID → ∀ i ops, i ≠ chairID →
      g.gameData.operateArrays[i]? = some ops → ops = due g.gameData.operateRecord i := by
    intro g hg hquiet i ops hi hops
    rcases hg.offered i ops hops with hdue | hguo | ⟨r, hr, hchair, hget⟩
    · exact hdue
    · exact absurd hguo (hquiet.asked i ops hi hops)
    · have hseen := hquiet.drawn r hr
      simp [concealed, hchair, hi, hget] at hseen
  refine List.ext_getElem (hg.chairs.trans hg'.chairs.symm) fun i hi hi' => ?_
  rcases eq_or_ne i chairID with rfl | hne
  · simpa [List.getD_eq_getElem?_getD, hi, hi'] using hown
  · rw [hdue hg hquiet i _ hne (List.getElem?_eq_getElem hi),
      hdue hg' hquiet' i _ hne (List.getElem?_eq_getElem hi'), hrecord]

theorem result_eq_none {g : GameFrame} {chairID : ℕ} (hg : Told E g.kept) (hquiet : Quiet g chairID) :
    g.gameData.result = none := by
  by_contra hres
  obtain ⟨r, hr, hhu⟩ := hg.result hres
  exact hhu.elim (hquiet.won r hr).1 (hquiet.won r hr).2

/-- Two reachable states that agree on what is public look the same to a player, as long as the other
    players have nothing to hide but their hands. -/
theorem view_hides {es es' : List Event} {g g' : GameFrame} (chairID : ℕ)
    (hg : Run (step E) Any (newGameFrame E) es g) (hg' : Run (step E) Any (newGameFrame E) es' g')
    (hpublic : publicPart g chairID = publicPart g' chairID)
    (hquiet : Quiet g chairID) (hquiet' : Quiet g' chairID) :
    getGameData E g chairID = getGameData E g' chairID := by
  have htold := told_of_run hg
  have htold' := told_of_run hg'
  have hfixed : g.fixed = g'.fixed := htold.fixed.trans htold'.fixed.symm
  simp only [GameFrame.fixed, Fixed.mk.injEq] at hfixed
  simp only [publicPart, Public.mk.injEq] at hpublic
  obtain ⟨hcount, hbureaus, htrust, hrest⟩ := hfixed
  obtain ⟨hhand, hsizes, hrecords, hown, -, hturn, hstatus, hstarted, htick, hbanker, hbureau⟩ := hpublic
  have hhands := maskHands_eq hhand hsizes
  have hrecord := records_eq hrecords hquiet.drawn hquiet'.drawn
  have hoffered := operateArrays_eq E htold htold' hquiet hquiet' hrecord hown
  have hresult : readResult g = readResult g' := by
    rw [readResult, readResult, result_eq_none E htold hquiet, result_eq_none E htold' hquiet']
    rfl
  simp only [getGameData, copyGameData, hcount, hbureaus, htrust, hrest, hturn, hstatus, hstarted,
    htick, hbanker, hbureau, hhands, hoffered, hrecord, hresult]

/-! ### Small tables -/

/-- A table for two, with no winning suits listed. -/
def twoChairs : Setup where
  gameFrameType := 1
  maxPlayerCount := 2
  table := ⟨fun _ => false, fun _ _ => false, fun _ => false, fun _ _ => false⟩
  spare := id

/-- A table for three. -/
def threeChairs : Setup := { twoChairs with maxPlayerCount := 3 }

/-- A shuffle whose only exchange is that of the cards `i` and `j`. -/
def exchange (i j : ℕ) : ℕ → ℕ := fun k => if k = i then j else k

/-- All chairs are taken, the cards are dealt, and chair 0 has drawn. -/
def drawn (seated : Finset ℕ) (random : ℕ → ℕ) : List Event := [.seat seated, .start random, .deal]

/-- Chair 1 exposes a meld. -/
def melded (random : ℕ → ℕ) : List Event := drawn {0, 1, 2} random ++ [.operate 1 .peng 1]

/-- What chair 0 sees then. -/
def meldedPublic : Public where
  hand := [1, 2, 3, 4, 5, 6, 7, 8, 9, 1, 2, 3, 4, 14]
  sizes := [14, 11, 13]
  records := [⟨0, 14, .get⟩, ⟨1, 1, .peng⟩]
  offered := [.qi]
  wall := 72
  turn := 1
  gameStatus := .playing
  gameStarted := true
  tick := 30
  bankerChairID := 0
  curBureau := 1

theorem quiet_melded {g : GameFrame} (hrecord : g.gameData.operateRecord = meldedPublic.records)
    (hoffered : g.gameData.operateArrays = [[.qi], [.qi], []]) : Quiet g 0 := by
  refine ⟨?_, ?_, fun i ops _ hi => ?_⟩
  · rw [hrecord]
    decide
  · rw [hrecord]
    decide
  · have hguo : ∀ ops ∈ [[OperateType.qi], [.qi], []], OperateType.guo ∉ ops := by decide
    exact hguo ops (List.mem_of_getElem? (hoffered ▸ hi))

/-- Two games that differ in the hand of chair 2 look the same to chair 0, although it has drawn a
    card itself and chair 1 has to discard one. -/
theorem view_hides_melded : ∃ g g',
    Run (step threeChairs) Any (newGameFrame threeChairs) (melded id) g ∧
    Run (step threeChairs) Any (newGameFrame threeChairs) (melded (exchange 27 60)) g' ∧
    publicPart g 0 = publicPart g' 0 ∧ Quiet g 0 ∧ Quiet g' 0 ∧
    readHands g ≠ readHands g' ∧
    getGameData threeChairs g 0 = getGameData threeChairs g' 0 := by
  obtain ⟨g, hg, h⟩ := exists_run (step threeChairs) Any (newGameFrame threeChairs) (melded id)
    (fun g => decide (publicPart g 0 = meldedPublic ∧ g.gameData.operateRecord = meldedPublic.records ∧
      g.gameData.operateArrays = [[.qi], [.qi], []] ∧ ((readHands g).getD 2 []).getD 1 0 = 1))
    (by decide +kernel)
  obtain ⟨g', hg', h'⟩ := exists_run (step threeChairs) Any (newGameFrame threeChairs)
    (melded (exchange 27 60))
    (fun g => decide (publicPart g 0 = meldedPublic ∧ g.gameData.operateRecord = meldedPublic.records ∧
      g.gameData.operateArrays = [[.qi], [.qi], []] ∧ ((readHands g).getD 2 []).getD 1 0 = 17))
    (by decide +kernel)
  obtain ⟨hpublic, hrecord, hoffered, hcard⟩ := of_decide_eq_true h
  obtain ⟨hpublic', hrecord', hoffered', hcard'⟩ := of_decide_eq_true h'
  have hsame := hpublic.trans hpublic'.symm
  have hquiet := quiet_melded hrecord hoffered
  have hquiet' := quiet_melded hrecord' hoffered'
  refine ⟨g, g', hg, hg', hsame, hquiet, hquiet', fun heq => ?_,
    view_hides threeChairs 0 hg hg' hsame hquiet hquiet'⟩
  rw [heq, hcard'] at hcard
  exact absurd hcard (by decide)

/-- What chair 1 sees after chair 0 has drawn. -/
def drawnPublic : Public where
  hand := fixedHand
  sizes := [14, 13]
  records := [⟨0, hiddenCard, .get⟩]
  offered := []
  wall := 85
  turn := 0
  gameStatus := .playing
  gameStarted := true
  tick := 30
  bankerChairID := 0
  curBureau := 1

/-- The first draw is shown to the other player: two games that differ only in the card on top of the
    wall, and so in what chair 0 drew, are told apart by the view of chair 1. -/
theorem view_shows_draw : ∃ g g',
    Run (step twoChairs) Any (newGameFrame twoChairs) (drawn {0, 1} (exchange 26 40)) g ∧
    Run (step twoChairs) Any (newGameFrame twoChairs) (drawn {0, 1} (exchange 26 42)) g' ∧
    publicPart g 1 = publicPart g' 1 ∧ g.gameData.operateArrays = g'.gameData.operateArrays ∧
    g.gameData.result = none ∧ g'.gameData.result = none ∧
    getGameData twoChairs g 1 ≠ getGameData twoChairs g' 1 := by
  obtain ⟨g, hg, h⟩ := exists_run (step twoChairs) Any (newGameFrame twoChairs)
    (drawn {0, 1} (exchange 26 40))
    (fun g => decide (publicPart g 1 = drawnPublic ∧ g.gameData.operateRecord = [⟨0, 15, .get⟩] ∧
      g.gameData.operateArrays = [[.qi], []] ∧ g.gameData.result = none)) (by decide +kernel)
  obtain ⟨g', hg', h'⟩ := exists_run (step twoChairs) Any (newGameFrame twoChairs)
    (drawn {0, 1} (exchange 26 42))
    (fun g => decide (publicPart g 1 = drawnPublic ∧ g.gameData.operateRecord = [⟨0, 17, .get⟩] ∧
      g.gameData.operateArrays = [[.qi], []] ∧ g.gameData.result = none)) (by decide +kernel)
  obtain ⟨hpublic, hrecord, hoffered, hresult⟩ := of_decide_eq_true h
  obtain ⟨hpublic', hrecord', hoffered', hresult'⟩ := of_decide_eq_true h'
  refine ⟨g, g', hg, hg', hpublic.trans hpublic'.symm, hoffered.trans hoffered'.symm, hresult, hresult',
    fun hview => ?_⟩
  -- the record of the draw is in both views, with its card
  have hshown := congrArg GameData.operateRecord hview
  simp only [getGameData, copyGameData, hrecord, hrecord'] at hshown
  exact absurd hshown (by decide)

end GoServices.Mahjong
