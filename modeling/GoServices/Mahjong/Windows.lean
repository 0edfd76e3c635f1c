import GoServices.Mahjong.View

/-! The windows of a mahjong game: every hand and the wall lie in their arrays, in every reachable
    state, and what a turn does to them.

    A turn closes the wall up over the tile it draws and appends the tile to the hand. -/

namespace GoServices.Mahjong

open Slices Runs

variable (E : Setup)

/-- The wall, read from its slice. -/
def readWall (g : GameFrame) : List CardID := g.heap.read g.cards

/-! ### Windows lie in their arrays -/

/-- The slices of the hands and of the wall lie within their arrays. -/
structure WindowsIn (heap : Heap CardID) (hands : List Slice) (wall : Slice) : Prop where
  hands : ∀ hand ∈ hands, heap.Valid hand
  wall : heap.Valid wall

/-- All slices of a game lie within their arrays. -/
def GameFrame.Windows (g : GameFrame) : Prop := WindowsIn g.heap g.gameData.handCards g.cards

namespace WindowsIn

variable {heap heap' : Heap CardID} {hands : List Slice} {wall : Slice}

theorem mono (h : WindowsIn heap hands wall) (hgrows : heap.Grows heap') :
    WindowsIn heap' hands wall :=
  ⟨fun hand hmem => (h.hands hand hmem).mono hgrows, h.wall.mono hgrows⟩

theorem set (h : WindowsIn heap hands wall) {hand : Slice} (i : ℕ) (hvalid : heap.Valid hand) :
    WindowsIn heap (hands.set i hand) wall := by
  refine ⟨fun w hw => ?_, h.wall⟩
  obtain hw | rfl := List.mem_or_eq_of_mem_set hw
  · exact h.hands w hw
  · exact hvalid

theorem rewall (h : WindowsIn heap hands wall) {wall' : Slice} (hvalid : heap.Valid wall') :
    WindowsIn heap hands wall' := ⟨h.hands, hvalid⟩

end WindowsIn

section Windows

variable {E} {g g' : GameFrame}

/-- A new hand on a heap that has grown. -/
theorem windows_setHand (hg : g.Windows) {heap : Heap CardID} {hand : Slice} (i : ℕ)
    (hgrows : g.heap.Grows heap) (hvalid : heap.Valid hand) :
    ({ g with heap }.setHand i hand).Windows :=
  (WindowsIn.mono hg hgrows).set i hvalid

theorem windows_newGameFrame : (newGameFrame E).Windows := by
  refine ⟨fun hand hmem => ?_, Heap.valid_nil _⟩
  rw [List.eq_of_mem_replicate hmem]
  exact Heap.valid_nil _

theorem valid_hand (hg : g.Windows) {i : ℕ} {hand : Slice}
    (hhand : g.gameData.handCards[i]? = some hand) : g.heap.Valid hand :=
  hg.hands hand (List.mem_of_getElem? hhand)

/-! ### The start of a game -/

theorem length_swap (l : List CardID) (i j : ℕ) : (swap l i j).length = l.length := by
  simp [swap]

theorem length_shuffle (random : ℕ → ℕ) (l : List CardID) : (shuffle random l).length = l.length := by
  unfold shuffle
  generalize List.range 300 = is
  suffices h : ∀ cards : List CardID, (is.foldl (fun cards i =>
      swap cards (i % l.length) (random i % l.length)) cards).length = cards.length from h l
  induction is with
  | nil => exact fun _ => rfl
  | cons i is ih =>
    intro cards
    rw [List.foldl_cons, ih, length_swap]

/-- The array of the wall is new, and nothing else is touched. -/
theorem windows_washCards (hg : g.Windows) (random : ℕ → ℕ) : (washCards E random g).Windows := by
  have hwall (s : Heap CardID × Slice) (hgrows : g.heap.Grows s.1) (hs : s.1.Valid s.2) :
      WindowsIn (s.1.write s.2.array s.2.offset (shuffle random (s.1.read s.2)))
        g.gameData.handCards s.2 := by
    have hlen := hs.len_le
    have hcap := hs.cap_le
    have hfits : s.2.offset + (shuffle random (s.1.read s.2)).length ≤
        (s.1.array s.2.array).length := by
      rw [length_shuffle, hs.length_read]
      omega
    have hwrite := Heap.grows_write hfits
    exact (WindowsIn.mono hg (hgrows.trans hwrite)).rewall (hs.mono hwrite)
  have hmake := Heap.valid_make g.heap sortedCards
  have hgrows := Heap.grows_make g.heap sortedCards
  unfold washCards
  dsimp only
  split_ifs
  · exact hwall _ (hgrows.trans (Heap.grows_append hmake)) (Heap.valid_append hmake)
  · exact hwall _ hgrows hmake

theorem getCards_spec (hg : g.Windows) (num : ℕ) :
    (getCards g num).1.Windows ∧ (getCards g num).1.heap.Valid (getCards g num).2 := by
  unfold getCards
  split_ifs with hlen
  · exact ⟨hg, Heap.valid_nil _⟩
  · have hle := hg.wall.len_le
    exact ⟨hg.rewall (hg.wall.drop (by omega)), hg.wall.take (by omega)⟩

theorem windows_dealHand (hg : g.Windows) (i : ℕ) : (dealHand g i).Windows := by
  obtain ⟨hwindows, hvalid⟩ := getCards_spec hg 13
  unfold dealHand
  dsimp only
  split_ifs
  · exact windows_setHand hwindows i (Heap.grows_make _ _) (Heap.valid_make _ _)
  · exact windows_setHand hwindows i (Heap.Grows.refl _) hvalid

theorem windows_startGame {random : ℕ → ℕ} (hg : g.Windows) (h : startGame E random g = some g') :
    g'.Windows := by
  obtain ⟨s, hs, rfl⟩ := Option.map_eq_some_iff.mp h
  have hdeal : ∀ (chairs : List ℕ) (f : GameFrame), f.Windows → (chairs.foldl dealHand f).Windows := by
    intro chairs
    induction chairs with
    | nil => exact fun _ hf => hf
    | cons i chairs ih => exact fun f hf => ih _ (windows_dealHand hf i)
  unfold sendHandCards at hs
  dsimp only at hs
  split_ifs at hs
  rw [← Option.some.inj hs]
  exact hdeal _ _ (windows_washCards hg random)

/-! ### Looking for a win -/

/-- The check appends the tile to the hand it is given, and keeps nothing but the heap. -/
theorem canHu_fst {hand : Slice} {card : CardID} {s : GameFrame × Bool}
    (h : canHu E g hand card = some s) : s.1 = { g with
      heap := if 0 < card ∧ card < 36 ∧ hand.len < 14 then (g.heap.append 0 E.spare hand [card]).1
        else g.heap } := by
  obtain ⟨t, ht, rfl⟩ := Option.map_eq_some_iff.mp h
  obtain ⟨hu, _, rfl⟩ := Option.map_eq_some_iff.mp ht
  dsimp only
  split_ifs <;> rfl

theorem getOperateArray_fst {hand : Slice} {card : CardID} {s : GameFrame × List OperateType}
    (h : getOperateArray E g hand card = some s) : s.1 = { g with
      heap := if 0 < card ∧ card < 36 ∧ hand.len < 14 then (g.heap.append 0 E.spare hand [card]).1
        else g.heap } := by
  obtain ⟨t, ht, rfl⟩ := Option.map_eq_some_iff.mp h
  exact canHu_fst ht

/-- The check of the own hand appends nothing. -/
theorem getMyOperateArray_fst {chairID : ℕ} {hand : Slice} {card : CardID}
    {s : GameFrame × List OperateType} (h : getMyOperateArray E g chairID hand card = some s) :
    s.1 = g := by
  obtain ⟨t, ht, rfl⟩ := Option.map_eq_some_iff.mp h
  exact canHu_fst ht

theorem windows_getOperateArray (hg : g.Windows) {i : ℕ} {hand : Slice} {card : CardID}
    {s : GameFrame × List OperateType} (hhand : g.gameData.handCards[i]? = some hand)
    (h : getOperateArray E g hand card = some s) : s.1.Windows := by
  rw [getOperateArray_fst h]
  refine WindowsIn.mono hg ?_
  dsimp only
  split_ifs
  · exact Heap.grows_append (valid_hand hg hhand)
  · exact Heap.Grows.refl _

theorem windows_offer {lastCard : CardID} {s t : GameFrame × Bool} {i : ℕ} (hs : s.1.Windows)
    (h : offer E lastCard s i = some t) : t.1.Windows := by
  unfold offer at h
  split_ifs at h
  · rwa [← Option.some.inj h]
  · obtain ⟨hand, hhand, h⟩ := Option.bind_eq_some_iff.mp h
    obtain ⟨o, ho, rfl⟩ := Option.map_eq_some_iff.mp h
    have hwindows := windows_getOperateArray hs hhand ho
    split_ifs
    · exact hwindows
    · exact hwindows

theorem windows_offers {lastCard : CardID} {s t : GameFrame × Bool} {is : List ℕ} (hs : s.1.Windows)
    (h : is.foldlM (offer E lastCard) s = some t) : t.1.Windows :=
  (run_of_foldlM h).preserves (I := fun t => t.1.Windows)
    (fun _ _ _ ht _ hoff => windows_offer ht hoff) hs

end Windows

/-! ### Drawing -/

/-- The tile a chair has asked for, 0 if none. -/
def testCard (g : GameFrame) (chairID : ℕ) : CardID := g.testCardArray.getD chairID 0

/-- The tile that the chair has asked for is in the wall, and is taken out of it. -/
def Asked (g : GameFrame) (chairID : ℕ) : Prop :=
  0 < testCard g chairID ∧ testCard g chairID < 36 ∧ testCard g chairID ∈ readWall g

instance (g : GameFrame) (chairID : ℕ) : Decidable (Asked g chairID) :=
  inferInstanceAs (Decidable (_ ∧ _ ∧ _))

/-- The tile that the chair is to draw. -/
def nextCard (g : GameFrame) (chairID : ℕ) : Option CardID :=
  if Asked g chairID then some (testCard g chairID) else (readWall g).head?

/-- Where that tile is in the wall. -/
def gap (g : GameFrame) (chairID : ℕ) : ℕ := (readWall g).idxOf (testCard g chairID)

/-- The window of the wall without that tile. -/
def restWall (g : GameFrame) (chairID : ℕ) : Slice :=
  if Asked g chairID then g.cards.take (g.cards.len - 1) else g.cards.drop 1

/-- What a cell holds once the wall has closed up. -/
def closedCell (g : GameFrame) (chairID k x : ℕ) : Option CardID :=
  if Asked g chairID ∧ g.cards.array = k ∧ g.cards.offset + gap g chairID ≤ x ∧
      x + 1 < g.cards.offset + g.cards.len then g.heap.cell k (x + 1)
  else g.heap.cell k x

/-- The heap once the wall has closed up. -/
def closedHeap (g : GameFrame) (chairID : ℕ) : Heap CardID :=
  if Asked g chairID then
    (g.heap.append 0 E.spare (g.cards.take (gap g chairID))
      ((readWall g).drop (gap g chairID + 1))).1
  else g.heap

section Draw

variable {E} {g g' : GameFrame} {chairID : ℕ}

theorem gap_lt (hg : g.Windows) (hasked : Asked g chairID) : gap g chairID < g.cards.len := by
  rw [← hg.wall.length_read]
  exact List.idxOf_lt_length_iff.mpr hasked.2.2

theorem cell_closedHeap (hg : g.Windows) (k x : ℕ) :
    (closedHeap E g chairID).cell k x = closedCell g chairID k x := by
  unfold closedHeap closedCell
  split_ifs with hasked hin hin
  · rw [readWall, Heap.cell_append_gap hg.wall (gap_lt hg hasked), if_pos hin.2]
  · rw [readWall, Heap.cell_append_gap hg.wall (gap_lt hg hasked), if_neg]
    exact fun h => hin ⟨hasked, h⟩
  · exact absurd hin.1 hasked
  · rfl

theorem grows_closedHeap (hg : g.Windows) : g.heap.Grows (closedHeap E g chairID) := by
  unfold closedHeap
  split_ifs with hasked
  · have hlt := gap_lt hg hasked
    have hle := hg.wall.len_le
    exact Heap.grows_append (hg.wall.take (by omega))
  · exact Heap.Grows.refl _

theorem nextCard_mem {card : CardID} (hcard : nextCard g chairID = some card) :
    card ∈ readWall g := by
  unfold nextCard at hcard
  split_ifs at hcard with hasked
  · rw [← Option.some.inj hcard]
    exact hasked.2.2
  · exact List.mem_of_mem_head? hcard

/-- The wall loses the drawn tile and nothing else. -/
theorem read_restWall (hg : g.Windows) {card : CardID} (hcard : nextCard g chairID = some card) :
    (closedHeap E g chairID).read (restWall g chairID) = (readWall g).erase card := by
  unfold nextCard at hcard
  unfold closedHeap restWall
  split_ifs at hcard ⊢ with hasked
  · rw [← Option.some.inj hcard, readWall, Heap.read_append_gap hg.wall (gap_lt hg hasked),
      List.erase_eq_eraseIdx_of_idxOf rfl]
    rfl
  · obtain ⟨wall, hwall⟩ := List.head?_eq_some_iff.mp hcard
    have hdrop : g.heap.read (g.cards.drop 1) = (readWall g).drop 1 := by
      simp [readWall, Heap.read, Slice.drop, List.drop_take, List.drop_drop]
    rw [hdrop, hwall, List.drop_one, List.tail_cons, List.erase_cons_head]

theorem valid_restWall (hg : g.Windows) {card : CardID} (hcard : nextCard g chairID = some card) :
    g.heap.Valid (restWall g chairID) := by
  have hpos : 0 < g.cards.len := by
    rw [← hg.wall.length_read]
    exact List.length_pos_of_mem (nextCard_mem hcard)
  have hle := hg.wall.len_le
  unfold restWall
  split_ifs
  · exact hg.wall.take (by omega)
  · exact hg.wall.drop hpos

theorem getCard_of_asked (hg : g.Windows) (hasked : Asked g chairID) :
    getCard E g (testCard g chairID) =
      ({ g with heap := closedHeap E g chairID, cards := restWall g chairID },
        testCard g chairID) := by
  have hwall : (g.heap.append 0 E.spare (g.cards.take (gap g chairID))
      ((readWall g).drop (gap g chairID + 1))).2 = g.cards.take (g.cards.len - 1) :=
    Heap.append_gap_snd hg.wall (gap_lt hg hasked)
  rw [closedHeap, restWall, if_pos hasked, if_pos hasked, ← hwall]
  exact if_pos hasked.2.2

theorem drawCard_of_asked (hg : g.Windows) (hasked : Asked g chairID) : drawCard E g chairID =
    ({ g with
        heap := closedHeap E g chairID
        cards := restWall g chairID
        testCardArray := g.testCardArray.set chairID 0 }, nextCard g chairID) := by
  have hin : 0 < g.testCardArray.getD chairID 0 ∧ g.testCardArray.getD chairID 0 < 36 :=
    ⟨hasked.1, hasked.2.1⟩
  have hout : ¬(testCard g chairID ≤ 0 ∨ 36 ≤ testCard g chairID) :=
    not_or.mpr ⟨not_le.mpr hasked.1, not_le.mpr hasked.2.1⟩
  have hget : getCard E g (g.testCardArray.getD chairID 0) = _ := getCard_of_asked hg hasked
  simp only [drawCard, if_pos hin, hget, if_neg hout]
  rw [nextCard, if_pos hasked]

/-- The first tile of the wall, if there is one. -/
theorem getCards_one (hg : g.Windows) (hasked : ¬Asked g chairID) :
    (getCards g 1).1 =
        { g with cards := (nextCard g chairID).elim g.cards fun _ => restWall g chairID } ∧
      (g.heap.read (getCards g 1).2).head? = nextCard g chairID := by
  have hlen := hg.wall.length_read
  rw [nextCard, if_neg hasked, restWall, if_neg hasked, getCards, readWall]
  cases hwall : g.heap.read g.cards with
  | nil =>
    rw [hwall, List.length_nil] at hlen
    rw [if_pos (by omega)]
    exact ⟨rfl, by simp [Heap.read, Slice.nil]⟩
  | cons card wall =>
    rw [hwall, List.length_cons] at hlen
    rw [if_neg (by omega)]
    refine ⟨rfl, ?_⟩
    have htake : g.heap.read (g.cards.take 1) = (g.heap.read g.cards).take 1 := by
      simp only [Heap.read, Slice.take, List.take_take]
      rw [Nat.min_eq_left (by omega)]
    rw [htake, hwall]
    rfl

theorem drawCard_of_not_asked (hg : g.Windows) (hasked : ¬Asked g chairID) :
    ∃ tests, drawCard E g chairID =
      ({ g with
          cards := (nextCard g chairID).elim g.cards fun _ => restWall g chairID
          testCardArray := tests }, nextCard g chairID) := by
  have hdraw (tests : List CardID) : (getCards { g with testCardArray := tests } 1).1 =
      { (getCards g 1).1 with testCardArray := tests } := by
    unfold getCards
    split_ifs <;> rfl
  have hread (tests : List CardID) :
      (getCards { g with testCardArray := tests } 1).2 = (getCards g 1).2 := by
    unfold getCards
    split_ifs <;> rfl
  obtain ⟨hwall, hcard⟩ := getCards_one hg hasked
  by_cases htest : 0 < g.testCardArray.getD chairID 0 ∧ g.testCardArray.getD chairID 0 < 36
  · have hget : getCard E g (g.testCardArray.getD chairID 0) = (g, 0) :=
      if_neg fun hmem => hasked ⟨htest.1, htest.2, hmem⟩
    refine ⟨g.testCardArray.set chairID 0, ?_⟩
    simp only [drawCard, if_pos htest, hget, Int.le_refl, true_or, if_true]
    rw [hdraw, hread, hwall, hcard]
  · have hout : g.testCardArray.getD chairID 0 ≤ 0 ∨ 36 ≤ g.testCardArray.getD chairID 0 := by
      rwa [not_and_or, not_lt, not_lt] at htest
    refine ⟨g.testCardArray, ?_⟩
    simp only [drawCard, if_neg htest, if_pos hout, hwall, hcard]

theorem drawCard_eq (hg : g.Windows) (chairID : ℕ) : ∃ tests, drawCard E g chairID =
    ({ g with
        heap := closedHeap E g chairID
        cards := (nextCard g chairID).elim g.cards fun _ => restWall g chairID
        testCardArray := tests }, nextCard g chairID) := by
  by_cases hasked : Asked g chairID
  · refine ⟨g.testCardArray.set chairID 0, (drawCard_of_asked hg hasked).trans ?_⟩
    rw [nextCard, if_pos hasked, Option.elim_some]
  · obtain ⟨tests, htests⟩ := drawCard_of_not_asked (E := E) hg hasked
    refine ⟨tests, htests.trans ?_⟩
    rw [closedHeap, if_neg hasked]

/-- A turn that draws nothing. -/
structure Idle (g g' : GameFrame) : Prop where
  heap : g'.heap = g.heap
  handCards : g'.gameData.handCards = g.gameData.handCards
  cards : g'.cards = g.cards
  operateRecord : g'.gameData.operateRecord = g.gameData.operateRecord

/-- A turn that draws a tile: the wall closes up, then the tile is appended to the hand. -/
structure Drawn (E : Setup) (g : GameFrame) (chairID : ℕ) (hand : Slice) (card : CardID)
    (g' : GameFrame) : Prop where
  heap : g'.heap = ((closedHeap E g chairID).append 0 E.spare hand [card]).1
  handCards : g'.gameData.handCards = g.gameData.handCards.set chairID
    ((closedHeap E g chairID).append 0 E.spare hand [card]).2
  cards : g'.cards = restWall g chairID
  operateRecord : g'.gameData.operateRecord = g.gameData.operateRecord ++ [⟨chairID, card, .get⟩]

theorem setTurn_cases (hg : g.Windows) (h : setTurn E g chairID = some g') :
    ∃ hand, g.gameData.handCards[chairID]? = some hand ∧
      ((14 ≤ hand.len ∨ nextCard g chairID = none) ∧ Idle g g' ∨
        hand.len < 14 ∧ ∃ card, nextCard g chairID = some card ∧ Drawn E g chairID hand card g') := by
  obtain ⟨hand, hhand, h⟩ := Option.bind_eq_some_iff.mp h
  refine ⟨hand, hhand, ?_⟩
  dsimp only at h
  split_ifs at h with hlen
  · obtain rfl := Option.some.inj h
    exact .inl ⟨.inl hlen, rfl, rfl, rfl, rfl⟩
  obtain ⟨tests, hdraw⟩ := drawCard_eq (E := E) (g := g.setCurChair chairID) hg chairID
  rw [hdraw] at h
  cases hcard : nextCard g chairID with
  | none =>
    have hasked : ¬Asked g chairID := by
      intro hasked
      rw [nextCard, if_pos hasked] at hcard
      exact Option.some_ne_none _ hcard
    have hclosed : closedHeap E (g.setCurChair chairID) chairID = g.heap := if_neg hasked
    have hnext : nextCard (g.setCurChair chairID) chairID = none := hcard
    rw [hclosed, hnext] at h
    obtain rfl := Option.some.inj h
    exact .inl ⟨.inr rfl, rfl, rfl, rfl, rfl⟩
  | some card =>
    have hnext : nextCard (g.setCurChair chairID) chairID = some card := hcard
    rw [hnext] at h
    obtain ⟨t, ht, h⟩ := Option.bind_eq_some_iff.mp h
    split_ifs at h
    obtain rfl := Option.some.inj h
    rw [getMyOperateArray_fst ht]
    exact .inr ⟨Nat.lt_of_not_le hlen, card, rfl, rfl, rfl, rfl, rfl⟩

theorem windows_setTurn (hg : g.Windows) (h : setTurn E g chairID = some g') : g'.Windows := by
  obtain ⟨hand, hhand, ⟨-, hidle⟩ | ⟨-, card, hcard, hdrawn⟩⟩ := setTurn_cases hg h
  · rw [GameFrame.Windows, hidle.heap, hidle.handCards, hidle.cards]
    exact hg
  · have hgrows : g.heap.Grows (closedHeap E g chairID) := grows_closedHeap hg
    have hvalid := (valid_hand hg hhand).mono hgrows
    rw [GameFrame.Windows, hdrawn.heap, hdrawn.handCards, hdrawn.cards]
    refine ((WindowsIn.mono hg ?_).rewall ((valid_restWall hg hcard).mono ?_)).set chairID
      (Heap.valid_append hvalid) <;>
    exact hgrows.trans (Heap.grows_append hvalid)

end Draw

/-! ### Every window of a reachable state -/

section Reachable

variable {E} {g g' : GameFrame}

theorem windows_nextTurn {lastCard : CardID} (hg : g.Windows) (h : nextTurn E g lastCard = some g') :
    g'.Windows := by
  obtain ⟨s, hs, h⟩ := Option.bind_eq_some_iff.mp h
  have hwindows : s.1.Windows := by
    split_ifs at hs
    · exact windows_offers hg hs
    · rwa [← Option.some.inj hs]
  split_ifs at h
  · rwa [← Option.some.inj h]
  · exact windows_setTurn hwindows h

theorem collect_spec (cards : List CardID) : ∀ s : Heap CardID × Slice, s.1.Valid s.2 →
    s.1.Grows (cards.foldl (fun s v => s.1.append 0 E.spare s.2 [v]) s).1 ∧
      (cards.foldl (fun s v => s.1.append 0 E.spare s.2 [v]) s).1.Valid
        (cards.foldl (fun s v => s.1.append 0 E.spare s.2 [v]) s).2 := by
  induction cards with
  | nil => exact fun s hs => ⟨Heap.Grows.refl _, hs⟩
  | cons v cards ih =>
    intro s hs
    obtain ⟨hgrows, hvalid⟩ := ih (s.1.append 0 E.spare s.2 [v]) (Heap.valid_append hs)
    exact ⟨(Heap.grows_append hs).trans hgrows, hvalid⟩

/-- A hand that has lost tiles is a new array of its own. -/
theorem windows_discard (hg : g.Windows) (chairID : ℕ) (hand : Slice) (card : CardID) (times : ℕ) :
    (discard E g chairID hand card times).Windows := by
  obtain ⟨hgrows, hvalid⟩ := collect_spec (E := E) (remaining card times (g.heap.read hand))
    (g.heap.make []) (Heap.valid_make _ _)
  exact windows_setHand hg chairID ((Heap.grows_make _ _).trans hgrows) hvalid

theorem windows_gameEnd (hg : g.Windows) : (gameEnd g).Windows := by
  unfold gameEnd
  dsimp only
  split
  · exact hg
  · split_ifs
    · exact hg
    · exact hg

theorem windows_gangLast {chairID : ℕ} {hand : Slice} {operate : OperateType} {times : ℕ}
    (hg : g.Windows) (h : gangLast E g chairID hand operate times = some g') : g'.Windows := by
  obtain ⟨card, _, h⟩ := Option.bind_eq_some_iff.mp h
  split_ifs at h
  refine windows_setTurn ?_ h
  exact windows_discard hg chairID hand card times

theorem windows_onGameTurnOperate {chairID : ℕ} {operate : OperateType} {card : CardID}
    (hg : g.Windows) (h : onGameTurnOperate E g chairID operate card = some g') : g'.Windows := by
  obtain ⟨hand, hhand, h⟩ := Option.bind_eq_some_iff.mp h
  have hstop : (stopTimer g chairID).Windows := hg
  cases operate <;> dsimp only at h
  case qi =>
    refine windows_nextTurn ?_ h
    exact windows_discard hstop chairID hand card 1
  case guo =>
    refine windows_setTurn ?_ h
    exact hg
  case gangZi => exact windows_gangLast hstop h
  case gangBu =>
    split_ifs at h
    · exact windows_gangLast hstop h
    · rwa [← Option.some.inj h]
  case huChi =>
    rw [← Option.some.inj h]
    have hvalid := valid_hand hstop hhand
    exact windows_gameEnd
      (windows_setHand hstop chairID (Heap.grows_append hvalid) (Heap.valid_append hvalid))
  case huZi =>
    rw [← Option.some.inj h]
    exact windows_gameEnd hstop
  case peng =>
    rw [← Option.some.inj h]
    exact windows_discard hstop chairID hand _ 2
  case gangChi =>
    rw [← Option.some.inj h]
    exact windows_discard hstop chairID hand _ 3
  all_goals rwa [← Option.some.inj h]

theorem windows_step {e : Event} (hg : g.Windows) (h : step E g e = some g') : g'.Windows := by
  cases e <;> dsimp only [step] at h
  case start random => exact windows_startGame hg h
  case deal =>
    split_ifs at h
    refine windows_setTurn ?_ h
    exact hg
  case operate chairID operate card =>
    split_ifs at h
    exact windows_onGameTurnOperate hg h
  case timer l =>
    split_ifs at h
    unfold onTimer userAutoOperate at h
    split_ifs at h
    · refine windows_onGameTurnOperate ?_ h
      exact hg
    · refine windows_onGameTurnOperate ?_ h
      exact hg
    · rwa [← Option.some.inj h]
    · rwa [← Option.some.inj h]
  case finish =>
    split_ifs at h
    rw [← Option.some.inj h]
    refine ⟨fun hand hmem => ?_, hg.wall⟩
    obtain ⟨_, _, rfl⟩ := List.mem_map.mp hmem
    exact Heap.valid_nil _
  case seat seated => rwa [← Option.some.inj h]
  case getCard chairID card =>
    unfold onGetCard at h
    split_ifs at h
    rwa [← Option.some.inj h]
  case fire chairID =>
    obtain ⟨t, _, h⟩ := Option.bind_eq_some_iff.mp h
    split_ifs at h
    rwa [← Option.some.inj h]

theorem windows_of_run {es : List Event} (h : Run (step E) Any (newGameFrame E) es g) : g.Windows :=
  h.preserves (I := GameFrame.Windows) (fun _ _ _ hg _ hstep => windows_step hg hstep)
    windows_newGameFrame

end Reachable

end GoServices.Mahjong
