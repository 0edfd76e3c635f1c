import GoServices.Mahjong.Windows

/-! Drawing a tile and looking for a win, and what they do to the other hands.

    A dealt hand has the rest of the wall's array behind it. Appending a tile to it, be it to keep the
    tile or only to see whether the hand would win, writes into the next cell of that array, whoever
    the cell belongs to. A hand that has lost a tile is on an array of its own. -/

namespace GoServices.Mahjong

open Slices Runs

variable (E : Setup)

/-! ### Where the code draws and checks -/

/-- What a step ends with, if it comes to a turn. -/
inductive Call where
  | turn (chairID : ℕ)
  | next (lastCard : CardID)
  deriving DecidableEq

/-- What a call does. -/
def Call.run (g : GameFrame) : Call → Option GameFrame
  | .turn chairID => setTurn E g chairID
  | .next lastCard => nextTurn E g lastCard

/-- The call at the end of a kong. -/
def gangCall (g : GameFrame) (chairID : ℕ) (hand : Slice) (operate : OperateType) (times : ℕ) :
    Option (GameFrame × Call) :=
  ((g.heap.read hand).getLast?).bind fun card =>
    if g.full then
      some ((discard E g chairID hand card times).record ⟨chairID, card, operate⟩, .turn chairID)
    else none

/-- How far an operation of a client gets before it comes to a turn. -/
def operateCall (g : GameFrame) (chairID : ℕ) (operate : OperateType) (card : CardID) :
    Option (GameFrame × Call) :=
  let g := stopTimer g chairID
  (g.gameData.handCards[chairID]?).bind fun hand =>
    if operate = .qi then
      some (((discard E g chairID hand card 1).record ⟨chairID, card, .qi⟩).setOperateArray chairID [],
        .next card)
    else if operate = .guo then some (g.record ⟨chairID, card, .guo⟩, .turn chairID)
    else if operate = .gangZi then gangCall E g chairID hand .gangZi 4
    else if operate = .gangBu ∧ g.gameData.curChairID = chairID then
      gangCall E g chairID hand .gangBu 1
    else none

/-- The call at the end of what a timer does. -/
def timerCall (g : GameFrame) (l : Launch) : Option (GameFrame × Call) :=
  if g.gameData.tick ≤ 0 ∧ l.chairID ∈ g.seated then
    if .qi ∈ l.operateArray then operateCall E (stopTimer g l.chairID) l.chairID .qi l.card
    else if .guo ∈ l.operateArray then operateCall E (stopTimer g l.chairID) l.chairID .guo 0
    else none
  else none

/-- The call at the end of an event, and the game before it. -/
def stepCall (g : GameFrame) : Event → Option (GameFrame × Call)
  | .deal => if g.deals = 0 then none
    else some ({ g with deals := g.deals - 1 }.setStatus .playing, .turn g.gameData.bankerChairID)
  | .operate chairID operate card =>
    if chairID ∈ g.seated then operateCall E g chairID operate card else none
  | .timer l =>
    if l ∈ g.launched then timerCall E { g with launched := g.launched.erase l } l else none
  | _ => none

section Calls

variable {E} {g h : GameFrame} {call : Call}

theorem gangLast_eq_run {chairID : ℕ} {hand : Slice} {operate : OperateType} {times : ℕ}
    (hcall : gangCall E g chairID hand operate times = some (h, call)) :
    gangLast E g chairID hand operate times = call.run E h := by
  obtain ⟨card, hcard, hcall⟩ := Option.bind_eq_some_iff.mp hcall
  split_ifs at hcall with hfull
  obtain ⟨rfl, rfl⟩ := Prod.mk.inj (Option.some.inj hcall)
  rw [gangLast, hcard, Option.bind_some, if_pos hfull]
  rfl

theorem operate_eq_run {chairID : ℕ} {operate : OperateType} {card : CardID}
    (hoperate : operateCall E g chairID operate card = some (h, call)) :
    onGameTurnOperate E g chairID operate card = call.run E h := by
  obtain ⟨hand, hhand, hcall⟩ := Option.bind_eq_some_iff.mp hoperate
  rw [onGameTurnOperate, hhand, Option.bind_some]
  split_ifs at hcall with hqi hguo hzi hbu
  · subst hqi
    obtain ⟨rfl, rfl⟩ := Prod.mk.inj (Option.some.inj hcall)
    rfl
  · subst hguo
    obtain ⟨rfl, rfl⟩ := Prod.mk.inj (Option.some.inj hcall)
    rfl
  · subst hzi
    exact gangLast_eq_run hcall
  · obtain ⟨rfl, hcur⟩ := hbu
    dsimp only
    rw [if_pos hcur]
    exact gangLast_eq_run hcall

/-- A step that comes to a turn is the turn, in the state that it has got to. -/
theorem step_eq_run {e : Event} (hcall : stepCall E g e = some (h, call)) :
    step E g e = call.run E h := by
  cases e <;> dsimp only [stepCall] at hcall
  case deal =>
    split_ifs at hcall with hdeals
    obtain ⟨rfl, rfl⟩ := Prod.mk.inj (Option.some.inj hcall)
    exact if_neg hdeals
  case operate chairID operate card =>
    split_ifs at hcall with hseated
    rw [step, if_pos hseated, operate_eq_run hcall]
  case timer l =>
    split_ifs at hcall with hl
    unfold timerCall at hcall
    rw [step, if_pos hl, onTimer, userAutoOperate]
    split_ifs at hcall with htick hqi hguo
    · rw [if_pos htick.1, if_pos hqi, if_pos (by exact htick.2), operate_eq_run hcall]
    · rw [if_pos htick.1, if_neg hqi, if_pos hguo, if_pos (by exact htick.2), operate_eq_run hcall]
  all_goals exact absurd hcall (by simp)

end Calls

/-- A tile is drawn for a chair, or a chair is asked what it can do with a tile. -/
inductive Site where
  | draw (chairID : ℕ)
  | check (chairID : ℕ) (card : CardID)

/-- What is done at a site. -/
def Site.run (g : GameFrame) : Site → Option GameFrame
  | .draw chairID => setTurn E g chairID
  | .check chairID card => (g.gameData.handCards[chairID]?).bind fun hand =>
      (getOperateArray E g hand card).map (·.1)

/-- The draws and checks that a step from `g` comes to, each with the state it starts in. -/
inductive Comes (g : GameFrame) (e : Event) : GameFrame → Site → Prop where
  | turn {h : GameFrame} {chairID : ℕ} (hcall : stepCall E g e = some (h, .turn chairID)) :
    Comes g e h (.draw chairID)
  | check {h : GameFrame} {card : CardID} {i : ℕ} {s : GameFrame × Bool}
    (hcall : stepCall E g e = some (h, .next card)) (hcard : 0 < card ∧ card < 36)
    (hi : i < h.gameData.chairCount)
    (hoffers : (List.range i).foldlM (offer E card) (h, false) = some s)
    (hcur : (i : ℤ) ≠ s.1.gameData.curChairID) :
    Comes g e s.1 (.check i card)
  | next {h : GameFrame} {card : CardID} {s : GameFrame}
    (hcall : stepCall E g e = some (h, .next card))
    (hoffers : (if 0 < card ∧ card < 36 then
      (List.range h.gameData.chairCount).foldlM (offer E card) (h, false)
      else some (h, false)) = some (s, false)) :
    Comes g e s (.draw ((s.gameData.curChairID + 1) % s.gameData.chairCount).toNat)

section Comes

variable {E} {g h : GameFrame}

theorem windows_gangCall {call : Call} {chairID : ℕ} {hand : Slice} {operate : OperateType}
    {times : ℕ} (hg : g.Windows) (hcall : gangCall E g chairID hand operate times = some (h, call)) :
    h.Windows := by
  obtain ⟨card, _, hcall⟩ := Option.bind_eq_some_iff.mp hcall
  split_ifs at hcall
  obtain ⟨rfl, -⟩ := Prod.mk.inj (Option.some.inj hcall)
  exact windows_discard hg chairID hand card times

theorem windows_operateCall {call : Call} {chairID : ℕ} {operate : OperateType} {card : CardID}
    (hg : g.Windows) (hoperate : operateCall E g chairID operate card = some (h, call)) :
    h.Windows := by
  obtain ⟨hand, _, hcall⟩ := Option.bind_eq_some_iff.mp hoperate
  have hstop : (stopTimer g chairID).Windows := hg
  split_ifs at hcall
  · obtain ⟨rfl, -⟩ := Prod.mk.inj (Option.some.inj hcall)
    exact windows_discard hstop chairID hand card 1
  · obtain ⟨rfl, -⟩ := Prod.mk.inj (Option.some.inj hcall)
    exact hg
  · exact windows_gangCall hstop hcall
  · exact windows_gangCall hstop hcall

theorem windows_stepCall {e : Event} {call : Call} (hg : g.Windows)
    (hstep : stepCall E g e = some (h, call)) : h.Windows := by
  cases e <;> dsimp only [stepCall] at hstep
  case deal =>
    split_ifs at hstep
    obtain ⟨rfl, -⟩ := Prod.mk.inj (Option.some.inj hstep)
    exact hg
  case operate chairID operate card =>
    split_ifs at hstep
    exact windows_operateCall hg hstep
  case timer l =>
    split_ifs at hstep
    unfold timerCall at hstep
    split_ifs at hstep
    · refine windows_operateCall ?_ hstep
      exact hg
    · refine windows_operateCall ?_ hstep
      exact hg
  all_goals exact absurd hstep (by simp)

theorem windows_comes {e : Event} {s : GameFrame} {site : Site} (hg : g.Windows)
    (hcomes : Comes E g e s site) : s.Windows := by
  cases hcomes with
  | turn hcall => exact windows_stepCall hg hcall
  | check hcall _ _ hoffers _ =>
    refine windows_offers ?_ hoffers
    exact windows_stepCall hg hcall
  | next hcall hoffers =>
    have hh := windows_stepCall hg hcall
    split_ifs at hoffers
    · exact windows_offers hh hoffers
    · obtain ⟨rfl, -⟩ := Prod.mk.inj (Option.some.inj hoffers)
      exact hh

end Comes

/-! ### What they may change -/

/-- Drawing a tile changes no other hand, and takes the tile that is recorded, and only that, out of
    the wall. -/
structure DrawFrame (g : GameFrame) (chairID : ℕ) (g' : GameFrame) : Prop where
  hands : ∀ i, i ≠ chairID → (readHands g')[i]? = (readHands g)[i]?
  wall : ∃ drawn : Option CardID,
    g'.gameData.operateRecord =
      g.gameData.operateRecord ++ (drawn.map (⟨chairID, ·, .get⟩)).toList ∧
    drawn.elim (readWall g' = readWall g) fun card =>
      card ∈ readWall g ∧ readWall g' = (readWall g).erase card

/-- A check changes nothing that is in a hand or in the wall. -/
structure CheckFrame (g g' : GameFrame) : Prop where
  hands : readHands g' = readHands g
  wall : readWall g' = readWall g

/-- What a site leaves as it is. -/
def Site.Frame (g g' : GameFrame) : Site → Prop
  | .draw chairID => DrawFrame g chairID g'
  | .check _ _ => CheckFrame g g'

/-- Every cell of `w` that drawing `card` writes to holds what is written there already. -/
structure Untouched (g : GameFrame) (chairID : ℕ) (hand : Slice) (card : CardID) (w : Slice) :
    Prop where
  behind : ∀ x, w.Shows hand.array x → hand.Next hand.array x → g.heap.cell hand.array x = some card
  moved : ∀ x, w.Shows w.array x → ¬hand.Next w.array x →
    closedCell g chairID w.array x = g.heap.cell w.array x

/-- Drawing `card` touches no other hand, and the cell behind the hand is not part of the rest of the
    wall, or is to hold `card` there. -/
structure ClearDraw (g : GameFrame) (chairID : ℕ) (hand : Slice) (card : CardID) : Prop where
  hands : ∀ i w, g.gameData.handCards[i]? = some w → i ≠ chairID → Untouched g chairID hand card w
  wall : ∀ x, (restWall g chairID).Shows hand.array x → hand.Next hand.array x →
    closedCell g chairID hand.array x = some card

/-- The cell behind the hand is in no hand and not in the wall, or holds the tile already. -/
structure ClearCheck (g : GameFrame) (hand : Slice) (card : CardID) : Prop where
  hands : ∀ w ∈ g.gameData.handCards,
    ∀ x, w.Shows hand.array x → hand.Next hand.array x → g.heap.cell hand.array x = some card
  wall : ∀ x, g.cards.Shows hand.array x → hand.Next hand.array x →
    g.heap.cell hand.array x = some card

/-- Nothing is appended to a hand of 14 tiles or more. -/
def Site.Clear (g : GameFrame) : Site → Prop
  | .draw chairID => ∀ hand card, g.gameData.handCards[chairID]? = some hand → hand.len < 14 →
      nextCard g chairID = some card → ClearDraw g chairID hand card
  | .check chairID card => ∀ hand, g.gameData.handCards[chairID]? = some hand → hand.len < 14 →
      ClearCheck g hand card

section Frames

variable {E} {g g' : GameFrame} {chairID : ℕ} {hand : Slice} {card : CardID}

theorem readHands_getElem? (g : GameFrame) (i : ℕ) :
    (readHands g)[i]? = (g.gameData.handCards[i]?).map g.heap.read := List.getElem?_map

/-- The tiles of another hand after a draw, cell by cell. -/
theorem read_other_iff {w : Slice} (hg : g.Windows) (hhand : g.heap.Valid hand) (hw : g.heap.Valid w) :
    ((closedHeap E g chairID).append 0 E.spare hand [card]).1.read w = g.heap.read w ↔
      Untouched g chairID hand card w := by
  have hgrows : g.heap.Grows (closedHeap E g chairID) := grows_closedHeap hg
  have hcell {k x : ℕ} (hx : w.Shows k x) :
      ((closedHeap E g chairID).append 0 E.spare hand [card]).1.cell k x =
        if hand.Next k x then some card else closedCell g chairID k x := by
    rw [Heap.cell_append_one (hhand.mono hgrows) (hw.mono hgrows) hx, cell_closedHeap hg]
  rw [Heap.read_eq_read_iff]
  constructor
  · intro hcells
    refine ⟨fun x hx hnext => ?_, fun x hx hnext => ?_⟩
    · have h := hcells x ⟨rfl, hx.2⟩
      rw [hx.1, hcell hx, if_pos hnext] at h
      exact h.symm
    · rw [← hcells x hx, hcell hx, if_neg hnext]
  · rintro ⟨hbehind, hmoved⟩ x hx
    rw [hcell hx]
    split_ifs with hnext
    · rw [← hnext.1] at hx ⊢
      exact (hbehind x hx ⟨rfl, hnext.2⟩).symm
    · exact hmoved x hx hnext

/-- The rest of the wall after a draw. -/
theorem read_rest_iff (hg : g.Windows) (hhand : g.heap.Valid hand)
    (hcard : nextCard g chairID = some card) :
    ((closedHeap E g chairID).append 0 E.spare hand [card]).1.read (restWall g chairID) =
        (readWall g).erase card ↔
      ∀ x, (restWall g chairID).Shows hand.array x → hand.Next hand.array x →
        closedCell g chairID hand.array x = some card := by
  have hgrows : g.heap.Grows (closedHeap E g chairID) := grows_closedHeap hg
  rw [← read_restWall (E := E) hg hcard, Heap.read_append_one_iff (hhand.mono hgrows)
    ((valid_restWall hg hcard).mono hgrows)]
  simp only [cell_closedHeap hg]

theorem drawFrame_of_idle (hidle : Idle g g') : DrawFrame g chairID g' := by
  refine ⟨fun i _ => ?_, none, ?_, ?_⟩
  · rw [readHands, readHands, hidle.heap, hidle.handCards]
  · rw [hidle.operateRecord, Option.map_none, Option.toList_none, List.append_nil]
  · rw [Option.elim_none, readWall, readWall, hidle.heap, hidle.cards]

theorem drawFrame_iff (hg : g.Windows) (hhand : g.gameData.handCards[chairID]? = some hand)
    (hcard : nextCard g chairID = some card) (hdrawn : Drawn E g chairID hand card g') :
    DrawFrame g chairID g' ↔ ClearDraw g chairID hand card := by
  have hvalid := valid_hand hg hhand
  -- another hand is the same window as before
  have hother {i : ℕ} {w : Slice} (hi : i ≠ chairID) (hw : g.gameData.handCards[i]? = some w) :
      (readHands g')[i]? = (readHands g)[i]? ↔ g'.heap.read w = g.heap.read w := by
    rw [readHands_getElem?, readHands_getElem?, hdrawn.handCards, List.getElem?_set_ne hi.symm, hw,
      Option.map_some, Option.map_some, Option.some.injEq]
  have hread {w : Slice} (hw : g.heap.Valid w) :
      g'.heap.read w = g.heap.read w ↔ Untouched g chairID hand card w := by
    rw [hdrawn.heap]
    exact read_other_iff hg hvalid hw
  have hwall : readWall g' = (readWall g).erase card ↔
      ∀ x, (restWall g chairID).Shows hand.array x → hand.Next hand.array x →
        closedCell g chairID hand.array x = some card := by
    rw [readWall, hdrawn.heap, hdrawn.cards]
    exact read_rest_iff hg hvalid hcard
  constructor
  · rintro ⟨hhands, drawn, hrecord, hremoved⟩
    have hsome : drawn = some card := by
      rw [hdrawn.operateRecord, List.append_cancel_left_eq] at hrecord
      cases drawn with
      | none => exact absurd hrecord (by simp)
      | some c => simpa using hrecord.symm
    rw [hsome] at hremoved
    exact ⟨fun i w hw hi => (hread (valid_hand hg hw)).mp ((hother hi hw).mp (hhands i hi)),
      hwall.mp hremoved.2⟩
  · intro hclear
    refine ⟨fun i hi => ?_, some card, hdrawn.operateRecord, nextCard_mem hcard,
      hwall.mpr hclear.wall⟩
    cases hw : g.gameData.handCards[i]? with
    | none =>
      rw [readHands_getElem?, readHands_getElem?, hdrawn.handCards, List.getElem?_set_ne hi.symm, hw]
      rfl
    | some w => exact (hother hi hw).mpr ((hread (valid_hand hg hw)).mpr (hclear.hands i w hw hi))

theorem checkFrame_iff (hg : g.Windows) (hhand : g.gameData.handCards[chairID]? = some hand)
    (hlen : hand.len < 14) (hcard : 0 < card ∧ card < 36) {s : GameFrame × List OperateType}
    (h : getOperateArray E g hand card = some s) :
    CheckFrame g s.1 ↔ ClearCheck g hand card := by
  have hvalid := valid_hand hg hhand
  have hfst := getOperateArray_fst h
  rw [if_pos ⟨hcard.1, hcard.2, hlen⟩] at hfst
  rw [hfst]
  have hhands := List.map_inj_left (l := g.gameData.handCards)
    (f := (g.heap.append 0 E.spare hand [card]).1.read) (g := g.heap.read)
  constructor
  · rintro ⟨hmap, hwall⟩
    refine ⟨fun w hw => ?_, ?_⟩
    · exact (Heap.read_append_one_iff hvalid (hg.hands w hw)).mp (hhands.mp hmap w hw)
    · exact (Heap.read_append_one_iff hvalid hg.wall).mp hwall
  · rintro ⟨hmap, hwall⟩
    refine ⟨hhands.mpr fun w hw => ?_, ?_⟩
    · exact (Heap.read_append_one_iff hvalid (hg.hands w hw)).mpr (hmap w hw)
    · exact (Heap.read_append_one_iff hvalid hg.wall).mpr hwall

end Frames

/-- Wherever a game comes to draw a tile or to check a hand, it leaves the other hands and the rest of
    the wall as they are exactly when nothing that it writes to is somebody else's. -/
theorem frame_iff_clear {es : List Event} {e : Event} {g s t : GameFrame} {site : Site}
    (hrun : Run (step E) Any (newGameFrame E) es g) (hcomes : Comes E g e s site)
    (ht : site.run E s = some t) : site.Frame s t ↔ site.Clear s := by
  have hs := windows_comes (windows_of_run hrun) hcomes
  cases site with
  | draw chairID =>
    obtain ⟨hand, hhand, ⟨hnone, hidle⟩ | ⟨hlen, card, hcard, hdrawn⟩⟩ := setTurn_cases hs ht
    · refine iff_of_true (drawFrame_of_idle hidle) fun hand' card' hhand' hlen' hcard' => ?_
      obtain rfl := Option.some.inj (hhand.symm.trans hhand')
      obtain hlen | hnone := hnone
      · omega
      · exact absurd (hnone.symm.trans hcard') (by simp)
    · refine (drawFrame_iff hs hhand hcard hdrawn).trans ⟨fun hclear hand' card' hhand' _ hcard' => ?_,
        fun hclear => hclear hand card hhand hlen hcard⟩
      obtain rfl := Option.some.inj (hhand.symm.trans hhand')
      obtain rfl := Option.some.inj (hcard.symm.trans hcard')
      exact hclear
  | check chairID card =>
    obtain ⟨hand, hhand, ht⟩ := Option.bind_eq_some_iff.mp ht
    obtain ⟨o, ho, rfl⟩ := Option.map_eq_some_iff.mp ht
    have hcard : 0 < card ∧ card < 36 := by
      cases hcomes
      assumption
    by_cases hlen : hand.len < 14
    · refine (checkFrame_iff hs hhand hlen hcard ho).trans ⟨fun hclear hand' hhand' _ => ?_,
        fun hclear => hclear hand hhand hlen⟩
      obtain rfl := Option.some.inj (hhand.symm.trans hhand')
      exact hclear
    · have hfst := getOperateArray_fst ho
      rw [if_neg fun h => hlen h.2.2] at hfst
      refine iff_of_true (by rw [hfst]; exact ⟨rfl, rfl⟩) fun hand' hhand' hlen' => ?_
      obtain rfl := Option.some.inj (hhand.symm.trans hhand')
      exact absurd hlen' hlen

/-- A draw of the next tile is clear when the cell behind the hand is nobody's. -/
theorem clearDraw_of_free {g : GameFrame} {chairID : ℕ} {hand : Slice} {card : CardID}
    (hasked : ¬Asked g chairID)
    (hhands : ∀ w ∈ g.gameData.handCards, ¬w.Shows hand.array (hand.offset + hand.len))
    (hwall : ¬(g.cards.drop 1).Shows hand.array (hand.offset + hand.len)) :
    ClearDraw g chairID hand card := by
  refine ⟨fun i w hw _ => ⟨fun x hx hnext => ?_, fun x _ _ => ?_⟩, fun x hx hnext => ?_⟩
  · rw [hnext.2.1] at hx
    exact absurd hx (hhands w (List.mem_of_getElem? hw))
  · exact if_neg fun h => hasked h.1
  · rw [restWall, if_neg hasked, hnext.2.1] at hx
    exact absurd hx hwall

/-! ### Four chairs -/

/-- A table for four, with no winning suits listed: none of the suits looked up below is one. -/
def fourChairs : Setup := { twoChairs with maxPlayerCount := 4 }

/-- Four players sit down and a round starts. -/
def seatedFour : List Event := [.seat {0, 1, 2, 3}, .start id]

/-- The first draw disturbs nobody: the thirteen cells behind the hand of chair 0 were meant for
    chair 1, which has got another hand. -/
theorem frame_first_draw : ∃ g h t,
    Run (step fourChairs) Any (newGameFrame fourChairs) seatedFour g ∧
    Comes fourChairs g .deal h (.draw 0) ∧ setTurn fourChairs h 0 = some t ∧ DrawFrame h 0 t := by
  obtain ⟨g, hrun, hq⟩ := exists_run (step fourChairs) Any (newGameFrame fourChairs) seatedFour
    (fun g => decide (g.deals = 1 ∧ g.gameData.bankerChairID = 0 ∧ g.testCardArray = [0, 0, 0, 0] ∧
      g.gameData.handCards = [⟨0, 0, 13, 112⟩, ⟨1, 0, 13, 13⟩, ⟨0, 26, 13, 86⟩, ⟨0, 39, 13, 73⟩] ∧
      g.cards = ⟨0, 52, 60, 60⟩) &&
      (setTurn fourChairs ({ g with deals := g.deals - 1 }.setStatus .playing) 0).isSome)
    (by decide +kernel)
  obtain ⟨hg, hsome⟩ := Bool.and_eq_true_iff.mp hq
  obtain ⟨hdeals, hbanker, htests, hhands, hwall⟩ := of_decide_eq_true hg
  obtain ⟨t, ht⟩ := Option.isSome_iff_exists.mp hsome
  have hcomes : Comes fourChairs g .deal ({ g with deals := g.deals - 1 }.setStatus .playing)
      (.draw 0) := by
    refine .turn ?_
    rw [stepCall, if_neg (by omega), hbanker]
  refine ⟨g, _, t, hrun, hcomes, ht, (frame_iff_clear fourChairs hrun hcomes ht).mpr ?_⟩
  intro hand card hhand _ _
  obtain rfl : hand = ⟨0, 0, 13, 112⟩ := by
    change g.gameData.handCards[0]? = some hand at hhand
    rw [hhands] at hhand
    exact (Option.some.inj hhand).symm
  refine clearDraw_of_free ?_ ?_ ?_
  · rintro ⟨hpos, -⟩
    change 0 < g.testCardArray.getD 0 0 at hpos
    rw [htests] at hpos
    exact absurd hpos (by decide)
  · change ∀ w ∈ g.gameData.handCards, ¬w.Shows 0 13
    rw [hhands]
    decide
  · change ¬(g.cards.drop 1).Shows 0 13
    rw [hwall]
    decide

/-- Once chair 0 has drawn and put down a tile, looking whether chair 2 could win with it overwrites
    the first tile of chair 3. -/
theorem check_overwrites : ∃ g s t,
    Run (step fourChairs) Any (newGameFrame fourChairs) (seatedFour ++ [.deal]) g ∧
    Comes fourChairs g (.operate 0 .qi 1) s (.check 2 1) ∧
    (Site.check 2 1).run fourChairs s = some t ∧
    (readHands s)[3]? = some [14, 15, 16, 17, 18, 19, 11, 12, 13, 14, 15, 16, 17] ∧
    (readHands t)[3]? = some [1, 15, 16, 17, 18, 19, 11, 12, 13, 14, 15, 16, 17] := by
  obtain ⟨g, hrun, hq⟩ := exists_run (step fourChairs) Any (newGameFrame fourChairs)
    (seatedFour ++ [.deal])
    (fun g => (stepCall fourChairs g (.operate 0 .qi 1)).any fun p : GameFrame × Call =>
      decide (p.2 = .next 1) && decide (2 < p.1.gameData.chairCount) &&
      ((List.range 2).foldlM (offer fourChairs 1) (p.1, false)).any fun s : GameFrame × Bool =>
        decide (s.1.gameData.curChairID = 0) &&
        ((Site.check 2 1).run fourChairs s.1).any fun t : GameFrame =>
          decide ((readHands s.1)[3]? = some [14, 15, 16, 17, 18, 19, 11, 12, 13, 14, 15, 16, 17] ∧
            (readHands t)[3]? = some [1, 15, 16, 17, 18, 19, 11, 12, 13, 14, 15, 16, 17]))
    (by decide +kernel)
  obtain ⟨⟨h, call⟩, hcall, hq⟩ := (Option.any_eq_true _ _).mp hq
  simp only [Bool.and_eq_true, decide_eq_true_eq] at hq
  obtain ⟨⟨rfl, hchairs⟩, hq⟩ := hq
  obtain ⟨s, hs, hq⟩ := (Option.any_eq_true _ _).mp hq
  obtain ⟨hcur, hq⟩ := Bool.and_eq_true_iff.mp hq
  obtain ⟨t, ht, hq⟩ := (Option.any_eq_true _ _).mp hq
  obtain ⟨hbefore, hafter⟩ := of_decide_eq_true hq
  refine ⟨g, s.1, t, hrun, .check hcall (by decide) hchairs hs ?_, ht, hbefore, hafter⟩
  rw [of_decide_eq_true hcur]
  decide

end GoServices.Mahjong
