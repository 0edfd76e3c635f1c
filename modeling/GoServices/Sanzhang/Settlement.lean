import GoServices.Sanzhang.Rounds
import Mathlib.Algebra.BigOperators.Intervals
import Mathlib.Algebra.Order.BigOperators.Ring.Finset
import Mathlib.Algebra.Order.Ring.Int

/-! What `startResult` pays.

    The loop goes over the chairs that have bet. It sets the entry of such a chair to minus its bets,
    over what earlier chairs have paid it, and adds an equal share of the bets at the places `0, 1, ...`
    of the list of winners, as if these were the chairs of the winners. Up to overflow, an entry is
    therefore minus the bets of its chair plus a gain (`gain`), and only the first entries gain anything. -/

namespace GoServices.Sanzhang

open Runs Rooms Finset

variable {Uid : Type} [DecidableEq Uid] {rule : GameRule} {d : GameData} {n : ℕ}

/-- What a chair has bet, as a number that does not overflow. -/
def GameData.bets (d : GameData) (i : ℕ) : ℕ := ((d.pourScores.getD i []).map Int64.toNatClampNeg).sum

/-- What each winner gets from a chair. -/
def GameData.share (d : GameData) (i : ℕ) : ℕ := d.bets i / d.winner.length

/-- What integer division loses of all bets. -/
def GameData.lost (d : GameData) : ℕ :=
  if d.winner = [] then 0 else ∑ i ∈ range d.chairCount, d.bets i % d.winner.length

/-- Somebody has bet. -/
def GameData.Poured (d : GameData) : Prop := ∃ pours ∈ d.pourScores, pours ≠ []

/-! ### The loop -/

theorem payWinners_eq (share : Int64) {count : ℕ} {ws : List Int64} (h : count ≤ ws.length) :
    payWinners share count ws = some (ws.mapIdx fun j x => if j < count then x + share else x) := by
  unfold payWinners
  induction count with
  | zero =>
    have hid : ws.mapIdx (fun j x => if j < 0 then x + share else x) = ws :=
      List.ext_getElem? fun j => by simp
    rw [hid]
    rfl
  | succ count ih =>
    rw [List.range_succ, List.foldlM_append, ih (by omega)]
    simp only [Option.bind_eq_bind, Option.bind_some, List.foldlM_cons, List.foldlM_nil,
      List.length_mapIdx, if_pos (Nat.lt_of_succ_le h)]
    congr 1
    apply List.ext_getElem?
    intro j
    simp only [List.getElem?_modify, List.getElem?_mapIdx]
    cases ws[j]? with
    | none => simp
    | some x =>
      simp only [Option.map_some]
      split_ifs <;> first | omega | rfl

theorem payWinners_none (share : Int64) {count : ℕ} {ws : List Int64} (h : ws.length < count) :
    payWinners share count ws = none := by
  obtain ⟨k, rfl⟩ := Nat.exists_eq_add_of_lt h
  have hlen : ws.length + k + 1 = (ws.length + 1) + k := by omega
  unfold payWinners
  rw [hlen, List.range_add, List.foldlM_append, List.range_succ, List.foldlM_append]
  have hpay := payWinners_eq share (le_refl ws.length)
  unfold payWinners at hpay
  rw [hpay]
  simp

/-- What the loop has paid to a chair after `k` chairs. -/
def gain (d : GameData) : ℕ → ℕ → ℕ
  | 0, _ => 0
  | k + 1, j =>
    if d.pourScores.getD k [] = [] then gain d k j
    else (if j = k then 0 else gain d k j) + if j < d.winner.length then d.share k else 0

/-- A chair that has bet needs an entry for every place in the list of winners. -/
theorem settleChair_some {ws ws' : List Int64} {i : ℕ} (h : settleChair d ws i = some ws') :
    ws'.length = ws.length ∧ (d.pourScores.getD i [] ≠ [] → d.winner.length ≤ ws.length) := by
  obtain ⟨pours, hpours, h⟩ := Option.bind_eq_some_iff.mp h
  rw [List.getD_eq_getElem?_getD, hpours, Option.getD_some]
  split_ifs at h with hnil
  · exact ⟨by rw [Option.some.inj h], fun hne => absurd hnil hne⟩
  · rcases Nat.lt_or_ge ws.length d.winner.length with hlt | hge
    · rw [payWinners_none _ (by rwa [List.length_set])] at h
      exact absurd h (by simp)
    · rw [payWinners_eq _ (by rwa [List.length_set])] at h
      refine ⟨?_, fun _ => hge⟩
      rw [← Option.some.inj h, List.length_mapIdx, List.length_set]

theorem winners_le_of_settle {ws : List Int64} (hlen : d.pourScores.length = d.chairCount)
    (h : settle d = some ws) (hp : d.Poured) : d.winner.length ≤ d.chairCount := by
  have hloop : ∀ (is : List ℕ) (ws ws' : List Int64), is.foldlM (settleChair d) ws = some ws' →
      ∀ i ∈ is, d.pourScores.getD i [] ≠ [] → d.winner.length ≤ ws.length := by
    intro is
    induction is with
    | nil => exact fun _ _ _ i hi => absurd hi List.not_mem_nil
    | cons k is ih =>
      intro ws ws' h i hi hne
      obtain ⟨ws₁, hws₁, h⟩ := Option.bind_eq_some_iff.mp h
      obtain ⟨hlen₁, hle⟩ := settleChair_some hws₁
      rcases List.mem_cons.mp hi with rfl | hi
      · exact hle hne
      · exact hlen₁ ▸ ih ws₁ ws' h i hi hne
  obtain ⟨pours, hmem, hne⟩ := hp
  obtain ⟨i, hi⟩ := List.getElem?_of_mem hmem
  have hlt := (List.getElem?_eq_some_iff.mp hi).1
  have := hloop _ _ _ h i (List.mem_range.mpr (hlen ▸ hlt))
    (by rw [List.getD_eq_getElem?_getD, hi, Option.getD_some]; exact hne)
  rwa [List.length_replicate] at this

/-- A chair that has not bet changes nothing; the others pay every place of the list of winners. -/
theorem settleChair_eq (h : d.Poured → d.winner.length ≤ d.chairCount) {ws : List Int64}
    (hws : ws.length = d.chairCount) {k : ℕ} (hk : k < d.pourScores.length) :
    settleChair d ws k = some (if d.pourScores[k] = [] then ws else
      (ws.set k (-sumScores d.pourScores[k])).mapIdx fun j x =>
        if j < d.winner.length then x + sumScores d.pourScores[k] / Int64.ofNat d.winner.length else x) := by
  rw [settleChair, List.getElem?_eq_getElem hk, Option.bind_some]
  split_ifs with hnil
  · rfl
  · refine payWinners_eq _ ?_
    rw [List.length_set, hws]
    exact h ⟨_, List.getElem_mem hk, hnil⟩

/-- Only the length of the list of winners can stop the loop. -/
theorem exists_settle (hlen : d.pourScores.length = d.chairCount)
    (h : d.Poured → d.winner.length ≤ d.chairCount) : ∃ ws, settle d = some ws := by
  have hloop : ∀ k ≤ d.chairCount, ∃ ws : List Int64, ws.length = d.chairCount ∧
      (List.range k).foldlM (settleChair d) (List.replicate d.chairCount 0) = some ws := by
    intro k
    induction k with
    | zero => exact fun _ => ⟨_, List.length_replicate, rfl⟩
    | succ k ih =>
      intro hk
      obtain ⟨ws, hws, heq⟩ := ih (Nat.le_of_succ_le hk)
      have hnext := settleChair_eq h hws (hlen ▸ hk)
      refine ⟨_, (settleChair_some hnext).1.trans hws, ?_⟩
      rw [List.range_succ, List.foldlM_append, heq]
      simp only [Option.bind_eq_bind, Option.bind_some, List.foldlM_cons, List.foldlM_nil, hnext]
      rfl
  obtain ⟨ws, -, hws⟩ := hloop d.chairCount le_rfl
  exact ⟨ws, hws⟩

theorem sumScores_eq {pours : List Int64} (h : ∀ x ∈ pours, 0 ≤ x) :
    sumScores pours = Int64.ofNat (pours.map Int64.toNatClampNeg).sum := by
  have hloop : ∀ (pours : List Int64) (scores : ℕ), (∀ x ∈ pours, 0 ≤ x) →
      pours.foldl (fun scores v => scores + v) (Int64.ofNat scores) =
        Int64.ofNat (scores + (pours.map Int64.toNatClampNeg).sum) := by
    intro pours
    induction pours with
    | nil => exact fun _ _ => rfl
    | cons x pours ih =>
      intro scores h
      have hx := Int64.ofNat_toNatClampNeg x (h x List.mem_cons_self)
      rw [List.foldl_cons, List.map_cons, List.sum_cons, ← Nat.add_assoc,
        ← ih _ fun y hy => h y (List.mem_cons_of_mem x hy), Int64.ofNat_add, hx]
  rw [sumScores, ← Nat.zero_add (List.sum _)]
  exact hloop pours 0 h

/-- The quotients that the source computes are the shares. -/
def GameData.Divides (d : GameData) : Prop :=
  ∀ i, Int64.ofNat (d.bets i) / Int64.ofNat d.winner.length = Int64.ofNat (d.share i)

/-- The entries after `k` chairs: minus the bets of those chairs, plus the gains. -/
theorem settle_loop (hreg : Regular n d) (h : d.Poured → d.winner.length ≤ d.chairCount)
    (hdiv : d.Poured → d.Divides) {k : ℕ} (hk : k ≤ d.chairCount) :
    (List.range k).foldlM (settleChair d) (List.replicate d.chairCount 0) =
      some ((List.range d.chairCount).map fun j =>
        Int64.ofInt ((gain d k j : ℤ) - if j < k then d.bets j else 0)) := by
  induction k with
  | zero =>
    rw [List.range_zero, List.foldlM_nil]
    simp only [gain, Nat.not_lt_zero, if_false]
    exact congrArg some (by simp [List.map_const'])
  | succ k ih =>
    have hlt : k < d.pourScores.length := by rw [hreg.pours, ← hreg.count]; exact hk
    have hgetD : d.pourScores.getD k [] = d.pourScores[k] := by
      rw [List.getD_eq_getElem?_getD, List.getElem?_eq_getElem hlt, Option.getD_some]
    have hbets : sumScores d.pourScores[k] = Int64.ofNat (d.bets k) := by
      rw [GameData.bets, hgetD]
      exact sumScores_eq (hreg.bets _ (List.getElem_mem hlt))
    rw [List.range_succ, List.foldlM_append, ih (Nat.le_of_succ_le hk)]
    simp only [Option.bind_eq_bind, Option.bind_some, List.foldlM_cons, List.foldlM_nil]
    rw [settleChair_eq h (by simp) hlt]
    refine congrArg some ?_
    split_ifs with hnil
    · have hzero : d.bets k = 0 := by rw [GameData.bets, hgetD, hnil]; rfl
      refine List.map_congr_left fun j _ => ?_
      rw [gain, if_pos (hgetD.trans hnil)]
      rcases eq_or_ne j k with rfl | hjk
      · simp [hzero]
      · simp only [Nat.lt_succ_iff_lt_or_eq, hjk, or_false]
    · refine List.ext_getElem? fun j => ?_
      have hgain : gain d (k + 1) j = (if j = k then 0 else gain d k j) +
          if j < d.winner.length then d.share k else 0 := if_neg (hgetD ▸ hnil)
      have hshare := hdiv ⟨_, List.getElem_mem hlt, hnil⟩ k
      rw [hbets, hshare]
      simp only [List.getElem?_mapIdx, List.getElem?_set, List.getElem?_map, List.length_map,
        List.length_range, ← Int64.ofInt_eq_ofNat, ← Int64.ofInt_neg]
      rcases Nat.lt_or_ge j d.chairCount with hj | hj
      · rw [List.getElem?_range hj, Option.map_some, Option.map_some, hgain]
        rcases eq_or_ne j k with rfl | hjk
        · rw [if_pos rfl, if_pos hj, Option.map_some, if_pos rfl, if_pos (Nat.lt_succ_self j)]
          split_ifs
          · rw [← Int64.ofInt_add]
            exact congrArg (some ∘ Int64.ofInt) (by push_cast; omega)
          · exact congrArg (some ∘ Int64.ofInt) (by push_cast; omega)
        · rw [if_neg (Ne.symm hjk), Option.map_some, if_neg hjk]
          simp only [Nat.lt_succ_iff_lt_or_eq, hjk, or_false]
          by_cases hwin : j < d.winner.length
          · rw [if_pos hwin, if_pos hwin, ← Int64.ofInt_add]
            exact congrArg (some ∘ Int64.ofInt) (by push_cast; omega)
          · rw [if_neg hwin, if_neg hwin, Nat.add_zero]
      · rw [List.getElem?_eq_none (by rwa [List.length_range]), if_neg (by omega)]
        rfl

/-- The entries as the loop would leave them without overflow. -/
def entries (d : GameData) : List ℤ :=
  (List.range d.chairCount).map fun j => (gain d d.chairCount j : ℤ) - d.bets j

/-- The result of the loop, unless it runs out of entries. -/
theorem settle_eq (hreg : Regular n d) (h : d.Poured → d.winner.length ≤ d.chairCount)
    (hdiv : d.Poured → d.Divides) : settle d = some ((entries d).map Int64.ofInt) := by
  rw [settle, settle_loop hreg h hdiv le_rfl, entries, List.map_map]
  refine congrArg some (List.map_congr_left fun j hj => ?_)
  rw [if_pos (List.mem_range.mp hj)]
  rfl

/-! ### Gains -/

theorem share_eq_zero_of_nil {k : ℕ} (h : d.pourScores.getD k [] = []) : d.share k = 0 := by
  rw [GameData.share, GameData.bets, h]
  exact Nat.zero_div _

/-- Only the first chairs gain, as many as there are winners. -/
theorem gain_eq_zero_of_le {j : ℕ} (hj : d.winner.length ≤ j) (k : ℕ) : gain d k j = 0 := by
  induction k with
  | zero => rfl
  | succ k ih =>
    rw [gain, ih, if_neg (Nat.not_lt.mpr hj)]
    split_ifs <;> rfl

/-- Chair 0 gains the shares of all chairs. -/
theorem gain_zero (h : 0 < d.winner.length) (k : ℕ) : gain d k 0 = ∑ i ∈ range k, d.share i := by
  induction k with
  | zero => rfl
  | succ k ih =>
    rw [gain, ih, sum_range_succ, if_pos h]
    by_cases hnil : d.pourScores.getD k [] = []
    · rw [if_pos hnil, share_eq_zero_of_nil hnil, add_zero]
    · rw [if_neg hnil]
      rcases Nat.eq_zero_or_pos k with rfl | hk
      · rfl
      · rw [if_neg (Nat.ne_of_lt hk)]

/-- Nobody gains more than the shares of all chairs. -/
theorem gain_le (k j : ℕ) : gain d k j ≤ if j < d.winner.length then ∑ i ∈ range k, d.share i else 0 := by
  split_ifs with hj
  · induction k with
    | zero => exact Nat.zero_le _
    | succ k ih =>
      rw [gain, sum_range_succ, if_pos hj]
      split_ifs <;> omega
  · exact (gain_eq_zero_of_le (Nat.le_of_not_lt hj) k).le

theorem sum_gain_le (k n : ℕ) :
    ∑ j ∈ range n, gain d k j ≤ d.winner.length * ∑ i ∈ range k, d.share i := by
  calc ∑ j ∈ range n, gain d k j
      ≤ ∑ j ∈ range n, if j < d.winner.length then ∑ i ∈ range k, d.share i else 0 :=
        sum_le_sum fun j _ => gain_le k j
    _ = #{j ∈ range n | j < d.winner.length} * ∑ i ∈ range k, d.share i := by
        rw [← sum_filter, sum_const_nat fun _ _ => rfl]
    _ ≤ d.winner.length * ∑ i ∈ range k, d.share i := by
        refine Nat.mul_le_mul_right _ ((card_le_card fun j hj => ?_).trans (card_range _).le)
        exact mem_range.mpr (mem_filter.mp hj).2

/-- Nobody gains where no share is paid. -/
theorem gain_eq_zero (h : ∀ i, d.share i = 0) (k j : ℕ) : gain d k j = 0 := by
  induction k with
  | zero => rfl
  | succ k ih =>
    rw [gain, ih, h]
    split_ifs <;> rfl

theorem gain_eq_zero_of_lt (h : ∀ i, d.bets i = 0 ∨ d.bets i < d.winner.length) (k j : ℕ) :
    gain d k j = 0 := by
  refine gain_eq_zero (fun i => ?_) k j
  rcases h i with h0 | hlt
  · rw [GameData.share, h0, Nat.zero_div]
  · exact Nat.div_eq_of_lt hlt

/-- The shares of all winners and the remainders make up the bets. -/
theorem sum_bets (h : d.winner ≠ []) : ∑ i ∈ range d.chairCount, d.bets i =
    d.winner.length * ∑ i ∈ range d.chairCount, d.share i + d.lost := by
  rw [GameData.lost, if_neg h, mul_sum, ← sum_add_distrib]
  exact sum_congr rfl fun i _ => (Nat.div_add_mod _ _).symm

/-! ### A fair settlement -/

/-- The entries sum to zero up to what integer division loses, a chair that has lost gets minus its
    bets, and only chairs still in the game get more than minus their bets. -/
structure Settled (g : GameFrame Uid) (winScores : List ℤ) : Prop where
  sum : winScores.sum = -(g.gameData.lost : ℤ)
  loser : ∀ i ∈ g.gameData.loser, winScores[i]? = some (-(g.gameData.bets i : ℤ))
  winner : ∀ i x, winScores[i]? = some x → -(g.gameData.bets i : ℤ) < x → g.inGame i = true

/-- What chairs other than 0 have bet. -/
def GameData.others (d : GameData) : ℕ := ∑ i ∈ Ico 1 d.chairCount, d.bets i

/-- What goes wrong nowhere: the list of winners is not longer than the list of chairs, or nobody has
    bet; and no share is paid at all, or chair 0 alone has won, is still in the game, and what it wins
    does not overflow. -/
def Payable (g : GameFrame Uid) : Prop :=
  (g.gameData.Poured → g.gameData.winner.length ≤ g.gameData.chairCount) ∧
  ((∀ i, g.gameData.bets i = 0 ∨ g.gameData.bets i < g.gameData.winner.length) ∨
    g.gameData.winner.length = 1 ∧ g.inGame 0 = true ∧ g.gameData.others < 2 ^ 63)

/-- `endPourScore` ends the game, and the settlement is fair. -/
def EndsFairly (rule : GameRule) (g : GameFrame Uid) : Prop :=
  ∃ h winScores, endPourScore rule g = some h ∧
    h.gameResult.map GameResult.winScores = some winScores ∧ Settled g (winScores.map Int64.toInt)

section Entries

variable {g : GameFrame Uid}

theorem entries_get {j : ℕ} (hj : j < d.chairCount) :
    (entries d)[j]? = some ((gain d d.chairCount j : ℤ) - d.bets j) := by
  rw [entries, List.getElem?_map, List.getElem?_range hj, Option.map_some]

theorem lt_of_entries_get {j : ℕ} {x : ℤ} (h : (entries d)[j]? = some x) : j < d.chairCount := by
  have := (List.getElem?_eq_some_iff.mp h).1
  simpa [entries] using this

theorem sum_map_range (f : ℕ → ℤ) (n : ℕ) : ((List.range n).map f).sum = ∑ j ∈ range n, f j := by
  induction n with
  | zero => rfl
  | succ n ih => rw [List.range_succ, List.map_append, List.sum_append, ih, sum_range_succ]; simp

theorem sum_entries (d : GameData) : (entries d).sum =
    ((∑ j ∈ range d.chairCount, gain d d.chairCount j : ℕ) : ℤ) -
      (∑ j ∈ range d.chairCount, d.bets j : ℕ) := by
  rw [entries, sum_map_range, sum_sub_distrib]
  push_cast
  rfl

/-- Without shares, everybody loses what they bet. -/
theorem settled_of_no_share
    (hlt : ∀ i, g.gameData.bets i = 0 ∨ g.gameData.bets i < g.gameData.winner.length)
    (hloser : ∀ i ∈ g.gameData.loser, i < g.gameData.chairCount) : Settled g (entries g.gameData) := by
  have hgain := gain_eq_zero_of_lt hlt
  have hmod : ∀ i, g.gameData.bets i % g.gameData.winner.length = g.gameData.bets i := by
    intro i
    rcases hlt i with h0 | hlt
    · rw [h0, Nat.zero_mod]
    · exact Nat.mod_eq_of_lt hlt
  refine ⟨?_, ?_, ?_⟩
  · rw [sum_entries, sum_eq_zero fun j _ => hgain _ j, GameData.lost]
    split_ifs with hnil
    · rw [sum_eq_zero fun j _ => (hlt j).resolve_right (by simp [hnil])]
      rfl
    · rw [sum_congr rfl fun i _ => hmod i]
      simp
  · intro i hi
    rw [entries_get (hloser i hi), hgain]
    simp
  · intro i x hx hlt'
    rw [entries_get (lt_of_entries_get hx), hgain] at hx
    simp only [Option.some.injEq] at hx
    omega

/-- If chair 0 alone has won, it gets all bets of the others. -/
theorem settled_of_chair_zero (hone : g.gameData.winner.length = 1) (hin : g.inGame 0 = true)
    (hpos : 0 < g.gameData.chairCount) (hloser : ∀ i ∈ g.gameData.loser, i < g.gameData.chairCount) :
    Settled g (entries g.gameData) := by
  have hzero : ∀ j, j ≠ 0 → gain g.gameData g.gameData.chairCount j = 0 :=
    fun j hj => gain_eq_zero_of_le (by omega) _
  have hne : g.gameData.winner ≠ [] := fun h => by simp [h] at hone
  have hbets := sum_bets hne
  have hsum : ∑ j ∈ range g.gameData.chairCount, gain g.gameData g.gameData.chairCount j =
      ∑ i ∈ range g.gameData.chairCount, g.gameData.share i := by
    rw [sum_eq_single 0 (fun j _ hj => hzero j hj) (fun h => absurd (mem_range.mpr hpos) h),
      gain_zero (by omega)]
  refine ⟨?_, ?_, ?_⟩
  · rw [sum_entries, hsum]
    rw [hone, Nat.one_mul] at hbets
    omega
  · intro i hi
    have hi0 : i ≠ 0 := fun h => (inGame_iff.mp hin).2 (h ▸ hi)
    rw [entries_get (hloser i hi), hzero i hi0]
    simp
  · intro i x hx hlt
    by_cases hi0 : i = 0
    · exact hi0 ▸ hin
    · rw [entries_get (lt_of_entries_get hx), hzero i hi0] at hx
      simp only [Option.some.injEq] at hx
      omega

/-- One chair in the game is the only one. -/
theorem inGame_unique (h1 : g.gamerCount = 1) {i j : ℕ} (hi : i < g.gameData.chairCount)
    (hj : j < g.gameData.chairCount) (hin : g.inGame i = true) (hjn : g.inGame j = true) : i = j := by
  rw [GameFrame.gamerCount, List.countP_eq_length_filter, List.length_eq_one_iff] at h1
  obtain ⟨k, hk⟩ := h1
  have hmem : ∀ x, x < g.gameData.chairCount → g.inGame x = true → x = k := by
    intro x hx hxn
    have : x ∈ (List.range g.gameData.chairCount).filter g.inGame :=
      List.mem_filter.mpr ⟨List.mem_range.mpr hx, hxn⟩
    rw [hk] at this
    exact List.mem_singleton.mp this
  exact (hmem i hi hin).trans (hmem j hj hjn).symm

/-- Where a share is paid, a fair settlement needs chair 0 to have won alone. -/
theorem chair_zero_of_settled (h1 : g.gamerCount = 1) (hS : Settled g (entries g.gameData))
    (hle : g.gameData.winner.length ≤ g.gameData.chairCount) {i : ℕ} (hi : i < g.gameData.chairCount)
    (hshare : 0 < g.gameData.share i) : g.gameData.winner.length = 1 ∧ g.inGame 0 = true := by
  have hwin : 0 < g.gameData.winner.length := by
    by_contra h
    rw [GameData.share, Nat.eq_zero_of_not_pos h, Nat.div_zero] at hshare
    exact lt_irrefl _ hshare
  have hne : g.gameData.winner ≠ [] := fun h => by simp [h] at hwin
  have htotal : 0 < ∑ i ∈ range g.gameData.chairCount, g.gameData.share i :=
    Finset.sum_pos' (fun _ _ => Nat.zero_le _) ⟨i, mem_range.mpr hi, hshare⟩
  have hin : g.inGame 0 = true := by
    refine hS.winner 0 _ (entries_get (by omega)) ?_
    rw [gain_zero hwin]
    omega
  refine ⟨?_, hin⟩
  by_contra hne1
  -- nobody else may gain, so that the other shares of chair 0's gain are lost
  have hzero : ∀ j ∈ range g.gameData.chairCount, j ≠ 0 → gain g.gameData g.gameData.chairCount j = 0 := by
    intro j hj hj0
    have hj := mem_range.mp hj
    by_contra hpos
    exact hj0 (inGame_unique h1 hj (by omega) (hS.winner j _ (entries_get hj) (by omega)) hin)
  have hsum := hS.sum
  rw [sum_entries, sum_eq_single 0 hzero (fun h => absurd (mem_range.mpr (by omega)) h), gain_zero hwin,
    sum_bets hne] at hsum
  generalize ∑ i ∈ range g.gameData.chairCount, g.gameData.share i = total at htotal hsum
  have hdouble := Nat.mul_le_mul_right total (show 2 ≤ g.gameData.winner.length by omega)
  generalize g.gameData.winner.length * total = paid at hsum hdouble
  omega

/-- A chair with bets has poured, and it is one of the chairs of the game. -/
theorem lt_of_bets (hlen : d.pourScores.length = d.chairCount) {i : ℕ} (h : d.bets i ≠ 0) :
    i < d.chairCount ∧ d.Poured := by
  have hlt : i < d.pourScores.length := by
    by_contra hge
    rw [GameData.bets, List.getD_eq_getElem?_getD, List.getElem?_eq_none (Nat.le_of_not_lt hge)] at h
    exact h rfl
  refine ⟨hlen ▸ hlt, d.pourScores[i], List.getElem_mem hlt, fun hnil => h ?_⟩
  rw [GameData.bets, List.getD_eq_getElem?_getD, List.getElem?_eq_getElem hlt, Option.getD_some, hnil]
  rfl

/-- Without winners a fair settlement means that nobody has bet anything. -/
theorem bets_eq_zero_of_settled (hS : Settled g (entries g.gameData)) (hnil : g.gameData.winner = [])
    {i : ℕ} (hi : i < g.gameData.chairCount) : g.gameData.bets i = 0 := by
  have hgain : ∀ j ∈ range g.gameData.chairCount, gain g.gameData g.gameData.chairCount j = 0 :=
    fun j _ => gain_eq_zero_of_le (by simp [hnil]) _
  have hsum := hS.sum
  rw [sum_entries, sum_eq_zero hgain, GameData.lost, if_pos hnil] at hsum
  have hzero : ∑ j ∈ range g.gameData.chairCount, g.gameData.bets j = 0 := by omega
  exact sum_eq_zero_iff.mp hzero i (mem_range.mpr hi)

/-! ### Overflow -/

/-- The entries that the source computes. -/
def wrapped (d : GameData) : List ℤ := ((entries d).map Int64.ofInt).map Int64.toInt

theorem wrapped_eq (h : ∀ j < d.chairCount, -2 ^ 63 ≤ (gain d d.chairCount j : ℤ) - d.bets j ∧
    (gain d d.chairCount j : ℤ) - d.bets j < 2 ^ 63) : wrapped d = entries d := by
  rw [wrapped, entries, List.map_map, List.map_map]
  refine List.map_congr_left fun j hj => ?_
  obtain ⟨hle, hlt⟩ := h j (List.mem_range.mp hj)
  exact Int64.toInt_ofInt_of_le hle hlt

/-- No entry is too small, so that an overflow can only lower it. -/
theorem toInt_ofInt_le {x : ℤ} (h : -2 ^ 63 ≤ x) : (Int64.ofInt x).toInt ≤ x := by
  rw [Int64.toInt_ofInt, Int.bmod_def]
  simp only [Int64.size]
  split_ifs <;> omega

/-- If chairs do not bet too much, a fair settlement is one without overflow. -/
theorem wrapped_eq_of_settled (hfits : ∀ i, g.gameData.bets i < 2 ^ 63)
    (hS : Settled g (wrapped g.gameData)) : wrapped g.gameData = entries g.gameData := by
  have hlow : ∀ j, (-2 ^ 63 : ℤ) ≤ gain g.gameData g.gameData.chairCount j - g.gameData.bets j := by
    intro j
    have := hfits j
    omega
  by_cases hnil : g.gameData.winner = []
  · refine wrapped_eq fun j _ => ⟨hlow j, ?_⟩
    rw [gain_eq_zero_of_le (by simp [hnil])]
    omega
  -- the wrapped entries sum up to as much as the others at most can
  have hsum := hS.sum
  rw [wrapped, entries, List.map_map, List.map_map, sum_map_range] at hsum
  have hle : ∀ j ∈ range g.gameData.chairCount, (Int64.toInt ∘ Int64.ofInt ∘ fun j : ℕ =>
      (gain g.gameData g.gameData.chairCount j : ℤ) - g.gameData.bets j) j ≤
        (gain g.gameData g.gameData.chairCount j : ℤ) - g.gameData.bets j :=
    fun j _ => toInt_ofInt_le (hlow j)
  have htotal : ∑ j ∈ range g.gameData.chairCount,
      ((gain g.gameData g.gameData.chairCount j : ℤ) - g.gameData.bets j) ≤ -(g.gameData.lost : ℤ) := by
    have hgain := sum_gain_le (d := g.gameData) g.gameData.chairCount g.gameData.chairCount
    have hbets := sum_bets hnil
    rw [sum_sub_distrib]
    push_cast [← Nat.cast_sum]
    omega
  have heq := (sum_eq_sum_iff_of_le hle).mp (le_antisymm (sum_le_sum hle) (hsum ▸ htotal))
  rw [wrapped, entries, List.map_map, List.map_map]
  exact List.map_congr_left fun j hj => heq j (mem_range.mpr (List.mem_range.mp hj))

/-- The shares come out right if the bets do not overflow, or if there is one winner only. -/
theorem divides_of_fits (hwin : d.winner.length < 2 ^ 63) (hfits : ∀ i, d.bets i < 2 ^ 63) : d.Divides :=
  fun i => (Int64.ofNat_div (hfits i) hwin).symm

theorem divides_of_one (hone : d.winner.length = 1) : d.Divides := by
  intro i
  rw [GameData.share, hone, Nat.div_one]
  exact Int64.div_one

theorem wrapped_eq_of_no_share (hfits : ∀ i, d.bets i < 2 ^ 63)
    (hgain : ∀ j, gain d d.chairCount j = 0) : wrapped d = entries d := by
  refine wrapped_eq fun j _ => ?_
  have := hfits j
  rw [hgain]
  omega

/-- A single winner's place gets the bets of all chairs. -/
theorem gain_zero_of_one (hone : d.winner.length = 1) (hpos : 0 < d.chairCount) :
    gain d d.chairCount 0 = d.bets 0 + d.others := by
  rw [gain_zero (by omega), range_eq_Ico, sum_eq_sum_Ico_succ_bot hpos]
  simp only [GameData.share, hone, Nat.div_one, GameData.others]

theorem wrapped_eq_of_chair_zero (hone : d.winner.length = 1) (hothers : d.others < 2 ^ 63) :
    wrapped d = entries d := by
  refine wrapped_eq fun j hj => ?_
  rcases Nat.eq_zero_or_pos j with rfl | hpos
  · rw [gain_zero_of_one hone hj]
    omega
  · have hbet : d.bets j ≤ d.others :=
      single_le_sum (fun _ _ => Nat.zero_le _) (mem_Ico.mpr ⟨hpos, hj⟩)
    rw [gain_eq_zero_of_le (by omega)]
    omega

end Entries

section Settling

variable {h : GameFrame Uid} (hreg : Regular n h.gameData) (hcount : h.gameData.chairCount < 2 ^ 63)
include hreg hcount

theorem endsFairly_of_payable (hpos : 0 < h.gameData.chairCount)
    (hend : endPourScore rule h = startResult rule h) (hpay : Payable h) : EndsFairly rule h := by
  obtain ⟨hle, hcond⟩ := hpay
  have hlen : h.gameData.pourScores.length = h.gameData.chairCount := hreg.pours.trans hreg.count.symm
  have hloser : ∀ i ∈ h.gameData.loser, i < h.gameData.chairCount := hreg.count ▸ hreg.loser
  obtain ⟨hdiv, hwrap, hS⟩ : (h.gameData.Poured → h.gameData.Divides) ∧
      wrapped h.gameData = entries h.gameData ∧ Settled h (entries h.gameData) := by
    rcases hcond with hlt | ⟨hone, hin, hothers⟩
    · have hfits : ∀ i, h.gameData.bets i < 2 ^ 63 := by
        intro i
        by_cases h0 : h.gameData.bets i = 0
        · omega
        · have := hle (lt_of_bets hlen h0).2
          have := (hlt i).resolve_left h0
          omega
      exact ⟨fun hp => divides_of_fits (Nat.lt_of_le_of_lt (hle hp) hcount) hfits,
        wrapped_eq_of_no_share hfits (gain_eq_zero_of_lt hlt _), settled_of_no_share hlt hloser⟩
    · exact ⟨fun _ => divides_of_one hone, wrapped_eq_of_chair_zero hone hothers,
        settled_of_chair_zero hone hin hpos hloser⟩
  obtain ⟨h', hh'⟩ : ∃ h', startResult rule h = some h' := by
    rw [startResult, settle_eq hreg hle hdiv]
    exact ⟨_, rfl⟩
  obtain ⟨ws, _, _, hsettle, hws, -⟩ := startResult_eq_some hh'
  obtain rfl := Option.some.inj (hsettle.symm.trans (settle_eq hreg hle hdiv))
  refine ⟨h', _, hend.trans hh', hws, ?_⟩
  rw [← wrapped, hwrap]
  exact hS

theorem payable_of_endsFairly (h1 : h.gamerCount = 1) (hend : endPourScore rule h = startResult rule h)
    (hfits : ∀ i, h.gameData.bets i < 2 ^ 63) (hfair : EndsFairly rule h) : Payable h := by
  obtain ⟨h', winScores, hh', hres, hS⟩ := hfair
  obtain ⟨ws, _, _, hsettle, hws, -⟩ := startResult_eq_some (hend ▸ hh')
  obtain rfl := Option.some.inj (hres.symm.trans hws)
  have hlen : h.gameData.pourScores.length = h.gameData.chairCount := hreg.pours.trans hreg.count.symm
  have hle := winners_le_of_settle hlen hsettle
  have hdiv : h.gameData.Poured → h.gameData.Divides :=
    fun hp => divides_of_fits (Nat.lt_of_le_of_lt (hle hp) hcount) hfits
  obtain rfl := Option.some.inj (hsettle.symm.trans (settle_eq hreg hle hdiv))
  have hwrap : wrapped h.gameData = entries h.gameData := wrapped_eq_of_settled hfits hS
  rw [← wrapped, hwrap] at hS
  refine ⟨hle, ?_⟩
  by_contra hcond
  rw [not_or, not_forall] at hcond
  obtain ⟨⟨i, hi⟩, hnot⟩ := hcond
  rw [not_or, Nat.not_lt] at hi
  obtain ⟨hlt, hpoured⟩ := lt_of_bets hlen hi.1
  by_cases hnil : h.gameData.winner = []
  · exact hi.1 (bets_eq_zero_of_settled hS hnil hlt)
  · have hwin : 0 < h.gameData.winner.length := List.length_pos_iff.mpr hnil
    obtain ⟨hone, hin⟩ := chair_zero_of_settled h1 hS (hle hpoured) hlt (Nat.div_pos hi.2 hwin)
    have hpos := Nat.zero_lt_of_lt hlt
    -- what chair 0 gets is an entry of the list, which cannot be too large
    have hget := entries_get (d := h.gameData) hpos
    rw [← hwrap, wrapped, List.getElem?_map, gain_zero_of_one hone hpos] at hget
    obtain ⟨x, -, hx⟩ := Option.map_eq_some_iff.mp hget
    have := Int64.toInt_lt x
    exact hnot ⟨hone, hin, by omega⟩

end Settling

/-- Whenever the game is settled, the settlement is fair if no share is paid at all, or chair 0 alone
    has won and is still in the game, the list of winners is not too long, and nothing overflows. If no
    chair's own bets overflow, it is fair in no other case. -/
theorem settlement_iff {evs : List (Event Uid)} {g h : GameFrame Uid} {ev : Event Uid}
    (hg : Run (step rule) Any (newGameFrame rule) evs g) (hh : handle rule g ev = some (h, true))
    (h1 : h.gamerCount = 1) :
    (Payable h → EndsFairly rule h) ∧
    ((∀ i, h.gameData.bets i < 2 ^ 63) → EndsFairly rule h → Payable h) := by
  have hreg := (regular_of_run hg).handle hh
  have hcount : h.gameData.chairCount < 2 ^ 63 := hreg.count ▸ rule.maxPlayerCount_lt
  have hpos : 0 < h.gameData.chairCount := by
    by_contra hpos
    simp [GameFrame.gamerCount, Nat.eq_zero_of_not_pos hpos] at h1
  have hend : endPourScore rule h = startResult rule h := if_pos h1
  exact ⟨endsFairly_of_payable hreg hcount hpos hend, payable_of_endsFairly hreg hcount h1 hend⟩

/-- The bets of chair 1 overflow. -/
example : settle { initGameData three with winner := [0], pourScores := [[1, 1], [2 ^ 62, 2 ^ 62], []] } =
    some [-2 ^ 63, -2 ^ 63, 0] := by decide +kernel

/-- Two users sit down, and both bet 5. -/
def bothPoured : List (Event ℕ) :=
  [arrive 0, arrive 1, .ready 0 unmixed, .ready 1 unmixed, pour 0 5, pour 1 5]

/-- Chair 0 wins a comparison and with it the bet of chair 1. -/
theorem settlement_compared : ∃ g h h' : GameFrame ℕ,
    Run (step three) Any (newGameFrame three) bothPoured g ∧
    handle three g (compareWith 0 1) = some (h, true) ∧ h.gamerCount = 1 ∧ Payable h ∧
    endPourScore three h = some h' ∧
    h'.gameResult.map GameResult.winScores = some [5, -5, 0] ∧ Settled h [5, -5, 0] := by
  obtain ⟨g, hg, hq⟩ := exists_run (step three) Any (newGameFrame three) bothPoured
    (fun g : GameFrame ℕ => (handle three g (compareWith 0 1)).any fun s : GameFrame ℕ × Bool =>
      s.2 && decide (s.1.gamerCount = 1 ∧ s.1.gameData.winner.length = 1 ∧
        s.1.gameData.chairCount = 3 ∧ s.1.inGame 0 = true ∧ s.1.gameData.others < 2 ^ 63 ∧
        settle s.1.gameData = some [5, -5, 0])) (by decide +kernel)
  obtain ⟨⟨h, b⟩, hh, hq⟩ := (Option.any_eq_true _ _).mp hq
  obtain ⟨rfl, hq⟩ := Bool.and_eq_true_iff.mp hq
  obtain ⟨h1, hone, hcount, hin, hothers, hsettle⟩ := of_decide_eq_true hq
  have hpay : Payable h := ⟨fun _ => by rw [hone, hcount]; decide, Or.inr ⟨hone, hin, hothers⟩⟩
  obtain ⟨h', ws, hh', hws, hS⟩ := (settlement_iff hg hh h1).1 hpay
  have hresult := hh'
  rw [endPourScore, if_pos h1] at hresult
  obtain ⟨ws', _, _, hsettle', hws', -⟩ := startResult_eq_some hresult
  obtain rfl := Option.some.inj (hws.symm.trans hws')
  obtain rfl := Option.some.inj (hsettle.symm.trans hsettle')
  exact ⟨g, h, h', hg, hh, h1, hpay, hh', hws, hS⟩

/-- Chair 0 gives up and gets the bet of chair 1, which has won. -/
theorem settlement_reversed : ∃ g h h' : GameFrame ℕ,
    Run (step three) Any (newGameFrame three) (bothPoured ++ [giveUp 0]) g ∧
    handle three g .abandoned = some (h, true) ∧ h.gamerCount = 1 ∧ h.inGame 1 = true ∧
    h.gameData.loser = [0] ∧ h.gameData.bets 0 = 5 ∧ endPourScore three h = some h' ∧
    h'.gameResult.map GameResult.winScores = some [5, -5, 0] ∧ ¬ Settled h [5, -5, 0] := by
  obtain ⟨g, hg, hq⟩ := exists_run (step three) Any (newGameFrame three) (bothPoured ++ [giveUp 0])
    (fun g : GameFrame ℕ => (handle three g .abandoned).any fun s : GameFrame ℕ × Bool =>
      s.2 && decide (s.1.gamerCount = 1 ∧ s.1.inGame 1 = true ∧ s.1.gameData.loser = [0] ∧
        s.1.gameData.bets 0 = 5) && (endPourScore three s.1).any fun h' : GameFrame ℕ =>
          decide (h'.gameResult.map GameResult.winScores = some [5, -5, 0])) (by decide +kernel)
  obtain ⟨⟨h, b⟩, hh, hq⟩ := (Option.any_eq_true _ _).mp hq
  rw [Bool.and_eq_true, Bool.and_eq_true] at hq
  obtain ⟨⟨rfl, hq⟩, hend⟩ := hq
  obtain ⟨h1, hin, hloser, hbets⟩ := of_decide_eq_true hq
  obtain ⟨h', hh', hws⟩ := (Option.any_eq_true _ _).mp hend
  refine ⟨g, h, h', hg, hh, h1, hin, hloser, hbets, hh', of_decide_eq_true hws, fun hS => ?_⟩
  have hzero := hS.loser 0 (by rw [hloser]; exact List.mem_singleton_self 0)
  rw [hbets] at hzero
  exact absurd hzero (by decide)

end GoServices.Sanzhang
