import GoServices.Schemes.TermLog

/-! Acknowledgements and decided entries over leader logs.

    `ack s t` is how far server `s` has confirmed the leader log of term `t`. An index is decided
    when it holds an entry of its own term and a quorum has confirmed it. The invariant `Kept` is
    about entries that can still be decided (`Possible`): whoever confirmed one holds it, and a
    candidate holds all those that its voters confirmed. Leader completeness (`Kept.complete`) and
    agreement between decided prefixes (`Kept.agree`) follow by quorum intersection. -/

namespace GoServices.TermLog

variable {S E : Type} [Fintype S] (term : E → ℕ)

/-- Index `i` of the leader log of `t` (counted from 1) holds an entry of term `t` itself. -/
def Owned (a : State S E) (t i : ℕ) : Prop :=
  0 < i ∧ ∃ e, (a.tlog t)[i - 1]? = some e ∧ term e = t

/-- Enough servers have confirmed index `i` of term `t`, or are still free to do so. -/
def Possible (a : State S E) (ack : S → ℕ → ℕ) (t i : ℕ) : Prop :=
  ∃ Q, IsQuorum Q ∧ ∀ s ∈ Q, i ≤ ack s t ∨ a.cur s ≤ t

/-- Index `i` of term `t` is decided. -/
def Decided (a : State S E) (ack : S → ℕ → ℕ) (t i : ℕ) : Prop :=
  Owned term a t i ∧ ∃ Q, IsQuorum Q ∧ ∀ s ∈ Q, i ≤ ack s t

/-- Confirmed entries that can still be decided are kept by voters, and passed on by votes. -/
structure Kept (a : State S E) (ack : S → ℕ → ℕ) : Prop where
  ackLe : ∀ s t, ack s t ≤ (a.tlog t).length
  ackCur : ∀ s t, 0 < ack s t → t ≤ a.cur s
  held : ∀ s t i, i ≤ ack s t → Owned term a t i → Possible a ack t i →
    (a.tlog t).take i <+: a.log s
  voted : ∀ t v c, a.vote t v = some c → ∀ u, u < t → ∀ i, i ≤ ack v u → Owned term a u i →
    Possible a ack u i → (a.tlog u).take i <+: a.clog t c

variable {term} {a b : State S E} {ack : S → ℕ → ℕ}

omit [Fintype S] in
theorem Owned.mono (h : Ext a b) {t i : ℕ} (ho : Owned term a t i) : Owned term b t i := by
  obtain ⟨hi, e, he, ht⟩ := ho
  exact ⟨hi, e, prefix_get_some (h.tlog t) he, ht⟩

omit [Fintype S] in
theorem Owned.le_length {t i : ℕ} (ho : Owned term a t i) : i ≤ (a.tlog t).length := by
  obtain ⟨hi, e, he, -⟩ := ho
  have := (List.getElem?_eq_some_iff.mp he).1
  omega

omit [Fintype S] in
theorem Owned.take_eq (h : Ext a b) {t i : ℕ} (hi : i ≤ (a.tlog t).length) :
    (b.tlog t).take i = (a.tlog t).take i :=
  (take_prefix_take (h.tlog t) hi).symm

theorem Decided.possible {t i : ℕ} (h : Decided term a ack t i) : Possible a ack t i := by
  obtain ⟨-, Q, hQ, hq⟩ := h
  exact ⟨Q, hQ, fun s hs => Or.inl (hq s hs)⟩

theorem Decided.mono {ack' : S → ℕ → ℕ} (h : Ext a b) (hack : ∀ s t, ack s t ≤ ack' s t) {t i : ℕ}
    (hd : Decided term a ack t i) : Decided term b ack' t i := by
  obtain ⟨ho, Q, hQ, hq⟩ := hd
  exact ⟨ho.mono h, Q, hQ, fun s hs => le_trans (hq s hs) (hack s t)⟩

/-- What can still be decided later could already be decided before. -/
theorem Possible.anti (h : Ext a b) {t i : ℕ} (hp : Possible b ack t i) : Possible a ack t i := by
  obtain ⟨Q, hQ, hq⟩ := hp
  exact ⟨Q, hQ, fun s hs => (hq s hs).imp id (le_trans (h.cur s))⟩

namespace Kept

variable [DecidableEq S]

/-- Leader completeness: a leader's first log holds every entry an earlier term may decide. -/
theorem complete (hk : Kept term a ack) (h : Inv term a) {t u i : ℕ} {c : S}
    (hl : a.lead t = some c) (hut : u < t) (ho : Owned term a u i) (hp : Possible a ack u i) :
    (a.tlog u).take i <+: a.clog t c := by
  obtain ⟨Q, hQ, hq⟩ := hp
  obtain ⟨R, hR, hr⟩ := h.quorum t c hl
  obtain ⟨s, hsQ, hsR⟩ := hQ.meet hR
  have hcur := h.voteLe t s c (hr s hsR)
  rcases hq s hsQ with hack | hle
  · exact hk.voted t s c (hr s hsR) u hut i hack ho ⟨Q, hQ, hq⟩
  · omega

/-- The same for the whole leader log, its own term included. -/
theorem complete_tlog (hk : Kept term a ack) (h : Inv term a) {t u i : ℕ} {c : S}
    (hl : a.lead t = some c) (hut : u ≤ t) (ho : Owned term a u i) (hp : Possible a ack u i) :
    (a.tlog u).take i <+: a.tlog t := by
  rcases Nat.lt_or_eq_of_le hut with hlt | rfl
  · exact (hk.complete h hl hlt ho hp).trans (h.base t c hl)
  · exact List.take_prefix _ _

/-- Agreement: two decided prefixes are equal as far as both reach. -/
theorem agree (hk : Kept term a ack) (h : Inv term a) {t u i j k : ℕ}
    (ht : Decided term a ack t i) (hu : Decided term a ack u j) (hki : k ≤ i) (hkj : k ≤ j) :
    (a.tlog t).take k = (a.tlog u).take k := by
  have key : ∀ {t u i k : ℕ}, t ≤ u → Decided term a ack t i → a.tlog u ≠ [] → k ≤ i →
      (a.tlog t).take k = (a.tlog u).take k := by
    intro t u i k htu hd hne hki
    obtain ⟨c, hc⟩ := h.exists_lead hne
    have hpre := hk.complete_tlog h hc htu hd.1 hd.possible
    have hlen := hd.1.le_length
    have := take_prefix_take hpre (k := k) (by rw [List.length_take]; omega)
    rwa [List.take_take, Nat.min_eq_left hki] at this
  have hne : ∀ {t i : ℕ}, Decided term a ack t i → a.tlog t ≠ [] := by
    intro t i hd hnil
    have := hd.1.le_length
    rw [hnil] at this
    have := hd.1.1
    simp only [List.length_nil] at *
    omega
  rcases Nat.le_total t u with htu | htu
  · exact key htu ht (hne hu) hki
  · exact (key htu hu (hne ht) hkj).symm

end Kept

/-! ### Steps that keep the invariant -/

theorem kept_init (t₀ : ℕ) : Kept term (State.init t₀ : State S E) (fun _ _ => 0) where
  ackLe := fun _ _ => Nat.zero_le _
  ackCur := fun _ _ h => absurd h (by omega)
  held := fun _ _ _ hi ho _ => absurd ho.1 (by omega)
  voted := fun _ _ _ hv => by simp [State.init] at hv

/-- A step that shortens no log, adds no vote and no acknowledgement. -/
theorem Kept.frame (hk : Kept term a ack) (he : Ext a b) (hlog : ∀ s, a.log s <+: b.log s)
    (hvote : ∀ t v c, b.vote t v = some c → a.vote t v = some c)
    (hclog : ∀ t v c, a.vote t v = some c → b.clog t c = a.clog t c) : Kept term b ack := by
  -- no entry beyond the acknowledged ones matters, so the leader logs may have grown
  have hown : ∀ s t i, i ≤ ack s t → Owned term b t i → Owned term a t i := by
    intro s t i hi ho
    obtain ⟨hpos, e, hb, ht⟩ := ho
    refine ⟨hpos, e, ?_, ht⟩
    rw [← prefix_get (he.tlog t) (by have := hk.ackLe s t; omega)]
    exact hb
  refine ⟨fun s t => le_trans (hk.ackLe s t) (he.tlog t).length_le,
    fun s t h0 => le_trans (hk.ackCur s t h0) (he.cur s), ?_, ?_⟩
  · intro s t i hi ho hp
    rw [Owned.take_eq he (le_trans hi (hk.ackLe s t))]
    exact (hk.held s t i hi (hown s t i hi ho) (hp.anti he)).trans (hlog s)
  · intro t v c hv u hut i hi ho hp
    have hv' := hvote t v c hv
    rw [hclog t v c hv', Owned.take_eq he (le_trans hi (hk.ackLe v u))]
    exact hk.voted t v c hv' u hut i hi (hown v u i hi ho) (hp.anti he)

variable [DecidableEq S]

theorem Kept.bump (hk : Kept term a ack) {s : S} {t : ℕ} (ht : a.cur s ≤ t) :
    Kept term (a.bump s t) ack :=
  hk.frame (frame_bump a ht).ext (fun _ => List.prefix_refl _) (fun _ _ _ h => h) (fun _ _ _ _ => rfl)

omit [DecidableEq S] in
theorem Kept.elect (hk : Kept term a ack) (h : Inv term a) {c : S} {t : ℕ} (hl : a.lead t = none) :
    Kept term (a.elect c t) ack :=
  hk.frame (frame_elect a hl (h.noLead t hl)).ext (fun _ => List.prefix_refl _) (fun _ _ _ h => h)
    (fun _ _ _ _ => rfl)

theorem Kept.stand (hk : Kept term a ack) (h : Inv term a) {c : S} {t : ℕ} (ht : a.cur c < t) :
    Kept term (a.stand c t) ack := by
  have hnone : a.vote t c = none := by
    cases hvote : a.vote t c with
    | none => rfl
    | some d => exact absurd (h.voteLe t c d hvote) (by omega)
  have he := (frame_stand a (le_of_lt ht) hnone).ext
  refine ⟨hk.ackLe, fun s u h0 => le_trans (hk.ackCur s u h0) (he.cur s), ?_, ?_⟩
  · exact fun s u i hi ho hp => hk.held s u i hi ho (hp.anti he)
  · intro u v d hv w hwu i hi ho hp
    rw [stand_vote] at hv
    split_ifs at hv with huv
    · obtain ⟨rfl, rfl⟩ := huv
      obtain rfl := Option.some.inj hv
      rw [stand_clog, if_pos ⟨rfl, rfl⟩]
      exact hk.held v w i hi ho (hp.anti he)
    · rw [he.clog u d (h.stood u v d hv)]
      exact hk.voted u v d hv w hwu i hi ho (hp.anti he)

theorem Kept.extend (hk : Kept term a ack) {c : S} {t : ℕ} {e : E} (hl : a.lead t = some c) :
    Kept term (a.extend c t e) ack := by
  refine hk.frame (frame_extend a e hl).ext (fun s => ?_) (fun _ _ _ h => h) (fun _ _ _ _ => rfl)
  rw [extend_log]; split_ifs with hs
  · rw [hs]; exact List.prefix_append _ _
  · exact List.prefix_refl _

/-- The vote's log comparison: a later last term, or the same one and no shorter a log. -/
def UpToDate (term : E → ℕ) (X Y : List E) : Prop :=
  Y = [] ∨ ∃ x y, X[X.length - 1]? = some x ∧ Y[Y.length - 1]? = some y ∧
    (term y < term x ∨ term y = term x ∧ Y.length ≤ X.length)

/-- A log at least as up to date as a voter's holds what the voter must keep. -/
theorem Kept.carry (hk : Kept term a ack) (h : Inv term a) {X Y : List E}
    (hX : Grounded term a X) (hY : Grounded term a Y) (hup : UpToDate term X Y) {u i : ℕ}
    (ho : Owned term a u i) (hp : Possible a ack u i) (hpre : (a.tlog u).take i <+: Y) :
    (a.tlog u).take i <+: X := by
  obtain ⟨hpos, e, hei, heu⟩ := ho
  have hlen := (List.getElem?_eq_some_iff.mp hei).1
  have htake : ((a.tlog u).take i).length = i := by rw [List.length_take]; omega
  have hYe : Y[i - 1]? = some e := by
    refine prefix_get_some hpre ?_
    rw [List.getElem?_take_of_lt (by omega)]; exact hei
  rcases hup with rfl | ⟨x, y, hx, hy, hcmp⟩
  · simp at hYe
  have hYlen := (List.getElem?_eq_some_iff.mp hYe).1
  have huy : u ≤ term y := heu ▸ h.sorted hY (by omega) hYe hy
  rcases hcmp with hlt | ⟨heq, hle⟩
  · -- the last term of `X` is later than `u`, and its leader already held the prefix
    have hne : a.tlog (term x) ≠ [] := by
      intro hnil
      have hxt := prefix_get_some (hX.last hx) hx
      rw [hnil] at hxt
      simp at hxt
    obtain ⟨c, hc⟩ := h.exists_lead hne
    exact (hk.complete h hc (by omega) ⟨hpos, e, hei, heu⟩ hp).trans (h.base_prefix hX hc hx rfl)
  · -- both end in the same term, so the shorter is a prefix of the longer
    refine hpre.trans (prefix_total (hY.last hy) ?_ hle)
    rw [heq]; exact hX.last hx

theorem Kept.cast (hk : Kept term a ack) (h : Inv term a) {v c : S} {t : ℕ}
    (hv : a.vote t v = none) (hc : a.vote t c = some c)
    (hup : UpToDate term (a.clog t c) (a.log v)) : Kept term (a.cast v c t) ack := by
  refine ⟨hk.ackLe, hk.ackCur, hk.held, ?_⟩
  intro u r d hr w hwu i hi ho hp
  rw [cast_vote] at hr
  split_ifs at hr with hur
  · obtain ⟨rfl, rfl⟩ := hur
    obtain rfl := Option.some.inj hr
    exact hk.carry h (h.clogOk u c hc) (h.logOk r) hup ho hp (hk.held r w i hi ho hp)
  · exact hk.voted u r d hr w hwu i hi ho hp

/-- A step of `s` that concerns terms, votes and leadership but no log. -/
structure LogFree (term : E → ℕ) (s : S) (a b : State S E) : Prop where
  frame : Frame s a b
  log : b.log = a.log
  inv : Inv term a → Inv term b
  kept : ∀ ack, Inv term a → Kept term a ack → Kept term b ack

namespace LogFree

variable {s : S}

omit [DecidableEq S] in
theorem refl (s : S) (a : State S E) : LogFree term s a a := ⟨Frame.refl s a, rfl, id, fun _ _ => id⟩

omit [DecidableEq S] in
theorem trans {c : State S E} (h : LogFree term s a b) (h' : LogFree term s b c) :
    LogFree term s a c :=
  ⟨h.frame.trans h'.frame, h'.log.trans h.log, fun hi => h'.inv (h.inv hi),
    fun ack hi hk => h'.kept ack (h.inv hi) (h.kept ack hi hk)⟩

theorem bump {t : ℕ} (ht : a.cur s ≤ t) : LogFree term s a (a.bump s t) :=
  ⟨frame_bump a ht, rfl, fun hi => hi.bump ht, fun _ _ hk => hk.bump ht⟩

theorem stand (h : Inv term a) {t : ℕ} (ht : a.cur s < t) : LogFree term s a (a.stand s t) := by
  have hnone : a.vote t s = none := by
    cases hv : a.vote t s with
    | none => rfl
    | some d => exact absurd (h.voteLe t s d hv) (by omega)
  exact ⟨frame_stand a (le_of_lt ht) hnone, rfl, fun hi => hi.stand ht,
    fun _ hi hk => hk.stand hi ht⟩

theorem cast {c : S} {t : ℕ} (hv : a.vote t s = none) (ht : t ≤ a.cur s)
    (hc : a.vote t c = some c) (hup : UpToDate term (a.clog t c) (a.log s)) :
    LogFree term s a (a.cast s c t) :=
  ⟨frame_cast a c hv, rfl, fun hi => hi.cast hv ht hc, fun _ hi hk => hk.cast hi hv hc hup⟩

omit [DecidableEq S] in
theorem elect (h : Inv term a) {t : ℕ} (hl : a.lead t = none) {Q : Finset S} (hQ : IsQuorum Q)
    (hv : ∀ v ∈ Q, a.vote t v = some s) (hlog : a.log s = a.clog t s) :
    LogFree term s a (a.elect s t) :=
  ⟨frame_elect a hl (h.noLead t hl), rfl, fun hi => hi.elect hl hQ hv hlog,
    fun _ hi hk => hk.elect hi hl⟩

end LogFree

/-- Accepting `k` entries of term `t` cuts off nothing that agrees with the leader log. -/
def Careful (a : State S E) (s : S) (t k : ℕ) : Prop :=
  ∀ Y, Y <+: a.log s → Y <+: a.tlog t → Y.length ≤ k

theorem Kept.accept (hk : Kept term a ack) (h : Inv term a) {s c : S} {t k : ℕ}
    (hl : a.lead t = some c) (ht : a.cur s = t) (hcare : Careful a s t k) :
    Kept term (a.accept s t k) ack := by
  refine ⟨hk.ackLe, hk.ackCur, ?_, hk.voted⟩
  intro r u i hi ho hp
  rw [accept_log]; split_ifs with hr
  · rw [hr] at hi
    have hu : u ≤ t := ht ▸ hk.ackCur s u (lt_of_lt_of_le ho.1 hi)
    have hpre := hk.complete_tlog h hl hu ho hp
    exact List.prefix_take_iff.mpr ⟨hpre, hcare _ (hk.held s u i hi ho hp) hpre⟩
  · exact hk.held r u i hi ho hp

omit [DecidableEq S] in
/-- Copying the leader's log to its end is careful, unless entries of the same term are cut. -/
theorem careful_of_end (h : Inv term a) {s c : S} {t k : ℕ} (hl : a.lead t = some c)
    (hbase : (a.clog t c).length ≤ k)
    (hcut : ∀ j e, k ≤ j → (a.log s)[j]? = some e → term e ≠ t) : Careful a s t k := by
  intro Y hs ht
  by_contra hlt
  have hY : Y[k]? = some (Y.get ⟨k, by omega⟩) := List.getElem?_eq_getElem (by omega)
  exact hcut k _ (le_refl _) (prefix_get_some hs hY)
    (h.own t c k _ hl hbase (prefix_get_some ht hY))

omit [Fintype S] [DecidableEq S] in
/-- Copying a shorter part is careful when it replaces a log that differs from it or ends there. -/
theorem careful_of_differ (term : E → ℕ) {s : S} {t k : ℕ} (hpos : 0 < k)
    (hdiff : ∀ d e, (a.log s)[k - 1]? = some d → (a.tlog t)[k - 1]? = some e → term d = term e →
      (a.log s).length ≤ k) : Careful a s t k := by
  intro Y hs ht
  by_contra hlt
  have hY : Y[k - 1]? = some (Y.get ⟨k - 1, by omega⟩) := List.getElem?_eq_getElem (by omega)
  have := hdiff _ _ (prefix_get_some hs hY) (prefix_get_some ht hY) rfl
  have := hs.length_le
  omega

/-- Recording that `s` has confirmed term `t` up to `i`. -/
def acknowledge (ack : S → ℕ → ℕ) (s : S) (t i : ℕ) : S → ℕ → ℕ :=
  fun r u => if r = s ∧ u = t then max (ack r u) i else ack r u

omit [Fintype S] in
theorem le_acknowledge (ack : S → ℕ → ℕ) (s : S) (t i : ℕ) (r : S) (u : ℕ) :
    ack r u ≤ acknowledge ack s t i r u := by
  unfold acknowledge; split_ifs
  · exact le_max_left _ _
  · exact le_refl _

omit [Fintype S] in
theorem acknowledge_self (ack : S → ℕ → ℕ) (s : S) (t i : ℕ) : i ≤ acknowledge ack s t i s t := by
  unfold acknowledge; rw [if_pos ⟨rfl, rfl⟩]; exact le_max_right _ _

theorem Kept.acknowledge (hk : Kept term a ack) (h : Inv term a) {s : S} {t i : ℕ}
    (ht : a.cur s = t) (hpre : (a.tlog t).take i <+: a.log s) (hi : i ≤ (a.tlog t).length) :
    Kept term a (acknowledge ack s t i) := by
  -- `s` was still free to confirm term `t`, so nothing new has become possible
  have hposs : ∀ u j, Possible a (TermLog.acknowledge ack s t i) u j → Possible a ack u j := by
    rintro u j ⟨Q, hQ, hq⟩
    refine ⟨Q, hQ, fun r hr => ?_⟩
    rcases hq r hr with hle | hle
    · unfold TermLog.acknowledge at hle
      split_ifs at hle with hru
      · obtain ⟨rfl, rfl⟩ := hru; exact Or.inr (le_of_eq ht)
      · exact Or.inl hle
    · exact Or.inr hle
  refine ⟨?_, ?_, ?_, ?_⟩
  · intro r u
    unfold TermLog.acknowledge; split_ifs with hru
    · exact max_le (hk.ackLe r u) (hru.2 ▸ hi)
    · exact hk.ackLe r u
  · intro r u h0
    unfold TermLog.acknowledge at h0
    split_ifs at h0 with hru
    · obtain ⟨rfl, rfl⟩ := hru; exact le_of_eq ht.symm
    · exact hk.ackCur r u h0
  · intro r u j hj ho hp
    unfold TermLog.acknowledge at hj
    split_ifs at hj with hru
    · obtain ⟨rfl, rfl⟩ := hru
      rcases le_max_iff.mp hj with hj | hj
      · exact hk.held r u j hj ho (hposs u j hp)
      · exact (take_prefix_of_le hj).trans hpre
    · exact hk.held r u j hj ho (hposs u j hp)
  · intro u v c hv w hwu j hj ho hp
    unfold TermLog.acknowledge at hj
    split_ifs at hj with hru
    · -- a server that voted in a later term has left term `t`
      obtain ⟨rfl, rfl⟩ := hru
      exact absurd (h.voteLe u v c hv) (by omega)
    · exact hk.voted u v c hv w hwu j hj ho (hposs w j hp)

/-! ### Chosen prefixes -/

/-- The first `i` entries of `X` were decided in some term up to `T`. -/
def Chosen (term : E → ℕ) (a : State S E) (ack : S → ℕ → ℕ) (T : ℕ) (X : List E) (i : ℕ) : Prop :=
  i = 0 ∨ ∃ t j, t ≤ T ∧ i ≤ j ∧ Decided term a ack t j ∧ X.take i = (a.tlog t).take i

/-- Entry `e` was decided at index `i`. -/
def ChosenAt (term : E → ℕ) (a : State S E) (ack : S → ℕ → ℕ) (i : ℕ) (e : E) : Prop :=
  0 < i ∧ ∃ t j, i ≤ j ∧ Decided term a ack t j ∧ (a.tlog t)[i - 1]? = some e

namespace Chosen

variable {T i : ℕ} {X : List E}

omit [DecidableEq S] in
theorem le_length (h : Chosen term a ack T X i) : i ≤ X.length := by
  rcases h with rfl | ⟨t, j, -, hij, hd, htake⟩
  · exact Nat.zero_le _
  · have hlen := congrArg List.length htake
    have := hd.1.le_length
    rw [List.length_take, List.length_take] at hlen
    omega

omit [DecidableEq S] in
theorem down {i' : ℕ} (h : Chosen term a ack T X i) (hle : i' ≤ i) :
    Chosen term a ack T X i' := by
  rcases h with rfl | ⟨t, j, ht, hij, hd, htake⟩
  · exact Or.inl (by omega)
  · refine Or.inr ⟨t, j, ht, le_trans hle hij, hd, ?_⟩
    have := congrArg (List.take i') htake
    rwa [List.take_take, List.take_take, Nat.min_eq_left hle] at this

omit [DecidableEq S] in
theorem mono {b : State S E} {ack' : S → ℕ → ℕ} {T' : ℕ} (h : Chosen term a ack T X i)
    (he : Ext a b) (hack : ∀ s t, ack s t ≤ ack' s t) (hT : T ≤ T') : Chosen term b ack' T' X i := by
  rcases h with rfl | ⟨t, j, ht, hij, hd, htake⟩
  · exact Or.inl rfl
  · refine Or.inr ⟨t, j, le_trans ht hT, hij, hd.mono he hack, ?_⟩
    rw [htake]
    exact take_prefix_take (he.tlog t) (le_trans hij hd.1.le_length)

omit [DecidableEq S] in
theorem of_take_eq {X' : List E} (h : Chosen term a ack T X i) (heq : X'.take i = X.take i) :
    Chosen term a ack T X' i := by
  rcases h with rfl | ⟨t, j, ht, hij, hd, htake⟩
  · exact Or.inl rfl
  · exact Or.inr ⟨t, j, ht, hij, hd, heq.trans htake⟩

/-- A chosen prefix stands in the leader log of every later term. -/
theorem prefix_tlog (hk : Kept term a ack) (h : Inv term a) {t : ℕ} {c : S}
    (hl : a.lead t = some c) (hT : T ≤ t) (hc : Chosen term a ack T X i) :
    X.take i <+: a.tlog t := by
  rcases hc with rfl | ⟨u, j, hu, hij, hd, htake⟩
  · exact List.nil_prefix
  · have := hk.complete_tlog h hl (le_trans hu hT) hd.1 hd.possible
    rw [htake]
    exact (take_prefix_of_le hij).trans this

/-- A careful acceptance keeps chosen prefixes. -/
theorem accept (hk : Kept term a ack) (h : Inv term a) {s c : S} {t k : ℕ}
    (hl : a.lead t = some c) (hT : T ≤ t) (hcare : Careful a s t k)
    (hc : Chosen term a ack T (a.log s) i) :
    Chosen term (a.accept s t k) ack t ((a.accept s t k).log s) i := by
  have hpre := hc.prefix_tlog hk h hl hT
  have hlen := hcare _ (List.take_prefix _ _) hpre
  rw [List.length_take, Nat.min_eq_left hc.le_length] at hlen
  have hc' : Chosen term (a.accept s t k) ack t (a.log s) i :=
    hc.mono (frame_accept a s t k).ext (fun _ _ => le_refl _) hT
  refine hc'.of_take_eq ?_
  have hi := hc.le_length
  rw [accept_log, if_pos rfl, List.take_take, Nat.min_eq_left hlen]
  have := take_prefix_take hpre (k := i) (by rw [List.length_take]; omega)
  rw [List.take_take, Nat.min_self] at this
  exact this.symm

omit [DecidableEq S] in
theorem at_ {e : E} {k : ℕ} (h : Chosen term a ack T X i) (hpos : 0 < k) (hk : k ≤ i)
    (he : X[k - 1]? = some e) : ChosenAt term a ack k e := by
  rcases h with rfl | ⟨t, j, -, hij, hd, htake⟩
  · omega
  · refine ⟨hpos, t, j, le_trans hk hij, hd, ?_⟩
    have hget : ∀ Z : List E, Z[k - 1]? = (Z.take i)[k - 1]? :=
      fun Z => (List.getElem?_take_of_lt (by omega)).symm
    rw [hget, ← htake, ← hget]
    exact he

end Chosen

omit [DecidableEq S] in
theorem ChosenAt.mono {b : State S E} {ack' : S → ℕ → ℕ} {i : ℕ} {e : E}
    (h : ChosenAt term a ack i e) (he : Ext a b) (hack : ∀ s t, ack s t ≤ ack' s t) :
    ChosenAt term b ack' i e := by
  obtain ⟨hpos, t, j, hij, hd, hget⟩ := h
  exact ⟨hpos, t, j, hij, hd.mono he hack, prefix_get_some (he.tlog t) hget⟩

/-- Two entries decided at one index are the same. -/
theorem ChosenAt.unique (hk : Kept term a ack) (h : Inv term a) {i : ℕ} {d e : E}
    (hd : ChosenAt term a ack i d) (he : ChosenAt term a ack i e) : d = e := by
  obtain ⟨hpos, t, j, hij, hdec, hget⟩ := hd
  obtain ⟨-, u, k, hik, hdec', hget'⟩ := he
  have heq := hk.agree h hdec hdec' hij hik
  have hlast : ∀ Z : List E, Z[i - 1]? = (Z.take i)[i - 1]? :=
    fun Z => (List.getElem?_take_of_lt (by omega)).symm
  rw [hlast, heq, ← hlast, hget'] at hget
  exact (Option.some.inj hget).symm

end GoServices.TermLog
