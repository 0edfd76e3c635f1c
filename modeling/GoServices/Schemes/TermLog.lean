import Mathlib.Data.Fintype.Card
import Mathlib.Data.List.Basic
import Mathlib.Order.Basic

/-! Terms, votes and leader logs: the general theory of a log replicated under numbered terms.

    A server has a current term, gives at most one vote per term and holds one log. A candidate who
    gathers a majority becomes the leader of its term; the leader's log of that term only grows, and
    every other server copies prefixes of it. Nothing here knows about messages, snapshots or
    crashes: an implementation is verified by mapping each of its steps to the operations below.

        stand ──▶ cast* ──▶ elect ──▶ extend*        (one candidate of one term)
                                └──▶ accept*         (the other servers of that term)

    `Inv` says that every log in sight is grounded in the leader log of each of its terms; the log
    matching property (`Grounded.matching`) and the uniqueness of leaders (`Inv.one_leader`) follow. -/

namespace GoServices.TermLog

/-! ### Majorities -/

section Majority

variable {S : Type} [Fintype S]

/-- A quorum holds more than half of the servers. -/
def IsQuorum (Q : Finset S) : Prop := Fintype.card S < 2 * Q.card

/-- Two quorums share a server, whatever the parity of the cluster. -/
theorem IsQuorum.meet [DecidableEq S] {Q R : Finset S} (hQ : IsQuorum Q) (hR : IsQuorum R) :
    ∃ s, s ∈ Q ∧ s ∈ R := by
  by_contra hne
  have hdisj : Disjoint Q R := Finset.disjoint_left.mpr fun s hs hr => hne ⟨s, hs, hr⟩
  have hcard : (Q ∪ R).card = Q.card + R.card := Finset.card_union_of_disjoint hdisj
  have hle : (Q ∪ R).card ≤ Fintype.card S := Finset.card_le_univ _
  simp only [IsQuorum] at hQ hR
  omega

end Majority

/-! ### Prefixes -/

section Prefix

variable {E : Type}

/-- A position of a prefix holds the same entry in the longer list. -/
theorem prefix_get {X Y : List E} (h : X <+: Y) {i : ℕ} (hi : i < X.length) : Y[i]? = X[i]? := by
  obtain ⟨Z, rfl⟩ := h
  exact List.getElem?_append_left hi

theorem prefix_get_some {X Y : List E} (h : X <+: Y) {i : ℕ} {e : E} (he : X[i]? = some e) :
    Y[i]? = some e := by
  obtain ⟨hi, -⟩ := List.getElem?_eq_some_iff.mp he
  rw [prefix_get h hi]; exact he

/-- Two prefixes of one list are ordered by their lengths. -/
theorem prefix_total {X Y Z : List E} (hX : X <+: Z) (hY : Y <+: Z) (hlen : X.length ≤ Y.length) :
    X <+: Y :=
  List.prefix_of_prefix_length_le hX hY hlen

theorem take_prefix_take {X Y : List E} (h : X <+: Y) {k : ℕ} (hk : k ≤ X.length) :
    X.take k = Y.take k := by
  obtain ⟨Z, rfl⟩ := h
  rw [List.take_append_of_le_length hk]

theorem take_prefix_of_le {X : List E} {i k : ℕ} (h : i ≤ k) : X.take i <+: X.take k :=
  List.prefix_take_iff.mpr ⟨List.take_prefix _ _, by rw [List.length_take]; omega⟩

end Prefix

/-! ### The state and its operations -/

/-- Servers with their terms and logs, the votes of all terms, and the leaders of all terms. -/
structure State (S E : Type) where
  cur : S → ℕ
  log : S → List E
  vote : ℕ → S → Option S
  clog : ℕ → S → List E
  lead : ℕ → Option S
  tlog : ℕ → List E

variable {S E : Type}

namespace State

/-- Everyone in term `t₀` with an empty log, no vote given. -/
def init (t₀ : ℕ) : State S E where
  cur := fun _ => t₀
  log := fun _ => []
  vote := fun _ _ => none
  clog := fun _ _ => []
  lead := fun _ => none
  tlog := fun _ => []

variable [DecidableEq S]

/-- `s` learns of the later term `t`. -/
def bump (a : State S E) (s : S) (t : ℕ) : State S E :=
  { a with cur := Function.update a.cur s t }

/-- `c` enters term `t` as a candidate: it votes for itself and its log is put on record. -/
def stand (a : State S E) (c : S) (t : ℕ) : State S E :=
  { a with
    cur := Function.update a.cur c t
    vote := Function.update a.vote t (Function.update (a.vote t) c (some c))
    clog := Function.update a.clog t (Function.update (a.clog t) c (a.log c)) }

/-- `v` gives its vote of term `t` to `c`. -/
def cast (a : State S E) (v c : S) (t : ℕ) : State S E :=
  { a with vote := Function.update a.vote t (Function.update (a.vote t) v (some c)) }

/-- `c` becomes the leader of term `t`; the leader log of `t` starts as the log of `c`. -/
def elect (a : State S E) (c : S) (t : ℕ) : State S E :=
  { a with
    lead := Function.update a.lead t (some c)
    tlog := Function.update a.tlog t (a.log c) }

/-- The leader `c` of term `t` appends an entry. -/
def extend (a : State S E) (c : S) (t : ℕ) (e : E) : State S E :=
  { a with
    log := Function.update a.log c (a.log c ++ [e])
    tlog := Function.update a.tlog t (a.tlog t ++ [e]) }

/-- `s` replaces its log by the first `k` entries of the leader log of term `t`. -/
def accept (a : State S E) (s : S) (t k : ℕ) : State S E :=
  { a with log := Function.update a.log s ((a.tlog t).take k) }

end State

/-- What is on record stays on record: terms grow, votes and leaders are final, leader logs grow. -/
structure Ext (a b : State S E) : Prop where
  cur : ∀ s, a.cur s ≤ b.cur s
  vote : ∀ t v c, a.vote t v = some c → b.vote t v = some c
  clog : ∀ t c, a.vote t c = some c → b.clog t c = a.clog t c
  lead : ∀ t c, a.lead t = some c → b.lead t = some c
  tlog : ∀ t, a.tlog t <+: b.tlog t

theorem Ext.refl (a : State S E) : Ext a a :=
  ⟨fun _ => le_refl _, fun _ _ _ h => h, fun _ _ _ => rfl, fun _ _ h => h,
    fun _ => List.prefix_refl _⟩

theorem Ext.trans {a b c : State S E} (h : Ext a b) (h' : Ext b c) : Ext a c :=
  ⟨fun s => le_trans (h.cur s) (h'.cur s), fun t v x hx => h'.vote t v x (h.vote t v x hx),
    fun t x hx => (h'.clog t x (h.vote t x x hx)).trans (h.clog t x hx),
    fun t x hx => h'.lead t x (h.lead t x hx), fun t => (h.tlog t).trans (h'.tlog t)⟩

/-- Only `s` moved: the servers other than `s`, and the terms they lead, are untouched. -/
structure Frame (s : S) (a b : State S E) : Prop where
  ext : Ext a b
  cur : ∀ r, r ≠ s → b.cur r = a.cur r
  log : ∀ r, r ≠ s → b.log r = a.log r
  vote : ∀ t r, r ≠ s → b.vote t r = a.vote t r
  lead : ∀ t r, r ≠ s → (b.lead t = some r ↔ a.lead t = some r)
  tlog : ∀ t r, r ≠ s → a.lead t = some r → b.tlog t = a.tlog t

theorem Frame.refl (s : S) (a : State S E) : Frame s a a :=
  ⟨Ext.refl a, fun _ _ => rfl, fun _ _ => rfl, fun _ _ _ => rfl, fun _ _ _ => Iff.rfl,
    fun _ _ _ _ => rfl⟩

theorem Frame.trans {s : S} {a b c : State S E} (h : Frame s a b) (h' : Frame s b c) :
    Frame s a c :=
  ⟨h.ext.trans h'.ext, fun r hr => (h'.cur r hr).trans (h.cur r hr),
    fun r hr => (h'.log r hr).trans (h.log r hr),
    fun t r hr => (h'.vote t r hr).trans (h.vote t r hr),
    fun t r hr => (h'.lead t r hr).trans (h.lead t r hr),
    fun t r hr hl => (h'.tlog t r hr ((h.lead t r hr).mpr hl)).trans (h.tlog t r hr hl)⟩

/-! ### The invariant -/

section Invariant

variable (term : E → ℕ)

/-- Every entry of `X` stands, with all that precedes it, in the leader log of its term. -/
def Grounded (a : State S E) (X : List E) : Prop :=
  ∀ i e, X[i]? = some e → X.take (i + 1) <+: a.tlog (term e)

/-- The invariant behind election safety and log matching. -/
structure Inv [Fintype S] (a : State S E) : Prop where
  voteLe : ∀ t v c, a.vote t v = some c → t ≤ a.cur v
  stood : ∀ t v c, a.vote t v = some c → a.vote t c = some c
  quorum : ∀ t c, a.lead t = some c → ∃ Q, IsQuorum Q ∧ ∀ v ∈ Q, a.vote t v = some c
  noLead : ∀ t, a.lead t = none → a.tlog t = []
  base : ∀ t c, a.lead t = some c → a.clog t c <+: a.tlog t
  own : ∀ t c i e, a.lead t = some c → (a.clog t c).length ≤ i → (a.tlog t)[i]? = some e →
    term e = t
  clogLt : ∀ t c e, a.vote t c = some c → e ∈ a.clog t c → term e < t
  logLe : ∀ s e, e ∈ a.log s → term e ≤ a.cur s
  logOk : ∀ s, Grounded term a (a.log s)
  tlogOk : ∀ t, Grounded term a (a.tlog t)
  clogOk : ∀ t c, a.vote t c = some c → Grounded term a (a.clog t c)

variable {term}

theorem Grounded.mono {a b : State S E} (h : ∀ t, a.tlog t <+: b.tlog t) {X : List E}
    (hX : Grounded term a X) : Grounded term b X :=
  fun i e he => (hX i e he).trans (h _)

theorem Grounded.take {a : State S E} {X : List E} (hX : Grounded term a X) (k : ℕ) :
    Grounded term a (X.take k) := by
  intro i e he
  have hXi : X[i]? = some e := prefix_get_some (List.take_prefix k X) he
  obtain ⟨hlen, -⟩ := List.getElem?_eq_some_iff.mp he
  rw [List.length_take] at hlen
  rw [List.take_take, Nat.min_eq_left (by omega)]
  exact hX i e hXi

/-- A grounded list is a prefix of the leader log of its last term. -/
theorem Grounded.last {a : State S E} {X : List E} (hX : Grounded term a X) {e : E}
    (he : X[X.length - 1]? = some e) : X <+: a.tlog (term e) := by
  have h := hX _ _ he
  obtain ⟨hlen, -⟩ := List.getElem?_eq_some_iff.mp he
  rwa [List.take_of_length_le (by omega)] at h

/-- Log matching: two grounded lists with the same term at a position agree up to it. -/
theorem Grounded.matching {a : State S E} {X Y : List E} (hX : Grounded term a X)
    (hY : Grounded term a Y) {i : ℕ} {d e : E} (hd : X[i]? = some d) (he : Y[i]? = some e)
    (ht : term d = term e) : X.take (i + 1) = Y.take (i + 1) := by
  have h₁ := hX i d hd
  have h₂ := hY i e he
  rw [ht] at h₁
  have hlX := (List.getElem?_eq_some_iff.mp hd).1
  have hlY := (List.getElem?_eq_some_iff.mp he).1
  have hlen : (X.take (i + 1)).length = (Y.take (i + 1)).length := by
    rw [List.length_take, List.length_take]; omega
  exact (prefix_total h₁ h₂ (le_of_eq hlen)).eq_of_length hlen

variable [Fintype S]

theorem inv_init (t₀ : ℕ) : Inv term (State.init t₀ : State S E) where
  voteLe := by intro t v c h; simp [State.init] at h
  stood := by intro t v c h; simp [State.init] at h
  quorum := by intro t c h; simp [State.init] at h
  noLead := by intro t _; rfl
  base := by intro t c h; simp [State.init] at h
  own := by intro t c i e h; simp [State.init] at h
  clogLt := by intro t c e h; simp [State.init] at h
  logLe := by intro s e h; simp [State.init] at h
  logOk := by intro s i e h; simp [State.init] at h
  tlogOk := by intro t i e h; simp [State.init] at h
  clogOk := by intro t c h; simp [State.init] at h

namespace Inv

variable {a : State S E}

/-- A term whose leader log holds an entry has a leader. -/
theorem exists_lead (h : Inv term a) {t : ℕ} (hne : a.tlog t ≠ []) : ∃ c, a.lead t = some c := by
  cases hl : a.lead t with
  | none => exact absurd (h.noLead t hl) hne
  | some c => exact ⟨c, rfl⟩

theorem lead_vote (h : Inv term a) {t : ℕ} {c : S} (hl : a.lead t = some c) :
    a.vote t c = some c := by
  obtain ⟨Q, hQ, hv⟩ := h.quorum t c hl
  have hpos : Q.Nonempty := by
    rw [← Finset.card_pos]
    have : 0 ≤ Fintype.card S := Nat.zero_le _
    simp only [IsQuorum] at hQ
    omega
  obtain ⟨v, hvQ⟩ := hpos
  exact h.stood t v c (hv v hvQ)

/-- Entries of a leader log are of its own term or an earlier one. -/
theorem tlog_le (h : Inv term a) {t i : ℕ} {e : E} (he : (a.tlog t)[i]? = some e) : term e ≤ t := by
  have hne : a.tlog t ≠ [] := by intro hnil; rw [hnil] at he; simp at he
  obtain ⟨c, hc⟩ := h.exists_lead hne
  rcases Nat.lt_or_ge i (a.clog t c).length with hi | hi
  · have hget : (a.clog t c)[i]? = some e := by rw [← prefix_get (h.base t c hc) hi]; exact he
    exact le_of_lt (h.clogLt t c e (h.lead_vote hc) (List.mem_of_getElem? hget))
  · exact le_of_eq (h.own t c i e hc hi he)

/-- Terms never decrease along a grounded list. -/
theorem sorted (h : Inv term a) {X : List E} (hX : Grounded term a X) {i j : ℕ} {d e : E}
    (hij : i ≤ j) (hd : X[i]? = some d) (he : X[j]? = some e) : term d ≤ term e := by
  have hpre := hX j e he
  have hdj : (X.take (j + 1))[i]? = some d := by
    rw [List.getElem?_take_of_lt (by omega)]; exact hd
  exact h.tlog_le (prefix_get_some hpre hdj)

theorem pairwise (h : Inv term a) {X : List E} (hX : Grounded term a X) :
    X.Pairwise (term · ≤ term ·) :=
  List.pairwise_iff_getElem.mpr fun _ _ hi hj hij =>
    h.sorted hX (le_of_lt hij) (List.getElem?_eq_getElem hi) (List.getElem?_eq_getElem hj)

/-- A leader log begins, before its own entries, with the log of its candidate. -/
theorem base_prefix (h : Inv term a) {X : List E} (hX : Grounded term a X) {t : ℕ} {c : S} {e : E}
    (hl : a.lead t = some c) (he : X[X.length - 1]? = some e) (ht : term e = t) :
    a.clog t c <+: X := by
  have hpre : X <+: a.tlog t := ht ▸ hX.last he
  refine prefix_total (h.base t c hl) hpre ?_
  by_contra hlt
  have hlen := (List.getElem?_eq_some_iff.mp he).1
  have hget : (a.clog t c)[X.length - 1]? = some e := by
    rw [← prefix_get (h.base t c hl) (by omega)]
    exact prefix_get_some hpre he
  exact absurd (h.clogLt t c e (h.lead_vote hl) (List.mem_of_getElem? hget)) (by omega)

/-- Election safety: two candidates with a majority of one term are the same. -/
theorem one_leader [DecidableEq S] (h : Inv term a) {t : ℕ} {c d : S} (hc : a.lead t = some c)
    {Q : Finset S} (hQ : IsQuorum Q) (hv : ∀ v ∈ Q, a.vote t v = some d) : c = d := by
  obtain ⟨R, hR, hw⟩ := h.quorum t c hc
  obtain ⟨s, hsR, hsQ⟩ := hR.meet hQ
  exact Option.some.inj ((hw s hsR).symm.trans (hv s hsQ))

end Inv

end Invariant

/-! ### Operations keep the record -/

section Operations

variable [DecidableEq S]

theorem bump_cur (a : State S E) (s r : S) (t : ℕ) :
    (a.bump s t).cur r = if r = s then t else a.cur r := by
  simp [State.bump, Function.update_apply]

theorem bump_self {a : State S E} {s : S} {t : ℕ} (h : a.cur s = t) : a.bump s t = a := by
  rw [State.bump, ← h, Function.update_eq_self]

theorem stand_cur (a : State S E) (c r : S) (t : ℕ) :
    (a.stand c t).cur r = if r = c then t else a.cur r := by
  simp [State.stand, Function.update_apply]

theorem stand_vote (a : State S E) (c r : S) (t u : ℕ) :
    (a.stand c t).vote u r = if u = t ∧ r = c then some c else a.vote u r := by
  rcases eq_or_ne u t with rfl | hu <;> simp [State.stand, Function.update_apply, *]

theorem stand_clog (a : State S E) (c r : S) (t u : ℕ) :
    (a.stand c t).clog u r = if u = t ∧ r = c then a.log c else a.clog u r := by
  rcases eq_or_ne u t with rfl | hu <;> simp [State.stand, Function.update_apply, *]

theorem cast_vote (a : State S E) (v c r : S) (t u : ℕ) :
    (a.cast v c t).vote u r = if u = t ∧ r = v then some c else a.vote u r := by
  rcases eq_or_ne u t with rfl | hu <;> simp [State.cast, Function.update_apply, *]

omit [DecidableEq S] in
theorem elect_lead (a : State S E) (c : S) (t u : ℕ) :
    (a.elect c t).lead u = if u = t then some c else a.lead u := by
  simp [State.elect, Function.update_apply]

omit [DecidableEq S] in
theorem elect_tlog (a : State S E) (c : S) (t u : ℕ) :
    (a.elect c t).tlog u = if u = t then a.log c else a.tlog u := by
  simp [State.elect, Function.update_apply]

theorem extend_log (a : State S E) (c r : S) (t : ℕ) (e : E) :
    (a.extend c t e).log r = if r = c then a.log c ++ [e] else a.log r := by
  simp [State.extend, Function.update_apply]

theorem extend_tlog (a : State S E) (c : S) (t u : ℕ) (e : E) :
    (a.extend c t e).tlog u = if u = t then a.tlog t ++ [e] else a.tlog u := by
  simp [State.extend, Function.update_apply]

theorem accept_log (a : State S E) (s r : S) (t k : ℕ) :
    (a.accept s t k).log r = if r = s then (a.tlog t).take k else a.log r := by
  simp [State.accept, Function.update_apply]

theorem frame_bump (a : State S E) {s : S} {t : ℕ} (ht : a.cur s ≤ t) : Frame s a (a.bump s t) where
  ext := by
    refine ⟨fun r => ?_, fun _ _ _ h => h, fun _ _ _ => rfl, fun _ _ h => h,
      fun _ => List.prefix_refl _⟩
    rw [bump_cur]; split_ifs with hr
    · exact hr ▸ ht
    · exact le_refl _
  cur := by intro r hr; rw [bump_cur, if_neg hr]
  log := fun _ _ => rfl
  vote := fun _ _ _ => rfl
  lead := fun _ _ _ => Iff.rfl
  tlog := fun _ _ _ _ => rfl

theorem frame_stand (a : State S E) {c : S} {t : ℕ} (ht : a.cur c ≤ t) (hv : a.vote t c = none) :
    Frame c a (a.stand c t) where
  ext := by
    refine ⟨fun r => ?_, fun u v x hx => ?_, fun u x hx => ?_, fun _ _ h => h,
      fun _ => List.prefix_refl _⟩
    · rw [stand_cur]; split_ifs with hr
      · exact hr ▸ ht
      · exact le_refl _
    · rw [stand_vote, if_neg]
      · exact hx
      · rintro ⟨rfl, rfl⟩; rw [hv] at hx; exact absurd hx (by simp)
    · rw [stand_clog, if_neg]
      rintro ⟨rfl, rfl⟩; rw [hv] at hx; exact absurd hx (by simp)
  cur := by intro r hr; rw [stand_cur, if_neg hr]
  log := fun _ _ => rfl
  vote := by intro u r hr; rw [stand_vote, if_neg (fun h => hr h.2)]
  lead := fun _ _ _ => Iff.rfl
  tlog := fun _ _ _ _ => rfl

theorem frame_cast (a : State S E) {v : S} {t : ℕ} (c : S) (hv : a.vote t v = none) :
    Frame v a (a.cast v c t) where
  ext := by
    refine ⟨fun _ => le_refl _, fun u r x hx => ?_, fun _ _ _ => rfl, fun _ _ h => h,
      fun _ => List.prefix_refl _⟩
    rw [cast_vote, if_neg]
    · exact hx
    · rintro ⟨rfl, rfl⟩; rw [hv] at hx; exact absurd hx (by simp)
  cur := fun _ _ => rfl
  log := fun _ _ => rfl
  vote := by intro u r hr; rw [cast_vote, if_neg (fun h => hr h.2)]
  lead := fun _ _ _ => Iff.rfl
  tlog := fun _ _ _ _ => rfl

omit [DecidableEq S] in
theorem frame_elect (a : State S E) {c : S} {t : ℕ} (hl : a.lead t = none) (hn : a.tlog t = []) :
    Frame c a (a.elect c t) where
  ext := by
    refine ⟨fun _ => le_refl _, fun _ _ _ h => h, fun _ _ _ => rfl, fun u x hx => ?_, fun u => ?_⟩
    · rw [elect_lead, if_neg]
      · exact hx
      · rintro rfl; rw [hl] at hx; exact absurd hx (by simp)
    · rw [elect_tlog]; split_ifs with hu
      · rw [hu, hn]; exact List.nil_prefix
      · exact List.prefix_refl _
  cur := fun _ _ => rfl
  log := fun _ _ => rfl
  vote := fun _ _ _ => rfl
  lead := by
    intro u r hr
    rw [elect_lead]; split_ifs with hu
    · rw [hu, hl]; simp [hr.symm]
    · exact Iff.rfl
  tlog := by
    intro u r hr hu
    rw [elect_tlog, if_neg]
    rintro rfl; rw [hl] at hu; exact absurd hu (by simp)

theorem frame_extend (a : State S E) {c : S} {t : ℕ} (e : E) (hl : a.lead t = some c) :
    Frame c a (a.extend c t e) where
  ext := by
    refine ⟨fun _ => le_refl _, fun _ _ _ h => h, fun _ _ _ => rfl, fun _ _ h => h, fun u => ?_⟩
    rw [extend_tlog]; split_ifs with hu
    · rw [hu]; exact List.prefix_append _ _
    · exact List.prefix_refl _
  cur := fun _ _ => rfl
  log := by intro r hr; rw [extend_log, if_neg hr]
  vote := fun _ _ _ => rfl
  lead := fun _ _ _ => Iff.rfl
  tlog := by
    intro u r hr hu
    rw [extend_tlog, if_neg]
    rintro rfl; rw [hl] at hu; exact hr (Option.some.inj hu).symm

theorem frame_accept (a : State S E) (s : S) (t k : ℕ) : Frame s a (a.accept s t k) where
  ext := ⟨fun _ => le_refl _, fun _ _ _ h => h, fun _ _ _ => rfl, fun _ _ h => h,
    fun _ => List.prefix_refl _⟩
  cur := fun _ _ => rfl
  log := by intro r hr; rw [accept_log, if_neg hr]
  vote := fun _ _ _ => rfl
  lead := fun _ _ _ => Iff.rfl
  tlog := fun _ _ _ _ => rfl

/-! ### Operations keep the invariant -/

variable [Fintype S] {term : E → ℕ} {a : State S E}

theorem Inv.bump (h : Inv term a) {s : S} {t : ℕ} (ht : a.cur s ≤ t) : Inv term (a.bump s t) where
  voteLe := fun u v c hv => le_trans (h.voteLe u v c hv) ((frame_bump a ht).ext.cur v)
  stood := h.stood
  quorum := h.quorum
  noLead := h.noLead
  base := h.base
  own := h.own
  clogLt := h.clogLt
  logLe := fun r e he => le_trans (h.logLe r e he) ((frame_bump a ht).ext.cur r)
  logOk := h.logOk
  tlogOk := h.tlogOk
  clogOk := h.clogOk

theorem Inv.stand (h : Inv term a) {c : S} {t : ℕ} (ht : a.cur c < t) :
    Inv term (a.stand c t) := by
  have hnone : ∀ v, a.cur v < t → a.vote t v = none := by
    intro v hv
    cases hvote : a.vote t v with
    | none => rfl
    | some d => exact absurd (h.voteLe t v d hvote) (by omega)
  have hfr := frame_stand a (le_of_lt ht) (hnone c ht)
  -- a vote of the new state is an old one or the candidate's own
  have hvotes : ∀ u v d, (a.stand c t).vote u v = some d →
      (u = t ∧ v = c ∧ d = c) ∨ a.vote u v = some d := by
    intro u v d hv
    rw [stand_vote] at hv
    split_ifs at hv with huv
    · exact Or.inl ⟨huv.1, huv.2, (Option.some.inj hv).symm⟩
    · exact Or.inr hv
  have hself : (a.stand c t).vote t c = some c := by rw [stand_vote, if_pos ⟨rfl, rfl⟩]
  -- the log on record for a candidate is its old record or its present log
  have hclogs : ∀ u d, (a.stand c t).vote u d = some d →
      (u = t ∧ d = c ∧ (a.stand c t).clog u d = a.log c) ∨
      (a.vote u d = some d ∧ (a.stand c t).clog u d = a.clog u d) := by
    intro u d hd
    rcases eq_or_ne u t with rfl | hu
    · rcases eq_or_ne d c with rfl | hdc
      · exact Or.inl ⟨rfl, rfl, by rw [stand_clog, if_pos ⟨rfl, rfl⟩]⟩
      · refine Or.inr ⟨?_, by rw [stand_clog, if_neg (fun hx => hdc hx.2)]⟩
        rwa [stand_vote, if_neg (fun hx => hdc hx.2)] at hd
    · refine Or.inr ⟨?_, by rw [stand_clog, if_neg (fun hx => hu hx.1)]⟩
      rwa [stand_vote, if_neg (fun hx => hu hx.1)] at hd
  have hlead : ∀ u d, a.lead u = some d → (a.stand c t).clog u d = a.clog u d :=
    fun u d hl => hfr.ext.clog u d (h.lead_vote hl)
  refine ⟨?_, ?_, ?_, h.noLead, ?_, ?_, ?_, ?_, h.logOk, h.tlogOk, ?_⟩
  · intro u v d hv
    rcases hvotes u v d hv with ⟨rfl, rfl, -⟩ | hold
    · rw [stand_cur, if_pos rfl]
    · exact le_trans (h.voteLe u v d hold) (hfr.ext.cur v)
  · intro u v d hv
    rcases hvotes u v d hv with ⟨rfl, rfl, rfl⟩ | hold
    · exact hself
    · exact hfr.ext.vote u d d (h.stood u v d hold)
  · intro u d hl
    obtain ⟨Q, hQ, hv⟩ := h.quorum u d hl
    exact ⟨Q, hQ, fun v hvQ => hfr.ext.vote u v d (hv v hvQ)⟩
  · intro u d hl; rw [hlead u d hl]; exact h.base u d hl
  · intro u d i e hl hi he; rw [hlead u d hl] at hi; exact h.own u d i e hl hi he
  · intro u d e hd he
    rcases hclogs u d hd with ⟨rfl, rfl, hc⟩ | ⟨hold, hc⟩ <;> rw [hc] at he
    · exact lt_of_le_of_lt (h.logLe d e he) ht
    · exact h.clogLt u d e hold he
  · exact fun r e he => le_trans (h.logLe r e he) (hfr.ext.cur r)
  · intro u d hd
    rcases hclogs u d hd with ⟨rfl, rfl, hc⟩ | ⟨hold, hc⟩ <;> rw [hc]
    · exact h.logOk d
    · exact h.clogOk u d hold

theorem Inv.cast (h : Inv term a) {v c : S} {t : ℕ} (hv : a.vote t v = none) (ht : t ≤ a.cur v)
    (hc : a.vote t c = some c) : Inv term (a.cast v c t) := by
  have hfr := frame_cast a c hv
  have hne : c ≠ v := by rintro rfl; rw [hv] at hc; exact absurd hc (by simp)
  have hvotes : ∀ u r d, (a.cast v c t).vote u r = some d →
      (u = t ∧ r = v ∧ d = c) ∨ a.vote u r = some d := by
    intro u r d hr
    rw [cast_vote] at hr
    split_ifs at hr with hur
    · exact Or.inl ⟨hur.1, hur.2, (Option.some.inj hr).symm⟩
    · exact Or.inr hr
  have hself : ∀ u d, (a.cast v c t).vote u d = some d → a.vote u d = some d := by
    intro u d hd
    rcases hvotes u d d hd with ⟨rfl, rfl, rfl⟩ | hold
    · exact absurd rfl hne
    · exact hold
  refine ⟨?_, ?_, ?_, h.noLead, h.base, h.own, ?_, h.logLe, h.logOk, h.tlogOk, ?_⟩
  · intro u r d hr
    rcases hvotes u r d hr with ⟨rfl, rfl, -⟩ | hold
    · exact ht
    · exact h.voteLe u r d hold
  · intro u r d hr
    rcases hvotes u r d hr with ⟨rfl, rfl, rfl⟩ | hold
    · exact hfr.ext.vote u d d hc
    · exact hfr.ext.vote u d d (h.stood u r d hold)
  · intro u d hl
    obtain ⟨Q, hQ, hq⟩ := h.quorum u d hl
    exact ⟨Q, hQ, fun r hr => hfr.ext.vote u r d (hq r hr)⟩
  · exact fun u d e hd he => h.clogLt u d e (hself u d hd) he
  · exact fun u d hd => h.clogOk u d (hself u d hd)

omit [DecidableEq S] in
theorem Inv.elect (h : Inv term a) {c : S} {t : ℕ} (hl : a.lead t = none)
    {Q : Finset S} (hQ : IsQuorum Q) (hv : ∀ v ∈ Q, a.vote t v = some c)
    (hlog : a.log c = a.clog t c) : Inv term (a.elect c t) := by
  have hfr := frame_elect (c := c) a hl (h.noLead t hl)
  have hstood : a.vote t c = some c := by
    obtain ⟨v, hvQ⟩ : Q.Nonempty := by
      rw [← Finset.card_pos]; simp only [IsQuorum] at hQ; omega
    exact h.stood t v c (hv v hvQ)
  have hground : ∀ X, Grounded term a X → Grounded term (a.elect c t) X :=
    fun X hX => hX.mono hfr.ext.tlog
  refine ⟨h.voteLe, h.stood, ?_, ?_, ?_, ?_, h.clogLt, h.logLe, fun s => hground _ (h.logOk s), ?_,
    fun u d hd => hground _ (h.clogOk u d hd)⟩
  · intro u d hu
    rw [elect_lead] at hu
    split_ifs at hu with hut
    · obtain rfl := Option.some.inj hu
      exact ⟨Q, hQ, by rw [hut]; exact hv⟩
    · exact h.quorum u d hu
  · intro u hu
    rw [elect_lead] at hu
    split_ifs at hu with hut
    rw [elect_tlog, if_neg hut]; exact h.noLead u hu
  · intro u d hu
    rw [elect_lead] at hu
    rw [elect_tlog]
    split_ifs at hu ⊢ with hut
    · obtain rfl := Option.some.inj hu
      rw [hut]; exact hlog ▸ List.prefix_refl _
    · exact h.base u d hu
  · intro u d i e hu hi he
    rw [elect_lead] at hu
    rw [elect_tlog] at he
    split_ifs at hu he with hut
    · obtain rfl := Option.some.inj hu
      have hi' : (a.clog t c).length ≤ i := by rw [← hut]; exact hi
      rw [hlog, List.getElem?_eq_none hi'] at he
      exact absurd he (by simp)
    · exact h.own u d i e hu hi he
  · intro u
    rw [elect_tlog]; split_ifs
    · exact hground _ (h.logOk c)
    · exact hground _ (h.tlogOk u)

theorem Inv.extend (h : Inv term a) {c : S} {t : ℕ} {e : E} (hl : a.lead t = some c)
    (hlog : a.log c = a.tlog t) (ht : t ≤ a.cur c) (he : term e = t) :
    Inv term (a.extend c t e) := by
  have hfr := frame_extend a e hl
  have hground : ∀ X, Grounded term a X → Grounded term (a.extend c t e) X :=
    fun X hX => hX.mono hfr.ext.tlog
  -- the longer leader log is grounded: its new entry is of the term itself
  have hnew : Grounded term (a.extend c t e) (a.tlog t ++ [e]) := by
    intro i d hd
    rcases Nat.lt_or_ge i (a.tlog t).length with hi | hi
    · rw [List.take_append_of_le_length (by omega)]
      rw [List.getElem?_append_left hi] at hd
      exact (h.tlogOk t i d hd).trans (hfr.ext.tlog _)
    · rw [List.getElem?_append_right hi] at hd
      have hi0 : i - (a.tlog t).length = 0 := by
        have := (List.getElem?_eq_some_iff.mp hd).1
        simp only [List.length_singleton] at this; omega
      rw [hi0, List.getElem?_cons_zero] at hd
      obtain rfl := Option.some.inj hd
      rw [extend_tlog, if_pos he]
      exact List.take_prefix _ _
  refine ⟨h.voteLe, h.stood, h.quorum, ?_, ?_, ?_, h.clogLt, ?_, ?_, ?_,
    fun u d hd => hground _ (h.clogOk u d hd)⟩
  · intro u hu
    rw [extend_tlog, if_neg]
    · exact h.noLead u hu
    · rintro rfl; exact absurd (hl.symm.trans hu) (by simp)
  · exact fun u d hu => (h.base u d hu).trans (hfr.ext.tlog u)
  · intro u d i x hu hi hx
    rw [extend_tlog] at hx
    split_ifs at hx with hut
    · rcases Nat.lt_or_ge i (a.tlog t).length with hi' | hi'
      · rw [List.getElem?_append_left hi', ← hut] at hx
        exact h.own u d i x hu hi hx
      · rw [List.getElem?_append_right hi'] at hx
        have hx' := List.mem_of_getElem? hx
        rw [List.mem_singleton] at hx'
        rw [hx', he, hut]
    · exact h.own u d i x hu hi hx
  · intro r x hx
    rw [extend_log] at hx
    split_ifs at hx with hr
    · rw [List.mem_append, List.mem_singleton] at hx
      rcases hx with hx | rfl
      · rw [hr]; exact h.logLe c x hx
      · rw [hr, he]; exact ht
    · exact h.logLe r x hx
  · intro r
    rw [extend_log]; split_ifs
    · rw [hlog]; exact hnew
    · exact hground _ (h.logOk r)
  · intro u
    rw [extend_tlog]; split_ifs
    · exact hnew
    · exact hground _ (h.tlogOk u)

theorem Inv.accept (h : Inv term a) {s : S} {t k : ℕ} (ht : t ≤ a.cur s) :
    Inv term (a.accept s t k) where
  voteLe := h.voteLe
  stood := h.stood
  quorum := h.quorum
  noLead := h.noLead
  base := h.base
  own := h.own
  clogLt := h.clogLt
  logLe := by
    intro r e he
    rw [accept_log] at he
    split_ifs at he with hr
    · obtain ⟨i, hi⟩ := List.mem_iff_getElem?.mp (List.mem_of_mem_take he)
      exact le_trans (h.tlog_le hi) (by rw [hr]; exact ht)
    · exact h.logLe r e he
  logOk := by
    intro r
    rw [accept_log]; split_ifs
    · exact (h.tlogOk t).take k
    · exact h.logOk r
  tlogOk := h.tlogOk
  clogOk := h.clogOk

end Operations

end GoServices.TermLog
