import Mathlib
import GoServices.Schemes.Runs

/-! Account ids (`qpGames/core/dao/redis.go`).

    `NextAccountId` asks whether the counter exists, sets it if it does not, and increments it. Each
    command is one step, and the steps of different calls interleave. A command may be refused, and
    it may be carried out without its answer ever arriving; both are errors for the caller. An error
    of `Exists` is not looked at: the count it comes with is zero, so that the key counts as absent.
    The single node and the cluster client behave alike. -/

namespace GoServices.Accounts

open Runs

/-- What the counter is set to when it does not exist. -/
def accountIdBegin : ℤ := 10000

/-- `INCR` fails on the largest `int64`. -/
def maxInt64 : ℤ := 2 ^ 63 - 1

/-- How a command ends. -/
inductive Reply where
  | ok
  | refused
  | unanswered
  deriving DecidableEq

/-- The command that a call of `NextAccountId` sends next. -/
inductive Stage where
  | exists
  | set
  | incr
  deriving DecidableEq

/-- The counter, the calls under way and the ids given out. -/
structure State where
  /-- the value of `MSQP:AccountId` -/
  counter : Option ℤ
  calls : List Stage
  /-- what calls have returned without an error, latest first -/
  ids : List String
  deriving DecidableEq

/-- A call is made or sends its next command. -/
inductive Action where
  | call
  | exists (k : ℕ) (reply : Reply)
  | set (k : ℕ) (reply : Reply)
  | incr (k : ℕ) (reply : Reply)

/-- No counter and no calls. -/
def init : State := ⟨none, [], []⟩

/-- What `Exists` counts; zero goes with an error. -/
def existsCount (counter : Option ℤ) (reply : Reply) : ℕ :=
  if reply = .ok ∧ counter.isSome then 1 else 0

/-- The value after `INCR`, which takes a missing key for zero. -/
def incremented (counter : Option ℤ) : Option ℤ :=
  if counter.getD 0 = maxInt64 then none else some (counter.getD 0 + 1)

/-- `Set`: on an error the call returns. -/
def set (s : State) (k : ℕ) : Reply → State
  | .ok => { s with counter := some accountIdBegin, calls := s.calls.set k .incr }
  | .refused => { s with calls := s.calls.eraseIdx k }
  | .unanswered => { s with counter := some accountIdBegin, calls := s.calls.eraseIdx k }

/-- `Incr`, after which the call returns, with `fmt.Sprintf("%d", id)` if there was no error. -/
def incr (s : State) (k : ℕ) : Reply → State
  | .ok =>
    match incremented s.counter with
    | some id => ⟨some id, s.calls.eraseIdx k, toString id :: s.ids⟩
    | none => { s with calls := s.calls.eraseIdx k }
  | .refused => { s with calls := s.calls.eraseIdx k }
  | .unanswered =>
    { s with counter := (incremented s.counter).or s.counter, calls := s.calls.eraseIdx k }

/-- The step function; `none` when the call is not at this command. -/
def step (s : State) : Action → Option State
  | .call => some { s with calls := s.calls ++ [.exists] }
  | .exists k reply =>
    if s.calls[k]? = some .exists then
      some { s with calls := s.calls.set k (if existsCount s.counter reply = 0 then .set else .incr) }
    else none
  | .set k reply => if s.calls[k]? = some .set then some (set s k reply) else none
  | .incr k reply => if s.calls[k]? = some .incr then some (incr s k reply) else none

/-- The counter is set only as long as it has not been incremented. -/
def SetInTime (s : State) : Action → Prop
  | .set _ reply => reply = .refused ∨ s.counter = none ∨ s.counter = some accountIdBegin
  | _ => True

instance (s : State) : (act : Action) → Decidable (SetInTime s act)
  | .set _ reply =>
    inferInstanceAs (Decidable (reply = .refused ∨ s.counter = none ∨ s.counter = some accountIdBegin))
  | .call => inferInstanceAs (Decidable True)
  | .exists _ _ => inferInstanceAs (Decidable True)
  | .incr _ _ => inferInstanceAs (Decidable True)

/-! ### The counter only goes up -/

/-- The ids returned are different numbers up to the present value of the counter, and a call
    increments only a counter that exists. -/
structure Counted (s : State) : Prop where
  ids : ∃ nums : List ℤ, s.ids = nums.map toString ∧ nums.Nodup ∧
    ∀ n ∈ nums, accountIdBegin < n ∧ ∃ v, s.counter = some v ∧ n ≤ v
  begun : ∀ v, s.counter = some v → accountIdBegin ≤ v
  ready : .incr ∈ s.calls → s.counter.isSome = true

variable {s s' : State}

theorem counted_init : Counted init :=
  ⟨⟨[], rfl, List.nodup_nil, fun n hn => absurd hn List.not_mem_nil⟩, fun v hv => absurd hv (by simp [init]),
    fun h => absurd h List.not_mem_nil⟩

/-- The same counter and ids, and no call that increments but those that may. -/
theorem Counted.of_calls (h : Counted s) {calls : List Stage}
    (hcalls : .incr ∈ calls → s.counter.isSome = true) : Counted { s with calls := calls } :=
  ⟨h.ids, h.begun, hcalls⟩

theorem Counted.eraseIdx (h : Counted s) (k : ℕ) : Counted { s with calls := s.calls.eraseIdx k } :=
  h.of_calls fun hmem => h.ready (List.mem_of_mem_eraseIdx hmem)

/-- A larger counter. -/
theorem Counted.raise (h : Counted s) {v : ℤ} (hv : accountIdBegin ≤ v)
    (hle : ∀ w, s.counter = some w → w ≤ v) : Counted { s with counter := some v } := by
  obtain ⟨nums, hids, hnodup, hnums⟩ := h.ids
  refine ⟨⟨nums, hids, hnodup, ?_⟩, ?_, fun _ => rfl⟩
  · intro n hn
    obtain ⟨hbegin, w, hw, hnw⟩ := hnums n hn
    exact ⟨hbegin, v, rfl, hnw.trans (hle w hw)⟩
  · intro w hw
    rw [← Option.some.inj hw]
    exact hv

theorem incremented_eq {v w : ℤ} (h : incremented (some v) = some w) : w = v + 1 := by
  unfold incremented at h
  split_ifs at h
  exact (Option.some.inj h).symm

theorem Counted.incr (h : Counted s) {k : ℕ} (hk : s.calls[k]? = some .incr) (reply : Reply) :
    Counted (incr s k reply) := by
  obtain ⟨v, hv⟩ := Option.isSome_iff_exists.mp (h.ready (List.mem_of_getElem? hk))
  have hbegin := h.begun v hv
  have hraise : ∀ w, incremented s.counter = some w → Counted { s with counter := some w } := by
    intro w hw
    rw [hv] at hw
    have hwv := incremented_eq hw
    refine h.raise (by omega) ?_
    intro x hx
    rw [hv, Option.some.injEq] at hx
    omega
  cases reply with
  | refused => exact h.eraseIdx k
  | unanswered =>
    unfold Accounts.incr
    cases hw : incremented s.counter with
    | none => simpa only [hw, Option.none_or] using h.eraseIdx k
    | some w => simpa only [hw, Option.some_or] using (hraise w hw).eraseIdx k
  | ok =>
    unfold Accounts.incr
    cases hw : incremented s.counter with
    | none => simpa only [hw] using h.eraseIdx k
    | some w =>
      -- the new id is above the old counter, and so above all ids returned before
      obtain ⟨⟨nums, hids, hnodup, hnums⟩, hbegun, hready⟩ := (hraise w hw).eraseIdx k
      have hwv : w = v + 1 := incremented_eq (hv ▸ hw)
      have hnew : w ∉ nums := by
        intro hmem
        obtain ⟨old, hold, -, hnums'⟩ := h.ids
        have hsame : old = nums :=
          List.map_injective_iff.mpr (fun a b hab => Int.repr_injective hab) (hold.symm.trans hids)
        obtain ⟨-, x, hx, hle⟩ := hnums' w (hsame ▸ hmem)
        rw [hv, Option.some.injEq] at hx
        omega
      refine ⟨⟨w :: nums, ?_, List.nodup_cons.mpr ⟨hnew, hnodup⟩, ?_⟩, hbegun, hready⟩
      · exact congrArg (toString w :: ·) hids
      · intro n hn
        rcases List.mem_cons.mp hn with rfl | hn
        · exact ⟨by omega, n, rfl, le_refl n⟩
        · exact hnums n hn

theorem Counted.set (h : Counted s) {k : ℕ} {reply : Reply} (hP : SetInTime s (.set k reply)) :
    Counted (set s k reply) := by
  have hraise : reply ≠ .refused → Counted { s with counter := some accountIdBegin } := by
    intro hreply
    refine h.raise (le_refl _) ?_
    intro w hw
    rcases hP with hno | hnone | hsome
    · exact absurd hno hreply
    · rw [hnone] at hw
      exact absurd hw (by simp)
    · rw [hsome, Option.some.injEq] at hw
      exact hw.ge
  cases reply with
  | refused => exact h.eraseIdx k
  | ok => exact (hraise (by decide)).of_calls fun _ => rfl
  | unanswered => exact (hraise (by decide)).eraseIdx k

theorem Counted.step (h : Counted s) {act : Action} (hP : SetInTime s act)
    (hstep : step s act = some s') : Counted s' := by
  cases act with
  | call =>
    rw [← Option.some.inj hstep]
    refine h.of_calls fun hmem => h.ready ?_
    simpa using hmem
  | «exists» k reply =>
    simp only [Accounts.step] at hstep
    split_ifs at hstep with hk hcount
    · rw [← Option.some.inj hstep]
      refine h.of_calls fun hmem => h.ready ?_
      exact (List.mem_or_eq_of_mem_set hmem).resolve_right (by decide)
    · rw [← Option.some.inj hstep]
      refine h.of_calls fun _ => ?_
      unfold existsCount at hcount
      split_ifs at hcount with hboth
      · exact hboth.2
      · exact absurd rfl hcount
  | set k reply =>
    simp only [Accounts.step] at hstep
    split_ifs at hstep with hk
    rw [← Option.some.inj hstep]
    exact h.set hP
  | incr k reply =>
    simp only [Accounts.step] at hstep
    split_ifs at hstep with hk
    rw [← Option.some.inj hstep]
    exact h.incr hk reply

/-- As long as no call sets the counter after it has been incremented, no id is given out twice. -/
theorem ids_nodup_of_setInTime {as : List Action} {t : State} (hr : Run step SetInTime init as t) :
    t.ids.Nodup := by
  have hcounted : Counted t :=
    hr.preserves (I := Counted) (fun _ _ _ hs hP h => hs.step hP h) counted_init
  obtain ⟨nums, hids, hnodup, -⟩ := hcounted.ids
  rw [hids]
  -- no two numbers are written alike; the lemma is in `Std`, which only the whole of `Mathlib` imports
  exact hnodup.map fun a b hab => Int.repr_injective hab

/-- Two first registrations set the counter one after the other, a third one finds it there. -/
def registering : List Action :=
  [.call, .call, .exists 0 .ok, .exists 1 .ok, .set 0 .ok, .set 1 .ok, .incr 1 .ok, .incr 0 .ok,
    .call, .exists 0 .ok, .incr 0 .unanswered, .call, .exists 0 .ok, .incr 0 .ok]

theorem ids_nodup_registering : ∃ t, Run step SetInTime init registering t ∧
    t.ids = ["10004", "10002", "10001"] ∧ t.ids.Nodup := by
  obtain ⟨t, hr, ht⟩ := exists_run step SetInTime init registering
    (fun t => t.ids = ["10004", "10002", "10001"]) (by decide +kernel)
  exact ⟨t, hr, of_decide_eq_true ht, ids_nodup_of_setInTime hr⟩

/-- The second registration sets the counter back after the first one has taken its id. -/
def racing : List Action :=
  [.call, .call, .exists 0 .ok, .exists 1 .ok, .set 0 .ok, .incr 0 .ok, .set 0 .ok, .incr 0 .ok]

theorem same_id_of_racing :
    ∃ t, Run step Any init racing t ∧ t.ids = ["10001", "10001"] ∧ ¬ t.ids.Nodup := by
  obtain ⟨t, hr, ht⟩ := exists_run step Any init racing (fun t => t.ids = ["10001", "10001"])
    (by decide +kernel)
  have hids : t.ids = ["10001", "10001"] := of_decide_eq_true ht
  exact ⟨t, hr, hids, by rw [hids]; decide⟩

end GoServices.Accounts
