import GoServices.Schemes.Ledger
import GoServices.Schemes.Runs

/-! Votes for posts (`bluebell/dao/redis/vote.go`).

    A call of `VoteForPost` reads the time of the post, then the old vote of the user, and then
    changes the score and the vote in one transaction. Each of the three is one step here, so that
    the steps of different calls interleave freely; the clock is read along with the post's time.
    A read that fails yields zero, like one that finds nothing: the source only looks at `Val()`.
    A transaction may fail to be carried out. `base` is not part of the program: it remembers the
    score that a post was created with. Scores are integers, so the rounding of `float64` is not
    part of the model, and neither are the sets of posts by community. -/

namespace GoServices.Bluebell

open Ranges Ledger Runs

/-- `Direction` of `ParamVoteData`. -/
inductive Direction where
  | agree
  | cancel
  | oppose
  deriving DecidableEq

/-- The number that stands for a vote. -/
def Direction.value : Direction → ℤ
  | .agree => 1
  | .cancel => 0
  | .oppose => -1

/-- How long a post can be voted for. -/
def oneWeekInSeconds : ℤ := 7 * 24 * 3600

/-- What one vote is worth. -/
def scorePerVote : ℤ := 432

/-- Why a vote is refused. -/
inductive VoteError where
  | voteTimeExpire
  | voteRepeated
  deriving DecidableEq

variable (User Post : Type) [DecidableEq User] [DecidableEq Post]

/-- The sorted sets `post:time`, `post:score` and `post:voted:` followed by the post. -/
structure Redis where
  postTime : Map Post ℤ
  postScore : Map Post ℤ
  postVoted : Post → Map User ℤ

/-- A call `VoteForPost(userID, postID, value)`. -/
structure Request where
  userID : User
  postID : Post
  value : Direction
  deriving DecidableEq

/-- Where a call stands: before its first read, before its second, or before the transaction. -/
inductive Stage where
  | started
  | inTime
  | voted (ov : ℤ)
  deriving DecidableEq

/-- The old vote that a call has read. -/
def Stage.ov : Stage → Option ℤ
  | .voted ov => some ov
  | _ => none

/-- Redis, the score every post was created with, and the calls under way. -/
structure State where
  redis : Redis User Post
  base : Map Post ℤ
  calls : List (Request User Post × Stage)

/-- A post is created, or a vote sends its next command. -/
inductive Action where
  | createPost (postID : Post) (now now' : ℤ)
  | call (r : Request User Post)
  | readTime (k : ℕ) (now : ℤ) (answered : Bool)
  | readVote (k : ℕ) (answered : Bool)
  | exec (k : ℕ)
  | discard (k : ℕ)

variable {User Post}

/-! ### The calls -/

/-- `CreatePost`, which reads the clock twice. -/
def createPost (db : Redis User Post) (postID : Post) (now now' : ℤ) : Redis User Post :=
  { db with
    postTime := db.postTime.set postID now
    postScore := db.postScore.set postID now' }

/-- `ZScore(..).Val()`. -/
def zScore {K : Type} [DecidableEq K] (m : Map K ℤ) (k : K) (answered : Bool) : ℤ :=
  if answered then score m k else 0

/-- The first part of `VoteForPost`: is it too late for a vote? -/
def checkTime (db : Redis User Post) (r : Request User Post) (now : ℤ) (answered : Bool) :
    Except VoteError Stage :=
  if oneWeekInSeconds < now - zScore db.postTime r.postID answered then .error .voteTimeExpire
  else .ok .inTime

/-- The second part: has the user voted like this before? -/
def checkVote (db : Redis User Post) (r : Request User Post) (answered : Bool) :
    Except VoteError Stage :=
  let ov := zScore (db.postVoted r.postID) r.userID answered
  if r.value.value = ov then .error .voteRepeated else .ok (.voted ov)

/-- The change of the score when a vote goes from `ov` to `value`. -/
def scoreChange (ov value : ℤ) : ℤ :=
  let op := if ov < value then 1 else -1
  let diff : ℤ := (ov - value).natAbs
  op * diff * scorePerVote

/-- The transaction at the end of `VoteForPost`. -/
def exec (db : Redis User Post) (r : Request User Post) (ov : ℤ) : Redis User Post :=
  let voted := db.postVoted r.postID
  { db with
    postScore := incrBy db.postScore r.postID (scoreChange ov r.value.value)
    postVoted := Function.update db.postVoted r.postID
      (if r.value.value = 0 then voted.erase r.userID else voted.set r.userID r.value.value) }

/-! ### Interleavings -/

/-- Nothing is stored and nobody calls. -/
def init : State User Post := ⟨⟨Map.empty, Map.empty, fun _ => Map.empty⟩, Map.empty, []⟩

/-- A call goes on, or returns with an error. -/
def advance (s : State User Post) (k : ℕ) (r : Request User Post) :
    Except VoteError Stage → State User Post
  | .ok stage => { s with calls := s.calls.set k (r, stage) }
  | .error _ => { s with calls := s.calls.eraseIdx k }

/-- The step function; `none` when the action is not possible. Posts get ids that are new. -/
def step (s : State User Post) : Action User Post → Option (State User Post)
  | .createPost p now now' =>
    if p ∈ s.redis.postTime.keys ∨ p ∈ s.redis.postScore.keys ∨ (s.redis.postVoted p).keys ≠ ∅ then none
    else some { s with redis := createPost s.redis p now now', base := s.base.set p now' }
  | .call r => some { s with calls := s.calls ++ [(r, .started)] }
  | .readTime k now answered =>
    match s.calls[k]? with
    | some (r, .started) => some (advance s k r (checkTime s.redis r now answered))
    | _ => none
  | .readVote k answered =>
    match s.calls[k]? with
    | some (r, .inTime) => some (advance s k r (checkVote s.redis r answered))
    | _ => none
  | .exec k =>
    match s.calls[k]? with
    | some (r, .voted ov) =>
      some { s with redis := exec s.redis r ov, calls := s.calls.eraseIdx k }
    | _ => none
  | .discard k =>
    match s.calls[k]? with
    | some (_, .voted _) => some { s with calls := s.calls.eraseIdx k }
    | _ => none

/-- No call is between its reads and its transaction. -/
def Quiet (s : State User Post) : Prop := ∀ c ∈ s.calls, c.2.ov = none

/-- Every post has gained what its votes are worth. -/
def ScoresMatch (s : State User Post) : Prop :=
  ∀ p, score s.redis.postScore p - score s.base p = scorePerVote * total (s.redis.postVoted p)

/-- A transaction is only carried out while the vote it was computed from is the recorded one. -/
def UpToDate (s : State User Post) : Action User Post → Prop
  | .exec k => ∀ c ∈ s.calls[k]?, ∀ ov ∈ c.2.ov,
      score (s.redis.postVoted c.1.postID) c.1.userID = ov
  | _ => True

instance (s : State User Post) : (act : Action User Post) → Decidable (UpToDate s act)
  | .exec k => inferInstanceAs (Decidable (∀ c ∈ s.calls[k]?, ∀ ov ∈ c.2.ov,
      score (s.redis.postVoted c.1.postID) c.1.userID = ov))
  | .createPost _ _ _ => inferInstanceAs (Decidable True)
  | .call _ => inferInstanceAs (Decidable True)
  | .readTime _ _ _ => inferInstanceAs (Decidable True)
  | .readVote _ _ => inferInstanceAs (Decidable True)
  | .discard _ => inferInstanceAs (Decidable True)

/-! ### Scores and votes -/

variable {s s' : State User Post}

theorem scoreChange_eq (ov value : ℤ) : scoreChange ov value = scorePerVote * (value - ov) := by
  unfold scoreChange
  dsimp only
  split_ifs with h
  · have habs : ((ov - value).natAbs : ℤ) = value - ov := by omega
    rw [habs, one_mul, mul_comm]
  · have habs : ((ov - value).natAbs : ℤ) = -(value - ov) := by omega
    rw [habs, neg_one_mul, neg_neg, mul_comm]

/-- The vote is recorded, whichever of the two commands does it. -/
theorem score_exec (db : Redis User Post) (r : Request User Post) (ov : ℤ) (u : User) :
    score ((exec db r ov).postVoted r.postID) u =
      if u = r.userID then r.value.value else score (db.postVoted r.postID) u := by
  unfold exec
  dsimp only
  rw [Function.update_self]
  by_cases hv : r.value.value = 0
  · rw [if_pos hv, score_erase, hv]
  · rw [if_neg hv, score_set]

/-- The transaction changes the total of the votes by the difference to the recorded vote. -/
theorem total_exec (db : Redis User Post) (r : Request User Post) (ov : ℤ) (p : Post) :
    total ((exec db r ov).postVoted p) = total (db.postVoted p) +
      if p = r.postID then r.value.value - score (db.postVoted p) r.userID else 0 := by
  split_ifs with hp
  · subst hp
    have hothers : ∀ u, u ≠ r.userID → score ((exec db r ov).postVoted r.postID) u =
        score (db.postVoted r.postID) u := by
      intro u hu
      rw [score_exec, if_neg hu]
    have hdiff := total_sub_total hothers
    rw [score_exec, if_pos rfl] at hdiff
    omega
  · have hsame : (exec db r ov).postVoted p = db.postVoted p := Function.update_of_ne hp _ _
    rw [hsame, add_zero]

@[simp] theorem redis_advance (s : State User Post) (k : ℕ) (r : Request User Post)
    (res : Except VoteError Stage) : (advance s k r res).redis = s.redis := by
  cases res <;> rfl

@[simp] theorem base_advance (s : State User Post) (k : ℕ) (r : Request User Post)
    (res : Except VoteError Stage) : (advance s k r res).base = s.base := by
  cases res <;> rfl

/-- What a step does to the data: nothing, a new post, or the transaction of a call. -/
theorem step_cases {act : Action User Post} (h : step s act = some s') :
    (s'.redis = s.redis ∧ s'.base = s.base) ∨
    (∃ p now now', (s.redis.postVoted p).keys = ∅ ∧ s'.redis = createPost s.redis p now now' ∧
      s'.base = s.base.set p now') ∨
    (∃ k r ov, act = .exec k ∧ s.calls[k]? = some (r, .voted ov) ∧
      s'.redis = exec s.redis r ov ∧ s'.base = s.base) := by
  cases act with
  | createPost p now now' =>
    simp only [step] at h
    split_ifs at h with hnew
    rw [not_or, not_or, not_not] at hnew
    exact Or.inr (Or.inl ⟨p, now, now', hnew.2.2, by rw [← Option.some.inj h],
      by rw [← Option.some.inj h]⟩)
  | call r => exact Or.inl ⟨by rw [← Option.some.inj h], by rw [← Option.some.inj h]⟩
  | readTime k now answered =>
    simp only [step] at h
    split at h
    · exact Or.inl ⟨by rw [← Option.some.inj h, redis_advance], by rw [← Option.some.inj h, base_advance]⟩
    · exact absurd h (by simp)
  | readVote k answered =>
    simp only [step] at h
    split at h
    · exact Or.inl ⟨by rw [← Option.some.inj h, redis_advance], by rw [← Option.some.inj h, base_advance]⟩
    · exact absurd h (by simp)
  | exec k =>
    simp only [step] at h
    split at h
    case h_1 r ov hk =>
      exact Or.inr (Or.inr ⟨k, r, ov, rfl, hk, by rw [← Option.some.inj h], by rw [← Option.some.inj h]⟩)
    · exact absurd h (by simp)
  | discard k =>
    simp only [step] at h
    split at h
    · exact Or.inl ⟨by rw [← Option.some.inj h], by rw [← Option.some.inj h]⟩
    · exact absurd h (by simp)

theorem total_of_keys_empty {K : Type} [DecidableEq K] {m : Map K ℤ} (h : m.keys = ∅) : total m = 0 := by
  rw [total, h, Finset.sum_empty]

/-- An up-to-date step keeps scores and votes together. -/
theorem scoresMatch_step (hs : ScoresMatch s) {act : Action User Post} (hP : UpToDate s act)
    (h : step s act = some s') : ScoresMatch s' := by
  intro p
  have hp := hs p
  rcases step_cases h with ⟨hr, hb⟩ | ⟨q, now, now', hnone, hr, hb⟩ | ⟨k, r, ov, rfl, hk, hr, hb⟩
  · rw [hr, hb]
    exact hp
  · rw [hr, hb]
    simp only [createPost, score_set]
    split_ifs with hq
    · rw [hq, total_of_keys_empty hnone]
      omega
    · exact hp
  · have hov : score (s.redis.postVoted r.postID) r.userID = ov := hP _ hk ov rfl
    rw [hr, hb, total_exec]
    simp only [exec, score_incrBy, scoreChange_eq]
    split_ifs with hq
    · rw [hq] at hp ⊢
      rw [hov, mul_add, ← hp]
      omega
    · rw [add_zero, add_zero]
      exact hp

/-- As long as no transaction works on an outdated vote, every score is what the votes make it. -/
theorem scoresMatch_of_upToDate {as : List (Action User Post)} {t : State User Post}
    (hr : Run step UpToDate init as t) : ScoresMatch t :=
  hr.preserves (I := ScoresMatch) (fun _ _ _ hs hP h => scoresMatch_step hs hP h) fun _ => by
    simp [init]

/-- Two users vote, one of them changes their mind; a late and a repeated call are refused. -/
def taking_turns : List (Action ℕ ℕ) :=
  [.createPost 7 999 1000, .call ⟨1, 7, .agree⟩, .call ⟨2, 7, .oppose⟩, .readTime 0 2000 true,
    .readTime 1 2000 true, .readVote 1 true, .readVote 0 true, .exec 1, .exec 0,
    .call ⟨2, 7, .agree⟩, .readTime 0 3000 true, .readVote 0 true, .exec 0,
    .call ⟨2, 7, .agree⟩, .readTime 0 4000 true, .readVote 0 true,
    .call ⟨3, 7, .agree⟩, .readTime 0 700000 true]

theorem scoresMatch_taking_turns : ∃ t : State ℕ ℕ, Run step UpToDate init taking_turns t ∧
    score t.redis.postScore 7 = 1000 + 2 * 432 ∧ ScoresMatch t := by
  obtain ⟨t, hr, ht⟩ := exists_run step UpToDate (init : State ℕ ℕ) taking_turns
    (fun t => score t.redis.postScore 7 = 1000 + 2 * 432) (by decide +kernel)
  exact ⟨t, hr, of_decide_eq_true ht, scoresMatch_of_upToDate hr⟩

/-- One user agrees twice at once, and both calls find no old vote. -/
def voting_twice : List (Action ℕ ℕ) :=
  [.createPost 7 999 1000, .call ⟨1, 7, .agree⟩, .call ⟨1, 7, .agree⟩, .readTime 0 2000 true,
    .readTime 1 2000 true, .readVote 0 true, .readVote 1 true, .exec 0, .exec 0]

theorem score_of_voting_twice : ∃ t : State ℕ ℕ, Run step Any init voting_twice t ∧ Quiet t ∧
    score t.redis.postScore 7 - score t.base 7 = 2 * 432 ∧ total (t.redis.postVoted 7) = 1 ∧
    ¬ ScoresMatch t := by
  obtain ⟨t, hr, ht⟩ := exists_run step Any (init : State ℕ ℕ) voting_twice
    (fun t => t.calls = [] ∧ score t.redis.postScore 7 - score t.base 7 = 2 * 432 ∧
      total (t.redis.postVoted 7) = 1) (by decide +kernel)
  obtain ⟨hcalls, hscore, htotal⟩ := of_decide_eq_true ht
  refine ⟨t, hr, ?_, hscore, htotal, ?_⟩
  · intro c hc
    rw [hcalls] at hc
    exact absurd hc List.not_mem_nil
  · intro hmatch
    have hp := hmatch 7
    rw [hscore, htotal] at hp
    exact absurd hp (by decide)

end GoServices.Bluebell
