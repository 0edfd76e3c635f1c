import GoServices.Shard.Ownership

/-! A numbered write takes effect at most once, wherever it is sent.

    A write that ran on shard `s` in configuration `m` is in the table of every group that has the
    shard in a later configuration: in the group's own table from then on, and in the next owner's
    because the table comes along with the data. -/

namespace GoServices.ShardKv

open Dedup Runs
open KvRaft (Op)

/-- The next command of group `g` after `pre` is the write `op`, and it is run. -/
structure Executed (c : System) (g : Gid) (pre : List RaftCommand) (op : Op) : Prop where
  mem : pre ++ [.clientOperation op] <+: c.log g
  runs : (state g pre).Executes g op

/-- The group of this state owns the shard and has it. -/
def Possesses (H : History) (g : Gid) (kv : ShardKV) (s : Fin nShards) : Prop :=
  H.own kv.num s = g.val ∧ kv.status s ≠ .moveIn

/-- Whoever has a shard knows all writes that ran on it in earlier configurations. -/
def Inherited (H : History) (c : System) : Prop :=
  ∀ g pre op x pre', Executed c g pre op → pre' <+: c.log x → (state g pre).num < (state x pre').num →
    Possesses H x (state x pre') (key2shard op.key) →
    Blocks LastOperationInfo.seqId (state x pre').duplicateTable op.clientId op.seqId

section Executed

variable {H : History} {c : System} {g x : Gid} {pre pre' : List RaftCommand} {op : Op}

theorem num_clientOperation (g : Gid) (pre : List RaftCommand) (op : Op) :
    (state g (pre ++ [.clientOperation op])).num = (state g pre).num := by
  rw [state_concat]
  exact congrArg Config.num (ShardKV.applyClientOperation_frame _ _ _).1

theorem Executed.possesses (h : Executed c g pre op) (hs : Sound H c) :
    Possesses H g (state g pre) (key2shard op.key) := by
  have hpre : pre <+: c.log g := (List.prefix_append _ _).trans h.mem
  obtain ⟨hown, hh⟩ := ((hs.legal g).cut hpre).groupOk.1.owns_of_serves h.runs.1
  exact ⟨hown, hh.elim (fun hlt => absurd hlt (Nat.lt_irrefl _)) And.right⟩

/-- The group's own table has the write from then on. -/
theorem Executed.blocks (h : Executed c g pre op) (hp : pre ++ [.clientOperation op] <+: pre') :
    Blocks LastOperationInfo.seqId (state g pre').duplicateTable op.clientId op.seqId := by
  refine (state_later hp).table _ _ ?_
  rw [state_concat]
  exact ShardKV.blocks_applyClientOperation h.runs

/-- A write that ran in the configuration that the group then leaves ran before it left. -/
theorem Executed.before_enters (h : Executed c g pre op) {command : RaftCommand}
    (hent : Enters g (c.log g) ((state g pre).num + 1) pre' command) :
    pre ++ [.clientOperation op] <+: pre' := by
  have hnum := num_clientOperation g pre op
  have hnot : ¬ pre' ++ [command] <+: pre ++ [.clientOperation op] := fun hx => by
    have := (state_later (g := g) hx).num
    have := hent.after
    omega
  rcases List.prefix_or_prefix_of_prefix hent.mem h.mem with hx | hx
  · exact absurd hx hnot
  · exact (List.prefix_concat_iff.mp hx).resolve_left fun heq => hnot (heq ▸ List.prefix_rfl)

/-- Nothing is under way in a group that enters a configuration. -/
theorem Enters.normal {n : ℕ} {command : RaftCommand} (hs : Sound H c)
    (h : Enters g (c.log g) n pre command) (s : Fin nShards) : (state g pre).status s = .normal := by
  have hbef := h.before
  have haft := h.after
  cases ((hs.legal g).cut h.mem).effect.fate s with
  | same hnum hst => omega
  | received hnum hd hin heq =>
    rw [heq] at haft
    have haft' : (state g pre).num = n := haft
    omega
  | settled hnum hgc hn => omega
  | dropped hnum hnum' hmem hout hnew => omega
  | entered hn heq => exact hn s

/-- A group that leaves a configuration in which it had the shard knows all writes up to then. -/
theorem Inherited.blocks_enters (hI : Inherited H c) (hs : Sound H c) (he : Executed c g pre op)
    {n : ℕ} {command : RaftCommand} (hent : Enters x (c.log x) n pre' command)
    (hown : H.own (n - 1) (key2shard op.key) = x.val) (hlt : (state g pre).num < n) :
    Blocks LastOperationInfo.seqId (state x pre').duplicateTable op.clientId op.seqId := by
  have hpre : pre' <+: c.log x := (List.prefix_append _ _).trans hent.mem
  have hbef := hent.before
  have hposs : Possesses H x (state x pre') (key2shard op.key) :=
    ⟨by rw [← hown]; congr; omega, by rw [hent.normal hs]; decide⟩
  rcases Nat.lt_or_ge (state g pre).num (state x pre').num with hlt' | hge
  · exact hI g pre op x pre' he hpre hlt' hposs
  · have heq : (state g pre).num = n - 1 := by omega
    obtain rfl : g = x := Subtype.ext ((he.possesses hs).1.symm.trans (heq ▸ hown))
    exact he.blocks (he.before_enters (show Enters g (c.log g) ((state g pre).num + 1) pre' command from
      ⟨hent.mem, by omega, by rw [hent.after]; omega⟩))

end Executed

/-! ### Steps -/

section Steps

variable {H : History} {c c' : System} {g x : Gid} {pre : List RaftCommand} {op : Op}

theorem History.Assigned.ne_zero (h : H.Assigned) {m n : ℕ} {s : Fin nShards} (hmn : m ≤ n)
    (hm : H.own m s ≠ 0) : H.own n s ≠ 0 := by
  induction hmn with
  | refl => exact hm
  | step _ ih => exact h _ s ih

/-- While a write runs, no group has the shard in a later configuration. -/
theorem Sound.no_later_owner (h : Sound H c) (hkeep : H.Assigned) {s : Fin nShards}
    (hg : H.own (state g (c.log g)).num s = g.val) (hp : pre <+: c.log x)
    (hposs : Possesses H x (state x pre) s) : (state x pre).num ≤ (state g (c.log g)).num := by
  by_contra hlt
  have hh : Holds (state x (c.log x)) (state x pre).num s :=
    Holds.later (Or.inr ⟨rfl, hposs.2⟩) (state_later hp)
  exact absurd ((h.orderly hkeep s).lt_num hg (not_le.mp hlt) hposs.1 hh) (Nat.lt_irrefl _)

/-- The group that commits comes to have the shard, or had it before. -/
theorem Inherited.commit_self (hI : Inherited H c) (hkeep : H.Assigned) (hs : Sound H c)
    {command : RaftCommand} (hs' : Sound H (c.commit x command)) (he : Executed c g pre op)
    (hlt : (state g pre).num < (state x (c.log x ++ [command])).num)
    (hposs : Possesses H x (state x (c.log x ++ [command])) (key2shard op.key)) :
    Blocks LastOperationInfo.seqId (state x (c.log x ++ [command])).duplicateTable op.clientId
      op.seqId := by
  have hlegal : Legal H x (c.log x ++ [command]) := log_commit_self ▸ hs'.legal x
  have hok := (hs.legal x).groupOk.1
  have hl : Later (state x (c.log x)) (state x (c.log x ++ [command])) :=
    state_later (List.prefix_append _ _)
  have hbefore : (state x (c.log x ++ [command])).num = (state x (c.log x)).num →
      (state x (c.log x)).status (key2shard op.key) ≠ .moveIn →
      Blocks LastOperationInfo.seqId (state x (c.log x ++ [command])).duplicateTable op.clientId
        op.seqId := fun hnum hst =>
    hl.table _ _ (hI g pre op x _ he List.prefix_rfl (hnum ▸ hlt) ⟨hnum ▸ hposs.1, hst⟩)
  by_cases hin : (state x (c.log x)).status (key2shard op.key) = .moveIn
  · -- the shard arrives, and with it the table of the previous owner
    obtain ⟨a, pre', command', hm, hent, -, hle⟩ := hs'.handed x (c.log x) command _
      (by rw [log_commit_self]) hin hposs.2
    have hax : a ≠ x := fun hax => (hok.inward _ (Or.inl hin)).2.1 (hax ▸ hm.1)
    rw [log_commit_of_ne hax] at hent
    obtain ⟨reply, -, -, -, -, heq⟩ := (hlegal.effect.fate _).leaves hin hposs.2
    have hnum : (state x (c.log x ++ [command])).num = (state x (c.log x)).num := by rw [heq]; rfl
    have hb := hI.blocks_enters hs he hent hm.1 (hnum ▸ hlt)
    exact hle _ _ ((state_later (List.prefix_append _ _)).table _ _ hb)
  · cases hlegal.effect.fate (key2shard op.key) with
    | same hnum hst => exact hbefore hnum hin
    | received hnum hd hst heq => exact absurd hst hin
    | settled hnum hgc hn => exact hbefore hnum hin
    | dropped hnum hnum' hmem hout hnew => exact hbefore hnum' hin
    | entered hn heq =>
      have hnum : (state x (c.log x ++ [command])).num = (state x (c.log x)).num + 1 := by
        rw [heq]; exact num_enterConfig H x _
      obtain ⟨hown, hst⟩ := hposs
      rw [hnum] at hown hlt
      rw [heq, hok.status_enterConfig hn] at hst
      have hown' : H.own (state x (c.log x)).num (key2shard op.key) = x.val := by
        -- otherwise the shard would have to be waited for
        by_contra hne
        have hne0 : H.own (state x (c.log x)).num (key2shard op.key) ≠ 0 :=
          hkeep.ne_zero (Nat.le_of_lt_succ hlt) (by rw [(he.possesses hs).1]; exact g.property)
        exact hst (by rw [newStatus, if_pos ⟨hne, hown⟩, if_pos hne0])
      refine hl.table _ _ ?_
      rcases Nat.lt_or_ge (state g pre).num (state x (c.log x)).num with hlt' | hge
      · exact hI g pre op x _ he List.prefix_rfl hlt' ⟨hown', hin⟩
      · have heq' : (state g pre).num = (state x (c.log x)).num := by omega
        obtain rfl : g = x := Subtype.ext ((he.possesses hs).1.symm.trans (heq' ▸ hown'))
        exact he.blocks he.mem

theorem Inherited.commit (hI : Inherited H c) (hkeep : H.Assigned) (hs : Sound H c) {y : Gid}
    {command : RaftCommand} (hs' : Sound H (c.commit y command)) : Inherited H (c.commit y command) := by
  intro g pre op x pre' he hp hlt hposs
  have hold : pre ++ [.clientOperation op] <+: c.log g ∨
      (c.commit y command).log g = pre ++ [.clientOperation op] := by
    have hmem := he.mem
    rcases eq_or_ne g y with rfl | hg
    · rw [log_commit_self] at hmem ⊢
      exact (List.prefix_concat_iff.mp hmem).symm.imp_right Eq.symm
    · rw [log_commit_of_ne hg] at hmem; exact Or.inl hmem
  rcases hold with hold | hnew
  · have he' : Executed c g pre op := ⟨hold, he.runs⟩
    rcases eq_or_ne x y with rfl | hx
    · rw [log_commit_self] at hp
      rcases List.prefix_concat_iff.mp hp with rfl | hp
      · exact hI.commit_self hkeep hs hs' he' hlt hposs
      · exact hI g pre op x pre' he' hp hlt hposs
    · rw [log_commit_of_ne hx] at hp
      exact hI g pre op x pre' he' hp hlt hposs
  · have hnum := num_clientOperation g pre op
    have hown := (he.possesses hs').1
    rw [← hnum, ← hnew] at hown hlt
    exact absurd (hs'.no_later_owner hkeep hown hp hposs) (not_le.mpr hlt)

end Steps

/-! ### Requests -/

/-- A client uses a number for one key only, however often it sends the request. -/
def SameKey (key : ℤ → ℤ → String) (_ : System) : Action → Prop
  | .putAppend _ _ args => args.key = key args.clientId args.seqId
  | _ => True

instance (key : ℤ → ℤ → String) (c : System) : (act : Action) → Decidable (SameKey key c act)
  | .putAppend _ _ args => inferInstanceAs (Decidable (args.key = key args.clientId args.seqId))
  | .get _ _ _ | .fetchConfig _ _ _ | .requestShards _ _ _ _ | .requestDelete _ _ _ _
  | .deliver _ _ _ | .commit _ _ => .isTrue trivial

/-- All writes under way or committed are for the key of their number. -/
def Keyed (key : ℤ → ℤ → String) (c : System) : Prop :=
  ∀ g op, .clientOperation op ∈ c.proposed g ∨ .clientOperation op ∈ c.log g →
    op.opType ≠ .opGet → op.key = key op.clientId op.seqId

section Keyed

variable {H : History} {c c' : System} {key : ℤ → ℤ → String}

theorem mem_propose {g y : Gid} {command command' : RaftCommand}
    (h : command ∈ (c.propose y command').proposed g) : command ∈ c.proposed g ∨ command = command' := by
  unfold System.propose at h
  dsimp only at h
  rcases eq_or_ne g y with rfl | hg
  · rw [Function.update_self] at h
    exact (List.mem_append.mp h).imp_right List.mem_singleton.mp
  · rw [Function.update_of_ne hg] at h; exact Or.inl h

/-- Writes are proposed for requests only. -/
theorem write_of_step {act : Action} (hs : c.step H act = some c') {g : Gid} {op : Op}
    (hmem : .clientOperation op ∈ c'.proposed g) (hget : op.opType ≠ .opGet) :
    .clientOperation op ∈ c.proposed g ∨ ∃ y srv args, act = .putAppend y srv args ∧
      op.key = args.key ∧ op.clientId = args.clientId ∧ op.seqId = args.seqId := by
  cases act with
  | get y srv k =>
    obtain rfl := Option.some.inj hs
    unfold ShardKV.get at hmem
    split_ifs at hmem
    · rcases mem_propose hmem with hold | heq
      · exact Or.inl hold
      · cases heq; exact absurd rfl hget
    · exact Or.inl hmem
  | putAppend y srv args =>
    obtain ⟨handled, hh, rfl⟩ := Option.map_eq_some_iff.mp hs
    unfold ShardKV.putAppend at hh
    split_ifs at hh
    · cases hh; exact Or.inl hmem
    · cases hh; exact Or.inl hmem
    · obtain ⟨opType, -, rfl⟩ := Option.map_eq_some_iff.mp hh
      rcases mem_propose hmem with hold | heq
      · exact Or.inl hold
      · cases heq; exact Or.inr ⟨y, srv, args, rfl, rfl, rfl, rfl⟩
  | fetchConfig y srv n =>
    obtain ⟨command, hc, rfl⟩ := Option.map_eq_some_iff.mp hs
    unfold ShardKV.fetchConfigTask at hc
    split_ifs at hc
    cases hc
    exact Or.inl ((mem_propose hmem).resolve_right fun h => by cases h)
  | requestShards y srv order src =>
    obtain ⟨_, -, rfl⟩ := Option.map_eq_some_iff.mp hs; exact Or.inl hmem
  | requestDelete y srv order src =>
    obtain ⟨_, -, rfl⟩ := Option.map_eq_some_iff.mp hs; exact Or.inl hmem
  | deliver k srv err =>
    obtain ⟨packet, -, hs⟩ := Option.bind_eq_some_iff.mp hs
    cases packet <;> simp only [System.deliver, ShardKV.deleteShardsData] at hs
    case getArgs => obtain rfl := Option.some.inj hs; exact Or.inl hmem
    all_goals split_ifs at hs <;> obtain rfl := Option.some.inj hs
    · exact Or.inl ((mem_propose hmem).resolve_right fun h => by cases h)
    · exact Or.inl hmem
    · exact Or.inl ((mem_propose hmem).resolve_right fun h => by cases h)
    · exact Or.inl ((mem_propose hmem).resolve_right fun h => by cases h)
  | commit y k => obtain ⟨_, -, rfl⟩ := Option.map_eq_some_iff.mp hs; exact Or.inl hmem

theorem Keyed.step (h : Keyed key c) {act : Action} (hkey : SameKey key c act)
    (hs : c.step H act = some c') : Keyed key c' := by
  rintro g op (hmem | hmem) hget
  · rcases write_of_step hs hmem hget with hold | ⟨y, srv, args, rfl, hk, hcl, hsq⟩
    · exact h g op (Or.inl hold) hget
    · rw [hk, hcl, hsq]; exact hkey
  · rcases log_of_step hs with hlog | ⟨y, k, command, rfl, hk, rfl⟩
    · rw [hlog] at hmem; exact h g op (Or.inr hmem) hget
    · rcases eq_or_ne g y with rfl | hg
      · rw [log_commit_self, List.mem_append, List.mem_singleton] at hmem
        rcases hmem with hold | rfl
        · exact h g op (Or.inr hold) hget
        · exact h g op (Or.inl (List.mem_of_getElem? hk)) hget
      · rw [log_commit_of_ne hg] at hmem; exact h g op (Or.inr hmem) hget

end Keyed

/-! ### Runs -/

section Run

variable {H : History} {c : System} {key : ℤ → ℤ → String}

theorem inherited_run (hkeep : H.Assigned) {acts : List Action}
    (hc : Run (System.step H) (SameKey key) System.init acts c) :
    Sound H c ∧ Inherited H c ∧ Keyed key c := by
  refine hc.preserves (I := fun c => Sound H c ∧ Inherited H c ∧ Keyed key c)
    (fun c act c' ⟨hs, hI, hk⟩ hkey hstep => ⟨hs.step hstep, ?_, hk.step hkey hstep⟩)
    ⟨sound_init H, fun g pre op x pre' he => ?_, fun g op hmem => ?_⟩
  · rcases log_of_step hstep with hlog | ⟨y, k, command, rfl, hmem, rfl⟩
    · intro g pre op x pre' he hp
      rw [hlog] at hp
      exact hI g pre op x pre' ⟨hlog ▸ he.mem, he.runs⟩ hp
    · exact hI.commit hkeep hs (hs.step hstep)
  · exact absurd he.mem (by simp [System.init])
  · exact absurd hmem (by simp [System.init])

theorem Inherited.not_lt (hI : Inherited H c) (hs : Sound H c) {g g' : Gid}
    {pre pre' : List RaftCommand} {op op' : Op} (he : Executed c g pre op)
    (he' : Executed c g' pre' op') (hkey : op.key = op'.key) (hcl : op.clientId = op'.clientId)
    (hsq : op.seqId = op'.seqId) : ¬ (state g pre).num < (state g' pre').num := fun hlt =>
  he'.runs.2.2 (hcl ▸ hsq ▸ hI g pre op g' pre' he ((List.prefix_append _ _).trans he'.mem) hlt
    (hkey ▸ he'.possesses hs))

/-- Over all groups, a numbered write of a client runs at most once. -/
theorem write_executes_once (hkeep : H.Assigned) {acts : List Action}
    (hc : Run (System.step H) (SameKey key) System.init acts c) {g g' : Gid}
    {order order' : ℕ → ShardOrder} {pre pre' : List RaftCommand} {op op' : Op}
    (hmem : pre ++ [.clientOperation op] <+: c.log g) (hrun : (replay g order pre).Executes g op)
    (hmem' : pre' ++ [.clientOperation op'] <+: c.log g')
    (hrun' : (replay g' order' pre').Executes g' op')
    (hcl : op.clientId = op'.clientId) (hsq : op.seqId = op'.seqId) : g = g' ∧ pre = pre' := by
  obtain ⟨hs, hI, hk⟩ := inherited_run hkeep hc
  have hpre : pre <+: c.log g := (List.prefix_append _ _).trans hmem
  have hpre' : pre' <+: c.log g' := (List.prefix_append _ _).trans hmem'
  rw [hs.replay_eq hpre] at hrun
  rw [hs.replay_eq hpre'] at hrun'
  have he : Executed c g pre op := ⟨hmem, hrun⟩
  have he' : Executed c g' pre' op' := ⟨hmem', hrun'⟩
  have hkey : op.key = op'.key := by
    rw [hk g op (Or.inr (hmem.subset (by simp))) hrun.2.1,
      hk g' op' (Or.inr (hmem'.subset (by simp))) hrun'.2.1, hcl, hsq]
  have hnum : (state g pre).num = (state g' pre').num :=
    Nat.le_antisymm (not_lt.mp (hI.not_lt hs he' he hkey.symm hcl.symm hsq.symm))
      (not_lt.mp (hI.not_lt hs he he' hkey hcl hsq))
  -- in one configuration the shard has one owner
  obtain rfl : g = g' := by
    have h₁ := (he.possesses hs).1
    have h₂ := (he'.possesses hs).1
    rw [hnum, hkey] at h₁
    exact Subtype.ext (h₁.symm.trans h₂)
  refine ⟨rfl, ?_⟩
  rcases List.prefix_or_prefix_of_prefix hmem hmem' with hp | hp <;>
    rcases List.prefix_concat_iff.mp hp with heq | hp
  · exact (List.append_inj' heq rfl).1
  · exact absurd (he.blocks hp) (hcl ▸ hsq ▸ hrun'.2.2)
  · exact (List.append_inj' heq rfl).1.symm
  · exact absurd (he'.blocks hp) (hcl ▸ hsq ▸ hrun.2.2)

end Run

instance (kv : ShardKV) (gid : Gid) (op : Op) : Decidable (kv.Executes gid op) :=
  inferInstanceAs (Decidable (_ ∧ _ ∧ ¬ _))

/-- One append of client 1, proposed twice in group 1 and committed once. Then the shard goes to group
    2, where the client sends the append again, and group 1 commits it a second time. -/
def resent : List Action :=
  [.fetchConfig gid1 (leader 0) 1, .commit gid1 0,
    .putAppend gid1 (leader 1) ⟨"d", "x", "Append", 1, 0⟩,
    .putAppend gid1 (leader 1) ⟨"d", "x", "Append", 1, 0⟩, .commit gid1 1,
    .fetchConfig gid1 (leader 2) 2, .commit gid1 3,
    .fetchConfig gid2 (leader 0) 1, .commit gid2 0, .fetchConfig gid2 (leader 1) 2, .commit gid2 1,
    .requestShards gid2 (leader 2) ascending gid1, .deliver 0 (leader 3) .ok,
    .deliver 1 (leader 0) .ok, .commit gid2 2,
    .putAppend gid2 (leader 3) ⟨"d", "x", "Append", 1, 0⟩, .commit gid1 2]

/-- Whether a command is this client operation. -/
def isOperation (op : Op) : RaftCommand → Bool
  | .clientOperation op' => decide (op' = op)
  | _ => false

theorem eq_of_isOperation {op : Op} {command : RaftCommand} (h : isOperation op command = true) :
    command = .clientOperation op := by
  cases command with
  | clientOperation op' => rw [of_decide_eq_true h]
  | configChange _ | shardMigration _ | shardGC _ => cases h

theorem write_executes_once_resent : ∃ c pre,
    Run (System.step joined) (SameKey fun _ _ => "d") System.init resent c ∧
    pre ++ [.clientOperation ⟨"d", "x", .opAppend, 1, 0⟩] <+: c.log gid1 ∧
    (state gid1 pre).Executes gid1 ⟨"d", "x", .opAppend, 1, 0⟩ ∧
    (state gid2 (c.log gid2)).matchGroup gid2 "d" = true ∧
    ((state gid2 (c.log gid2)).shards 0).kv "d" = some "x" ∧
    ∀ g pre' op, pre' ++ [.clientOperation op] <+: c.log g → (state g pre').Executes g op →
      op.clientId = 1 → op.seqId = 0 → gid1 = g ∧ pre = pre' := by
  obtain ⟨c, hc, hq⟩ := exists_run (System.step joined) (SameKey fun _ _ => "d") System.init resent
    (fun c => ((c.log gid1)[1]?).any (isOperation ⟨"d", "x", .opAppend, 1, 0⟩) &&
      decide ((state gid1 ((c.log gid1).take 1)).Executes gid1 ⟨"d", "x", .opAppend, 1, 0⟩ ∧
        (state gid2 (c.log gid2)).matchGroup gid2 "d" = true ∧
        ((state gid2 (c.log gid2)).shards 0).kv "d" = some "x")) (by decide +kernel)
  obtain ⟨hop, hrun⟩ := Bool.and_eq_true_iff.mp hq
  obtain ⟨command, hget, hop⟩ := (Option.any_eq_true _ _).mp hop
  have hmem : (c.log gid1).take 1 ++ [.clientOperation ⟨"d", "x", .opAppend, 1, 0⟩] <+: c.log gid1 := by
    obtain ⟨hlt, hat⟩ := List.getElem?_eq_some_iff.mp hget
    rw [← eq_of_isOperation hop, ← hat, List.take_append_getElem hlt]
    exact List.take_prefix _ _
  obtain ⟨hrun, hserves, hvalue⟩ := of_decide_eq_true hrun
  exact ⟨c, _, hc, hmem, hrun, hserves, hvalue, fun g pre' op hmem' hrun' hcl hsq =>
    write_executes_once joined_assigned hc hmem hrun hmem' hrun' hcl.symm hsq.symm⟩

end GoServices.ShardKv
