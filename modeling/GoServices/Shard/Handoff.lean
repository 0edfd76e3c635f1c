import GoServices.Shard.Ownership

/-! What a group has after a handoff.

    The receiver ends up with all that the sender had when it entered the configuration. It has
    nothing else if its own map was empty before; but it is not empty when the shard once was taken
    from the group without a receiver (gid 0), because then nothing is ever deleted. -/

namespace GoServices.ShardKv

open Dedup Runs

/-- Shard `s` goes from `a` to `b` with configuration `n + 1`, and with `command` it leaves `MoveIn`
    at a server of `b`. -/
structure Arrives (H : History) (c : System) (a b : Gid) (n : ℕ) (s : Fin nShards)
    (order : ℕ → ShardOrder) (pre : List RaftCommand) (command : RaftCommand) : Prop where
  src : H.own n s = a.val
  dst : H.own (n + 1) s = b.val
  ne : a ≠ b
  mem : pre ++ [command] <+: c.log b
  num : (replay b order pre).num = n + 1
  before : (replay b order pre).status s = .moveIn
  after : (replay b order (pre ++ [command])).status s ≠ .moveIn

section Handoff

variable {H : History} {c : System} {a b : Gid} {n : ℕ} {s : Fin nShards} {order : ℕ → ShardOrder}
  {pre : List RaftCommand} {command : RaftCommand}

/-- The receiver's map is the sender's over its own, and its table covers the sender's. -/
theorem Sound.arrives (h : Sound H c) (ha : Arrives H c a b n s order pre command) :
    ∃ pre' command', Enters a (c.log a) (n + 1) pre' command' ∧
      (∀ k, ((state b (pre ++ [command])).shards s).kv k =
        (((state a (pre' ++ [command'])).shards s).kv k).or (((state b pre).shards s).kv k)) ∧
      Le LastOperationInfo.seqId (state a (pre' ++ [command'])).duplicateTable
        (state b (pre ++ [command])).duplicateTable := by
  have hpre : pre <+: c.log b := (List.prefix_append _ _).trans ha.mem
  obtain ⟨hsrc, -, -, hmem, hnum, hbef, haft⟩ := ha
  rw [h.replay_eq hpre] at hnum hbef
  rw [h.replay_eq hmem] at haft
  obtain ⟨a', pre', command', hm, hent, hrest⟩ := h.handed b pre command s hmem hbef haft
  rw [hnum] at hm hent
  obtain rfl : a' = a := Subtype.ext (hm.1.symm.trans hsrc)
  exact ⟨pre', command', hent, hrest⟩

/-- No write is lost: every key arrives with its value, and so does every entry of the table. -/
theorem handoff_keeps_writes {acts : List Action}
    (hc : Run (System.step H) Any System.init acts c) (ha : Arrives H c a b n s order pre command) :
    ∃ pre' command', Enters a (c.log a) (n + 1) pre' command' ∧ ∀ order',
      (∀ k v, ((replay a order' (pre' ++ [command'])).shards s).kv k = some v →
        ((replay b order (pre ++ [command])).shards s).kv k = some v) ∧
      ∀ clientId info, (replay a order' (pre' ++ [command'])).duplicateTable clientId = some info →
        ∃ info', (replay b order (pre ++ [command])).duplicateTable clientId = some info' ∧
          info.seqId ≤ info'.seqId := by
  have h := sound_run hc
  obtain ⟨pre', command', hent, hkv, hle⟩ := h.arrives ha
  refine ⟨pre', command', hent, fun order' => ?_⟩
  rw [h.replay_eq hent.mem, h.replay_eq ha.mem]
  refine ⟨fun k v hk => by rw [hkv k, hk]; rfl, fun clientId info hi => ?_⟩
  exact hle clientId info.seqId ⟨info, hi, le_refl _⟩

/-- The same for a position of the log and the ascending order. -/
theorem arrives_take {i : ℕ} (hi : i < (c.log b).length) (hsrc : H.own n s = a.val)
    (hdst : H.own (n + 1) s = b.val) (hne : a ≠ b) (hnum : (state b ((c.log b).take i)).num = n + 1)
    (hbef : (state b ((c.log b).take i)).status s = .moveIn)
    (haft : (state b ((c.log b).take (i + 1))).status s ≠ .moveIn) :
    Arrives H c a b n s (fun _ => ascending) ((c.log b).take i) (c.log b)[i] := by
  have htake : (c.log b).take i ++ [(c.log b)[i]] = (c.log b).take (i + 1) :=
    List.take_append_getElem hi
  exact ⟨hsrc, hdst, hne, htake ▸ List.take_prefix _ _, hnum, hbef, htake ▸ haft⟩

end Handoff

/-- In the handoff of `Ownership`, shard 0 arrives at group 2 with its third command. -/
theorem handoff_keeps_writes_handedOff : ∃ c pre command,
    Run (System.step joined) Any System.init handedOff c ∧
    Arrives joined c gid1 gid2 1 0 (fun _ => ascending) pre command ∧
    ∃ pre' command', Enters gid1 (c.log gid1) 2 pre' command' ∧
      ∀ k v, ((state gid1 (pre' ++ [command'])).shards 0).kv k = some v →
        ((state gid2 (pre ++ [command])).shards 0).kv k = some v := by
  obtain ⟨c, hc, hq⟩ := exists_run (System.step joined) Any System.init handedOff
    (fun c => decide (2 < (c.log gid2).length ∧ (state gid2 ((c.log gid2).take 2)).num = 2 ∧
      (state gid2 ((c.log gid2).take 2)).status 0 = .moveIn ∧
      (state gid2 ((c.log gid2).take 3)).status 0 ≠ .moveIn)) (by decide +kernel)
  obtain ⟨hlen, hnum, hbef, haft⟩ := of_decide_eq_true hq
  have ha := arrives_take (H := joined) (a := gid1) (n := 1) hlen rfl rfl (by decide) hnum hbef haft
  obtain ⟨pre', command', hent, hkept⟩ := handoff_keeps_writes hc ha
  exact ⟨c, _, _, hc, ha, pre', command', hent, (hkept _).1⟩

/-! ### Keys of earlier times -/

/-- A new configuration does not take a shard from the group without giving it to another. -/
def KeepsShards (g : Gid) (kv : ShardKV) : RaftCommand → Prop
  | .configChange newConfig => kv.num + 1 = newConfig.num →
      ∀ s, kv.currentConfig.shards s = g.val → newConfig.shards s ≠ 0
  | _ => True

instance (g : Gid) (kv : ShardKV) : (command : RaftCommand) → Decidable (KeepsShards g kv command)
  | .configChange newConfig => inferInstanceAs (Decidable (kv.num + 1 = newConfig.num →
      ∀ s, kv.currentConfig.shards s = g.val → newConfig.shards s ≠ 0))
  | .clientOperation _ | .shardMigration _ | .shardGC _ => .isTrue trivial

/-- No commit takes a shard from its group without giving it to another. -/
def KeepsAssigned (c : System) : Action → Prop
  | .commit g k => ∀ command ∈ (c.proposed g)[k]?, KeepsShards g (state g (c.log g)) command
  | _ => True

instance (c : System) : (act : Action) → Decidable (KeepsAssigned c act)
  | .commit g k => inferInstanceAs (Decidable (∀ command ∈ (c.proposed g)[k]?,
      KeepsShards g (state g (c.log g)) command))
  | .get _ _ _ | .putAppend _ _ _ | .fetchConfig _ _ _ | .requestShards _ _ _ _
  | .requestDelete _ _ _ _ | .deliver _ _ _ => .isTrue trivial

/-- Nothing is left in a shard that the group does not own or is still waiting for. -/
def Clean (H : History) (g : Gid) (kv : ShardKV) : Prop :=
  ∀ s, kv.status s = .moveIn ∨ H.own kv.num s ≠ g.val ∧ kv.status s = .normal →
    (kv.shards s).kv = fun _ => none

section Clean

variable {H : History} {g : Gid} {kv kv' : ShardKV} {command : RaftCommand}

theorem Clean.effect (h : Clean H g kv) (hok : GroupOk H g kv) (he : Effect H g kv command kv')
    (hkeep : KeepsShards g kv command) : Clean H g kv' := by
  intro s hs
  cases he with
  | skip => exact h s hs
  | client op =>
    obtain ⟨hcur, -, hst⟩ := ShardKV.applyClientOperation_frame kv g op
    have hnum : (kv.applyClientOperation g op).1.num = kv.num := congrArg Config.num hcur
    rw [(hst s).1, hnum] at hs
    rw [(hst s).2 (Bool.eq_false_iff.mpr fun hserve => ?_)]
    · exact h s hs
    · obtain ⟨hown, hst⟩ := ShardKV.serves_iff.mp hserve
      rw [hok.current] at hown
      rcases hs with hs | ⟨hne, -⟩
      · rw [hs] at hst; rcases hst with hst | hst <;> cases hst
      · exact hne hown
  | enter hn =>
    have hk := hkeep (H.num _).symm s
    rw [num_enterConfig, hok.status_enterConfig hn] at hs
    rw [hok.current] at hk
    refine h s (Or.inr ⟨fun hown => ?_, hn s⟩)
    have hne0 := hk hown
    rcases newStatus_normal_cases g (H.own kv.num s) (H.own (kv.num + 1) s) with
      ⟨-, -, hne, -⟩ | ⟨hx, -⟩ | ⟨hx, -, hstay⟩
    · exact hne hown
    · rw [hx] at hs; rcases hs with hs | ⟨-, hs⟩ <;> cases hs
    · rw [hx] at hs
      rcases hs with hs | ⟨hne, -⟩
      · cases hs
      · exact hne (hstay hne0 hown)
  | @takeOver reply a hnum hne hall haw =>
    rw [ShardKV.status_takeOver] at hs
    cases hd : reply.shardData s with
    | none =>
      rw [hd] at hs
      simp only [ShardKV.takeOver, hd, Option.map_none, Option.getD_none]
      exact h s hs
    | some data => rw [hd] at hs; rcases hs with hs | ⟨-, hs⟩ <;> cases hs
  | mergeTable hnum => exact h s hs
  | @settle args a hnum hne hall hgc =>
    rw [ShardKV.status_resetShards] at hs
    rw [ShardKV.shards_resetShards]
    split_ifs at hs ⊢ with hmem
    · rcases hs with hs | ⟨hno, -⟩
      · cases hs
      · exact absurd ((hall s).mp hmem).2 hno
    · exact h s hs
  | @drop args b hnum hne hall hout =>
    rw [ShardKV.status_resetShards] at hs
    rw [ShardKV.shards_resetShards]
    split_ifs at hs ⊢ with hmem
    · rfl
    · exact h s hs

end Clean

/-- Every key that arrives was there at the sender. -/
def NoStaleKey (H : History) (c : System) : Prop :=
  ∀ a b n s order pre command, Arrives H c a b n s order pre command →
    ∃ pre' command', Enters a (c.log a) (n + 1) pre' command' ∧ ∀ order' k,
      ((replay b order (pre ++ [command])).shards s).kv k ≠ none →
        ((replay a order' (pre' ++ [command'])).shards s).kv k ≠ none

section NoStaleKey

variable {H : History} {c c' : System}

/-- All servers of all groups are clean, at every point of the logs. -/
def AllClean (H : History) (c : System) : Prop :=
  ∀ g pre, pre <+: c.log g → Clean H g (state g pre)

theorem AllClean.commit (h : AllClean H c) (hs : Sound H c) {g : Gid} {command : RaftCommand}
    (hmem : command ∈ c.proposed g) (hkeep : KeepsShards g (state g (c.log g)) command) :
    AllClean H (c.commit g command) := by
  intro x pre hp
  rcases eq_or_ne x g with rfl | hx
  · rw [log_commit_self] at hp
    rcases List.prefix_concat_iff.mp hp with rfl | hp
    · exact (h x _ List.prefix_rfl).effect (hs.legal x).groupOk.1
        (hs.legal_concat (hs.proposed x command hmem)).effect hkeep
    · exact h x pre hp
  · rw [log_commit_of_ne hx] at hp; exact h x pre hp

theorem AllClean.step (h : AllClean H c) (hsound : Sound H c) {act : Action}
    (hkeep : KeepsAssigned c act) (hs : c.step H act = some c') : AllClean H c' := by
  rcases log_of_step hs with hlog | ⟨g, k, command, rfl, hk, rfl⟩
  · intro g pre hp; rw [hlog] at hp; exact h g pre hp
  · exact h.commit hsound (List.mem_of_getElem? hk) (hkeep command hk)

theorem allClean_run {acts : List Action}
    (hc : Run (System.step H) KeepsAssigned System.init acts c) : Sound H c ∧ AllClean H c := by
  refine hc.preserves (I := fun c => Sound H c ∧ AllClean H c)
    (fun _ _ _ h hkeep hs => ⟨h.1.step hs, h.2.step h.1 hkeep hs⟩) ⟨sound_init H, fun g pre hp => ?_⟩
  obtain rfl : pre = [] := List.prefix_nil.mp hp
  exact fun s _ => rfl

/-- As long as no shard is taken from its group without a receiver, no old key comes back. -/
theorem no_stale_key {acts : List Action}
    (hc : Run (System.step H) KeepsAssigned System.init acts c) : NoStaleKey H c := by
  obtain ⟨h, hclean⟩ := allClean_run hc
  intro a b n s order pre command ha
  have hpre : pre <+: c.log b := (List.prefix_append _ _).trans ha.mem
  obtain ⟨pre', command', hent, hkv, -⟩ := h.arrives ha
  refine ⟨pre', command', hent, fun order' k hk => ?_⟩
  have hempty := hclean b pre hpre s (Or.inl (h.replay_eq hpre order ▸ ha.before))
  rw [h.replay_eq ha.mem, hkv k, hempty, Option.or_none] at hk
  rw [h.replay_eq hent.mem]; exact hk

end NoStaleKey

theorem no_stale_key_handedOff : ∃ c, Run (System.step joined) KeepsAssigned System.init handedOff c ∧
    ((state gid2 (c.log gid2)).shards 0).kv "d" = some "x" ∧ NoStaleKey joined c := by
  obtain ⟨c, hc, hq⟩ := exists_run (System.step joined) KeepsAssigned System.init handedOff
    (fun c => ((state gid2 (c.log gid2)).shards 0).kv "d" == some "x") (by decide +kernel)
  exact ⟨c, hc, eq_of_beq hq, no_stale_key hc⟩

/-- `Join` of group 1, `Leave` of group 1, `Join` of group 2, `Join` of group 1. -/
def rejoined : History where
  config
    | 0 => defaultConfig
    | 1 => ⟨1, fun _ => 1⟩
    | 2 => ⟨2, fun _ => 0⟩
    | 3 => ⟨3, fun _ => 2⟩
    | n + 4 => ⟨n + 4, fun s => if s.val < 5 then 1 else 2⟩
  num := by rintro (_ | _ | _ | _ | n) <;> rfl
  zero := rfl

/-- Group 1 takes a write for shard 0 in configuration 1. Group 2 gets the shard empty, and in
    configuration 4 hands it to group 1. -/
def cameBack : List Action :=
  [.fetchConfig gid1 (leader 0) 1, .commit gid1 0,
    .putAppend gid1 (leader 1) ⟨"d", "x", "Put", 1, 0⟩, .commit gid1 1,
    .fetchConfig gid1 (leader 2) 2, .commit gid1 2, .fetchConfig gid1 (leader 3) 3, .commit gid1 3,
    .fetchConfig gid1 (leader 4) 4, .commit gid1 4,
    .fetchConfig gid2 (leader 0) 1, .commit gid2 0, .fetchConfig gid2 (leader 1) 2, .commit gid2 1,
    .fetchConfig gid2 (leader 2) 3, .commit gid2 2, .fetchConfig gid2 (leader 3) 4, .commit gid2 3,
    .requestShards gid1 (leader 5) ascending gid2, .deliver 0 (leader 4) .ok,
    .deliver 1 (leader 0) .ok, .commit gid1 5]

/-- Group 1 ends up with the key of configuration 1, which group 2 never had. -/
theorem stale_key_returns : ∃ c, Run (System.step rejoined) Any System.init cameBack c ∧
    ¬ NoStaleKey rejoined c := by
  obtain ⟨c, hc, hq⟩ := exists_run (System.step rejoined) Any System.init cameBack
    (fun c => decide ((5 < (c.log gid1).length ∧ (state gid1 ((c.log gid1).take 5)).num = 4 ∧
      (state gid1 ((c.log gid1).take 5)).status 0 = .moveIn ∧
      (state gid1 ((c.log gid1).take 6)).status 0 ≠ .moveIn ∧
      ((state gid1 ((c.log gid1).take 6)).shards 0).kv "d" = some "x") ∧
      (c.log gid2).length = 4 ∧
      ∀ i : Fin 5, ((state gid2 ((c.log gid2).take i)).shards 0).kv "d" = none)) (by decide +kernel)
  obtain ⟨⟨hlen, hnum, hbef, haft, hkey⟩, hlen2, hnone⟩ := of_decide_eq_true hq
  refine ⟨c, hc, fun hno => ?_⟩
  have ha := arrives_take (H := rejoined) (a := gid2) (n := 3) hlen rfl rfl (by decide) hnum hbef haft
  obtain ⟨pre', command', hent, hold⟩ := hno _ _ _ _ _ _ _ ha
  have htake : (c.log gid1).take 5 ++ [(c.log gid1)[5]] = (c.log gid1).take 6 :=
    List.take_append_getElem hlen
  refine hold (fun _ => ascending) "d" ?_ ?_
  · show ((state gid1 ((c.log gid1).take 5 ++ [(c.log gid1)[5]])).shards 0).kv "d" ≠ none
    rw [htake, hkey]; simp
  · -- group 2 has nothing at any point of its log
    have hp := hent.mem
    have hle := hp.length_le
    rw [List.prefix_iff_eq_take] at hp
    show ((state gid2 (pre' ++ [command'])).shards 0).kv "d" = none
    rw [hp]
    exact hnone ⟨_, by omega⟩

end GoServices.ShardKv
