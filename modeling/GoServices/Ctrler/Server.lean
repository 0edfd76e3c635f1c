import GoServices.Ctrler.History
import GoServices.Schemes.Dedup
import Mathlib.Data.List.Induction

/-! A server of the shard controller (`shardctrler/server.go`) and the log it applies.

    Clients number their updates, and a server that meets a number again answers from its table.
    `firsts L` is what is left of a log without these repetitions. Whatever the orders of its map
    loops, a server that applies `L` makes the configurations of `firsts L`; it gets to the end
    unless one of these updates is a `Move` of a shard that does not exist, and then no server does. -/

namespace GoServices.ShardCtrler

open Dedup Runs

deriving instance DecidableEq for Op

/-- The errors of the controller. -/
inductive Err where | ok | errNoKey | errWrongLeader | errTimeout
  deriving DecidableEq

/-- An entry of the log: `Query`, or one of the three updates with its number. -/
inductive Command where
  | query (num : ℤ)
  | update (op : Op) (clientId seqId : ℤ)

/-- The answer to a command. -/
structure OpReply where
  controllerConfig : Config
  err : Err

/-- What the duplicate table keeps of a client: its last number and answer. -/
structure LastOperationInfo where
  seqId : ℤ
  reply : OpReply

/-- A number out of range asks for the latest configuration. -/
def CtrlerStateMachine.query (csm : CtrlerStateMachine) (num : ℤ) : Option (Config × Err) :=
  (if num < 0 ∨ csm.configs.length ≤ num then csm.configs.getLast?
    else csm.configs[num.toNat]?).map fun c => (c, .ok)

/-- What the source leaves open when a server applies an entry. -/
structure Choice where
  orders : Orders
  fuel : ℕ

/-- A controller server. -/
structure Ctrler where
  lastApplied : ℕ
  stateMachine : CtrlerStateMachine
  duplicateTable : ℤ → Option LastOperationInfo

/-- What a handler does first: answer at once, or hand a command to Raft. -/
inductive Handled where
  | reply (err : Err)
  | start (command : Command)

namespace Ctrler

/-- A controller that has applied nothing. -/
def startServer : Ctrler := ⟨0, newCtrlerStateMachine, fun _ => none⟩

variable (sc : Ctrler)

/-- Whether this number of the client, or a later one, has been executed. -/
def requestDuplicated (clientId seqId : ℤ) : Bool :=
  match sc.duplicateTable clientId with
  | some info => decide (seqId ≤ info.seqId)
  | none => false

/-- The recorded reply of a client. -/
def recorded (clientId : ℤ) : OpReply :=
  ((sc.duplicateTable clientId).map LastOperationInfo.reply).getD ⟨defaultConfig, .ok⟩

/-- The body of the RPC handlers up to `rf.Start`. -/
def command : Command → Handled
  | .query num => .start (.query num)
  | .update op clientId seqId =>
    if sc.requestDuplicated clientId seqId then .reply (sc.recorded clientId).err
    else .start (.update op clientId seqId)

/-- Executes a command; `none` if the state machine panics. -/
def applyToStateMachine (choice : Choice) : Command → Option (Ctrler × OpReply)
  | .query num => (sc.stateMachine.query num).map fun x => (sc, ⟨x.1, x.2⟩)
  | .update op _ _ =>
    (step sc.stateMachine ⟨op, choice.orders, choice.fuel⟩).map fun csm =>
      ({ sc with stateMachine := csm }, ⟨defaultConfig, .ok⟩)

/-- A command that is new to this server. -/
def applyOp (choice : Choice) : Command → Option (Ctrler × OpReply)
  | .query num => sc.applyToStateMachine choice (.query num)
  | .update op clientId seqId =>
    if sc.requestDuplicated clientId seqId then some (sc, sc.recorded clientId)
    else (sc.applyToStateMachine choice (.update op clientId seqId)).map fun x =>
      ({ x.1 with duplicateTable :=
          Function.update x.1.duplicateTable clientId (some ⟨seqId, x.2⟩) }, x.2)

/-- One message taken up by `applyTask`; a message that was processed before is ignored. -/
def applyTask (choice : Choice) (commandIndex : ℕ) (op : Command) :
    Option (Ctrler × Option OpReply) :=
  if commandIndex ≤ sc.lastApplied then some (sc, none)
  else
    (applyOp { sc with lastApplied := commandIndex } choice op).map fun x => (x.1, some x.2)

end Ctrler

open Ctrler

/-- A server that has applied a log from its beginning. -/
def replay (choices : ℕ → Choice) (L : List Command) : Option Ctrler :=
  L.zipIdx.foldlM (fun sc entry =>
    (sc.applyTask (choices entry.2) (entry.2 + 1) entry.1).map Prod.fst) startServer

/-- What such a server answers when it comes to the entry after `L`. -/
def replyTo (choices : ℕ → Choice) (L : List Command) (command : Command) : Option OpReply :=
  (replay choices L).bind fun sc =>
    (sc.applyTask (choices L.length) (L.length + 1) command).bind Prod.snd

theorem replay_concat (choices : ℕ → Choice) (L : List Command) (command : Command) :
    replay choices (L ++ [command]) = (replay choices L).bind fun sc =>
      (sc.applyTask (choices L.length) (L.length + 1) command).map Prod.fst := by
  simp only [replay, List.zipIdx_append, List.foldlM_append, Nat.zero_add, List.zipIdx_cons,
    List.zipIdx_nil, List.foldlM_cons, List.foldlM_nil, Option.bind_eq_bind, Option.pure_def]
  cases L.zipIdx.foldlM (fun sc entry =>
    (sc.applyTask (choices entry.2) (entry.2 + 1) entry.1).map Prod.fst) startServer with
  | none => rfl
  | some sc => simp

/-! ### The log without repetitions -/

/-- The numbers of a client's updates. -/
def seqIds (clientId : ℤ) : List Command → List ℤ
  | [] => []
  | .query _ :: L => seqIds clientId L
  | .update _ clientId' seqId :: L =>
    if clientId' = clientId then seqId :: seqIds clientId L else seqIds clientId L

/-- The updates of `L` that are numbered above all updates of their client before them; `before` is
    what precedes `L`. -/
def firstsAfter (before : List Command) : List Command → List Op
  | [] => []
  | .query num :: L => firstsAfter (before ++ [.query num]) L
  | .update op clientId seqId :: L =>
    if ∀ m ∈ seqIds clientId before, m < seqId then
      op :: firstsAfter (before ++ [.update op clientId seqId]) L
    else firstsAfter (before ++ [.update op clientId seqId]) L

/-- The updates of a log, each at its first execution only. -/
def firsts (L : List Command) : List Op := firstsAfter [] L

theorem seqIds_append (clientId : ℤ) (L L' : List Command) :
    seqIds clientId (L ++ L') = seqIds clientId L ++ seqIds clientId L' := by
  induction L with
  | nil => rfl
  | cons command L ih =>
    cases command with
    | query num => exact ih
    | update op clientId' seqId =>
      simp only [List.cons_append, seqIds]
      split_ifs <;> simp [ih]

theorem firstsAfter_append (L L' before : List Command) :
    firstsAfter before (L ++ L') = firstsAfter before L ++ firstsAfter (before ++ L) L' := by
  induction L generalizing before with
  | nil => simp [firstsAfter]
  | cons command L ih =>
    cases command with
    | query num => simp [firstsAfter, ih]
    | update op clientId seqId =>
      simp only [List.cons_append, firstsAfter]
      split_ifs <;> simp [ih]

@[simp] theorem firsts_concat_query (L : List Command) (num : ℤ) :
    firsts (L ++ [.query num]) = firsts L := by
  simp [firsts, firstsAfter_append, firstsAfter]

theorem firsts_concat_update (L : List Command) (op : Op) (clientId seqId : ℤ) :
    firsts (L ++ [.update op clientId seqId]) =
      if ∀ m ∈ seqIds clientId L, m < seqId then firsts L ++ [op] else firsts L := by
  simp only [firsts, firstsAfter_append, firstsAfter, List.nil_append]
  split_ifs <;> simp

theorem firsts_grow (L : List Command) (command : Command) :
    firsts L <+: firsts (L ++ [command]) := by
  cases command with
  | query num => rw [firsts_concat_query]
  | update op clientId seqId =>
    rw [firsts_concat_update]
    split_ifs
    · exact List.prefix_append _ _
    · exact List.prefix_rfl

/-- Any arguments, as long as `Move` names a shard. -/
def Command.InRange : Command → Prop
  | .query _ => True
  | .update op _ _ => op.InRange

instance : (op : Op) → Decidable op.InRange
  | .join _ | .leave _ => .isTrue trivial
  | .move shardid _ => inferInstanceAs (Decidable (ShardInRange shardid))

instance : (command : Command) → Decidable command.InRange
  | .query _ => .isTrue trivial
  | .update op _ _ => inferInstanceAs (Decidable op.InRange)

theorem firsts_inRange {L : List Command} (h : ∀ command ∈ L, command.InRange) :
    ∀ op ∈ firsts L, op.InRange := by
  induction L using List.reverseRecOn with
  | nil => intro op hop; cases hop
  | append_singleton L command ih =>
    have hL := ih fun c hc => h c (List.mem_append_left _ hc)
    cases command with
    | query num => rwa [firsts_concat_query]
    | update op clientId seqId =>
      rw [firsts_concat_update]
      split_ifs
      · intro op' hop'
        rcases List.mem_append.mp hop' with hop' | hop'
        · exact hL op' hop'
        · rw [List.mem_singleton.mp hop']
          exact h (.update op clientId seqId) (List.mem_append_right _ (List.mem_singleton_self _))
      · exact hL

/-! ### A server that has applied a log -/

/-- The state of a server that has applied `L`. -/
structure ServerOk (L : List Command) (sc : Ctrler) : Prop where
  applied : sc.lastApplied = L.length
  /-- the table knows the largest number of every client -/
  table : ∀ clientId seqId, Blocks LastOperationInfo.seqId sc.duplicateTable clientId seqId ↔
    ∃ m ∈ seqIds clientId L, seqId ≤ m
  replies : ∀ clientId info, sc.duplicateTable clientId = some info →
    info.reply = ⟨defaultConfig, .ok⟩
  made : ∃ acts : List Action, acts.map Action.op = firsts L ∧
    Run step Any newCtrlerStateMachine acts sc.stateMachine
  num : ∀ (i : ℕ) (c : Config), sc.stateMachine.configs[i]? = some c → c.num = i
  zero : sc.stateMachine.configs[0]? = some defaultConfig

theorem serverOk_start : ServerOk [] startServer := by
  refine ⟨rfl, fun clientId seqId => ?_, fun clientId info h => ?_, ⟨[], rfl, .nil _⟩,
    sound_new.num, rfl⟩
  · constructor
    · rintro ⟨info, hinfo, -⟩
      cases hinfo
    · rintro ⟨m, hm, -⟩
      cases hm
  · cases h

variable {L : List Command} {sc sc' : Ctrler} {op : Op} {clientId seqId num : ℤ}

theorem requestDuplicated_iff : sc.requestDuplicated clientId seqId = true ↔
    Blocks LastOperationInfo.seqId sc.duplicateTable clientId seqId := by
  unfold requestDuplicated Blocks
  cases sc.duplicateTable clientId <;> simp

namespace ServerOk

theorem duplicated_iff (h : ServerOk L sc) : sc.requestDuplicated clientId seqId = true ↔
    ¬ ∀ m ∈ seqIds clientId L, m < seqId := by
  rw [requestDuplicated_iff, h.table]
  push Not
  rfl

theorem recorded (h : ServerOk L sc) : sc.recorded clientId = ⟨defaultConfig, .ok⟩ := by
  unfold Ctrler.recorded
  cases hinfo : sc.duplicateTable clientId with
  | none => rfl
  | some info => exact h.replies clientId info hinfo

theorem configs_ne_nil (h : ServerOk L sc) : sc.stateMachine.configs ≠ [] := by
  intro hnil
  have hzero := h.zero
  rw [hnil] at hzero
  cases hzero

/-- An entry that changes neither the table nor the configurations. -/
theorem skip (h : ServerOk L sc) {command : Command} (hfirsts : firsts (L ++ [command]) = firsts L)
    (hseq : ∀ c n, (∃ m ∈ seqIds c (L ++ [command]), n ≤ m) ↔ ∃ m ∈ seqIds c L, n ≤ m) :
    ServerOk (L ++ [command]) { sc with lastApplied := L.length + 1 } :=
  ⟨by simp, fun c n => (h.table c n).trans (hseq c n).symm, h.replies, hfirsts ▸ h.made, h.num,
    h.zero⟩

theorem skip_query (h : ServerOk L sc) (num : ℤ) :
    ServerOk (L ++ [.query num]) { sc with lastApplied := L.length + 1 } :=
  h.skip (firsts_concat_query L num) fun c n => by simp [seqIds_append, seqIds]

theorem skip_repetition (h : ServerOk L sc) (hrep : ¬ ∀ m ∈ seqIds clientId L, m < seqId) :
    ServerOk (L ++ [.update op clientId seqId]) { sc with lastApplied := L.length + 1 } := by
  refine h.skip (by rw [firsts_concat_update, if_neg hrep]) fun c n => ?_
  push Not at hrep
  obtain ⟨m₀, hm₀, hle⟩ := hrep
  rw [seqIds_append]
  constructor
  · rintro ⟨m, hm, hn⟩
    rcases List.mem_append.mp hm with hm | hm
    · exact ⟨m, hm, hn⟩
    · -- the new number is covered by one that is there
      simp only [seqIds] at hm
      split_ifs at hm with hc
      · rw [List.mem_singleton.mp hm] at hn
        exact ⟨m₀, hc ▸ hm₀, le_trans hn hle⟩
      · cases hm
  · rintro ⟨m, hm, hn⟩
    exact ⟨m, List.mem_append_left _ hm, hn⟩

/-- An update that is carried out. -/
theorem record (h : ServerOk L sc) (hfresh : ∀ m ∈ seqIds clientId L, m < seqId) {orders : Orders}
    {fuel : ℕ} {shards : Fin nShards → ℤ} {groups : Ranges.Map ℤ (List String)}
    (hs : step sc.stateMachine ⟨op, orders, fuel⟩ = some (sc.stateMachine.add shards groups)) :
    ServerOk (L ++ [.update op clientId seqId]) ⟨L.length + 1, sc.stateMachine.add shards groups,
      Function.update sc.duplicateTable clientId (some ⟨seqId, defaultConfig, .ok⟩)⟩ := by
  refine ⟨by simp, fun c n => ?_, fun c info hinfo => ?_, ?_, fun i c hi => ?_, ?_⟩
  · rcases eq_or_ne c clientId with rfl | hc
    · simp only [Blocks, Function.update_self, seqIds_append, seqIds, if_pos, List.mem_append,
        List.mem_singleton]
      constructor
      · rintro ⟨info, hinfo, hn⟩
        exact ⟨seqId, Or.inr rfl, by rwa [← Option.some.inj hinfo] at hn⟩
      · rintro ⟨m, hm | rfl, hn⟩
        · exact ⟨_, rfl, le_trans hn (le_of_lt (hfresh m hm))⟩
        · exact ⟨_, rfl, hn⟩
    · simp only [Blocks, Function.update_of_ne hc, seqIds_append, seqIds, if_neg (Ne.symm hc),
        List.append_nil]
      exact h.table c n
  · dsimp only at hinfo
    rw [Function.update_apply] at hinfo
    split_ifs at hinfo with hc
    · rw [← Option.some.inj hinfo]
    · exact h.replies c info hinfo
  · obtain ⟨acts, hacts, hrun⟩ := h.made
    refine ⟨acts ++ [⟨op, orders, fuel⟩], ?_, hrun.concat trivial hs⟩
    rw [firsts_concat_update, if_pos hfresh, List.map_append, hacts]
    rfl
  · rw [CtrlerStateMachine.add, List.getElem?_append] at hi
    split_ifs at hi with hlt
    · exact h.num i c hi
    · rw [List.getElem?_singleton] at hi
      split_ifs at hi with hz
      rw [← Option.some.inj hi]
      dsimp only
      omega
  · rw [CtrlerStateMachine.add, List.getElem?_append_left (List.length_pos_iff.mpr h.configs_ne_nil)]
    exact h.zero

end ServerOk

/-- The entry has the same effect and the same reply for every choice, given enough fuel. -/
structure Applies (sc : Ctrler) (index : ℕ) (command : Command) (sc' : Ctrler)
    (opReply : OpReply) : Prop where
  ends : ∃ n, ∀ choice : Choice, n ≤ choice.fuel →
    sc.applyTask choice index command = some (sc', some opReply)
  same : ∀ choice x, sc.applyTask choice index command = some x → x = (sc', some opReply)

theorem applies_of_eq {index : ℕ} {command : Command} {opReply : OpReply}
    (h : ∀ choice, sc.applyTask choice index command = some (sc', some opReply)) :
    Applies sc index command sc' opReply :=
  ⟨⟨0, fun choice _ => h choice⟩, fun choice _ hx => Option.some.inj (hx.symm.trans (h choice))⟩

theorem ServerOk.applyTask_eq (h : ServerOk L sc) (choice : Choice) (command : Command) :
    sc.applyTask choice (L.length + 1) command =
      (applyOp { sc with lastApplied := L.length + 1 } choice command).map fun x =>
        (x.1, some x.2) := by
  rw [Ctrler.applyTask, if_neg (by rw [h.applied]; omega)]

/-- A new update is carried out and recorded. -/
theorem ServerOk.applyTask_update (h : ServerOk L sc) (hfresh : ∀ m ∈ seqIds clientId L, m < seqId)
    (choice : Choice) : sc.applyTask choice (L.length + 1) (.update op clientId seqId) =
      (step sc.stateMachine ⟨op, choice.orders, choice.fuel⟩).map fun csm =>
        (⟨L.length + 1, csm, Function.update sc.duplicateTable clientId
          (some ⟨seqId, defaultConfig, .ok⟩)⟩, some ⟨defaultConfig, .ok⟩) := by
  have hdup : ({ sc with lastApplied := L.length + 1 } : Ctrler).requestDuplicated
      clientId seqId = false :=
    Bool.eq_false_iff.mpr fun hd => h.duplicated_iff.mp hd hfresh
  rw [h.applyTask_eq, applyOp, hdup, applyToStateMachine]
  cases step sc.stateMachine ⟨op, choice.orders, choice.fuel⟩ <;> rfl

/-- A `Query` is answered with one of the configurations. -/
theorem exists_query (h : sc.stateMachine.configs ≠ []) (num : ℤ) :
    ∃ c ∈ sc.stateMachine.configs, sc.stateMachine.query num = some (c, .ok) := by
  unfold CtrlerStateMachine.query
  split_ifs with hnum
  · exact ⟨_, List.getLast_mem h, by rw [List.getLast?_eq_getLast_of_ne_nil h]; rfl⟩
  · have hlt : num.toNat < sc.stateMachine.configs.length := by omega
    exact ⟨_, List.getElem_mem hlt, by rw [List.getElem?_eq_getElem hlt]; rfl⟩

/-- What every server does with the next entry, if it is not a `Move` of a shard that does not
    exist. -/
theorem ServerOk.applies (h : ServerOk L sc) (command : Command)
    (hin : ∀ op ∈ firsts (L ++ [command]), op.InRange) :
    ∃ sc' opReply, Applies sc (L.length + 1) command sc' opReply ∧ ServerOk (L ++ [command]) sc' ∧
      sc.stateMachine.configs <+: sc'.stateMachine.configs ∧
      opReply.controllerConfig ∈ sc.stateMachine.configs := by
  have hzero : defaultConfig ∈ sc.stateMachine.configs := List.mem_of_getElem? h.zero
  cases command with
  | query num =>
    obtain ⟨c, hc, hquery⟩ := exists_query h.configs_ne_nil num
    refine ⟨_, ⟨c, .ok⟩, applies_of_eq fun choice => ?_, h.skip_query num, List.prefix_rfl, hc⟩
    rw [h.applyTask_eq, applyOp, applyToStateMachine, hquery]
    rfl
  | update op clientId seqId =>
    by_cases hfresh : ∀ m ∈ seqIds clientId L, m < seqId
    · have hop : op.InRange := hin op (by
        rw [firsts_concat_update, if_pos hfresh]
        exact List.mem_append_right _ (List.mem_singleton_self op))
      obtain ⟨shards, groups, ⟨n, hn⟩, hsame⟩ := exists_settles h.configs_ne_nil hop
      refine ⟨_, ⟨defaultConfig, .ok⟩, ⟨⟨n, fun choice hfuel => ?_⟩, fun choice x hx => ?_⟩,
        h.record hfresh (hn someOrders n le_rfl), List.prefix_append _ _, hzero⟩
      · rw [h.applyTask_update hfresh, hn choice.orders choice.fuel hfuel]
        rfl
      · rw [h.applyTask_update hfresh] at hx
        obtain ⟨csm, hcsm, rfl⟩ := Option.map_eq_some_iff.mp hx
        rw [hsame _ _ csm hcsm]
    · refine ⟨_, ⟨defaultConfig, .ok⟩, applies_of_eq fun choice => ?_, h.skip_repetition hfresh,
        List.prefix_rfl, hzero⟩
      have hdup : ({ sc with lastApplied := L.length + 1 } : Ctrler).requestDuplicated
        clientId seqId = true := h.duplicated_iff.mpr hfresh
      have hrec : ({ sc with lastApplied := L.length + 1 } : Ctrler).recorded clientId =
        ⟨defaultConfig, .ok⟩ := h.recorded
      rw [h.applyTask_eq, applyOp, if_pos hdup, hrec]
      rfl

/-! ### All servers -/

/-- Every server that gets through `L` is then in state `sc`, and with enough fuel it does. -/
structure Settled (L : List Command) (sc : Ctrler) : Prop where
  ok : ServerOk L sc
  ends : ∃ n, ∀ choices : ℕ → Choice, (∀ i, n ≤ (choices i).fuel) → replay choices L = some sc
  same : ∀ choices x, replay choices L = some x → x = sc

theorem settled_nil : Settled [] startServer :=
  ⟨serverOk_start, ⟨0, fun _ _ => rfl⟩, fun _ _ h => (Option.some.inj h).symm⟩

theorem Settled.concat (h : Settled L sc) {command : Command} {opReply : OpReply}
    (hap : Applies sc (L.length + 1) command sc' opReply) (hok : ServerOk (L ++ [command]) sc') :
    Settled (L ++ [command]) sc' := by
  obtain ⟨n, hn⟩ := h.ends
  obtain ⟨n', hn'⟩ := hap.ends
  refine ⟨hok, ⟨max n n', fun choices hfuel => ?_⟩, fun choices x hx => ?_⟩
  · rw [replay_concat, hn choices fun i => le_trans (le_max_left n n') (hfuel i), Option.bind_some,
      hn' _ (le_trans (le_max_right n n') (hfuel _))]
    rfl
  · rw [replay_concat] at hx
    obtain ⟨y, hy, hx⟩ := Option.bind_eq_some_iff.mp hx
    rw [h.same choices y hy] at hx
    obtain ⟨z, hz, rfl⟩ := Option.map_eq_some_iff.mp hx
    rw [hap.same _ z hz]

theorem exists_settled (L : List Command) (hL : ∀ op ∈ firsts L, op.InRange) :
    ∃ sc, Settled L sc := by
  induction L using List.reverseRecOn with
  | nil => exact ⟨_, settled_nil⟩
  | append_singleton L command ih =>
    obtain ⟨sc, h⟩ := ih fun op hop => hL op ((firsts_grow L command).subset hop)
    obtain ⟨sc', opReply, hap, hok, -, -⟩ := h.ok.applies command hL
    exact ⟨sc', h.concat hap hok⟩

theorem Settled.unique (h : Settled L sc) (h' : Settled L sc') : sc = sc' := by
  obtain ⟨n, hn⟩ := h.ends
  exact h'.same _ sc (hn (fun _ => ⟨someOrders, n⟩) fun _ => le_rfl)

/-- Configurations stay as the log grows. -/
theorem Settled.grow {L' : List Command} (h : Settled L sc) (h' : Settled (L ++ L') sc')
    (hin : ∀ op ∈ firsts (L ++ L'), op.InRange) :
    sc.stateMachine.configs <+: sc'.stateMachine.configs := by
  induction L' using List.reverseRecOn generalizing sc' with
  | nil => rw [List.append_nil] at h'; rw [h.unique h']
  | append_singleton L' command ih =>
    rw [← List.append_assoc] at h' hin
    have hin' : ∀ op ∈ firsts (L ++ L'), op.InRange := fun op hop =>
      hin op ((firsts_grow _ command).subset hop)
    obtain ⟨sc₀, h₀⟩ := exists_settled (L ++ L') hin'
    obtain ⟨sc₁, opReply, hap, hok, hgrow, -⟩ := h₀.ok.applies command hin
    rw [h'.unique (h₀.concat hap hok)]
    exact (ih h₀ hin').trans hgrow

/-- Every reply carries one of the configurations made before it. -/
theorem Settled.replyTo_mem (h : Settled L sc) {choices : ℕ → Choice} {command : Command}
    {opReply : OpReply} (hin : ∀ op ∈ firsts (L ++ [command]), op.InRange)
    (hr : replyTo choices L command = some opReply) :
    opReply.controllerConfig ∈ sc.stateMachine.configs := by
  obtain ⟨sc₀, h₀, hr⟩ := Option.bind_eq_some_iff.mp hr
  obtain ⟨x, hx, hr⟩ := Option.bind_eq_some_iff.mp hr
  obtain ⟨sc', opReply', hap, -, -, hmem⟩ := h.ok.applies command hin
  rw [h.same choices sc₀ h₀] at hx
  rw [hap.same _ x hx] at hr
  exact Option.some.inj hr ▸ hmem

/-- `Move` panics for a shard that does not exist. -/
theorem step_eq_none {csm : CtrlerStateMachine} (h : ¬ op.InRange) (orders : Orders) (fuel : ℕ) :
    step csm ⟨op, orders, fuel⟩ = none := by
  cases op with
  | join groups => exact absurd trivial h
  | leave gids => exact absurd trivial h
  | move shardid gid =>
    rw [step_move, CtrlerStateMachine.move]
    cases csm.configs.getLast? with
    | none => rfl
    | some c => exact dif_neg h

theorem inRange_of_replay {choices : ℕ → Choice} (h : replay choices L = some sc) :
    ∀ op ∈ firsts L, op.InRange := by
  induction L using List.reverseRecOn generalizing sc with
  | nil => intro op hop; cases hop
  | append_singleton L command ih =>
    rw [replay_concat] at h
    obtain ⟨sc₀, h₀, h⟩ := Option.bind_eq_some_iff.mp h
    have hL := ih h₀
    obtain ⟨x, hsettled⟩ := exists_settled L hL
    have hok : ServerOk L sc₀ := hsettled.same choices sc₀ h₀ ▸ hsettled.ok
    cases command with
    | query num => rwa [firsts_concat_query]
    | update op clientId seqId =>
      rw [firsts_concat_update]
      split_ifs with hfresh
      · intro op' hop'
        rcases List.mem_append.mp hop' with hop' | hop'
        · exact hL op' hop'
        · rw [List.mem_singleton.mp hop']
          by_contra hout
          rw [hok.applyTask_update hfresh, step_eq_none hout] at h
          cases h
      · exact hL

/-- The configurations are those of any run of the updates. -/
theorem ServerOk.stateMachine_eq (h : ServerOk L sc) (hL : ∀ op ∈ firsts L, op.InRange)
    {P : CtrlerStateMachine → Action → Prop} {acts : List Action} {csm : CtrlerStateMachine}
    (hacts : acts.map Action.op = firsts L) (hrun : Run step P newCtrlerStateMachine acts csm) :
    sc.stateMachine = csm := by
  obtain ⟨acts', hacts', hrun'⟩ := h.made
  obtain ⟨x, hagree, -⟩ := run_settles (firsts L) hL
    (show newCtrlerStateMachine.configs ≠ [] from List.cons_ne_nil _ _)
  have hfollow : ∃ y, Run step Any newCtrlerStateMachine acts y ∧ y = csm :=
    hrun.follow (R := Eq) (fun _ _ _ s' hx hs => ⟨s', hx ▸ hs, rfl⟩) rfl
  obtain ⟨_, hany, rfl⟩ := hfollow
  rw [hagree acts' hacts' _ hrun', hagree acts hacts _ hany]

/-- Servers that apply the same log end in the same state, whatever the orders of their map loops,
    with the configurations of the updates that are not repetitions. They get to the end of the log
    if all of these `Move`s name a shard; if one does not, no server ever gets past it. -/
theorem servers_agree (L : List Command) :
    (∀ choices choices' sc sc', replay choices L = some sc → replay choices' L = some sc' →
      sc = sc') ∧
    (∀ choices sc acts csm, replay choices L = some sc → acts.map Action.op = firsts L →
      Run step Any newCtrlerStateMachine acts csm → sc.stateMachine = csm) ∧
    ((∀ op ∈ firsts L, op.InRange) →
      ∃ n, ∀ choices : ℕ → Choice, (∀ i, n ≤ (choices i).fuel) → (replay choices L).isSome) ∧
    ∀ op ∈ firsts L, ¬ op.InRange → ∀ choices L', replay choices (L ++ L') = none := by
  refine ⟨fun choices choices' sc sc' h h' => ?_, fun choices sc acts csm h hacts hrun => ?_,
    fun hL => ?_, fun op hop hout choices L' => ?_⟩
  · obtain ⟨x, hx⟩ := exists_settled L (inRange_of_replay h)
    rw [hx.same choices sc h, hx.same choices' sc' h']
  · have hL := inRange_of_replay h
    obtain ⟨x, hx⟩ := exists_settled L hL
    rw [hx.same choices sc h]
    exact hx.ok.stateMachine_eq hL hacts hrun
  · obtain ⟨x, hx⟩ := exists_settled L hL
    obtain ⟨n, hn⟩ := hx.ends
    exact ⟨n, fun choices hfuel => by rw [hn choices hfuel]; rfl⟩
  · by_contra hsome
    obtain ⟨sc, hsc⟩ := Option.ne_none_iff_exists'.mp hsome
    refine hout (inRange_of_replay hsc op ?_)
    rw [firsts, firstsAfter_append]
    exact List.mem_append_left _ hop

/-- A client sends its first `Join` twice. -/
def retried : List Command :=
  [.update (.join (Ranges.Map.empty.set 1 ["a"])) 7 0, .query (-1),
    .update (.join (Ranges.Map.empty.set 1 ["a"])) 7 0, .update (.move 3 1) 7 1]

theorem servers_agree_retried : ∃ sc, replay (fun _ => ⟨visiting [1], 30⟩) retried = some sc ∧
    sc.stateMachine.configs.length = 3 ∧ ∀ choices sc', replay choices retried = some sc' → sc' = sc := by
  have hlen : (replay (fun _ => ⟨visiting [1], 30⟩) retried).any
      (fun sc => sc.stateMachine.configs.length = 3) = true := by decide +kernel
  obtain ⟨sc, hsc, hlen⟩ := (Option.any_eq_true _ _).mp hlen
  exact ⟨sc, hsc, of_decide_eq_true hlen, fun choices sc' hsc' =>
    (servers_agree retried).1 choices _ sc' sc hsc' hsc⟩

/-! ### Shards stay with the groups -/

/-- Admissible, and no `Leave` takes away the last group. -/
def Keeps (csm : CtrlerStateMachine) (a : Action) : Prop :=
  Admissible csm a.op ∧ ∀ gids, a.op = .leave gids →
    ∃ c ∈ csm.configs.getLast?, ¬ c.groups.keys ⊆ gids.toFinset

/-- Once there is a group, there is one in every later configuration. -/
structure Keeping (csm : CtrlerStateMachine) : Prop where
  sound : Sound csm
  kept : ∀ (i : ℕ) (c c' : Config), csm.configs[i]? = some c → csm.configs[i + 1]? = some c' →
    c.groups.keys ≠ ∅ → c'.groups.keys ≠ ∅

theorem Keeps.keys_ne_empty {csm csm' : CtrlerStateMachine} {c c' : Config} {a : Action}
    (hk : Keeps csm a) (hs : step csm a = some csm') (hlast : csm.configs.getLast? = some c)
    (hlast' : csm'.configs.getLast? = some c') (hne : c.groups.keys ≠ ∅) : c'.groups.keys ≠ ∅ := by
  obtain ⟨op, orders, fuel⟩ := a
  cases op with
  | join newGroups =>
    obtain ⟨shards, groups, hsettles, hkeys, -⟩ := join_settles hlast newGroups
    rw [hsettles.2 orders fuel csm' hs, getLast?_add] at hlast'
    rw [← Option.some.inj hlast', hkeys]
    exact fun h => hne (Finset.union_eq_empty.mp h).1
  | leave gids =>
    obtain ⟨shards, groups, hsettles, hkeys, -⟩ := leave_settles hlast gids
    rw [hsettles.2 orders fuel csm' hs, getLast?_add] at hlast'
    obtain ⟨c₀, hc₀, hsub⟩ := hk.2 gids rfl
    rw [← Option.some.inj hlast', hkeys]
    rw [← Option.some.inj (hlast.symm.trans hc₀)] at hsub
    exact fun h => hsub (Finset.sdiff_eq_empty_iff_subset.mp h)
  | move shardid gid =>
    rw [(move_settles hlast hk.1.1 gid).2 orders fuel csm' hs, getLast?_add] at hlast'
    rw [← Option.some.inj hlast']
    exact hne

theorem Keeping.step {csm csm' : CtrlerStateMachine} {a : Action} (h : Keeping csm)
    (hk : Keeps csm a) (hs : step csm a = some csm') : Keeping csm' := by
  obtain ⟨shards, groups, hsettles, -⟩ := h.sound.settles hk.1
  have hadd := hsettles.2 a.orders a.fuel csm' hs
  refine ⟨h.sound.step hk.1 hs, fun i c c' hc hc' => ?_⟩
  have hold : ∀ j, j < csm.configs.length → csm'.configs[j]? = csm.configs[j]? := fun j hj => by
    rw [hadd, CtrlerStateMachine.add, List.getElem?_append_left hj]
  have hlen : csm'.configs.length = csm.configs.length + 1 := by
    rw [hadd, CtrlerStateMachine.add, List.length_append]
    rfl
  have hi : i + 1 < csm'.configs.length := (List.getElem?_eq_some_iff.mp hc').1
  rcases Nat.lt_or_ge (i + 1) csm.configs.length with hlt | hge
  · exact h.kept i c c' (hold i (by omega) ▸ hc) (hold (i + 1) hlt ▸ hc')
  · -- the new configuration and the one that was the last
    rw [hold i (by omega)] at hc
    refine hk.keys_ne_empty hs ?_ ?_
    · rw [List.getLast?_eq_getElem?, ← hc]
      congr 1
      omega
    · rw [List.getLast?_eq_getElem?, ← hc']
      congr 1
      omega

theorem keeping_new : Keeping newCtrlerStateMachine :=
  ⟨sound_new, fun i c c' _ hc' => by simp [newCtrlerStateMachine] at hc'⟩

theorem Keeping.assigned {csm : CtrlerStateMachine} (h : Keeping csm) {i : ℕ} {c c' : Config}
    (hc : csm.configs[i]? = some c) (hc' : csm.configs[i + 1]? = some c') {s : Fin nShards}
    (hs : c.shards s ≠ 0) : c'.shards s ≠ 0 := by
  have hvalid := h.sound.valid c (List.mem_of_getElem? hc)
  have hvalid' := h.sound.valid c' (List.mem_of_getElem? hc')
  have hne : c.groups.keys ≠ ∅ := fun hempty => hs (hvalid.idle hempty s)
  intro hzero
  exact hvalid'.named (hzero ▸ hvalid'.placed (h.kept i c c' hc hc' hne) s)

end GoServices.ShardCtrler
