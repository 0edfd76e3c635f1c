import GoServices.Ctrler.Server
import GoServices.Shard.Ownership

/-! The controller and the groups together.

    The groups learn the configurations from the controller: `fetchConfigTask` sends a `Query`. A
    handler of the controller waits for the entry at the index where it put its own, so after a
    change of leaders it may get the reply to somebody else's entry. Here a `Query` returns the reply
    to any entry of the controller's log, given by any of its servers; the number that
    `fetchConfigTask` checks is enough to make this harmless. Every run of the whole is a run of the
    groups under the configurations that the controller makes. -/

namespace GoServices.ShardKv

open Handover Runs
open ShardCtrler (Command Choice firsts newCtrlerStateMachine)

/-- A configuration as the groups use it. -/
def fromCtrler (c : ShardCtrler.Config) : Config := ⟨c.num, c.shards⟩

/-- The log of the controller, what its leaders have handed to Raft, and the groups. -/
structure Deployment where
  ctrler : List Command
  proposed : List Command
  system : System

/-- What can happen next at the controller and in the groups. -/
inductive DeploymentAction where
  /-- a request comes to a controller server that has applied `applied` entries -/
  | request (choices : ℕ → Choice) (applied : ℕ) (command : Command)
  | commit (k : ℕ)
  /-- `fetchConfigTask`; its `Query` returns what a controller server sends for entry `i` -/
  | fetchConfig (g : Gid) (srv : Server) (choices : ℕ → Choice) (i : ℕ)
  | group (act : Action)

/-- Whether an action of a group asks the controller. -/
def Action.fetches : Action → Bool
  | .fetchConfig _ _ _ => true
  | _ => false

/-- No group gets any shard. -/
def History.idle : History := ⟨fun n => ⟨n, fun _ => 0⟩, fun _ => rfl, rfl⟩

namespace Deployment

/-- Nothing has been proposed yet. -/
def init : Deployment := ⟨[], [], System.init⟩

/-- What a controller server does with a request. -/
def perform (d : Deployment) : ShardCtrler.Handled → Deployment
  | .reply _ => d
  | .start command => { d with proposed := d.proposed ++ [command] }

/-- One action of the controller or of a group. -/
def step (d : Deployment) : DeploymentAction → Option Deployment
  | .request choices applied command =>
    (ShardCtrler.replay choices (d.ctrler.take applied)).map fun sc => d.perform (sc.command command)
  | .commit k => (d.proposed[k]?).map fun command => { d with ctrler := d.ctrler ++ [command] }
  | .fetchConfig g srv choices i =>
    (d.ctrler[i]?).bind fun command =>
      (ShardCtrler.replyTo choices (d.ctrler.take i) command).bind fun opReply =>
        ((d.system.server g srv).fetchConfigTask (fromCtrler opReply.controllerConfig)).map
          fun config => { d with system := d.system.propose g config }
  | .group act =>
    -- all other actions are the same under every history
    if act.fetches then none
    else (d.system.step History.idle act).map fun system => { d with system := system }

/-- Clients only name shards that exist. -/
def Named (_ : Deployment) : DeploymentAction → Prop
  | .request _ _ command => command.InRange
  | _ => True

instance (d : Deployment) : (a : DeploymentAction) → Decidable (d.Named a)
  | .request _ _ command => inferInstanceAs (Decidable command.InRange)
  | .commit _ | .fetchConfig _ _ _ _ | .group _ => .isTrue trivial

end Deployment

/-! ### Configurations -/

/-- The history goes through the configurations of a controller server. -/
def Covers (H : History) (sc : ShardCtrler.Ctrler) : Prop :=
  ∀ (i : ℕ) (c : ShardCtrler.Config), sc.stateMachine.configs[i]? = some c → H.config i = fromCtrler c

section Configurations

variable {L : List Command} {sc : ShardCtrler.Ctrler}

/-- The configurations that were made, and after them one with the shards as in `tail`. -/
def historyOf (h : ShardCtrler.ServerOk L sc) (tail : Fin nShards → ℤ) : History where
  config n := ((sc.stateMachine.configs[n]?).map fromCtrler).getD ⟨n, tail⟩
  num n := by
    cases hn : sc.stateMachine.configs[n]? with
    | none => rfl
    | some c => exact h.num n c hn
  zero := by rw [h.zero]; rfl

theorem covers_historyOf (h : ShardCtrler.ServerOk L sc) (tail : Fin nShards → ℤ) :
    Covers (historyOf h tail) sc := by
  intro i c hi
  simp [historyOf, hi]

theorem config_historyOf_of_le (h : ShardCtrler.ServerOk L sc) (tail : Fin nShards → ℤ) {n : ℕ}
    (hn : sc.stateMachine.configs.length ≤ n) : (historyOf h tail).config n = ⟨n, tail⟩ := by
  simp [historyOf, List.getElem?_eq_none hn]

/-- If the controller keeps the shards with the groups, so does the history in which the last
    configuration stays. -/
theorem assigned_historyOf (h : ShardCtrler.ServerOk L sc) (hk : ShardCtrler.Keeping sc.stateMachine)
    {last : ShardCtrler.Config} (hlast : sc.stateMachine.configs.getLast? = some last) :
    (historyOf h (fromCtrler last).shards).Assigned := by
  have hcovers := covers_historyOf h (fromCtrler last).shards
  intro n s hs
  rw [History.own] at hs ⊢
  rw [List.getLast?_eq_getElem?] at hlast
  rcases Nat.lt_or_ge (n + 1) sc.stateMachine.configs.length with hlt | hge
  · have hc := List.getElem?_eq_getElem (Nat.lt_of_succ_lt hlt)
    have hc' := List.getElem?_eq_getElem hlt
    rw [hcovers n _ hc] at hs
    rw [hcovers (n + 1) _ hc']
    exact hk.assigned hc hc' hs
  · rw [config_historyOf_of_le h _ hge]
    -- configuration `n` is the last one or comes after it
    rcases Nat.lt_or_ge n sc.stateMachine.configs.length with hlt | hge'
    · obtain rfl : n = sc.stateMachine.configs.length - 1 := by omega
      rwa [hcovers _ last hlast] at hs
    · rwa [config_historyOf_of_le h _ hge'] at hs

end Configurations

/-! ### The groups under the controller's configurations -/

theorem step_of_not_fetches {act : Action} (h : act.fetches = false) (H H' : History) (c : System) :
    c.step H act = c.step H' act := by
  cases act with
  | fetchConfig g srv n => cases h
  | _ => rfl

/-- Whatever configurations come later, the groups have got where they are by steps of their own. -/
structure DeploymentOk (d : Deployment) : Prop where
  proposed : ∀ command ∈ d.proposed, command.InRange
  logged : ∀ command ∈ d.ctrler, command.InRange
  refines : ∀ sc, ShardCtrler.Settled d.ctrler sc → ∀ H, Covers H sc →
    ∃ acts, Run (System.step H) Any System.init acts d.system

section Refinement

variable {d d' : Deployment}

theorem deploymentOk_init : DeploymentOk Deployment.init :=
  ⟨fun _ h => (by cases h), fun _ h => (by cases h), fun _ _ _ _ => ⟨[], .nil _⟩⟩

theorem Covers.of_grow {H : History} {sc sc' : ShardCtrler.Ctrler} (h : Covers H sc')
    (hgrow : sc.stateMachine.configs <+: sc'.stateMachine.configs) : Covers H sc :=
  fun i c hi => h i c (by
    obtain ⟨more, hmore⟩ := hgrow
    rw [← hmore, List.getElem?_append_left (List.getElem?_eq_some_iff.mp hi).1, hi])

/-- A step of the groups under every history that goes through the configurations. -/
theorem DeploymentOk.advance (h : DeploymentOk d) {system : System}
    (hs : ∀ sc, ShardCtrler.Settled d.ctrler sc → ∀ H, Covers H sc →
      ∃ act, d.system.step H act = some system) : DeploymentOk { d with system := system } := by
  refine ⟨h.proposed, h.logged, fun sc hsc H hH => ?_⟩
  obtain ⟨acts, hrun⟩ := h.refines sc hsc H hH
  obtain ⟨act, hact⟩ := hs sc hsc H hH
  exact ⟨acts ++ [act], hrun.concat trivial hact⟩

theorem DeploymentOk.request (h : DeploymentOk d) {sc : ShardCtrler.Ctrler} {command : Command}
    (hin : command.InRange) : DeploymentOk (d.perform (sc.command command)) := by
  have hcases : sc.command command = .start command ∨ ∃ err, sc.command command = .reply err := by
    cases command with
    | query num => exact Or.inl rfl
    | update op clientId seqId =>
      rw [ShardCtrler.Ctrler.command]
      split_ifs
      · exact Or.inr ⟨_, rfl⟩
      · exact Or.inl rfl
  rcases hcases with hstart | ⟨err, hreply⟩
  · rw [hstart]
    refine ⟨fun c hc => ?_, h.logged, h.refines⟩
    rcases List.mem_append.mp hc with hc | hc
    · exact h.proposed c hc
    · rwa [List.mem_singleton.mp hc]
  · rw [hreply]
    exact h

theorem DeploymentOk.commit (h : DeploymentOk d) {command : Command} (hin : command.InRange) :
    DeploymentOk { d with ctrler := d.ctrler ++ [command] } := by
  have hlogged : ∀ c ∈ d.ctrler ++ [command], c.InRange := by
    intro c hc
    rcases List.mem_append.mp hc with hc | hc
    · exact h.logged c hc
    · rwa [List.mem_singleton.mp hc]
  refine ⟨h.proposed, hlogged, fun sc' hsc' H hH => ?_⟩
  obtain ⟨sc, hsc⟩ := ShardCtrler.exists_settled d.ctrler (ShardCtrler.firsts_inRange h.logged)
  exact h.refines sc hsc H (hH.of_grow (hsc.grow hsc' (ShardCtrler.firsts_inRange hlogged)))

/-- The reply to any entry carries a configuration that stands, under its number, in every history
    that goes through the controller's configurations. -/
theorem DeploymentOk.config_of_reply (h : DeploymentOk d) {choices : ℕ → Choice} {i : ℕ}
    {command : Command} {opReply : ShardCtrler.OpReply} (hi : d.ctrler[i]? = some command)
    (hr : ShardCtrler.replyTo choices (d.ctrler.take i) command = some opReply)
    {sc : ShardCtrler.Ctrler} (hsc : ShardCtrler.Settled d.ctrler sc) {H : History} (hH : Covers H sc) :
    H.config opReply.controllerConfig.num = fromCtrler opReply.controllerConfig := by
  have hin := ShardCtrler.firsts_inRange h.logged
  have hcut : ∀ n, ∀ op ∈ firsts (d.ctrler.take n), op.InRange := fun n =>
    ShardCtrler.firsts_inRange fun c hc => h.logged c (List.mem_of_mem_take hc)
  have htake : d.ctrler.take i ++ [command] = d.ctrler.take (i + 1) := by
    rw [List.take_add_one, hi]
    rfl
  obtain ⟨sc₀, h₀⟩ := ShardCtrler.exists_settled (d.ctrler.take i) (hcut i)
  have hmem := h₀.replyTo_mem (htake ▸ hcut (i + 1)) hr
  have hgrow : sc₀.stateMachine.configs <+: sc.stateMachine.configs := by
    rw [← List.take_append_drop i d.ctrler] at hsc hin
    exact h₀.grow hsc hin
  obtain ⟨n, hn⟩ := List.mem_iff_getElem?.mp hmem
  rw [h₀.ok.num n _ hn]
  exact hH.of_grow hgrow n _ hn

theorem DeploymentOk.step (h : DeploymentOk d) {a : DeploymentAction} (hP : d.Named a)
    (hs : d.step a = some d') : DeploymentOk d' := by
  cases a with
  | request choices applied command =>
    obtain ⟨sc, -, rfl⟩ := Option.map_eq_some_iff.mp hs
    exact h.request hP
  | commit k =>
    obtain ⟨command, hk, rfl⟩ := Option.map_eq_some_iff.mp hs
    exact h.commit (h.proposed command (List.mem_of_getElem? hk))
  | fetchConfig g srv choices i =>
    obtain ⟨command, hi, hs⟩ := Option.bind_eq_some_iff.mp hs
    obtain ⟨opReply, hr, hs⟩ := Option.bind_eq_some_iff.mp hs
    obtain ⟨config, hconfig, rfl⟩ := Option.map_eq_some_iff.mp hs
    refine h.advance fun sc hsc H hH => ⟨.fetchConfig g srv opReply.controllerConfig.num, ?_⟩
    rw [System.step, h.config_of_reply hi hr hsc hH, hconfig]
    rfl
  | group act =>
    rw [Deployment.step] at hs
    split_ifs at hs with hf
    obtain ⟨system, hsys, rfl⟩ := Option.map_eq_some_iff.mp hs
    refine h.advance fun sc hsc H hH => ⟨act, ?_⟩
    rw [step_of_not_fetches (Bool.eq_false_iff.mpr hf) H History.idle, hsys]

theorem deploymentOk_run {acts : List DeploymentAction}
    (h : Run Deployment.step Deployment.Named Deployment.init acts d) : DeploymentOk d :=
  h.preserves (I := DeploymentOk) (fun _ _ _ hd hP hs => hd.step hP hs) deploymentOk_init

/-- A server of a group is at the configuration of its number in every history that goes through
    those of the controller. -/
theorem DeploymentOk.currentConfig (h : DeploymentOk d) {sc : ShardCtrler.Ctrler}
    (hsc : ShardCtrler.Settled d.ctrler sc) {H : History} (hH : Covers H sc) (g : Gid) (srv : Server) :
    (d.system.server g srv).currentConfig = H.config (d.system.server g srv).num := by
  obtain ⟨acts, hrun⟩ := h.refines sc hsc H hH
  have hok := (((sound_run hrun).legal g).cut (List.take_prefix srv.applied _)).groupOk
  rw [System.server, hok.2]
  exact hok.1.current

/-- However replies are mixed up, requests repeated and map loops ordered: the groups together with
    the controller behave like the groups under one history of configurations, the one that the
    controller makes, and every server of every group is at one of these configurations. -/
theorem deployment_refines {acts : List DeploymentAction}
    (h : Run Deployment.step Deployment.Named Deployment.init acts d) {choices : ℕ → Choice}
    {sc : ShardCtrler.Ctrler} (hsc : ShardCtrler.replay choices d.ctrler = some sc) :
    (∃ H : History,
      (∀ (i : ℕ) (c : ShardCtrler.Config), sc.stateMachine.configs[i]? = some c →
        H.config i = fromCtrler c) ∧
      ∃ acts', Run (System.step H) Any System.init acts' d.system) ∧
    ∀ (g : Gid) (srv : Server), ∃ c,
      sc.stateMachine.configs[(d.system.server g srv).num]? = some c ∧
        (d.system.server g srv).currentConfig = fromCtrler c := by
  have hd := deploymentOk_run h
  obtain ⟨x, hx⟩ := ShardCtrler.exists_settled d.ctrler (ShardCtrler.firsts_inRange hd.logged)
  obtain rfl := hx.same choices sc hsc
  have hcovers := covers_historyOf hx.ok
  refine ⟨⟨historyOf hx.ok fun _ => 0, hcovers _, hd.refines sc hx _ (hcovers _)⟩, fun g srv => ?_⟩
  cases hc : sc.stateMachine.configs[(d.system.server g srv).num]? with
  | some c => exact ⟨c, rfl, by rw [hd.currentConfig hx (hcovers fun _ => 0), hcovers _ _ c hc]⟩
  | none =>
    -- a server ahead of the controller would have to agree with any two continuations
    exfalso
    have hle := List.getElem?_eq_none_iff.mp hc
    have h₀ := hd.currentConfig hx (hcovers fun _ => 0) g srv
    have h₁ := hd.currentConfig hx (hcovers fun _ => 1) g srv
    rw [config_historyOf_of_le _ _ hle] at h₀ h₁
    have h01 := congrFun (congrArg Config.shards (h₀.symm.trans h₁)) 0
    dsimp only at h01
    omega

/-- A controller server whose loops go through the maps in ascending order. -/
def plain : ℕ → Choice := fun _ => ⟨ShardCtrler.visiting [], 30⟩

/-- Group 1 joins. -/
def join1 : ShardCtrler.Op := .join (Ranges.Map.empty.set 1 ["a"])

/-- Group 2 joins. -/
def join2 : ShardCtrler.Op := .join (Ranges.Map.empty.set 2 ["b"])

/-- Group 1 joins and takes a write for shard 0; then group 2 joins, its client sends the `Join` once
    more, and the shard is handed off. Group 1 gets the second configuration as the reply to a `Query`
    of group 2. -/
def rolledOut : List DeploymentAction :=
  [.request plain 0 (.update join1 7 0), .commit 0, .request plain 1 (.query 1), .commit 1,
    .fetchConfig gid1 (leader 0) plain 1, .group (.commit gid1 0),
    .group (.putAppend gid1 (leader 1) ⟨"d", "x", "Put", 1, 0⟩), .group (.commit gid1 1),
    .request plain 2 (.update join2 7 1), .request plain 2 (.update join2 7 1), .commit 2, .commit 3,
    .fetchConfig gid2 (leader 0) plain 1, .group (.commit gid2 0),
    .request plain 4 (.query 2), .commit 4,
    .fetchConfig gid1 (leader 2) plain 4, .group (.commit gid1 2),
    .fetchConfig gid2 (leader 1) plain 4, .group (.commit gid2 1),
    .group (.requestShards gid2 (leader 2) ascending gid1), .group (.deliver 0 (leader 3) .ok),
    .group (.deliver 1 (leader 0) .ok), .group (.commit gid2 2)]

theorem deployment_refines_rolledOut : ∃ d sc,
    Run Deployment.step Deployment.Named Deployment.init rolledOut d ∧
    ShardCtrler.replay plain d.ctrler = some sc ∧
    ∃ c, sc.stateMachine.configs[2]? = some c ∧
      (d.system.server gid2 (leader 3)).currentConfig = fromCtrler c := by
  obtain ⟨d, hrun, hq⟩ := exists_run Deployment.step Deployment.Named Deployment.init rolledOut
    (fun d => (ShardCtrler.replay plain d.ctrler).isSome &&
      decide ((d.system.server gid2 (leader 3)).num = 2)) (by decide +kernel)
  obtain ⟨hsome, hnum⟩ := Bool.and_eq_true_iff.mp hq
  obtain ⟨sc, hsc⟩ := Option.isSome_iff_exists.mp hsome
  obtain ⟨c, hc, hcur⟩ := (deployment_refines hrun hsc).2 gid2 (leader 3)
  exact ⟨d, sc, hrun, hsc, c, of_decide_eq_true hnum ▸ hc, hcur⟩

/-- As long as the updates of the controller's log are admissible and never take away the last group,
    no two groups accept keys of one shard, in any state of the whole. -/
theorem deployment_single_owner {acts : List DeploymentAction}
    (h : Run Deployment.step Deployment.Named Deployment.init acts d)
    {updates : List ShardCtrler.Action} (hupdates : updates.map ShardCtrler.Action.op = firsts d.ctrler)
    {csm : ShardCtrler.CtrlerStateMachine}
    (hkeep : Run ShardCtrler.step ShardCtrler.Keeps newCtrlerStateMachine updates csm)
    {g g' : Gid} {order order' : ℕ → ShardOrder} {key key' : String}
    (hkey : key2shard key = key2shard key')
    (hg : (replay g order (d.system.log g)).matchGroup g key = true)
    (hg' : (replay g' order' (d.system.log g')).matchGroup g' key' = true) : g = g' := by
  have hd := deploymentOk_run h
  have hin := ShardCtrler.firsts_inRange hd.logged
  obtain ⟨sc, hsc⟩ := ShardCtrler.exists_settled d.ctrler hin
  have hkeeping : ShardCtrler.Keeping csm :=
    hkeep.preserves (I := ShardCtrler.Keeping) (fun _ _ _ hk hP hs => hk.step hP hs)
      ShardCtrler.keeping_new
  rw [← hsc.ok.stateMachine_eq hin hupdates hkeep] at hkeeping
  obtain ⟨last, hlast⟩ : ∃ c, sc.stateMachine.configs.getLast? = some c :=
    Option.ne_none_iff_exists'.mp fun hnone => hsc.ok.configs_ne_nil (List.getLast?_eq_none_iff.mp hnone)
  obtain ⟨acts', hrun⟩ := hd.refines sc hsc _ (covers_historyOf hsc.ok (fromCtrler last).shards)
  have hs := sound_run hrun
  rw [(hs.legal g).groupOk.2, ShardKV.matchGroup, hkey] at hg
  rw [(hs.legal g').groupOk.2, ShardKV.matchGroup] at hg'
  obtain ⟨hown, hh⟩ := (hs.legal g).groupOk.1.owns_of_serves hg
  obtain ⟨hown', hh'⟩ := (hs.legal g').groupOk.1.owns_of_serves hg'
  exact (hs.orderly (assigned_historyOf hsc.ok hkeeping hlast) _).eq_of_holds hown hh hown' hh'

/-- The updates of `rolledOut` keep the shards with the groups. -/
theorem exists_keeps : ∃ (updates : List ShardCtrler.Action) (csm : ShardCtrler.CtrlerStateMachine),
    updates.map ShardCtrler.Action.op = [join1, join2] ∧
    Run ShardCtrler.step ShardCtrler.Keeps newCtrlerStateMachine updates csm := by
  obtain ⟨shards, groups, ⟨⟨n, hn⟩, -⟩, -⟩ := ShardCtrler.join_settles
    (show newCtrlerStateMachine.configs.getLast? = some ShardCtrler.defaultConfig from rfl)
    (Ranges.Map.empty.set 1 ["a"])
  obtain ⟨shards', groups', ⟨⟨n', hn'⟩, -⟩, -⟩ := ShardCtrler.join_settles
    (ShardCtrler.getLast?_add newCtrlerStateMachine shards groups) (Ranges.Map.empty.set 2 ["b"])
  refine ⟨[⟨join1, ShardCtrler.visiting [], n⟩, ⟨join2, ShardCtrler.visiting [], n'⟩], _, rfl,
    .cons ⟨⟨by decide, by decide⟩, fun gids h => ?_⟩ (hn _ n le_rfl)
      (.cons ⟨⟨by decide, by decide⟩, fun gids h => ?_⟩ (hn' _ n' le_rfl) (.nil _))⟩
  · cases h
  · cases h

theorem deployment_single_owner_rolledOut : ∃ d,
    Run Deployment.step Deployment.Named Deployment.init rolledOut d ∧
    (state gid2 (d.system.log gid2)).matchGroup gid2 "d" = true ∧
    (state gid1 (d.system.log gid1)).matchGroup gid1 "d" = false := by
  obtain ⟨d, hrun, hq⟩ := exists_run Deployment.step Deployment.Named Deployment.init rolledOut
    (fun d => (state gid2 (d.system.log gid2)).matchGroup gid2 "d" &&
      decide (firsts d.ctrler = [join1, join2])) (by decide +kernel)
  obtain ⟨hserves, hfirsts⟩ := Bool.and_eq_true_iff.mp hq
  obtain ⟨updates, csm, hupdates, hkeep⟩ := exists_keeps
  refine ⟨d, hrun, hserves, Bool.eq_false_iff.mpr fun h1 => ?_⟩
  have heq := deployment_single_owner hrun (hupdates.trans (of_decide_eq_true hfirsts).symm) hkeep
    rfl h1 hserves
  exact absurd heq (by decide)

end Refinement

end GoServices.ShardKv
