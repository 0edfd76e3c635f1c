import GoServices.Shard.Protocol

/-! Every step keeps the protocol invariant: first what the servers send and propose, then what a
    commit does. -/

namespace GoServices.ShardKv

open Dedup Runs

section Server

variable {H : History} {c : System} {g a b : Gid} {pre : List RaftCommand} {kv : ShardKV}

/-- The servers of a group agree, whatever their orders are. -/
theorem Sound.replay_eq (h : Sound H c) (hp : pre <+: c.log g)
    (order : ℕ → ShardOrder) : replay g order pre = state g pre :=
  ((h.legal g).cut hp).groupOk.2 order

/-- A server is in the state of some part of the log, whatever its orders were. -/
theorem Sound.server (h : Sound H c) (g : Gid) (srv : Server) :
    ∃ pre, pre <+: c.log g ∧ c.server g srv = state g pre ∧ GroupOk H g (state g pre) := by
  have hp : (c.log g).take srv.applied <+: c.log g := List.take_prefix _ _
  obtain ⟨hok, hord⟩ := ((h.legal g).cut hp).groupOk
  exact ⟨_, hp, hord _, hok⟩

theorem commandOk_fetchConfig (hp : pre <+: c.log g) {n : ℕ} {command : RaftCommand}
    (h : (state g pre).fetchConfigTask (H.config n) = some command) :
    CommandOk H c.log g command := by
  have hl := state_later (g := g) hp
  have hnum := hl.num
  unfold ShardKV.fetchConfigTask at h
  split_ifs at h with hfetch
  obtain rfl := Option.some.inj h
  obtain ⟨hnormal, hn⟩ := hfetch
  refine ⟨by rw [H.num], ?_⟩
  rcases Nat.lt_or_ge (state g pre).num (state g (c.log g)).num with hlt | hge
  · exact Or.inl (by omega)
  · exact Or.inr ⟨by omega, fun s => (hl.shards (by omega) s).normal (hnormal s)⟩

/-- The tasks ask for all shards that come from one group. -/
theorem GroupOk.taskArgs (h : GroupOk H g kv) {order : ShardOrder} {status : ShardStatus}
    (hst : status = .moveIn ∨ status = .gc) {args : ShardOperationArgs}
    (ht : kv.taskArgs order status a = some args) :
    ArgsOk H args a g ∧ args.configNum = kv.num ∧ ∀ s ∈ args.shardIds, kv.status s = status := by
  unfold ShardKV.taskArgs at ht
  dsimp only at ht
  split_ifs at ht with hids
  obtain rfl := Option.some.inj ht
  have hmem : ∀ s, s ∈ kv.getShardByStatus order status a ↔
      kv.status s = status ∧ H.own (kv.num - 1) s = a.val := by
    intro s
    rw [ShardKV.getShardByStatus, List.mem_filter, decide_eq_true_iff, h.prev]
    exact ⟨fun hx => hx.2, fun hx => ⟨order.mem s, hx⟩⟩
  have hin : ∀ s, kv.status s = status → _ := fun s hs => h.inward s (hs ▸ hst)
  obtain ⟨t, ht⟩ := List.exists_mem_of_ne_nil _ hids
  obtain ⟨hts, hta⟩ := (hmem t).mp ht
  obtain ⟨hne0, hneg, hown⟩ := hin t hts
  refine ⟨⟨?_, fun hx => hneg (hta.trans (congrArg _ hx)), order.nodup.filter _, fun s => ?_⟩, rfl,
    fun s hs => ((hmem s).mp hs).1⟩
  · rcases Nat.eq_zero_or_pos kv.num with hz | hz
    · rw [hz, History.own, H.zero] at hne0; exact absurd rfl hne0
    · exact hz
  · rw [hmem]
    constructor
    · exact fun hx => ⟨hx.2, (hin s hx.1).2.2⟩
    · intro hx
      rw [h.uniform s t (hx.1.trans hta.symm) (hx.2.trans hown.symm)]
      exact ⟨hts, hx.1⟩

/-- A server that answers has the data of `MoveOut`, or the data is no longer needed. -/
theorem Sound.getShardsData (h : Sound H c) {args : ShardOperationArgs} (ha : ArgsOk H args a b)
    (hp : pre <+: c.log a) (hok : ((state a pre).getShardsData args).err = .ok) :
    ReplyOk H c.log ((state a pre).getShardsData args) a b := by
  unfold ShardKV.getShardsData at hok ⊢
  split_ifs at hok ⊢ with hnum
  have hl := state_later (g := a) hp
  obtain ⟨pre', command, hp', hbef, haft⟩ := exists_enters (g := a) ha.pos (Nat.le_of_not_lt hnum)
  have hl' := state_later (g := a) hp'
  refine ⟨ha.ne, fun s => ?_, pre', command, ⟨hp'.trans hp, hbef, haft⟩, hl'.table,
    fun s data hs => ?_⟩
  · rw [← ha.all]; dsimp only; split_ifs with hs <;> simp [hs]
  · dsimp only at hs ⊢
    split_ifs at hs with hmem
    obtain rfl := Option.some.inj hs
    by_cases hrel : Released (state a pre) args.configNum s
    · exact Or.inl (h.kept _ a b s ((ha.all s).mp hmem) ha.ne (hrel.later hl))
    · unfold Released at hrel
      push Not at hrel
      have heq : (state a pre).num = args.configNum := by omega
      have hout : (state a pre).status s = .moveOut := hrel.2 heq
      exact Or.inr ((hl'.shards (haft.trans heq.symm) s).moveOut hout).2

end Server

/-! ### Proposals and packets -/

section Pool

variable {H : History} {c : System} {g : Gid}

theorem Sound.propose (h : Sound H c) {command : RaftCommand} (hc : CommandOk H c.log g command) :
    Sound H (c.propose g command) := by
  refine ⟨h.legal, h.taken, h.kept, fun x cmd hmem => ?_, h.network, h.handed⟩
  unfold System.propose at hmem
  dsimp only at hmem
  rcases eq_or_ne x g with rfl | hx
  · rw [Function.update_self] at hmem
    rcases List.mem_append.mp hmem with hold | hnew
    · exact h.proposed x cmd hold
    · rw [List.mem_singleton.mp hnew]; exact hc
  · rw [Function.update_of_ne hx] at hmem
    exact h.proposed x cmd hmem

theorem Sound.send (h : Sound H c) {packet : Packet} (hp : PacketOk H c.log packet) :
    Sound H (c.send packet) := by
  refine ⟨h.legal, h.taken, h.kept, h.proposed, fun p hmem => ?_, h.handed⟩
  rcases List.mem_append.mp hmem with hold | hnew
  · exact h.network p hold
  · rw [List.mem_singleton.mp hnew]; exact hp

theorem Sound.deliver (h : Sound H c) {srv : Server} {err : Err} {packet : Packet} {c' : System}
    (hp : PacketOk H c.log packet) (hs : c.deliver srv err packet = some c') : Sound H c' := by
  cases packet with
  | getArgs src dst args =>
    obtain rfl := Option.some.inj hs
    obtain ⟨pre, hpre, heq, -⟩ := h.server dst srv
    refine h.send fun hok => ⟨dst, ?_⟩
    rw [heq] at hok ⊢
    exact h.getShardsData hp hpre hok
  | getReply dst reply =>
    simp only [System.deliver] at hs
    split_ifs at hs with hok
    obtain rfl := Option.some.inj hs
    exact h.propose (hp hok)
  | deleteArgs src dst args =>
    simp only [System.deliver, ShardKV.deleteShardsData] at hs
    split_ifs at hs <;> obtain rfl := Option.some.inj hs
    · exact h.send ⟨dst, hp⟩
    · have hc : CommandOk H c.log dst (.shardGC args) := ⟨dst, src, hp⟩
      exact (h.propose hc).send ⟨dst, hp⟩
  | deleteReply dst args err' =>
    simp only [System.deliver] at hs
    split_ifs at hs
    obtain rfl := Option.some.inj hs
    obtain ⟨a, ha⟩ := hp
    exact h.propose ⟨a, dst, ha⟩

end Pool

/-! ### Commits -/

section Commit

variable {H : History} {c : System} {g x : Gid} {command : RaftCommand}

theorem log_commit_self : (c.commit g command).log g = c.log g ++ [command] :=
  Function.update_self _ _ _

theorem log_commit_of_ne (hx : x ≠ g) : (c.commit g command).log x = c.log x :=
  Function.update_of_ne hx _ _

theorem log_grows (c : System) (g : Gid) (command : RaftCommand) (x : Gid) :
    c.log x <+: (c.commit g command).log x := by
  rcases eq_or_ne x g with rfl | hx
  · rw [log_commit_self]; exact List.prefix_append _ _
  · rw [log_commit_of_ne hx]

theorem CommandOk.admissible (h : CommandOk H c.log g command) :
    Admissible H g (state g (c.log g)) command := by
  cases command with
  | clientOperation op => trivial
  | configChange newConfig =>
    intro hnum
    obtain ⟨hc, hn⟩ := h
    exact ⟨hc, hn.elim (fun hle => by omega) And.right⟩
  | shardMigration reply =>
    intro hnum
    obtain ⟨a, ha⟩ := h
    exact ⟨a, ha.ne, hnum ▸ ha.all⟩
  | shardGC args =>
    intro hnum
    obtain ⟨a, b, hab⟩ := h
    exact ⟨hab.nodup, a, b, hab.ne, hnum ▸ hab.all⟩

theorem Sound.legal_concat (h : Sound H c) (hok : CommandOk H c.log g command) :
    Legal H g (c.log g ++ [command]) :=
  ShardKv.legal_concat.mpr ⟨h.legal g, hok.admissible⟩

theorem Enters.le {n : ℕ} {log pre : List RaftCommand} (h : Enters g log n pre command) :
    n ≤ (state g log).num :=
  h.after ▸ (state_later h.mem).num

/-- If `b` now holds a shard, it has it from a reply, and who replied had got there. -/
theorem Sound.commit_taken (h : Sound H c) (hok : CommandOk H c.log g command) {n : ℕ} {a b : Gid}
    {s : Fin nShards} (hm : H.Moves n a b s) (hne : a ≠ b)
    (hh : Holds (state b ((c.commit g command).log b)) n s) :
    n ≤ (state a ((c.commit g command).log a)).num := by
  refine le_trans ?_ (state_later (log_grows c g command a)).num
  rcases eq_or_ne b g with rfl | hb
  · rw [log_commit_self] at hh
    have hfate := (h.legal_concat hok).effect.fate s
    rcases hfate.holds (h.legal b).groupOk.1 hm hne hh with hold | ⟨reply, rfl, rfl, hsome⟩
    · exact h.taken n a b s hm hne hold
    · obtain ⟨a', ha'⟩ := hok
      obtain ⟨pre, command, hent, -⟩ := ha'.origin
      obtain rfl : a' = a := Subtype.ext (((ha'.all s).mp hsome).1.symm.trans hm.1)
      exact hent.le
  · rw [log_commit_of_ne hb] at hh
    exact h.taken n a b s hm hne hh

/-- If `a` now lets go of a shard, it was told to, by one who knew that `b` holds it. -/
theorem Sound.commit_kept (h : Sound H c) (hok : CommandOk H c.log g command) {n : ℕ} {a b : Gid}
    {s : Fin nShards} (hm : H.Moves n a b s) (hne : a ≠ b)
    (hr : Released (state a ((c.commit g command).log a)) n s) :
    Holds (state b ((c.commit g command).log b)) n s := by
  refine Holds.later ?_ (state_later (log_grows c g command b))
  rcases eq_or_ne a g with rfl | ha
  · rw [log_commit_self] at hr
    have hfate := (h.legal_concat hok).effect.fate s
    rcases hfate.released (h.legal a).groupOk.1 hm hne hr with hold | ⟨args, rfl, rfl, hmem⟩
    · exact h.kept n a b s hm hne hold
    · obtain ⟨a', b', hab⟩ := hok
      obtain rfl : b' = b := Subtype.ext (((hab.all s).mp hmem).2.symm.trans hm.2)
      exact hab.held s hmem
  · rw [log_commit_of_ne ha] at hr
    exact h.kept n a b s hm hne hr

theorem HandedOver.grow {log log' : Gid → List RaftCommand} {b : Gid} {pre : List RaftCommand}
    {s : Fin nShards} (hg : ∀ g, log g <+: log' g) (h : HandedOver H log b)
    (hp : pre ++ [command] <+: log b) (hin : (state b pre).status s = .moveIn)
    (hout : (state b (pre ++ [command])).status s ≠ .moveIn) :
    ∃ a pre' command', H.Moves (state b pre).num a b s ∧
      Enters a (log' a) (state b pre).num pre' command' ∧
      (∀ k, ((state b (pre ++ [command])).shards s).kv k =
        (((state a (pre' ++ [command'])).shards s).kv k).or (((state b pre).shards s).kv k)) ∧
      Le LastOperationInfo.seqId (state a (pre' ++ [command'])).duplicateTable
        (state b (pre ++ [command])).duplicateTable := by
  obtain ⟨a, pre', command', hm, hent, hrest⟩ := h pre command s hp hin hout
  exact ⟨a, pre', command', hm, hent.grow hg, hrest⟩

/-- A migration installs what the previous owner had when it entered the configuration: a reply that
    comes too late finds nothing in `MoveIn`. -/
theorem Sound.commit_handed (h : Sound H c) (hok : CommandOk H c.log g command) (b : Gid) :
    HandedOver H (c.commit g command).log b := by
  have hg := log_grows c g command
  intro pre cmd s hp hin hout
  rcases eq_or_ne b g with rfl | hb
  · rw [log_commit_self] at hp
    rcases List.prefix_concat_iff.mp hp with heq | hp
    · obtain ⟨rfl, hc⟩ := List.append_inj' heq rfl
      obtain rfl := List.singleton_inj.mp hc
      obtain ⟨reply, data, rfl, hnum, hd, heq⟩ := ((h.legal_concat hok).effect.fate s).leaves hin hout
      obtain ⟨a, ha⟩ := hok
      obtain ⟨pre', command', hent, hle, hdata⟩ := ha.origin
      have hfrozen := (hdata s data hd).resolve_left fun hh =>
        hh.elim (fun hlt => by omega) fun hx => hx.2 hin
      rw [← hnum, heq]
      refine ⟨a, pre', command', (ha.all s).mp (by rw [hd]; rfl), hent.grow hg, fun k => ?_,
        fun k n hb => blocks_merge.mpr (Or.inr (hle k n hb))⟩
      rw [← hfrozen, ShardKV.takeOver]
      dsimp only
      rw [hd]; rfl
    · exact (h.handed b).grow hg hp hin hout
  · rw [log_commit_of_ne hb] at hp
    exact (h.handed b).grow hg hp hin hout

theorem Sound.commit (h : Sound H c) (hmem : command ∈ c.proposed g) :
    Sound H (c.commit g command) := by
  have hok := h.proposed g command hmem
  have hg := log_grows c g command
  refine ⟨fun x => ?_, fun n a b s hm hne hh => h.commit_taken hok hm hne hh,
    fun n a b s hm hne hr => h.commit_kept hok hm hne hr,
    fun x cmd hx => (h.proposed x cmd hx).grow hg, fun p hp => (h.network p hp).grow hg,
    h.commit_handed hok⟩
  rcases eq_or_ne x g with rfl | hx
  · rw [log_commit_self]; exact h.legal_concat hok
  · rw [log_commit_of_ne hx]; exact h.legal x

end Commit

/-! ### Runs -/

section Run

variable {H : History} {c c' : System}

theorem Sound.perform (h : Sound H c) {g : Gid} {handled : Handled}
    (hc : ∀ command, handled = .start command → CommandOk H c.log g command) :
    Sound H (c.perform g handled) := by
  cases handled with
  | reply err => exact h
  | start command => exact h.propose (hc command rfl)

theorem commandOk_get {kv : ShardKV} {g : Gid} {key : String} {command : RaftCommand}
    (h : kv.get g key = .start command) : CommandOk H c.log g command := by
  unfold ShardKV.get at h
  split_ifs at h
  cases h; trivial

theorem commandOk_putAppend {kv : ShardKV} {g : Gid} {args : PutAppendArgs} {command : RaftCommand}
    (h : kv.putAppend g args = some (.start command)) : CommandOk H c.log g command := by
  unfold ShardKV.putAppend at h
  split_ifs at h <;> try cases h
  obtain ⟨opType, -, h⟩ := Option.map_eq_some_iff.mp h
  cases h; trivial

theorem Sound.step (h : Sound H c) {act : Action} (hs : c.step H act = some c') : Sound H c' := by
  cases act with
  | get g srv key =>
    obtain rfl := Option.some.inj hs
    exact h.perform fun _ => commandOk_get
  | putAppend g srv args =>
    obtain ⟨handled, hh, rfl⟩ := Option.map_eq_some_iff.mp hs
    exact h.perform fun _ hx => commandOk_putAppend (hx ▸ hh)
  | fetchConfig g srv n =>
    obtain ⟨command, hc, rfl⟩ := Option.map_eq_some_iff.mp hs
    obtain ⟨pre, hp, heq, -⟩ := h.server g srv
    exact h.propose (commandOk_fetchConfig hp (heq ▸ hc))
  | requestShards g srv order src =>
    obtain ⟨args, ha, rfl⟩ := Option.map_eq_some_iff.mp hs
    obtain ⟨pre, -, heq, hok⟩ := h.server g srv
    exact h.send (hok.taskArgs (Or.inl rfl) (heq ▸ ha)).1
  | requestDelete g srv order src =>
    obtain ⟨args, ha, rfl⟩ := Option.map_eq_some_iff.mp hs
    obtain ⟨pre, hp, heq, hok⟩ := h.server g srv
    obtain ⟨hargs, hnum, hst⟩ := hok.taskArgs (Or.inr rfl) (heq ▸ ha)
    refine h.send ⟨hargs, fun s hmem => Holds.later (Or.inr ⟨hnum.symm, ?_⟩) (state_later hp)⟩
    rw [hst s hmem]; decide
  | deliver k srv err =>
    obtain ⟨packet, hk, hs⟩ := Option.bind_eq_some_iff.mp hs
    exact h.deliver (h.network packet (List.mem_of_getElem? hk)) hs
  | commit g k =>
    obtain ⟨command, hk, rfl⟩ := Option.map_eq_some_iff.mp hs
    exact h.commit (List.mem_of_getElem? hk)

/-- Only a commit touches the logs. -/
theorem log_of_step {act : Action} (hs : c.step H act = some c') :
    c'.log = c.log ∨ ∃ g k command, act = .commit g k ∧ (c.proposed g)[k]? = some command ∧
      c' = c.commit g command := by
  cases act with
  | get g srv key =>
    obtain rfl := Option.some.inj hs
    left; unfold System.perform; split <;> rfl
  | putAppend g srv args =>
    obtain ⟨handled, -, rfl⟩ := Option.map_eq_some_iff.mp hs
    left; unfold System.perform; split <;> rfl
  | fetchConfig g srv n => obtain ⟨_, -, rfl⟩ := Option.map_eq_some_iff.mp hs; exact Or.inl rfl
  | requestShards g srv order src =>
    obtain ⟨_, -, rfl⟩ := Option.map_eq_some_iff.mp hs; exact Or.inl rfl
  | requestDelete g srv order src =>
    obtain ⟨_, -, rfl⟩ := Option.map_eq_some_iff.mp hs; exact Or.inl rfl
  | deliver k srv err =>
    obtain ⟨packet, -, hs⟩ := Option.bind_eq_some_iff.mp hs
    cases packet <;> simp only [System.deliver, ShardKV.deleteShardsData] at hs
    case getArgs => obtain rfl := Option.some.inj hs; exact Or.inl rfl
    all_goals split_ifs at hs <;> obtain rfl := Option.some.inj hs <;> exact Or.inl rfl
  | commit g k =>
    obtain ⟨command, hk, rfl⟩ := Option.map_eq_some_iff.mp hs
    exact Or.inr ⟨g, k, command, rfl, hk, rfl⟩

theorem sound_init (H : History) : Sound H System.init := by
  have hzero : ∀ n a b s, H.Moves n a b s → ¬ n ≤ 0 := by
    intro n a b s hm hn
    obtain rfl : n = 0 := by omega
    have := hm.2
    rw [History.own, H.zero] at this
    exact b.property this.symm
  refine ⟨fun g pre cmd hp => ?_, fun n a b s hm _ hh => ?_, fun n a b s hm _ hr => ?_,
    fun g cmd hmem => ?_, fun p hmem => ?_, fun b pre cmd s hp => ?_⟩
  · simp [System.init] at hp
  · exact absurd (hh.elim Nat.le_of_lt fun hx => le_of_eq hx.1.symm) (hzero n a b s hm)
  · exact absurd (hr.elim Nat.le_of_lt fun hx => le_of_eq hx.1.symm) (hzero n a b s hm)
  · simp [System.init] at hmem
  · simp [System.init] at hmem
  · simp [System.init] at hp

theorem sound_run {P : System → Action → Prop} {acts : List Action}
    (hc : Run (System.step H) P System.init acts c) : Sound H c :=
  hc.preserves (I := Sound H) (fun _ _ _ h _ hs => h.step hs) (sound_init H)

end Run

end GoServices.ShardKv
