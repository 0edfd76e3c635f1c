import GoServices.Kv.Histories
import GoServices.Porcupine.Store
import GoServices.Schemes.Points

/-! The replicated key/value store is linearizable, as long as every handler waiting at an applied
    index proposed the entry there; so the checker accepts what the clients have seen.

    The points of the methods in the log are their linearization points. -/

namespace GoServices.KvRaft

open Dedup Runs Porcupine

/-- What is logged about a request for the checker. -/
def Request.input : Request → KvInput
  | .get key => ⟨0, key, ""⟩
  | .putAppend key value op _ _ => ⟨if op = "Put" then 1 else 2, key, value⟩

/-- A finished call as an operation of the checker. -/
def Record.operation (r : Record) : KvOperation :=
  ⟨r.client, r.request.input, r.called, ⟨if r.request.isWrite then "" else r.value⟩, r.returned⟩

/-- The method that a clerk is running, as if it returned now. -/
def World.pending {n : ℕ} {C B : Type} (clientId : C → ℤ) (w : World n C B) (c : C) : Option Record :=
  (w.clerks c).call.map fun call =>
    ⟨clientId c, call.request, "", call.called, w.now, call.since, w.service.log.length⟩

/-- The map after the first `p` entries of the log. -/
def storeAt (L : List Op) (p : ℕ) : MemoryKVStateMachine := (replay (L.take p)).stateMachine

theorem Store.stateMachine_applyOp {st : Store} {op : Op} (h : st.Runs op) :
    (st.applyOp op).1.stateMachine = (st.applyToStateMachine op).1.stateMachine := by
  rw [Store.applyOp, if_neg (fun hx => h.2 (Store.requestDuplicated_iff.mp hx.2))]
  simp [h.1]

section Point

variable {L : List Op} {p : ℕ} {r : Record}

/-- At its point a write does to the store what its log entry does. -/
theorem storeStep_write {cmd : Op} (hr : RunsAt L p cmd) (hcmd : r.request.command = some cmd) :
    storeStep (storeAt L p) r.operation = some (storeAt L (p + 1)) := by
  have hnext : storeAt L (p + 1) = ((replay (L.take p)).applyToStateMachine cmd).1.stateMachine := by
    rw [storeAt, replay_succ hr.1, Store.stateMachine_applyOp hr.2]
  rw [hnext]
  cases hreq : r.request with
  | get key => exact absurd (isWrite_of_command hcmd hr.2.1) (by simp [hreq, Request.isWrite])
  | putAppend key value op k m =>
    rw [hreq] at hcmd
    obtain ⟨opType, hop, rfl⟩ := Option.map_eq_some_iff.mp hcmd
    unfold getOperationType at hop
    split_ifs at hop with hput happend <;> obtain rfl := Option.some.inj hop
    · simp [storeStep, Record.operation, Request.input, hreq, hput, storeAt,
        Store.applyToStateMachine]
    · simp [storeStep, Record.operation, Request.input, hreq, happend, storeAt,
        Store.applyToStateMachine]

/-- A get at its point returns what is in the store. -/
theorem storeStep_get {key : String} (hreq : r.request = .get key)
    (hp : Point L p r.value r.request) :
    storeStep (storeAt L p) r.operation = some (storeAt L p) := by
  rw [hreq] at hp
  have hval : ((storeAt L p).get key).1 = r.value := hp.2.symm
  simp [storeStep, Record.operation, Request.input, Request.isWrite, hreq, hval]

theorem runsAt_of_point {cmd : Op} (hp : Point L p r.value r.request)
    (hcmd : r.request.command = some cmd) (hget : cmd.opType ≠ .opGet) : RunsAt L p cmd := by
  cases hreq : r.request with
  | get key => exact absurd (isWrite_of_command hcmd hget) (by simp [hreq, Request.isWrite])
  | putAppend key value op k m =>
    rw [hreq] at hp hcmd
    obtain ⟨cmd', hcmd', hr⟩ := hp
    obtain rfl := Option.some.inj (hcmd.symm.trans hcmd')
    exact hr

/-- What takes effect at a position where a write is run is that write. -/
theorem command_of_point {cmd : Op} (hr : RunsAt L p cmd) (hp : Point L p r.value r.request) :
    r.request.command = some cmd := by
  cases hreq : r.request with
  | get key =>
    rw [hreq] at hp
    obtain ⟨⟨op, hop, hget⟩, -⟩ := hp
    obtain rfl := Option.some.inj (hr.1.symm.trans hop)
    exact absurd hget hr.2.1
  | putAppend key value op k m =>
    rw [hreq] at hp
    obtain ⟨cmd', hcmd', hr'⟩ := hp
    obtain rfl := Option.some.inj (hr.1.symm.trans hr'.1)
    exact hcmd'

end Point

theorem foldlM_same {α S : Type} {step : S → α → Option S} {s : S} {l : List α}
    (h : ∀ a ∈ l, step s a = some s) : l.foldlM step s = some s := by
  induction l with
  | nil => rfl
  | cons a l ih =>
    rw [List.foldlM_cons, h a (by simp)]
    exact ih fun b hb => h b (by simp [hb])

/-- Methods with points in a log, writes with different commands, every write of the log among
    them, and times that agree with what the methods have seen of the log. -/
structure Covers (L : List Op) (rs : List Record) : Prop where
  point : ∀ r ∈ rs, ∃ i, r.since ≤ i ∧ i < r.upto ∧ Point L i r.value r.request
  upto : ∀ r ∈ rs, r.upto ≤ L.length
  times : ∀ a ∈ rs, ∀ b ∈ rs, b.returned < a.called → b.upto ≤ a.since
  distinct : rs.Pairwise fun a b => ∀ cmd : Op, cmd.opType ≠ .opGet →
    a.request.command = some cmd → b.request.command ≠ some cmd
  all : ∀ i cmd, RunsAt L i cmd → ∃ r ∈ rs, r.request.command = some cmd

/-- What takes effect at one position brings the store to the next one. -/
theorem Covers.foldlM_point {L : List Op} {rs : List Record} (h : Covers L rs) {pos : Record → ℕ}
    (hpos : ∀ r ∈ rs, Point L (pos r) r.value r.request) {p : ℕ} (hp : p < L.length) :
    (rs.filter fun r => pos r = p).foldlM (fun s r => storeStep s r.operation) (storeAt L p) =
      some (storeAt L (p + 1)) := by
  have hmem : ∀ r ∈ rs.filter fun r => pos r = p, r ∈ rs ∧ Point L p r.value r.request := by
    intro r hr
    obtain ⟨hr, hrp⟩ := List.mem_filter.mp hr
    exact ⟨hr, of_decide_eq_true hrp ▸ hpos r hr⟩
  by_cases hrun : RunsAt L p L[p]
  · -- exactly one method
    obtain ⟨r, hr, hcmd⟩ := h.all p _ hrun
    have hrp : pos r = p := RunsAt.unique (runsAt_of_point (hpos r hr) hcmd hrun.2.1) hrun rfl rfl
    have hone : (rs.filter fun r => pos r = p) = [r] := by
      have hin : r ∈ rs.filter fun r => pos r = p := List.mem_filter.mpr ⟨hr, by simp [hrp]⟩
      have hdist := h.distinct.filter fun r => decide (pos r = p)
      cases hf : rs.filter fun r => pos r = p with
      | nil => simp [hf] at hin
      | cons a l =>
        cases l with
        | nil =>
          rw [hf, List.mem_singleton] at hin
          rw [hin]
        | cons b l =>
          rw [hf] at hdist
          have ha := command_of_point hrun (hmem a (by simp [hf])).2
          have hb := command_of_point hrun (hmem b (by simp [hf])).2
          exact absurd hb ((List.pairwise_cons.mp hdist).1 b (by simp) _ hrun.2.1 ha)
    rw [hone]
    simp [storeStep_write hrun hcmd]
  · -- only gets
    have hsame : storeAt L (p + 1) = storeAt L p := by
      rw [storeAt, storeAt, replay_skip (List.getElem?_eq_getElem hp) hrun]
    rw [hsame]
    refine foldlM_same fun r hr => ?_
    obtain ⟨hr, hpoint⟩ := hmem r hr
    cases hreq : r.request with
    | get key => exact storeStep_get hreq hpoint
    | putAppend key value op k m =>
      rw [hreq] at hpoint
      obtain ⟨cmd, -, hr'⟩ := hpoint
      have : cmd = L[p] := by
        have := hr'.1
        rw [List.getElem?_eq_getElem hp, Option.some.injEq] at this
        exact this.symm
      exact absurd (this ▸ hr') hrun

theorem Covers.storeLinearizable {L : List Op} {rs : List Record} (h : Covers L rs) :
    StoreLinearizable (rs.map Record.operation) := by
  classical
  have hex : ∀ r, ∃ i, r ∈ rs → r.since ≤ i ∧ i < r.upto ∧ Point L i r.value r.request := by
    intro r
    by_cases hr : r ∈ rs
    · obtain ⟨i, hi⟩ := h.point r hr
      exact ⟨i, fun _ => hi⟩
    · exact ⟨0, fun hr' => absurd hr' hr⟩
  choose pos hpos using hex
  refine Locality.Linearizable.map (Locality.linearizable_of_points pos (storeAt L)
    (fun r hr => lt_of_lt_of_le (hpos r hr).2.1 (h.upto r hr)) (fun a ha b hb hlt => ?_)
    fun p hp => h.foldlM_point (fun r hr => (hpos r hr).2.2) hp)
  have hle := h.times a ha b hb (by simpa [Record.operation] using hlt)
  have hb' := (hpos b hb).2.1
  have ha' := (hpos a ha).1
  omega

section World

variable {n : ℕ} {C B : Type} {clientId : C → ℤ} {cd : Codec B} {w : World n C B}

/-- A clerk is running a write that is already in effect. -/
def TookEffect (w : World n C B) (c : C) : Prop :=
  ∃ call cmd i, (w.clerks c).call = some call ∧ call.request.command = some cmd ∧
    RunsAt (ops w.service.log) i cmd

theorem mem_filterMap_pending {cs : List C} {r : Record} (h : r ∈ cs.filterMap (w.pending clientId)) :
    ∃ c ∈ cs, ∃ call, (w.clerks c).call = some call ∧ r =
      ⟨clientId c, call.request, "", call.called, w.now, call.since, w.service.log.length⟩ := by
  obtain ⟨c, hc, hr⟩ := List.mem_filterMap.mp h
  obtain ⟨call, hcall, rfl⟩ := Option.map_eq_some_iff.mp hr
  exact ⟨c, hc, call, hcall, rfl⟩

/-- What has returned and the running writes that are in effect make up all writes of the log. -/
theorem WorldOk.covers (h : WorldOk clientId cd w) (hinj : Function.Injective clientId) {cs : List C}
    (hnodup : cs.Nodup) (hcs : ∀ c, c ∈ cs ↔ TookEffect w c) :
    Covers (ops w.service.log) (w.history ++ cs.filterMap (w.pending clientId)) := by
  have hlen : (ops w.service.log).length = w.service.log.length := by simp [ops]
  refine ⟨fun r hr => ?_, fun r hr => ?_, fun a ha b hb hlt => ?_, List.pairwise_append.mpr
    ⟨h.numbers.distinct, ?_, fun a ha b hb cmd hget hcmd hcmd' => ?_⟩, fun i cmd hrun => ?_⟩
  · rcases List.mem_append.mp hr with hold | hnew
    · exact (h.history r hold).point
    · obtain ⟨c, hc, call, hcall, rfl⟩ := mem_filterMap_pending hnew
      obtain ⟨call', cmd, i, hcall', hcmd, hrun⟩ := (hcs c).mp hc
      obtain rfl := Option.some.inj (hcall.symm.trans hcall')
      have hw := isWrite_of_command hcmd hrun.2.1
      refine ⟨i, (h.running c call hcall).fresh i cmd hrun.1 hw hcmd, lt_of_getElem?_ops hrun.1, ?_⟩
      cases hreq : call.request with
      | get key => simp [hreq, Request.isWrite] at hw
      | putAppend key value op k m => exact ⟨cmd, hreq ▸ hcmd, hrun⟩
  · rw [hlen]
    rcases List.mem_append.mp hr with hold | hnew
    · exact (h.history r hold).upto
    · obtain ⟨c, hc, call, hcall, rfl⟩ := mem_filterMap_pending hnew
      exact le_refl _
  · have hb' : b ∈ w.history := by
      rcases List.mem_append.mp hb with hold | hnew
      · exact hold
      · -- what is running has not returned before anything was called
        obtain ⟨c, hc, call, hcall, rfl⟩ := mem_filterMap_pending hnew
        have hle : a.called ≤ w.now := by
          rcases List.mem_append.mp ha with hold | hnew'
          · obtain ⟨h₁, h₂, -⟩ := h.times.record a hold
            exact le_trans h₁ h₂
          · obtain ⟨c', -, call', hcall', rfl⟩ := mem_filterMap_pending hnew'
            exact (h.times.called c' call' hcall').1
        exact absurd hlt (not_lt.mpr hle)
    rcases List.mem_append.mp ha with hold | hnew
    · exact (h.times.record a hold).2.2 b hb' hlt
    · obtain ⟨c, hc, call, hcall, rfl⟩ := mem_filterMap_pending hnew
      exact (h.times.called c call hcall).2 b hb' hlt
  · refine List.pairwise_filterMap.mpr (hnodup.imp fun {c c'} hne a ha b hb cmd hget hcmd hcmd' => ?_)
    obtain ⟨call, hcall, rfl⟩ := Option.map_eq_some_iff.mp ha
    obtain ⟨call', hcall', rfl⟩ := Option.map_eq_some_iff.mp hb
    obtain ⟨op, hop⟩ := h.numbers.running c call hcall
    obtain ⟨op', hop'⟩ := h.numbers.running c' call' hcall'
    simp only [hop] at hcmd
    simp only [hop'] at hcmd'
    have hc := (ClerkOp.numbers_of_command hcmd hget).1
    have hc' := (ClerkOp.numbers_of_command hcmd' hget).1
    exact hne (hinj (hc.symm.trans hc'))
  · obtain ⟨c, hc, call, hcall, rfl⟩ := mem_filterMap_pending hb
    obtain ⟨c', k, op', hlt, hreq⟩ := h.numbers.record a ha (isWrite_of_command hcmd hget)
    obtain ⟨op, hop⟩ := h.numbers.running c call hcall
    simp only [hreq] at hcmd
    simp only [hop] at hcmd'
    obtain ⟨hk, hm⟩ := ClerkOp.numbers_of_command hcmd hget
    obtain ⟨hk', hm'⟩ := ClerkOp.numbers_of_command hcmd' hget
    obtain rfl := hinj (hk.symm.trans hk')
    omega
  · rcases h.of_logged hrun.1 hrun.2.1 with ⟨x, hx, hcmd⟩ | ⟨c, call, hcall, hcmd⟩
    · exact ⟨x, List.mem_append_left _ hx, hcmd⟩
    · exact ⟨_, List.mem_append_right _ (List.mem_filterMap.mpr ⟨c,
        (hcs c).mpr ⟨call, cmd, i, hcall, hcmd, hrun⟩, by rw [World.pending, hcall]; rfl⟩), hcmd⟩

theorem WorldOk.exists_linearizable [Fintype C] (h : WorldOk clientId cd w)
    (hinj : Function.Injective clientId) : ∃ cs : List C, cs.Nodup ∧ (∀ c ∈ cs, TookEffect w c) ∧
      StoreLinearizable ((w.history ++ cs.filterMap (w.pending clientId)).map Record.operation) := by
  classical
  let cs := (Finset.univ : Finset C).toList.filter fun c => TookEffect w c
  have hcs : ∀ c, c ∈ cs ↔ TookEffect w c := by simp [cs]
  have hnodup : cs.Nodup := (Finset.nodup_toList _).filter _
  exact ⟨cs, hnodup, fun c hc => (hcs c).mp hc, (h.covers hinj hnodup hcs).storeLinearizable⟩

variable [NeZero n] [DecidableEq C]

/-- Whatever the clients do, whichever messages are lost or late, whoever is leader, crashes or
    restores a snapshot: with some of the writes that are still running, what the clients have seen is
    linearizable, as long as every handler waiting at an applied index proposed the entry there. -/
theorem clerks_linearizable [Fintype C] (hinj : Function.Injective clientId)
    {as : List (WorldAction n C)}
    (hr : Run (World.step cd clientId) World.TermsMatch World.init as w) :
    ∃ cs : List C, cs.Nodup ∧ (∀ c ∈ cs, TookEffect w c) ∧
      StoreLinearizable ((w.history ++ cs.filterMap (w.pending clientId)).map Record.operation) :=
  (worldOk_run hinj hr).exists_linearizable hinj

/-- One server. A put has returned, and an append of another clerk is in effect when its reply is
    lost. -/
theorem clerks_linearizable_lost : ∃ (as : List (WorldAction 1 Bool)) (w : World 1 Bool (Option Store)),
    Run (World.step plainCodec fun c => if c then 2 else 1) World.TermsMatch World.init as w ∧
    w.history.length = 1 ∧ (w.clerks true).call.isSome = true ∧
    ∃ cs : List Bool, cs.Nodup ∧ (∀ c ∈ cs, TookEffect w c) ∧ StoreLinearizable
      ((w.history ++ cs.filterMap (w.pending fun c => if c then 2 else 1)).map Record.operation) := by
  obtain ⟨w, hr, hq⟩ := exists_run
    (World.step plainCodec fun c => if c then 2 else 1) World.TermsMatch World.init
    [.begin false (.put "k" "x"), .send false, .begin true (.append "k" "y"), .send true,
      .server (.receive 0 (.putAppend "k" "x" "Put" 1 0)), .server (.check 0 0),
      .server (.start 0 0 (some (1, 1))), .server (.listen 0 0), .server (.commit 0),
      .server (.apply 0 true false), .server (.take 0 0), .server (.remove 0 0), .finish false 0,
      .server (.receive 0 (.putAppend "k" "y" "Append" 2 0)), .server (.check 0 0),
      .server (.start 0 0 (some (2, 1))), .server (.listen 0 0), .server (.commit 1),
      .server (.apply 0 true false), .retry true]
    (fun w : World 1 Bool (Option Store) => w.history.length == 1 && (w.clerks true).call.isSome)
    (by decide +kernel)
  simp only [Bool.and_eq_true, beq_iff_eq] at hq
  exact ⟨_, w, hr, hq.1, hq.2, clerks_linearizable (by decide) hr⟩

/-- When no clerk is running anything, the checker does not reject what the clients have seen. -/
theorem checker_accepts_clerks [Fintype C] (hinj : Function.Injective clientId)
    {as : List (WorldAction n C)}
    (hr : Run (World.step cd clientId) World.TermsMatch World.init as w)
    (hidle : ∀ c, (w.clerks c).call = none) (sorter : Sorter KvInput KvOutput)
    {computeInfo hasTimeout : Bool} {bs : List PoolAction} {p : Pool KvInput KvOutput String}
    (hp : Run (Pool.step (fillDefault kvModel) computeInfo hasTimeout) Any
      (checkOperations sorter kvModel (w.history.map Record.operation)) bs p)
    {res : CheckResult} {info : List (List (List ℕ))} (hdone : p.phase = .done res info) :
    res = .ok ∨ res = .unknown ∧ hasTimeout = true := by
  have hok := worldOk_run hinj hr
  obtain ⟨cs, -, hcs, hlin⟩ := hok.exists_linearizable hinj
  have hnil : cs.filterMap (w.pending clientId) = [] := by
    rw [List.filterMap_eq_nil_iff]
    intro c _
    rw [World.pending, hidle c]
    rfl
  rw [hnil, List.append_nil] at hlin
  have htime : ∀ v ∈ w.history.map Record.operation, v.call ≤ v.ret := by
    intro v hv
    obtain ⟨r, hr, rfl⟩ := List.mem_map.mp hv
    exact Int.ofNat_le.mpr (hok.times.record r hr).1
  have hres := result_of_run sorter (congruent_fillDefault rfl) (time_of_partition htime) hp hdone
  rw [forall_partition_iff htime] at hres
  cases res with
  | ok => exact .inl rfl
  | illegal => exact absurd hlin (hres.2.1 rfl)
  | unknown => exact .inr ⟨rfl, hres.2.2 rfl⟩

/-- A put and a get of one clerk. -/
theorem checker_accepts_clerks_read : ∃ (as : List (WorldAction 1 Unit)) (w : World 1 Unit (Option Store))
    (bs : List PoolAction) (p : Pool KvInput KvOutput String) (info : List (List (List ℕ))),
    Run (World.step plainCodec fun _ => 1) World.TermsMatch World.init as w ∧
    w.history.map Record.value = ["", "x"] ∧ (∀ c, (w.clerks c).call = none) ∧
    Run (Pool.step (fillDefault kvModel) true false) Any (checkOperations
      (insertionSorter KvInput KvOutput) kvModel (w.history.map Record.operation)) bs p ∧
    p.phase = .done .ok info := by
  obtain ⟨w, hr, hq⟩ := exists_run (World.step plainCodec fun _ => 1) World.TermsMatch World.init
    [.begin () (.put "k" "x"), .send (),
      .server (.receive 0 (.putAppend "k" "x" "Put" 1 0)), .server (.check 0 0),
      .server (.start 0 0 (some (1, 1))), .server (.listen 0 0), .server (.commit 0),
      .server (.apply 0 true false), .server (.take 0 0), .server (.remove 0 0), .finish () 0,
      .begin () (.get "k"), .send (), .server (.receive 0 (.get "k")), .server (.check 0 0),
      .server (.start 0 0 (some (2, 1))), .server (.listen 0 0), .server (.commit 1),
      .server (.apply 0 true false), .server (.take 0 0), .finish () 1]
    (fun w : World 1 Unit (Option Store) => w.history.map Record.value == ["", "x"] &&
      (w.clerks ()).call.isNone) (by decide +kernel)
  simp only [Bool.and_eq_true, beq_iff_eq, Option.isNone_iff_eq_none] at hq
  have hinj : Function.Injective fun _ : Unit => (1 : ℤ) := fun _ _ _ => rfl
  have htime : ∀ v ∈ w.history.map Record.operation, v.call ≤ v.ret := by
    intro v hv
    obtain ⟨r, hr', rfl⟩ := List.mem_map.mp hv
    exact Int.ofNat_le.mpr ((worldOk_run hinj hr).times.record r hr').1
  have hne : w.history.map Record.operation ≠ [] := by
    intro hnil
    rw [List.map_eq_nil_iff] at hnil
    simp [hnil] at hq
  have hE : Congruent (fillDefault kvModel) := congruent_fillDefault rfl
  obtain ⟨bs, p, res, info, hp, hdone⟩ := exists_returned hE
    (wellFormed_partitions (insertionSorter KvInput KvOutput) (time_of_partition htime))
    (by simpa using partition_ne_nil hne) true false
  rcases checker_accepts_clerks hinj hr (fun c => hq.2) _ hp hdone with rfl | ⟨-, hfalse⟩
  · exact ⟨_, w, bs, p, info, hr, hq.1, fun c => hq.2, hp, hdone⟩
  · cases hfalse

end World

end GoServices.KvRaft
