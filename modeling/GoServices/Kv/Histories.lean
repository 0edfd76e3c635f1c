import GoServices.Kv.Clerks

/-! What holds in every state of the service and its clients.

    Every method that has returned has a point in the log: the position of the read that answered it,
    or the one position at which its write was run. The point lies between the lengths that the log
    had when the method was called and when it returned. A write in the log belongs to a method that
    has returned or is running. -/

namespace GoServices.KvRaft

open Dedup Runs

/-- A request with a result takes effect at position `i` of the log. -/
def Point (L : List Op) (i : ℕ) (value : String) : Request → Prop
  | .get key => (∃ op, L[i]? = some op ∧ op.opType = .opGet) ∧
      value = ((replay (L.take i)).stateMachine.get key).1
  | .putAppend key v op clientId seqId =>
      ∃ cmd, (Request.putAppend key v op clientId seqId).command = some cmd ∧ RunsAt L i cmd

theorem Point.grow {log : List Entry} {e : Entry} {i : ℕ} {value : String} {request : Request}
    (h : Point (ops log) i value request) : Point (ops (log ++ [e])) i value request := by
  cases request with
  | get key =>
    obtain ⟨⟨op, hop, hget⟩, hval⟩ := h
    have hi := lt_of_getElem?_ops hop
    exact ⟨⟨op, by rw [getElem?_ops hi]; exact hop, hget⟩, by rw [take_ops (le_of_lt hi)]; exact hval⟩
  | putAppend key v op clientId seqId =>
    obtain ⟨cmd, hcmd, hr⟩ := h
    exact ⟨cmd, hcmd, hr.grow⟩

/-- A method that has returned took effect while it was running. -/
structure RecordOk (log : List Entry) (r : Record) : Prop where
  point : ∃ i, r.since ≤ i ∧ i < r.upto ∧ Point (ops log) i r.value r.request
  upto : r.upto ≤ log.length

theorem RecordOk.grow {log : List Entry} {e : Entry} {r : Record} (h : RecordOk log r) :
    RecordOk (log ++ [e]) r := by
  obtain ⟨i, hlo, hhi, hp⟩ := h.point
  exact ⟨⟨i, hlo, hhi, hp.grow⟩, by have := h.upto; simp only [List.length_append]; omega⟩

/-- A method that is running: its command, if it is a write, is not in the log from before. -/
structure RunningOk (log : List Entry) (call : ClerkCall) : Prop where
  since : call.since ≤ log.length
  sentAt : ∀ t ∈ call.sentAt, call.since ≤ t
  fresh : ∀ i op, (ops log)[i]? = some op → call.request.isWrite = true →
    call.request.command = some op → call.since ≤ i

theorem RunningOk.grow {log : List Entry} {e : Entry} {call : ClerkCall} (h : RunningOk log call) :
    RunningOk (log ++ [e]) call := by
  have hlen := h.since
  refine ⟨by simp only [List.length_append]; omega, h.sentAt, fun i op hop hw hcmd => ?_⟩
  by_cases hi : i < log.length
  · rw [getElem?_ops hi] at hop
    exact h.fresh i op hop hw hcmd
  · omega

section World

variable {n : ℕ} {C B : Type} (clientId : C → ℤ)

/-- A write that was sent has returned or is running. -/
def Issued (w : World n C B) (r : Request) : Prop :=
  r.isWrite = true → (∃ x ∈ w.history, x.request = r) ∨
    ∃ c call, (w.clerks c).call = some call ∧ call.request = r

/-- Times and lengths of the log agree: what returned before something was called had seen less of it. -/
structure TimesOk (w : World n C B) : Prop where
  called : ∀ c call, (w.clerks c).call = some call → call.called ≤ w.now ∧
    ∀ b ∈ w.history, b.returned < call.called → b.upto ≤ call.since
  record : ∀ a ∈ w.history, a.called ≤ a.returned ∧ a.returned ≤ w.now ∧
    ∀ b ∈ w.history, b.returned < a.called → b.upto ≤ a.since

/-- Requests come from clerks, which number their writes one after the other. -/
structure NumbersOk (w : World n C B) : Prop where
  running : ∀ c call, (w.clerks c).call = some call →
    ∃ op : ClerkOp, call.request = op.request (clientId c) (w.clerks c).seqId
  record : ∀ a ∈ w.history, a.request.isWrite = true → ∃ c k, ∃ op : ClerkOp,
    k < (w.clerks c).seqId ∧ a.request = op.request (clientId c) k
  distinct : w.history.Pairwise fun a b => ∀ cmd : Op, cmd.opType ≠ .opGet →
    a.request.command = some cmd → b.request.command ≠ some cmd

/-- What holds at every moment of the clerks, the servers and the recorded history. -/
structure WorldOk (cd : Codec B) (w : World n C B) : Prop where
  service : ServiceOk cd w.service
  answers : ∀ x ∈ w.service.answers, AnswerSound w.service.log.length x
  calls : ∀ s, ∀ call ∈ (w.service.nodes s).calls, call.request ∈ w.sent.map Prod.snd
  proposals : ∀ p ∈ w.service.proposals, ∃ r ∈ w.sent.map Prod.snd, r.command = some p.2.op
  sent : ∀ r ∈ w.sent.map Prod.snd, Issued w r
  running : ∀ c call, (w.clerks c).call = some call → RunningOk w.service.log call
  history : ∀ a ∈ w.history, RecordOk w.service.log a
  times : TimesOk w
  numbers : NumbersOk clientId w

theorem isWrite_of_command {r : Request} {cmd : Op} (h : r.command = some cmd)
    (hget : cmd.opType ≠ .opGet) : r.isWrite = true := by
  cases r with
  | get key => exact absurd (congrArg Op.opType (Option.some.inj h)).symm hget
  | putAppend key value op clientId seqId => rfl

/-- The command of a clerk's write has the clerk's numbers. -/
theorem ClerkOp.exists_command {op : ClerkOp} {k m : ℤ} (hw : (op.request k m).isWrite = true) :
    ∃ cmd, (op.request k m).command = some cmd ∧ cmd.opType ≠ .opGet ∧ cmd.clientId = k ∧
      cmd.seqId = m := by
  cases op with
  | get key => simp [ClerkOp.request, Request.isWrite] at hw
  | put key value => exact ⟨⟨key, value, .opPut, k, m⟩, rfl, by simp, rfl, rfl⟩
  | append key value => exact ⟨⟨key, value, .opAppend, k, m⟩, rfl, by simp, rfl, rfl⟩

theorem ClerkOp.numbers_of_command {op : ClerkOp} {k m : ℤ} {cmd : Op}
    (h : (op.request k m).command = some cmd) (hget : cmd.opType ≠ .opGet) :
    cmd.clientId = k ∧ cmd.seqId = m := by
  obtain ⟨cmd', h', -, hk, hm⟩ := ClerkOp.exists_command (isWrite_of_command h hget)
  obtain rfl := Option.some.inj (h.symm.trans h')
  exact ⟨hk, hm⟩

variable {clientId} {cd : Codec B} {w w' : World n C B}

/-- A write in the log has returned or is running. -/
theorem WorldOk.of_logged (h : WorldOk clientId cd w) {i : ℕ} {cmd : Op}
    (hop : (ops w.service.log)[i]? = some cmd) (hget : cmd.opType ≠ .opGet) :
    (∃ x ∈ w.history, x.request.command = some cmd) ∨
      ∃ c call, (w.clerks c).call = some call ∧ call.request.command = some cmd := by
  rw [ops, List.getElem?_map, Option.map_eq_some_iff] at hop
  obtain ⟨e, he, rfl⟩ := hop
  obtain ⟨r, hr, hcmd⟩ := h.proposals _ (h.service.logged i e he)
  rcases h.sent r hr (isWrite_of_command hcmd hget) with ⟨x, hx, rfl⟩ | ⟨c, call, hcall, rfl⟩
  · exact .inl ⟨x, hx, hcmd⟩
  · exact .inr ⟨c, call, hcall, hcmd⟩

/-- A write in the log with the number of a clerk's next or running write is the one it runs. -/
theorem WorldOk.of_logged_current (h : WorldOk clientId cd w) (hinj : Function.Injective clientId)
    {i : ℕ} {cmd : Op} (hop : (ops w.service.log)[i]? = some cmd) (hget : cmd.opType ≠ .opGet) {c : C}
    (hc : cmd.clientId = clientId c) (hle : (w.clerks c).seqId ≤ cmd.seqId) :
    ∃ call, (w.clerks c).call = some call ∧ call.request.command = some cmd := by
  rcases h.of_logged hop hget with ⟨x, hx, hcmd⟩ | ⟨c', call, hcall, hcmd⟩
  · obtain ⟨c', k, op, hlt, hreq⟩ := h.numbers.record x hx (isWrite_of_command hcmd hget)
    rw [hreq] at hcmd
    obtain ⟨hk, hm⟩ := ClerkOp.numbers_of_command hcmd hget
    obtain rfl := hinj (hc.symm.trans hk)
    omega
  · obtain ⟨op, hreq⟩ := h.numbers.running c' call hcall
    have hcmd' := hcmd
    rw [hreq] at hcmd'
    obtain rfl := hinj (hc.symm.trans (ClerkOp.numbers_of_command hcmd' hget).1)
    exact ⟨call, hcall, hcmd⟩

theorem worldOk_init [NeZero n] : WorldOk clientId cd (World.init : World n C B) := by
  refine ⟨serviceOk_run (.nil _), ?_, ?_, ?_, ?_, ?_, ?_, ⟨?_, ?_⟩, ⟨?_, ?_, .nil⟩⟩
  all_goals simp [World.init, Service.init, Node.init]

/-- The clock goes on. -/
theorem WorldOk.tick (h : WorldOk clientId cd w) : WorldOk clientId cd { w with now := w.now + 1 } := by
  refine ⟨h.service, h.answers, h.calls, h.proposals, h.sent, h.running, h.history, ⟨?_, ?_⟩,
    ⟨h.numbers.running, h.numbers.record, h.numbers.distinct⟩⟩
  · intro c call hcall
    obtain ⟨hle, hb⟩ := h.times.called c call hcall
    exact ⟨Nat.le_succ_of_le hle, hb⟩
  · intro a ha
    obtain ⟨hle, hle', hb⟩ := h.times.record a ha
    exact ⟨hle, Nat.le_succ_of_le hle', hb⟩

/-- An answer that is no error has its point in the log while the method was running. -/
theorem WorldOk.recordOk (h : WorldOk clientId cd w) (hinj : Function.Injective clientId) {c : C}
    {call : ClerkCall} (hcall : (w.clerks c).call = some call) {t : ℕ} (ht : call.sentAt = some t)
    {x : Answer} (hx : x ∈ w.service.answers) (hreq : x.request = call.request) (hafter : t ≤ x.after)
    (hleader : x.reply.err ≠ .errWrongLeader) (htimeout : x.reply.err ≠ .errTimeout) :
    ∃ i, call.since ≤ i ∧ i < w.service.log.length ∧
      Point (ops w.service.log) i x.reply.value call.request := by
  have hok := h.service.answers x hx
  obtain ⟨hreached, hnoKey⟩ := h.answers x hx
  have hrun := h.running c call hcall
  have hsince := hrun.sentAt t ht
  unfold AnswerOk at hok
  cases hr : call.request with
  | get key =>
    rw [hreq, hr] at hok
    have herr : x.reply.err = .ok ∨ x.reply.err = .errNoKey := by
      cases he : x.reply.err <;> simp_all
    obtain ⟨i, op, hlo, hhi, hop, hget, -, hval⟩ := hok herr
    exact ⟨i, by omega, by omega, ⟨op, hop, hget⟩, (Prod.mk.inj hval).1⟩
  | putAppend key value op k m =>
    rw [hreq, hr] at hok
    have herr : x.reply.err = .ok := by
      have := hnoKey (by rw [hreq, hr]; rfl)
      cases he : x.reply.err <;> simp_all
    obtain ⟨i, cmd, hhi, hruns, hc, hm⟩ := hok herr
    -- the numbers of the command are those of the running write, so it is its command
    obtain ⟨op', hop'⟩ := h.numbers.running c call hcall
    have hw : (op'.request (clientId c) (w.clerks c).seqId).isWrite = true := by rw [← hop', hr]; rfl
    obtain ⟨cmd', hcmd', -, hk', hm'⟩ := ClerkOp.exists_command hw
    rw [← hop', hr] at hcmd'
    obtain ⟨-, rfl, rfl⟩ := opType_of_command hcmd'
    obtain ⟨call', hcall', hcmd⟩ := h.of_logged_current hinj hruns.1 hruns.2.1 (hc.trans hk')
      (by omega)
    obtain rfl := Option.some.inj (hcall.symm.trans hcall')
    have hlo := hrun.fresh i cmd hruns.1 (isWrite_of_command hcmd hruns.2.1) hcmd
    exact ⟨i, hlo, by omega, cmd, hr ▸ hcmd, hruns⟩

section Steps

variable [DecidableEq C]

theorem call_setClerk {c c' : C} {ck : Clerk n} {call : ClerkCall}
    (h : ((w.setClerk c ck).clerks c').call = some call) :
    c' = c ∧ ck.call = some call ∨ c' ≠ c ∧ (w.clerks c').call = some call := by
  by_cases hc : c' = c
  · subst hc
    exact .inl ⟨rfl, by simpa [World.setClerk] using h⟩
  · exact .inr ⟨hc, by simpa [World.setClerk, hc] using h⟩

/-- A clerk changes what it has running, but not the number of its next write. -/
theorem WorldOk.setCall (h : WorldOk clientId cd w) {c : C} {ck : Clerk n} {call : ClerkCall}
    (hck : ck.call = some call) (hseq : ck.seqId = (w.clerks c).seqId)
    (hold : ∀ call', (w.clerks c).call = some call' → call'.request = call.request)
    (hreq : ∃ op : ClerkOp, call.request = op.request (clientId c) ck.seqId)
    (hrun : RunningOk w.service.log call)
    (htime : call.called ≤ w.now ∧ ∀ b ∈ w.history, b.returned < call.called → b.upto ≤ call.since) :
    WorldOk clientId cd (w.setClerk c ck) := by
  have hseq' : ∀ c', ((w.setClerk c ck).clerks c').seqId = (w.clerks c').seqId := by
    intro c'
    by_cases hc : c' = c
    · subst hc
      simp [World.setClerk, hseq]
    · simp [World.setClerk, hc]
  refine ⟨h.service, h.answers, h.calls, h.proposals, fun r hr hw => ?_, fun c' call' hcall => ?_,
    h.history, ⟨fun c' call' hcall => ?_, h.times.record⟩, ⟨fun c' call' hcall => ?_, fun a ha hw => ?_,
      h.numbers.distinct⟩⟩
  · rcases h.sent r hr hw with hx | ⟨c', call', hcall, rfl⟩
    · exact .inl hx
    · refine .inr ?_
      by_cases hc : c' = c
      · subst hc
        exact ⟨c', call, by simp [World.setClerk, hck], (hold call' hcall).symm⟩
      · exact ⟨c', call', by simpa [World.setClerk, hc] using hcall, rfl⟩
  · rcases call_setClerk hcall with ⟨-, hcall⟩ | ⟨-, hcall⟩
    · obtain rfl := Option.some.inj (hck.symm.trans hcall)
      exact hrun
    · exact h.running c' call' hcall
  · rcases call_setClerk hcall with ⟨-, hcall⟩ | ⟨-, hcall⟩
    · obtain rfl := Option.some.inj (hck.symm.trans hcall)
      exact htime
    · exact h.times.called c' call' hcall
  · rw [hseq']
    rcases call_setClerk hcall with ⟨rfl, hnew⟩ | ⟨-, hcall⟩
    · obtain rfl := Option.some.inj (hck.symm.trans hnew)
      exact hseq ▸ hreq
    · exact h.numbers.running c' call' hcall
  · obtain ⟨c', k, op, hlt, hr⟩ := h.numbers.record a ha hw
    exact ⟨c', k, op, by rwa [hseq'], hr⟩

theorem WorldOk.begin (h : WorldOk clientId cd w) (hinj : Function.Injective clientId) {c : C}
    {op : ClerkOp} (hs : w.begin clientId c op = some w') : WorldOk clientId cd w' := by
  unfold World.begin at hs
  dsimp only at hs
  split at hs
  · cases hs
  next hnone =>
    obtain rfl := Option.some.inj hs
    refine h.setCall rfl rfl (fun call' hcall => ?_) ⟨op, rfl⟩ ⟨Nat.le_refl _, by simp, ?_⟩
      ⟨Nat.le_refl _, fun b hb _ => (h.history b hb).upto⟩
    · rw [hnone] at hcall
      cases hcall
    · -- nothing in the log has the numbers of a new write
      intro i cmd hop hw hcmd
      obtain ⟨cmd', hcmd', hget, hc, hk⟩ := ClerkOp.exists_command hw
      obtain rfl := Option.some.inj (hcmd.symm.trans hcmd')
      obtain ⟨call, hcall, -⟩ := h.of_logged_current hinj hop hget hc (by omega)
      rw [hnone] at hcall
      cases hcall

theorem WorldOk.send (h : WorldOk clientId cd w) {c : C} (hs : w.send c = some w') :
    WorldOk clientId cd w' := by
  obtain ⟨call, hcall, hs⟩ := Option.bind_eq_some_iff.mp hs
  dsimp only at hs
  split at hs
  · cases hs
  next hnone =>
    obtain rfl := Option.some.inj hs
    have hrun := h.running c call hcall
    have hok : WorldOk clientId cd (w.setClerk c { w.clerks c with
        call := some { call with sentAt := some w.service.log.length } }) := by
      refine h.setCall rfl rfl (fun call' hcall' => ?_) (h.numbers.running c call hcall)
        ⟨hrun.since, ?_, hrun.fresh⟩ (h.times.called c call hcall)
      · rw [hcall] at hcall'
        rw [← Option.some.inj hcall']
      · intro t ht
        obtain rfl : w.service.log.length = t := Option.some.inj ht
        exact hrun.since
    refine ⟨hok.service, hok.answers, fun s x hx => ?_, fun p hp => ?_, fun r hr => ?_, hok.running,
      hok.history, ⟨hok.times.called, hok.times.record⟩,
      ⟨hok.numbers.running, hok.numbers.record, hok.numbers.distinct⟩⟩
    · rw [List.map_append]
      exact List.mem_append_left _ (hok.calls s x hx)
    · obtain ⟨r, hr, hcmd⟩ := hok.proposals p hp
      exact ⟨r, by rw [List.map_append]; exact List.mem_append_left _ hr, hcmd⟩
    · rw [List.map_append, List.mem_append] at hr
      rcases hr with hr | hr
      · exact hok.sent r hr
      · obtain rfl : r = call.request := by simpa using hr
        exact fun _ => .inr ⟨c, { call with sentAt := some w.service.log.length },
          by simp [World.setClerk], rfl⟩

theorem WorldOk.retry [NeZero n] (h : WorldOk clientId cd w) {c : C} (hs : w.retry c = some w') :
    WorldOk clientId cd w' := by
  obtain ⟨call, hcall, hs⟩ := Option.bind_eq_some_iff.mp hs
  split at hs
  · cases hs
  next =>
    obtain rfl := Option.some.inj hs
    have hrun := h.running c call hcall
    refine h.setCall rfl rfl (fun call' hcall' => ?_) (h.numbers.running c call hcall)
      ⟨hrun.since, by simp, hrun.fresh⟩ (h.times.called c call hcall)
    rw [hcall] at hcall'
    rw [← Option.some.inj hcall']

section Complete

variable {c : C} {call : ClerkCall} {ck : Clerk n} {r : Record}

theorem call_of_idle (hidle : ck.call = none) {c' : C} {call' : ClerkCall}
    (h : ((w.setClerk c ck).clerks c').call = some call') : c' ≠ c ∧ (w.clerks c').call = some call' := by
  rcases call_setClerk h with ⟨-, hnew⟩ | hold
  · rw [hidle] at hnew
    cases hnew
  · exact hold

theorem TimesOk.complete (h : TimesOk w) (hcall : (w.clerks c).call = some call) (hidle : ck.call = none)
    (hcalled : r.called = call.called) (hsince : r.since = call.since) (hret : r.returned = w.now) :
    TimesOk { w.setClerk c ck with history := w.history ++ [r] } := by
  -- what returned before some time up to now is not the method that returns now
  have hmem : ∀ {b : Record}, b ∈ w.history ++ [r] → ∀ {k}, k ≤ w.now → b.returned < k →
      b ∈ w.history := by
    intro b hb k hk hlt
    rcases List.mem_append.mp hb with hold | hnew
    · exact hold
    · rw [List.mem_singleton.mp hnew, hret] at hlt
      exact absurd hlt (Nat.not_lt.mpr hk)
  refine ⟨fun c' call' hcall' => ?_, fun a ha => ?_⟩
  · obtain ⟨hle, hb⟩ := h.called c' call' (call_of_idle hidle hcall').2
    exact ⟨hle, fun b hb' hlt => hb b (hmem hb' hle hlt) hlt⟩
  · rcases List.mem_append.mp ha with hold | hnew
    · obtain ⟨hle, hle', hb⟩ := h.record a hold
      exact ⟨hle, hle', fun b hb' hlt => hb b (hmem hb' (Nat.le_trans hle hle') hlt) hlt⟩
    · obtain ⟨hle, hb⟩ := h.called c call hcall
      rw [List.mem_singleton.mp hnew, hcalled, hsince, hret]
      exact ⟨hle, Nat.le_refl _, fun b hb' hlt => hb b (hmem hb' hle hlt) hlt⟩

theorem NumbersOk.complete (h : NumbersOk clientId w) (hinj : Function.Injective clientId)
    (hcall : (w.clerks c).call = some call) (hidle : ck.call = none) (hseq : (w.clerks c).seqId ≤ ck.seqId)
    (hnext : call.request.isWrite = true → (w.clerks c).seqId < ck.seqId)
    (hreq : r.request = call.request) :
    NumbersOk clientId { w.setClerk c ck with history := w.history ++ [r] } := by
  obtain ⟨op, hop⟩ := h.running c call hcall
  refine ⟨fun c' call' hcall' => ?_, fun a ha hw => ?_, List.pairwise_append.mpr ⟨h.distinct,
    List.pairwise_singleton _ _, fun a ha b hb cmd hget hcmd hcmd' => ?_⟩⟩
  · obtain ⟨hc, hcall'⟩ := call_of_idle hidle hcall'
    simpa [World.setClerk, hc] using h.running c' call' hcall'
  · rcases List.mem_append.mp ha with hold | hnew
    · obtain ⟨c', k, op', hlt, hreq'⟩ := h.record a hold hw
      refine ⟨c', k, op', ?_, hreq'⟩
      by_cases hc : c' = c
      · subst hc
        simp only [World.setClerk, Function.update_self]
        omega
      · simpa [World.setClerk, hc] using hlt
    · rw [List.mem_singleton.mp hnew, hreq] at hw ⊢
      exact ⟨c, (w.clerks c).seqId, op, by simpa [World.setClerk] using hnext hw, hop⟩
  · -- the writes in the history have smaller numbers
    obtain rfl := List.mem_singleton.mp hb
    obtain ⟨c', k, op', hlt, hreq'⟩ := h.record a ha (isWrite_of_command hcmd hget)
    rw [hreq'] at hcmd
    rw [hreq, hop] at hcmd'
    obtain ⟨hk, hm⟩ := ClerkOp.numbers_of_command hcmd hget
    obtain ⟨hk', hm'⟩ := ClerkOp.numbers_of_command hcmd' hget
    obtain rfl := hinj (hk.symm.trans hk')
    omega

/-- A clerk's method returns: it goes into the history, and the clerk has nothing running. -/
theorem WorldOk.complete (h : WorldOk clientId cd w) (hcall : (w.clerks c).call = some call)
    (hidle : ck.call = none) (hreq : r.request = call.request) (hrec : RecordOk w.service.log r)
    (htimes : TimesOk { w.setClerk c ck with history := w.history ++ [r] })
    (hnumbers : NumbersOk clientId { w.setClerk c ck with history := w.history ++ [r] }) :
    WorldOk clientId cd { w.setClerk c ck with history := w.history ++ [r] } := by
  refine ⟨h.service, h.answers, h.calls, h.proposals, fun q hq hw => ?_, fun c' call' hcall' => ?_,
    fun a ha => ?_, htimes, hnumbers⟩
  · rcases h.sent q hq hw with ⟨y, hy, hyq⟩ | ⟨c', call', hcall', rfl⟩
    · exact .inl ⟨y, List.mem_append_left _ hy, hyq⟩
    · by_cases hc : c' = c
      · subst hc
        obtain rfl := Option.some.inj (hcall.symm.trans hcall')
        exact .inl ⟨r, List.mem_append_right _ (List.mem_singleton_self r), hreq⟩
      · exact .inr ⟨c', call', by simpa [World.setClerk, hc] using hcall', rfl⟩
  · exact h.running c' call' (call_of_idle hidle hcall').2
  · rcases List.mem_append.mp ha with hold | hnew
    · exact h.history a hold
    · exact List.mem_singleton.mp hnew ▸ hrec

end Complete

theorem WorldOk.finish (h : WorldOk clientId cd w) (hinj : Function.Injective clientId) {c : C}
    {x : Answer} (hx : x ∈ w.service.answers) (hs : w.finish clientId c x = some w') :
    WorldOk clientId cd w' := by
  obtain ⟨call, hcall, hs⟩ := Option.bind_eq_some_iff.mp hs
  obtain ⟨t, ht, hs⟩ := Option.bind_eq_some_iff.mp hs
  rw [Option.ite_none_right_eq_some] at hs
  obtain ⟨⟨hreq, hafter, hleader, htimeout⟩, hs⟩ := hs
  obtain rfl := Option.some.inj hs
  have hpoint := h.recordOk hinj hcall ht hx hreq hafter hleader htimeout
  refine h.complete hcall rfl rfl ⟨hpoint, Nat.le_refl _⟩ (h.times.complete hcall rfl rfl rfl rfl)
    (h.numbers.complete hinj hcall rfl ?_ (fun hw => ?_) rfl)
  · dsimp only
    split_ifs <;> omega
  · dsimp only
    rw [if_pos hw]
    omega

omit [DecidableEq C] in
/-- A step of the service. -/
theorem WorldOk.server (h : WorldOk clientId cd w) {act : ServiceAction (Fin n)}
    (hdel : Delivers w.sent act) (hterms : TermsMatch w.service act) {service : Service (Fin n) B}
    (hs : w.service.step cd act = some service) :
    WorldOk clientId cd { w with service := service } := by
  have hadv := advances_step hs
  have hlen : w.service.log.length ≤ service.log.length := by
    rcases hadv.log with hlog | ⟨e, -, hlog⟩
    · rw [hlog]
    · rw [hlog, List.length_append]
      omega
  refine ⟨h.service.step hterms hs, fun x hx => ?_, fun s call hcall => ?_, fun p hp => ?_, h.sent,
    fun c call hcall => ?_, fun a ha => ?_, ⟨h.times.called, h.times.record⟩,
    ⟨h.numbers.running, h.numbers.record, h.numbers.distinct⟩⟩
  · have hsound : AnswerSound w.service.log.length x := by
      rcases hadv.answers x hx with hold | hnew
      · exact h.answers x hold
      · exact h.service.answerSound hnew
    exact ⟨Nat.le_trans hsound.1 hlen, hsound.2⟩
  · rcases hadv.calls s call hcall with ⟨call', hcall', hreq⟩ | hrecv
    · exact hreq ▸ h.calls s call' hcall'
    · subst hrecv
      exact List.mem_map.mpr ⟨_, hdel, rfl⟩
  · rcases hadv.proposals p hp with hold | ⟨s, call, hcall, hcmd⟩
    · exact h.proposals p hold
    · exact ⟨call.request, h.calls s call hcall, hcmd⟩
  · have hrun := h.running c call hcall
    rcases hadv.log with hlog | ⟨e, -, hlog⟩
    · exact hlog ▸ hrun
    · exact hlog ▸ hrun.grow
  · have hrec := h.history a ha
    rcases hadv.log with hlog | ⟨e, -, hlog⟩
    · exact hlog ▸ hrec
    · exact hlog ▸ hrec.grow

theorem WorldOk.step [NeZero n] (h : WorldOk clientId cd w) (hinj : Function.Injective clientId)
    {a : WorldAction n C} (hterms : w.TermsMatch a) (hs : w.step cd clientId a = some w') :
    WorldOk clientId cd w' := by
  obtain ⟨w₁, hact, rfl⟩ := Option.map_eq_some_iff.mp hs
  refine WorldOk.tick ?_
  cases a with
  | begin c op => exact h.begin hinj hact
  | send c => exact h.send hact
  | retry c => exact h.retry hact
  | finish c k =>
    obtain ⟨x, hx, hact⟩ := Option.bind_eq_some_iff.mp hact
    exact h.finish hinj (List.mem_of_getElem? hx) hact
  | server act =>
    simp only [World.act, Option.ite_none_right_eq_some] at hact
    obtain ⟨hdel, hact⟩ := hact
    obtain ⟨service, hservice, rfl⟩ := Option.map_eq_some_iff.mp hact
    exact h.server hdel hterms hservice

theorem worldOk_run [NeZero n] (hinj : Function.Injective clientId) {as : List (WorldAction n C)}
    (hr : Run (World.step cd clientId) World.TermsMatch World.init as w) : WorldOk clientId cd w :=
  hr.preserves (I := WorldOk clientId cd) (fun _ _ _ h hterms hs => h.step hinj hterms hs) worldOk_init

end Steps

end World

end GoServices.KvRaft
