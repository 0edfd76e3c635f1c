import GoServices.Porcupine.Single
import GoServices.Schemes.Runs
import Mathlib.Algebra.BigOperators.Group.Finset.Piecewise
import Mathlib.Algebra.Order.BigOperators.Group.Finset

/-! `checkParallel`: a goroutine for each partition, and the loop that collects their results.

    A round of a goroutine's search, its send, a receive, the timeout and what follows the loop are
    steps that may come in any order. The channel has room for all results, so a send never
    blocks. A panic ends the program. -/

namespace GoServices.Porcupine

open Histories

variable {I O S : Type}

/-- What a check answers. -/
inductive CheckResult where | unknown | ok | illegal
  deriving DecidableEq

/-- A goroutine: in `checkSingle` or about to send, or done with `longest[i]` written. -/
inductive Worker (I O S : Type) where
  | working (turn : Turn I O S)
  | sent (f : Frame I O S)
  | panicked

namespace Worker

/-- Whether the goroutine has panicked. -/
def hasPanicked : Worker I O S → Bool
  | panicked => true
  | _ => false

/-- The keys of the map `set`: the distinct pointers in `longest[i]`. -/
def pointers : Worker I O S → List ℕ
  | sent f => (f.longest.filterMap id).dedup
  | _ => []

/-- `partialLinearizations[i]`, with the keys of `set` in the given order. -/
def partials : Worker I O S → List ℕ → List (List ℕ)
  | sent f, keys => keys.filterMap fun k => f.seqs[k]?
  | _, _ => []

end Worker

/-- Where `checkParallel` is: in its loop, behind it, or done. -/
inductive Phase where
  | loop
  | drain
  | done (result : CheckResult) (partialLinearizations : List (List (List ℕ)))

/-- The goroutines, the channel of their results and the variables of `checkParallel`. -/
structure Pool (I O S : Type) where
  workers : List (Worker I O S)
  results : List Bool
  kill : Bool
  count : ℕ
  ok : Bool
  timedOut : Bool
  phase : Phase

/-- What can happen next in `checkParallel` and its goroutines. -/
inductive PoolAction where
  | worker (i : ℕ)
  | receive
  | timeout
  | drain
  | finish (keys : List (List ℕ))

namespace Pool

/-- One goroutine for each part of the history. -/
def start (model : FullModel I O S) (history : List (List (Entry I O))) : Pool I O S where
  workers := history.map fun subhistory => .working (.running (Frame.start model subhistory))
  results := []
  kill := false
  count := 0
  ok := true
  timedOut := false
  phase := .loop

/-- The answer when the loop is left. -/
def result (p : Pool I O S) : CheckResult :=
  if !p.ok then .illegal else if p.timedOut then .unknown else .ok

/-- Whether `checkParallel` has returned with this answer. -/
def hasResult (res : CheckResult) (p : Pool I O S) : Bool :=
  match p.phase with
  | .done result _ => result = res
  | _ => false

theorem hasResult_iff {res : CheckResult} {p : Pool I O S} :
    p.hasResult res = true ↔ ∃ info, p.phase = .done res info := by
  unfold hasResult
  split <;> simp_all

/-- A step of goroutine `i`. -/
def workerStep (model : FullModel I O S) (computeInfo : Bool) (p : Pool I O S) (i : ℕ) :
    Option (Pool I O S) :=
  match p.workers[i]? with
  | some (.working (.running f)) =>
    match f.iteration model computeInfo p.kill with
    | some turn => some { p with workers := p.workers.set i (.working turn) }
    | none => some { p with workers := p.workers.set i .panicked }
  | some (.working (.returned ok f)) =>
    some { p with workers := p.workers.set i (.sent f), results := p.results ++ [ok] }
  | _ => none

/-- A result is received in the loop. -/
def receive (computeInfo : Bool) (p : Pool I O S) : Option (Pool I O S) :=
  match p.phase, p.results with
  | .loop, result :: results =>
    let p := { p with results := results, count := p.count + 1, ok := p.ok && result }
    if !p.ok && !computeInfo then some { p with kill := true, phase := .drain }
    else if p.count ≥ p.workers.length then some { p with phase := .drain }
    else some p
  | _, _ => none

/-- The timer fires in the loop, if there is one. -/
def timeout (hasTimeout : Bool) (p : Pool I O S) : Option (Pool I O S) :=
  match p.phase with
  | .loop => if hasTimeout then some { p with timedOut := true, kill := true, phase := .drain } else none
  | _ => none

/-- After the loop: with `computeInfo` the remaining results are waited for. -/
def drain (computeInfo : Bool) (p : Pool I O S) : Option (Pool I O S) :=
  match p.phase, p.results with
  | .drain, _ :: results =>
    if computeInfo && p.count < p.workers.length then
      some { p with results := results, count := p.count + 1 }
    else none
  | _, _ => none

/-- The end; `keys` are the orders in which the maps `set` are gone through. -/
def finish (computeInfo : Bool) (p : Pool I O S) (keys : List (List ℕ)) : Option (Pool I O S) :=
  match p.phase with
  | .drain =>
    if computeInfo then
      if p.count < p.workers.length then none
      else if List.Forall₂ (fun w ks => ks.Perm w.pointers) p.workers keys then
        some { p with phase := .done p.result (List.zipWith Worker.partials p.workers keys) }
      else none
    else some { p with phase := .done p.result [] }
  | _ => none

/-- One action; nothing goes on after a goroutine has panicked. -/
def step (model : FullModel I O S) (computeInfo hasTimeout : Bool) (p : Pool I O S)
    (a : PoolAction) : Option (Pool I O S) :=
  if p.workers.any Worker.hasPanicked then none
  else
    match a with
    | .worker i => p.workerStep model computeInfo i
    | .receive => p.receive computeInfo
    | .timeout => p.timeout hasTimeout
    | .drain => p.drain computeInfo
    | .finish keys => p.finish computeInfo keys

end Pool

/-- The history of one partition is linearizable. -/
def IsLinearizable (model : FullModel I O S) (es : List (Entry I O)) : Prop :=
  Linearizable (opStep model es) (es.map Entry.mark) model.init

/-- `checkSingle` is over after `N` rounds, with a verdict that is right unless it was killed. -/
def Decides (model : FullModel I O S) (computePartial : Bool) (es : List (Entry I O)) (N : ℕ) : Prop :=
  ∀ kill k, N ≤ k → ∃ ok f, checkSingle model es computePartial kill k = some (.returned ok f) ∧
    (ok = true → IsLinearizable model es) ∧
    (ok = false → IsLinearizable model es → ∃ j < k, kill j = true)

/-- The rounds of a search depend on what was read from `kill` so far only. -/
theorem checkSingle_congr {model : FullModel I O S} {es : List (Entry I O)} {computePartial : Bool}
    {kill kill' : ℕ → Bool} {k : ℕ} (h : ∀ j < k, kill j = kill' j) :
    checkSingle model es computePartial kill k = checkSingle model es computePartial kill' k := by
  induction k with
  | zero => rfl
  | succ k ih =>
    rw [checkSingle, checkSingle, ih fun j hj => h j (Nat.lt_succ_of_lt hj), h k (Nat.lt_succ_self k)]

/-- A goroutine after `r` steps, if it can only have been killed when `killed` holds. -/
def WorkerAt (model : FullModel I O S) (computeInfo : Bool) (es : List (Entry I O)) (N : ℕ)
    (killed : Bool) (r : ℕ) : Worker I O S → Prop
  | .working turn => r ≤ N ∧ ∃ kill : ℕ → Bool, (∀ j, kill j = true → killed = true) ∧
      checkSingle model es computeInfo kill r = some turn
  | .sent f => r ≤ N + 1 ∧ ∃ (kill : ℕ → Bool) (k : ℕ) (ok : Bool),
      (∀ j, kill j = true → killed = true) ∧
      checkSingle model es computeInfo kill k = some (.returned ok f)
  | .panicked => False

section Worker

variable {model : FullModel I O S} {computeInfo : Bool} {es : List (Entry I O)} {N r : ℕ}
  {killed : Bool} {f : Frame I O S} {ok : Bool}

theorem WorkerAt.mono {w : Worker I O S} {killed' : Bool}
    (h : WorkerAt model computeInfo es N killed r w) (hle : killed = true → killed' = true) :
    WorkerAt model computeInfo es N killed' r w := by
  cases w with
  | working turn =>
    obtain ⟨hr, kill, hkill, hs⟩ := h
    exact ⟨hr, kill, fun j hj => hle (hkill j hj), hs⟩
  | sent f =>
    obtain ⟨hr, kill, k, ok, hkill, hs⟩ := h
    exact ⟨hr, kill, k, ok, fun j hj => hle (hkill j hj), hs⟩
  | panicked => exact h

/-- A round of the search: it does not panic, and the bound is not passed. -/
theorem WorkerAt.advance (hN : Decides model computeInfo es N)
    (h : WorkerAt model computeInfo es N killed r (.working (.running f))) :
    ∃ turn, f.iteration model computeInfo killed = some turn ∧
      WorkerAt model computeInfo es N killed (r + 1) (.working turn) := by
  obtain ⟨hr, kill, hkill, hs⟩ := h
  have hlt : r < N := by
    by_contra hge
    obtain ⟨ok, g, hg, -⟩ := hN kill r (by omega)
    rw [hs] at hg
    cases hg
  -- the schedule with the value that is read now
  let kill' := Function.update kill r killed
  have hkill' : ∀ j, kill' j = true → killed = true := by
    intro j hj
    by_cases hjr : j = r
    · simpa [kill', hjr] using hj
    · exact hkill j (by simpa [kill', hjr] using hj)
  have hsame : checkSingle model es computeInfo kill' r = checkSingle model es computeInfo kill r :=
    checkSingle_congr fun j hj => by simp [kill', Nat.ne_of_lt hj]
  have hnext : checkSingle model es computeInfo kill' (r + 1) =
      f.iteration model computeInfo killed := by
    rw [checkSingle, hsame, hs]
    simp [Turn.advance, kill']
  cases hit : f.iteration model computeInfo killed with
  | some turn => exact ⟨turn, rfl, by omega, kill', hkill', hnext.trans hit⟩
  | none =>
    -- a panic would stay, but after `N` rounds there is a verdict
    have hnone : ∀ k, r + 1 ≤ k → checkSingle model es computeInfo kill' k = none := by
      intro k hk
      induction hk with
      | refl => exact hnext.trans hit
      | step _ ih => rw [checkSingle, ih]; rfl
    obtain ⟨ok, g, hg, -⟩ := hN kill' N (Nat.le_refl N)
    rw [hnone N hlt] at hg
    cases hg

/-- The verdict of a goroutine that was not killed. -/
theorem WorkerAt.verdict (hN : Decides model computeInfo es N)
    (h : WorkerAt model computeInfo es N false r (.working (.returned ok f))) :
    ok = true ↔ IsLinearizable model es := by
  obtain ⟨hr, kill, hkill, hs⟩ := h
  obtain ⟨ok', g, hg, htrue, hfalse⟩ := hN kill N (Nat.le_refl N)
  rw [checkSingle_of_le hr hs] at hg
  cases hg
  refine ⟨htrue, fun hlin => ?_⟩
  by_contra hok
  obtain ⟨j, -, hj⟩ := hfalse (by simpa using hok) hlin
  exact absurd (hkill j hj) (by simp)

end Worker

open Classical in
/-- The verdict that goroutine `i` must come to. -/
noncomputable def verdictOf (model : FullModel I O S) (hs : List (List (Entry I O))) (i : ℕ) : Bool :=
  decide (∃ es, hs[i]? = some es ∧ IsLinearizable model es)

namespace Pool

/-- What holds of a pool whose goroutines have made `r i` steps and have sent in the given order. -/
structure Inv (model : FullModel I O S) (computeInfo hasTimeout : Bool) (hs : List (List (Entry I O)))
    (N : List (Entry I O) → ℕ) (r : ℕ → ℕ) (order : List ℕ) (p : Pool I O S) : Prop where
  length_eq : p.workers.length = hs.length
  worker : ∀ i es w, hs[i]? = some es → p.workers[i]? = some w →
    WorkerAt model computeInfo es (N es) p.kill (r i) w
  nodup : order.Nodup
  mem_order : ∀ i, i ∈ order ↔ ∃ f, p.workers[i]? = some (.sent f)
  count_eq : p.count + p.results.length = order.length
  loop : p.phase = .loop → p.kill = false ∧ p.timedOut = false ∧
    (p.count = 0 ∨ p.count < hs.length) ∧
    p.results = (order.drop p.count).map (verdictOf model hs) ∧
    p.ok = (order.take p.count).all (verdictOf model hs)
  illegal : p.ok = false → ∃ es ∈ hs, ¬ IsLinearizable model es
  legal : p.phase ≠ .loop → p.ok = true → p.timedOut = false → ∀ es ∈ hs, IsLinearizable model es
  timedOut : p.timedOut = true → hasTimeout = true
  unkilled : computeInfo = true → p.timedOut = false → p.kill = false
  result : ∀ res info, p.phase = .done res info → res = p.result
  info : ∀ res info, p.phase = .done res info → computeInfo = true → hs.length ≤ p.count ∧
    ∃ keys, List.Forall₂ (fun w ks => ks.Perm w.pointers) p.workers keys ∧
      info = List.zipWith Worker.partials p.workers keys

variable {model : FullModel I O S} {computeInfo hasTimeout : Bool} {hs : List (List (Entry I O))}
  {N : List (Entry I O) → ℕ} {r : ℕ → ℕ} {order : List ℕ} {p p' : Pool I O S}

theorem verdictOf_iff {i : ℕ} {es : List (Entry I O)} (hi : hs[i]? = some es) :
    verdictOf model hs i = true ↔ IsLinearizable model es := by
  simp [verdictOf, hi]

theorem inv_start (model : FullModel I O S) (computeInfo hasTimeout : Bool)
    (hs : List (List (Entry I O))) (N : List (Entry I O) → ℕ) :
    Inv model computeInfo hasTimeout hs N (fun _ => 0) [] (start model hs) := by
  refine ⟨by simp [start], fun i es w hi hw => ?_, List.nodup_nil, fun i => ?_, rfl, fun _ =>
    ⟨rfl, rfl, .inl rfl, rfl, rfl⟩, by simp [start], fun h => absurd rfl h, by simp [start],
    fun _ _ => rfl, by simp [start], by simp [start]⟩
  · obtain rfl : Worker.working (.running (Frame.start model es)) = w := by
      simpa [start, hi] using hw
    exact ⟨Nat.zero_le _, fun _ => false, by simp, rfl⟩
  · simp [start]

theorem Inv.order_subset (h : Inv model computeInfo hasTimeout hs N r order p) :
    order ⊆ List.range hs.length := by
  intro i hi
  obtain ⟨f, hf⟩ := (h.mem_order i).mp hi
  rw [List.mem_range, ← h.length_eq]
  exact (List.getElem?_eq_some_iff.mp hf).1

theorem Inv.order_length_le (h : Inv model computeInfo hasTimeout hs N r order p) :
    order.length ≤ hs.length := by
  have := (List.subperm_of_subset h.nodup h.order_subset).length_le
  rwa [List.length_range] at this

/-- When there are as many results as goroutines, all have sent. -/
theorem Inv.mem_order_of_length_le (h : Inv model computeInfo hasTimeout hs N r order p)
    (hlen : hs.length ≤ order.length) {i : ℕ} (hi : i < hs.length) : i ∈ order := by
  have hperm : order.Perm (List.range hs.length) :=
    (List.subperm_of_subset h.nodup h.order_subset).perm_of_length_le (by rwa [List.length_range])
  exact hperm.mem_iff.mpr (List.mem_range.mpr hi)

/-- At the end with `computeInfo` no goroutine is at work. -/
theorem Inv.not_working (h : Inv model computeInfo hasTimeout hs N r order p) {i : ℕ}
    {turn : Turn I O S} (hw : p.workers[i]? = some (.working turn)) {res : CheckResult}
    {info : List (List (List ℕ))} (hdone : p.phase = .done res info) : computeInfo ≠ true := by
  intro hinfo
  have hi : i < hs.length := h.length_eq ▸ (List.getElem?_eq_some_iff.mp hw).1
  have hlen : hs.length ≤ order.length := by
    have := (h.info res info hdone hinfo).1
    have := h.count_eq
    omega
  obtain ⟨f, hf⟩ := (h.mem_order i).mp (h.mem_order_of_length_le hlen hi)
  rw [hw] at hf
  cases hf

/-- A round of a goroutine's search. -/
theorem Inv.round (h : Inv model computeInfo hasTimeout hs N r order p) {i : ℕ} {f : Frame I O S}
    {turn : Turn I O S} (hw : p.workers[i]? = some (.working (.running f)))
    (hturn : ∀ es, hs[i]? = some es →
      WorkerAt model computeInfo es (N es) p.kill (r i + 1) (.working turn)) :
    Inv model computeInfo hasTimeout hs N (Function.update r i (r i + 1)) order
      { p with workers := p.workers.set i (.working turn) } := by
  have hi : i < p.workers.length := (List.getElem?_eq_some_iff.mp hw).1
  refine ⟨by simpa using h.length_eq, fun j es w hj hwj => ?_, h.nodup, fun j => ?_, h.count_eq,
    h.loop, h.illegal, h.legal, h.timedOut, h.unkilled, h.result,
    fun res info hdone hinfo => absurd hinfo (h.not_working hw hdone)⟩
  · by_cases hji : j = i
    · subst hji
      obtain rfl : Worker.working turn = w := by simpa [hi] using hwj
      simpa using hturn es hj
    · rw [Function.update_of_ne hji]
      exact h.worker j es w hj (by simpa [Ne.symm hji] using hwj)
  · rw [h.mem_order]
    by_cases hji : j = i
    · subst hji
      rw [List.getElem?_set_self hi, hw]
      simp
    · simp [List.getElem?_set_ne (Ne.symm hji)]

/-- A goroutine sends its result. -/
theorem Inv.send (hN : ∀ es ∈ hs, Decides model computeInfo es (N es))
    (h : Inv model computeInfo hasTimeout hs N r order p) {i : ℕ} {f : Frame I O S} {ok : Bool}
    (hw : p.workers[i]? = some (.working (.returned ok f))) :
    Inv model computeInfo hasTimeout hs N (Function.update r i (r i + 1)) (order ++ [i])
      { p with workers := p.workers.set i (.sent f), results := p.results ++ [ok] } := by
  have hi : i < p.workers.length := (List.getElem?_eq_some_iff.mp hw).1
  have hi' : i < hs.length := h.length_eq ▸ hi
  obtain ⟨es, hes⟩ : ∃ es, hs[i]? = some es := ⟨hs[i], List.getElem?_eq_getElem hi'⟩
  have hat := h.worker i es _ hes hw
  have hnew : i ∉ order := by
    rw [h.mem_order, hw]
    simp
  refine ⟨by simpa using h.length_eq, fun j es w hj hwj => ?_, ?_, fun j => ?_, ?_, fun hloop => ?_,
    h.illegal, h.legal, h.timedOut, h.unkilled, h.result,
    fun res info hdone hinfo => absurd hinfo (h.not_working hw hdone)⟩
  · by_cases hji : j = i
    · subst hji
      obtain rfl : Worker.sent f = w := by simpa [hi] using hwj
      obtain ⟨hr, kill, hkill, hs⟩ := h.worker j es _ hj hw
      exact ⟨by simpa using hr, kill, r j, ok, hkill, hs⟩
    · rw [Function.update_of_ne hji]
      exact h.worker j es w hj (by simpa [Ne.symm hji] using hwj)
  · rw [List.nodup_append]
    refine ⟨h.nodup, List.nodup_singleton i, ?_⟩
    rintro x hx y hy rfl
    exact hnew (List.mem_singleton.mp hy ▸ hx)
  · rw [List.mem_append, List.mem_singleton, h.mem_order]
    by_cases hji : j = i
    · subst hji
      simp [hi]
    · simp [List.getElem?_set_ne (Ne.symm hji), hji]
  · have := h.count_eq
    simp
    omega
  · obtain ⟨hkill, htimed, hcount, hres, hok⟩ := h.loop hloop
    have hle : p.count ≤ order.length := by
      have := h.count_eq
      omega
    rw [hkill] at hat
    have hv : ok = verdictOf model hs i := by
      rw [Bool.eq_iff_iff, hat.verdict (hN es (List.mem_of_getElem? hes)), verdictOf_iff hes]
    refine ⟨hkill, htimed, hcount, ?_, ?_⟩
    · simp [List.drop_append_of_le_length hle, hres, hv]
    · simp [List.take_append_of_le_length hle, hok]

/-- A result in the channel is that of the next goroutine in the order of sending. -/
theorem Inv.next_result (h : Inv model computeInfo hasTimeout hs N r order p) (hphase : p.phase = .loop)
    {result : Bool} {results : List Bool} (hresults : p.results = result :: results) :
    p.count + 1 + results.length = order.length ∧
      results = (order.drop (p.count + 1)).map (verdictOf model hs) ∧
      (p.ok && result) = (order.take (p.count + 1)).all (verdictOf model hs) := by
  obtain ⟨-, -, -, hres, hok⟩ := h.loop hphase
  have hcount := h.count_eq
  rw [hresults, List.length_cons] at hcount
  have hlt : p.count < order.length := by omega
  rw [hresults, List.drop_eq_getElem_cons hlt, List.map_cons, List.cons.injEq] at hres
  refine ⟨by omega, hres.2, ?_⟩
  rw [List.take_succ_eq_append_getElem hlt, List.all_append, ← hok, hres.1]
  simp

theorem Inv.exists_illegal (h : Inv model computeInfo hasTimeout hs N r order p) {k : ℕ}
    (hfalse : (order.take k).all (verdictOf model hs) = false) :
    ∃ es ∈ hs, ¬ IsLinearizable model es := by
  rw [List.all_eq_false] at hfalse
  obtain ⟨i, hi, hv⟩ := hfalse
  obtain ⟨f, hf⟩ := (h.mem_order i).mp (List.mem_of_mem_take hi)
  have hi' : i < hs.length := h.length_eq ▸ (List.getElem?_eq_some_iff.mp hf).1
  refine ⟨hs[i], List.getElem_mem hi', fun hlin => ?_⟩
  exact hv ((verdictOf_iff (List.getElem?_eq_getElem hi')).mpr hlin)

theorem Inv.forall_legal (h : Inv model computeInfo hasTimeout hs N r order p) {k : ℕ}
    (hk : hs.length ≤ k) (hle : k ≤ order.length)
    (htrue : (order.take k).all (verdictOf model hs) = true) : ∀ es ∈ hs, IsLinearizable model es := by
  intro es hes
  obtain ⟨i, hi, rfl⟩ := List.getElem_of_mem hes
  have hall := h.order_length_le
  rw [List.take_of_length_le (by omega), List.all_eq_true] at htrue
  have hmem := h.mem_order_of_length_le (by omega) hi
  exact (verdictOf_iff (List.getElem?_eq_getElem hi)).mp (htrue i hmem)

/-- A result is received in the loop. -/
theorem Inv.receive (h : Inv model computeInfo hasTimeout hs N r order p)
    (hp : p.receive computeInfo = some p') :
    Inv model computeInfo hasTimeout hs N r order p' ∧ p'.count = p.count + 1 ∧
      (p'.phase = .loop ∨ p'.phase = .drain) ∧ p.phase = .loop := by
  unfold Pool.receive at hp
  split at hp
  case h_2 => cases hp
  case h_1 result results hphase hresults =>
    obtain ⟨hkill, htimed, -⟩ := h.loop hphase
    obtain ⟨hcount, hres, hok⟩ := h.next_result hphase hresults
    have hillegal : (p.ok && result) = false → ∃ es ∈ hs, ¬ IsLinearizable model es := fun hfalse =>
      h.exists_illegal (hok ▸ hfalse)
    simp only at hp
    split at hp
    case isTrue hstop =>
      obtain rfl := Option.some.inj hp
      rw [Bool.and_eq_true, Bool.not_eq_true', Bool.not_eq_true'] at hstop
      refine ⟨⟨h.length_eq, fun i es w hi hw => (h.worker i es w hi hw).mono fun _ => rfl, h.nodup,
        h.mem_order, hcount, by simp, hillegal, ?_, h.timedOut, ?_, by simp, by simp⟩, rfl, .inr rfl,
        hphase⟩
      · intro _ htrue
        rw [hstop.1] at htrue
        cases htrue
      · intro hinfo
        rw [hstop.2] at hinfo
        cases hinfo
    case isFalse hgo =>
      split at hp
      case isTrue hall =>
        obtain rfl := Option.some.inj hp
        simp only [ge_iff_le, h.length_eq] at hall
        exact ⟨⟨h.length_eq, h.worker, h.nodup, h.mem_order, hcount, by simp, hillegal,
          fun _ htrue _ => h.forall_legal hall (by omega) (hok ▸ htrue), h.timedOut, h.unkilled,
          by simp, by simp⟩, rfl, .inr rfl, hphase⟩
      case isFalse hmore =>
        obtain rfl := Option.some.inj hp
        refine ⟨⟨h.length_eq, h.worker, h.nodup, h.mem_order, hcount, fun _ =>
          ⟨hkill, htimed, .inr ?_, hres, hok⟩, hillegal, fun hne => absurd hphase hne, h.timedOut,
          h.unkilled, by simp [hphase], by simp [hphase]⟩, rfl, .inl hphase, hphase⟩
        simp only [ge_iff_le, not_le] at hmore
        rwa [h.length_eq] at hmore

theorem Inv.timeout (h : Inv model computeInfo hasTimeout hs N r order p)
    (hp : p.timeout hasTimeout = some p') :
    Inv model computeInfo hasTimeout hs N r order p' ∧ p'.count = p.count ∧ p'.phase = .drain ∧
      p.phase = .loop := by
  unfold Pool.timeout at hp
  split at hp
  case h_2 => cases hp
  case h_1 hphase =>
    split at hp
    case isFalse => cases hp
    case isTrue htimeout =>
      obtain rfl := Option.some.inj hp
      refine ⟨⟨h.length_eq, fun i es w hi hw => (h.worker i es w hi hw).mono fun _ => rfl, h.nodup,
        h.mem_order, h.count_eq, by simp, h.illegal, by simp, fun _ => htimeout, by simp, by simp,
        by simp⟩, rfl, rfl, hphase⟩

theorem Inv.drain (h : Inv model computeInfo hasTimeout hs N r order p)
    (hp : p.drain computeInfo = some p') :
    Inv model computeInfo hasTimeout hs N r order p' ∧ p'.count = p.count + 1 ∧
      p'.phase = p.phase := by
  unfold Pool.drain at hp
  split at hp
  case h_2 => cases hp
  case h_1 result results hphase hresults =>
    split at hp
    case isFalse => cases hp
    case isTrue hmore =>
      obtain rfl := Option.some.inj hp
      have hcount := h.count_eq
      rw [hresults, List.length_cons] at hcount
      refine ⟨⟨h.length_eq, h.worker, h.nodup, h.mem_order, ?_, by simp [hphase], h.illegal, h.legal,
        h.timedOut, h.unkilled, h.result, by simp [hphase]⟩, rfl, rfl⟩
      simp only
      omega

theorem Inv.finish (h : Inv model computeInfo hasTimeout hs N r order p) {keys : List (List ℕ)}
    (hp : p.finish computeInfo keys = some p') :
    Inv model computeInfo hasTimeout hs N r order p' ∧ p'.count = p.count ∧
      p.phase = .drain ∧ ∃ res info, p'.phase = .done res info := by
  unfold Pool.finish at hp
  split at hp
  case h_2 => cases hp
  case h_1 hphase =>
    have hinv : ∀ info, (computeInfo = true → hs.length ≤ p.count ∧
          ∃ keys, List.Forall₂ (fun w ks => ks.Perm w.pointers) p.workers keys ∧
            info = List.zipWith Worker.partials p.workers keys) →
        Inv model computeInfo hasTimeout hs N r order { p with phase := .done p.result info } := by
      intro info hinfo
      refine ⟨h.length_eq, h.worker, h.nodup, h.mem_order, h.count_eq, by simp, h.illegal,
        fun _ => h.legal (by simp [hphase]), h.timedOut, h.unkilled, ?_, ?_⟩
      · intro res info' hdone
        obtain ⟨rfl, -⟩ := Phase.done.inj hdone
        rfl
      · intro res info' hdone
        obtain ⟨-, rfl⟩ := Phase.done.inj hdone
        exact hinfo
    split at hp
    case isTrue hinfo =>
      split at hp
      case isTrue => cases hp
      case isFalse hcount =>
        split at hp
        case isTrue hkeys =>
          obtain rfl := Option.some.inj hp
          refine ⟨hinv _ fun _ => ⟨?_, keys, hkeys, rfl⟩, rfl, hphase, _, _, rfl⟩
          rw [h.length_eq] at hcount
          omega
        case isFalse => cases hp
    case isFalse hinfo =>
      obtain rfl := Option.some.inj hp
      exact ⟨hinv _ fun h => absurd h hinfo, rfl, hphase, _, _, rfl⟩

/-- How far `checkParallel` has come. -/
def rank : Phase → ℕ
  | .loop => 0
  | .drain => 1
  | .done _ _ => 2

/-- The steps made so far. -/
def progress (hs : List (List (Entry I O))) (r : ℕ → ℕ) (p : Pool I O S) : ℕ :=
  ∑ i ∈ Finset.range hs.length, r i + p.count + rank p.phase

/-- The steps there can be. -/
def bound (hs : List (List (Entry I O))) (N : List (Entry I O) → ℕ) : ℕ :=
  ∑ i ∈ Finset.range hs.length, ((hs[i]?.map N).getD 0 + 1) + hs.length + 2

theorem sum_update_succ {n i : ℕ} (hi : i < n) (r : ℕ → ℕ) :
    ∑ j ∈ Finset.range n, Function.update r i (r i + 1) j = ∑ j ∈ Finset.range n, r j + 1 := by
  rw [Finset.sum_update_of_mem (Finset.mem_range.mpr hi),
    ← Finset.add_sum_erase _ r (Finset.mem_range.mpr hi), Finset.sdiff_singleton_eq_erase]
  omega

/-- Every step keeps the invariant and makes progress. -/
theorem Inv.step (hN : ∀ es ∈ hs, Decides model computeInfo es (N es))
    (h : Inv model computeInfo hasTimeout hs N r order p) {a : PoolAction}
    (hp : p.step model computeInfo hasTimeout a = some p') :
    ∃ r' order', Inv model computeInfo hasTimeout hs N r' order' p' ∧
      progress hs r p < progress hs r' p' := by
  unfold Pool.step at hp
  split at hp
  case isTrue => cases hp
  case isFalse =>
    cases a with
    | worker i =>
      simp only [workerStep] at hp
      split at hp
      case h_1 f hw =>
        have hi : i < hs.length := h.length_eq ▸ (List.getElem?_eq_some_iff.mp hw).1
        have hes := List.getElem?_eq_getElem hi
        obtain ⟨turn, hturn, hat⟩ := (h.worker i _ _ hes hw).advance (hN _ (List.getElem_mem hi))
        rw [hturn, Option.some.injEq] at hp
        subst hp
        refine ⟨_, _, h.round hw fun es hes' => ?_, ?_⟩
        · rw [hes, Option.some.injEq] at hes'
          exact hes' ▸ hat
        · simp only [progress, sum_update_succ hi]
          omega
      case h_2 ok f hw =>
        have hi : i < hs.length := h.length_eq ▸ (List.getElem?_eq_some_iff.mp hw).1
        rw [Option.some.injEq] at hp
        subst hp
        refine ⟨_, _, h.send hN hw, ?_⟩
        simp only [progress, sum_update_succ hi]
        omega
      case h_3 => cases hp
    | receive =>
      obtain ⟨hinv, hcount, hphase | hphase, hloop⟩ := h.receive hp <;>
      · refine ⟨_, _, hinv, ?_⟩
        simp only [progress, hcount, hphase, hloop, rank]
        omega
    | timeout =>
      obtain ⟨hinv, hcount, hphase, hloop⟩ := h.timeout hp
      refine ⟨_, _, hinv, ?_⟩
      simp only [progress, hcount, hphase, hloop, rank]
      omega
    | drain =>
      obtain ⟨hinv, hcount, hphase⟩ := h.drain hp
      refine ⟨_, _, hinv, ?_⟩
      simp only [progress, hcount, hphase]
      omega
    | finish keys =>
      obtain ⟨hinv, hcount, hdrain, res, info, hphase⟩ := h.finish hp
      refine ⟨_, _, hinv, ?_⟩
      simp only [progress, hcount, hphase, hdrain, rank]
      omega

theorem Inv.run (hN : ∀ es ∈ hs, Decides model computeInfo es (N es)) {as : List PoolAction}
    (hr : Runs.Run (Pool.step model computeInfo hasTimeout) Runs.Any p as p')
    (h : Inv model computeInfo hasTimeout hs N r order p) :
    ∃ r' order', Inv model computeInfo hasTimeout hs N r' order' p' ∧
      progress hs r p + as.length ≤ progress hs r' p' := by
  induction hr generalizing r order with
  | nil p => exact ⟨r, order, h, by simp⟩
  | cons _ hs _ ih =>
    obtain ⟨r₁, order₁, h₁, hlt⟩ := h.step hN hs
    obtain ⟨r₂, order₂, h₂, hle⟩ := ih h₁
    refine ⟨r₂, order₂, h₂, ?_⟩
    rw [List.length_cons]
    omega

theorem Inv.progress_le (h : Inv model computeInfo hasTimeout hs N r order p) :
    progress hs r p ≤ bound hs N := by
  have hsum : ∑ i ∈ Finset.range hs.length, r i ≤
      ∑ i ∈ Finset.range hs.length, ((hs[i]?.map N).getD 0 + 1) := by
    refine Finset.sum_le_sum fun i hi => ?_
    have hi := Finset.mem_range.mp hi
    have hes := List.getElem?_eq_getElem hi
    have hi' : i < p.workers.length := h.length_eq ▸ hi
    have hat := h.worker i _ _ hes (List.getElem?_eq_getElem hi')
    rw [hes, Option.map_some, Option.getD_some]
    cases hwi : p.workers[i] with
    | working turn => rw [hwi] at hat; exact Nat.le_succ_of_le hat.1
    | sent f => rw [hwi] at hat; exact hat.1
    | panicked => rw [hwi] at hat; exact hat.elim
  have hcount := h.count_eq
  have hlen := h.order_length_le
  have hrank : rank p.phase ≤ 2 := by cases p.phase <;> simp [rank]
  simp only [progress, bound]
  omega

/-- A goroutine that has not sent is at work. -/
theorem Inv.exists_working (h : Inv model computeInfo hasTimeout hs N r order p)
    (hlt : order.length < hs.length) :
    ∃ (i : ℕ) (turn : Turn I O S), p.workers[i]? = some (.working turn) := by
  obtain ⟨i, hi, hno⟩ : ∃ i < hs.length, i ∉ order := by
    by_contra hall
    push Not at hall
    have hsub : List.range hs.length ⊆ order := fun i hi => hall i (List.mem_range.mp hi)
    have := (List.subperm_of_subset List.nodup_range hsub).length_le
    rw [List.length_range] at this
    omega
  have hi' : i < p.workers.length := h.length_eq ▸ hi
  have hw := List.getElem?_eq_getElem hi'
  have hat := h.worker i _ _ (List.getElem?_eq_getElem hi) hw
  cases hwi : p.workers[i] with
  | working turn => exact ⟨i, turn, by rw [hw, hwi]⟩
  | sent f => exact absurd ((h.mem_order i).mpr ⟨f, by rw [hw, hwi]⟩) hno
  | panicked => rw [hwi] at hat; exact hat.elim

theorem Inv.not_panicked (h : Inv model computeInfo hasTimeout hs N r order p) :
    p.workers.any Worker.hasPanicked = false := by
  rw [List.any_eq_false]
  intro w hw hpanic
  obtain ⟨i, hi, rfl⟩ := List.getElem_of_mem hw
  have hi' : i < hs.length := h.length_eq ▸ hi
  have hat := h.worker i _ _ (List.getElem?_eq_getElem hi') (List.getElem?_eq_getElem hi)
  cases hwi : p.workers[i] with
  | working turn => rw [hwi] at hpanic; cases hpanic
  | sent f => rw [hwi] at hpanic; cases hpanic
  | panicked => rw [hwi] at hat; exact hat.elim

/-- As long as there is no result, something can happen, unless there is nothing to wait for. -/
theorem Inv.exists_step (h : Inv model computeInfo hasTimeout hs N r order p) (hne : hs ≠ [])
    (hopen : ∀ res info, p.phase ≠ .done res info) :
    ∃ a p', p.step model computeInfo hasTimeout a = some p' := by
  have hpanic := h.not_panicked
  have hpos : 0 < hs.length := List.length_pos_iff.mpr hne
  -- a goroutine at work can make a step
  have hwork : order.length < hs.length → ∃ a p', p.step model computeInfo hasTimeout a = some p' := by
    intro hlt
    obtain ⟨i, turn, hw⟩ := h.exists_working hlt
    cases turn with
    | returned ok f => exact ⟨.worker i, _, by simp [Pool.step, hpanic, workerStep, hw]; rfl⟩
    | running f =>
      cases hit : f.iteration model computeInfo p.kill with
      | some turn => exact ⟨.worker i, _, by simp [Pool.step, hpanic, workerStep, hw, hit]; rfl⟩
      | none => exact ⟨.worker i, _, by simp [Pool.step, hpanic, workerStep, hw, hit]; rfl⟩
  have hcount := h.count_eq
  cases hphase : p.phase with
  | done res info => exact absurd hphase (hopen res info)
  | loop =>
    obtain ⟨-, -, hlt, -⟩ := h.loop hphase
    cases hres : p.results with
    | nil =>
      rw [hres, List.length_nil] at hcount
      exact hwork (by omega)
    | cons result results =>
      refine ⟨.receive, ?_⟩
      simp only [Pool.step, hpanic, Pool.receive, hphase, hres, Bool.false_eq_true, if_false]
      split
      · exact ⟨_, rfl⟩
      · split <;> exact ⟨_, rfl⟩
  | drain =>
    cases hinfo : computeInfo with
    | false => exact ⟨.finish [], _, by simp [Pool.step, hpanic, Pool.finish, hphase]; rfl⟩
    | true =>
      subst hinfo
      by_cases hlt : p.count < p.workers.length
      · cases hres : p.results with
        | nil =>
          rw [hres, List.length_nil] at hcount
          rw [h.length_eq] at hlt
          exact hwork (by omega)
        | cons result results =>
          exact ⟨.drain, _, by simp [Pool.step, hpanic, Pool.drain, hphase, hres, hlt]; rfl⟩
      · have hkeys : List.Forall₂ (fun w ks => ks.Perm (Worker.pointers w)) p.workers
            (p.workers.map Worker.pointers) := by
          rw [List.forall₂_map_right_iff]
          exact List.forall₂_same.mpr fun w _ => List.Perm.refl _
        exact ⟨.finish (p.workers.map Worker.pointers), _, by
          simp [Pool.step, hpanic, Pool.finish, hphase, hlt, hkeys]; rfl⟩

end Pool

section Main

variable {model : FullModel I O S} {hs : List (List (Entry I O))}

namespace Pool

variable {computeInfo hasTimeout : Bool} {N : List (Entry I O) → ℕ} {r : ℕ → ℕ} {order : List ℕ}
  {p : Pool I O S}

/-- From every state the end can be reached. -/
theorem Inv.exists_done (hN : ∀ es ∈ hs, Decides model computeInfo es (N es)) (hne : hs ≠ [])
    (h : Inv model computeInfo hasTimeout hs N r order p) :
    ∃ as p' res info, Runs.Run (Pool.step model computeInfo hasTimeout) Runs.Any p as p' ∧
      p'.phase = .done res info := by
  induction hm : bound hs N - progress hs r p using Nat.strongRecOn generalizing p r order with
  | _ m ih =>
    by_cases hdone : ∃ res info, p.phase = .done res info
    · obtain ⟨res, info, hdone⟩ := hdone
      exact ⟨[], p, res, info, .nil p, hdone⟩
    · push Not at hdone
      obtain ⟨a, p₁, hp₁⟩ := h.exists_step hne hdone
      obtain ⟨r₁, order₁, h₁, hlt⟩ := h.step hN hp₁
      have hle := h₁.progress_le
      obtain ⟨as, p', res, info, hrun, hphase⟩ := ih _ (by omega) h₁ rfl
      exact ⟨a :: as, p', res, info, .cons trivial hp₁ hrun, hphase⟩

/-- Without partitions nothing is ever sent, and the loop waits for good. -/
theorem step_start_nil (model : FullModel I O S) (computeInfo : Bool) (a : PoolAction) :
    (start model []).step model computeInfo false a = none := by
  cases a <;> rfl

/-- What a goroutine that was never killed leaves in `longest[i]`. -/
theorem longest_of_worker {es : List (Entry I O)} {n k : ℕ} {f : Frame I O S} (hE : Congruent model)
    (hes : WellFormed es) (h : WorkerAt model true es n false k (.sent f)) :
    (∀ i seq, longestSeq f.seqs f.longest i = some seq →
      IsPartialLinearization (opStep model es) (es.map Entry.mark) model.init seq ∧
        (Mark.call i ∈ es.map Entry.mark → i ∈ seq)) ∧
    ∀ order, IsPartialLinearization (opStep model es) (es.map Entry.mark) model.init order →
      ∀ i ∈ order, ∃ seq, longestSeq f.seqs f.longest i = some seq ∧
        order.length ≤ seq.length := by
  obtain ⟨-, kill, j, ok, hkill, hs⟩ := h
  obtain rfl : kill = fun _ => false := by
    funext i
    cases hi : kill i with
    | false => rfl
    | true => exact absurd (hkill i hi) (by simp)
  obtain ⟨M, ok', f', hM, hlong⟩ := checkSingle_longest hes hE
  have hsame := checkSingle_of_le (Nat.le_max_left j M) hs
  rw [hM _ (Nat.le_max_right j M)] at hsame
  cases hsame
  exact hlong

theorem mem_pointers {f : Frame I O S} {k : ℕ} :
    k ∈ (Worker.sent f).pointers ↔ ∃ i : ℕ, f.longest[i]? = some (some k) := by
  simp only [Worker.pointers, List.mem_dedup, List.mem_filterMap, id_eq, exists_eq_right]
  exact List.mem_iff_getElem?

/-- The partial linearizations shown for a partition, in whatever order. -/
theorem mem_partials {f : Frame I O S} {keys : List ℕ} (hkeys : keys.Perm (Worker.sent f).pointers)
    {seq : List ℕ} :
    seq ∈ (Worker.sent f).partials keys ↔ ∃ i, longestSeq f.seqs f.longest i = some seq := by
  simp only [Worker.partials, List.mem_filterMap, hkeys.mem_iff, mem_pointers]
  constructor
  · rintro ⟨k, ⟨i, hi⟩, hk⟩
    exact ⟨i, by rw [longestSeq_of_getElem? hi, hk]⟩
  · rintro ⟨i, hi⟩
    obtain ⟨k, hk, hseq⟩ := exists_of_longestSeq hi
    exact ⟨k, ⟨i, hk⟩, hseq⟩

end Pool

theorem exists_decides (hE : Congruent model) (computeInfo : Bool) :
    ∃ N : List (Entry I O) → ℕ, ∀ es, WellFormed es → Decides model computeInfo es (N es) := by
  have hall : ∀ es, ∃ N, WellFormed es → Decides model computeInfo es N := by
    intro es
    by_cases hes : WellFormed es
    · obtain ⟨N, hN⟩ := checkSingle_verdict hes hE computeInfo
      exact ⟨N, fun _ => hN⟩
    · exact ⟨0, fun h => absurd h hes⟩
  choose N hN using hall
  exact ⟨N, hN⟩

/-- Whatever the order of events, the result is right: `Ok` means that all partitions are
    linearizable, `Illegal` that one is not, and `Unknown` comes only from a timeout. -/
theorem checkParallel_sound (hE : Congruent model) (hwf : ∀ es ∈ hs, WellFormed es)
    (computeInfo hasTimeout : Bool) {as : List PoolAction} {p : Pool I O S}
    (hr : Runs.Run (Pool.step model computeInfo hasTimeout) Runs.Any (Pool.start model hs) as p)
    {res : CheckResult} {info : List (List (List ℕ))} (hdone : p.phase = .done res info) :
    (res = .ok → ∀ es ∈ hs, IsLinearizable model es) ∧
      (res = .illegal → ∃ es ∈ hs, ¬ IsLinearizable model es) ∧
      (res = .unknown → hasTimeout = true) := by
  obtain ⟨N, hN⟩ := exists_decides hE computeInfo
  obtain ⟨r, order, hinv, -⟩ := Pool.Inv.run (fun es hes => hN es (hwf es hes)) hr
    (Pool.inv_start model computeInfo hasTimeout hs N)
  rw [hinv.result res info hdone, Pool.result]
  cases hok : p.ok with
  | false => simpa using hinv.illegal hok
  | true =>
    cases htimed : p.timedOut with
    | false => simpa using hinv.legal (by simp [hdone]) hok htimed
    | true => simpa using hinv.timedOut htimed

/-- Every run is bounded, and one that cannot go on has a result, if there is a partition. -/
theorem checkParallel_ends (hE : Congruent model) (hwf : ∀ es ∈ hs, WellFormed es) (hne : hs ≠ [])
    (computeInfo hasTimeout : Bool) :
    ∃ B, ∀ as p,
      Runs.Run (Pool.step model computeInfo hasTimeout) Runs.Any (Pool.start model hs) as p →
      as.length ≤ B ∧ ((∀ a, p.step model computeInfo hasTimeout a = none) →
        ∃ res info, p.phase = .done res info) := by
  obtain ⟨N, hN⟩ := exists_decides hE computeInfo
  refine ⟨Pool.bound hs N, fun as p hr => ?_⟩
  obtain ⟨r, order, hinv, hle⟩ := Pool.Inv.run (fun es hes => hN es (hwf es hes)) hr
    (Pool.inv_start model computeInfo hasTimeout hs N)
  refine ⟨?_, fun hstuck => ?_⟩
  · have := hinv.progress_le
    omega
  · by_contra hno
    push Not at hno
    obtain ⟨a, p', hp'⟩ := hinv.exists_step hne hno
    rw [hstuck a] at hp'
    cases hp'

/-- A put in one partition and a get that fails in another. -/
theorem checkParallel_ends_two :
    let hs : List (List (Entry KvInput KvOutput)) :=
      [[⟨.callEntry, .inl ⟨1, "x", "1"⟩, 0, 0, 0⟩, ⟨.returnEntry, .inr ⟨""⟩, 0, 3, 0⟩],
        [⟨.callEntry, .inl ⟨0, "y", ""⟩, 0, 1, 1⟩, ⟨.returnEntry, .inr ⟨"1"⟩, 0, 2, 1⟩]]
    (∀ es ∈ hs, WellFormed es) ∧ ∃ B, ∀ as p,
      Runs.Run (Pool.step (fillDefault kvModel) false false) Runs.Any
        (Pool.start (fillDefault kvModel) hs) as p →
      as.length ≤ B ∧ ((∀ a, p.step (fillDefault kvModel) false false a = none) →
        ∃ res info, p.phase = .done res info) :=
  ⟨by decide, checkParallel_ends (congruent_fillDefault rfl) (by decide) (by simp) false false⟩

theorem exists_returned (hE : Congruent model) (hwf : ∀ es ∈ hs, WellFormed es) (hne : hs ≠ [])
    (computeInfo hasTimeout : Bool) :
    ∃ as p res info, Runs.Run (Pool.step model computeInfo hasTimeout) Runs.Any
      (Pool.start model hs) as p ∧ p.phase = .done res info := by
  obtain ⟨N, hN⟩ := exists_decides hE computeInfo
  exact (Pool.inv_start model computeInfo hasTimeout hs N).exists_done
    (fun es hes => hN es (hwf es hes)) hne

/-- `checkParallel` can return exactly if there is a partition or a timeout. -/
theorem checkParallel_returns_iff (hE : Congruent model) (hwf : ∀ es ∈ hs, WellFormed es)
    (computeInfo hasTimeout : Bool) :
    (∃ as p res info, Runs.Run (Pool.step model computeInfo hasTimeout) Runs.Any
        (Pool.start model hs) as p ∧ p.phase = .done res info) ↔ hs ≠ [] ∨ hasTimeout = true := by
  constructor
  · rintro ⟨as, p, res, info, hr, hdone⟩
    by_contra hno
    push Not at hno
    obtain ⟨rfl, hno⟩ := hno
    obtain rfl : hasTimeout = false := by simpa using hno
    cases hr with
    | nil => cases hdone
    | cons _ hstep _ => rw [Pool.step_start_nil] at hstep; cases hstep
  · intro h
    by_cases hne : hs = []
    · obtain rfl : hasTimeout = true := h.resolve_left (not_not.mpr hne)
      subst hne
      let p : Pool I O S :=
        { Pool.start model [] with timedOut := true, kill := true, phase := .drain }
      have htimeout : (Pool.start model []).step model computeInfo true .timeout = some p := rfl
      have hfinish : p.step model computeInfo true (.finish []) =
          some { p with phase := .done .unknown [] } := by cases computeInfo <;> rfl
      exact ⟨_, _, .unknown, [], .cons trivial htimeout (.cons trivial hfinish (.nil _)), rfl⟩
    · exact exists_returned hE hwf hne computeInfo hasTimeout

/-- Without partitions the select waits for ever. -/
theorem checkParallel_returns_iff_nil :
    ¬ ∃ as p res info, Runs.Run (Pool.step (fillDefault kvModel) true false) Runs.Any
      (Pool.start (fillDefault kvModel) []) as p ∧ p.phase = .done res info := by
  rw [checkParallel_returns_iff (congruent_fillDefault rfl) (by simp)]
  simp

/-- Without a timeout the partial linearizations that are shown for a partition are sound, and every
    partial linearization has for each of its operations one at least as long among them. -/
theorem checkParallel_info (hE : Congruent model) (hwf : ∀ es ∈ hs, WellFormed es)
    {as : List PoolAction} {p : Pool I O S}
    (hr : Runs.Run (Pool.step model true false) Runs.Any (Pool.start model hs) as p)
    {res : CheckResult} {info : List (List (List ℕ))} (hdone : p.phase = .done res info) :
    info.length = hs.length ∧ ∀ (i : ℕ) (es : List (Entry I O)) (partials : List (List ℕ)),
      hs[i]? = some es → info[i]? = some partials →
      (∀ seq ∈ partials,
        IsPartialLinearization (opStep model es) (es.map Entry.mark) model.init seq) ∧
      ∀ order, IsPartialLinearization (opStep model es) (es.map Entry.mark) model.init order →
        ∀ op ∈ order, ∃ seq ∈ partials, op ∈ seq ∧ order.length ≤ seq.length := by
  obtain ⟨N, hN⟩ := exists_decides hE true
  obtain ⟨r, ord, hinv, -⟩ := Pool.Inv.run (fun es hes => hN es (hwf es hes)) hr
    (Pool.inv_start model true false hs N)
  have htimed : p.timedOut = false := by
    by_contra hne
    exact absurd (hinv.timedOut (by simpa using hne)) (by simp)
  have hkill := hinv.unkilled rfl htimed
  obtain ⟨hcount, keys, hkeys, rfl⟩ := hinv.info res info hdone rfl
  have hlen := hkeys.length_eq
  refine ⟨by rw [List.length_zipWith, ← hlen, Nat.min_self, hinv.length_eq],
    fun i es partials hi hpart => ?_⟩
  have hilt : i < hs.length := (List.getElem?_eq_some_iff.mp hi).1
  obtain ⟨f, hf⟩ := (hinv.mem_order i).mp (hinv.mem_order_of_length_le
    (by have := hinv.count_eq; omega) hilt)
  obtain ⟨w, ks, hw, hks, rfl⟩ := List.getElem?_zipWith_eq_some.mp hpart
  have hperm : ks.Perm w.pointers := by
    obtain ⟨hlt, rfl⟩ := List.getElem?_eq_some_iff.mp hw
    obtain ⟨hlt', rfl⟩ := List.getElem?_eq_some_iff.mp hks
    exact (List.forall₂_iff_get.mp hkeys).2 i hlt hlt'
  obtain rfl : Worker.sent f = w := Option.some.inj (hf.symm.trans hw)
  have hat := hinv.worker i es _ hi hf
  rw [hkill] at hat
  obtain ⟨hsound, hlong⟩ := Pool.longest_of_worker hE (hwf es (List.mem_of_getElem? hi)) hat
  refine ⟨fun seq hseq => ?_, fun order horder op hop => ?_⟩
  · obtain ⟨j, hj⟩ := (Pool.mem_partials hperm).mp hseq
    exact (hsound j seq hj).1
  · obtain ⟨seq, hseq, hle⟩ := hlong order horder op hop
    exact ⟨seq, (Pool.mem_partials hperm).mpr ⟨op, hseq⟩, (hsound op seq hseq).2 (horder.called op hop),
      hle⟩

/-- What is shown for a get that returns a value nobody has put. -/
theorem checkParallel_info_get :
    let es : List (Entry KvInput KvOutput) :=
      [⟨.callEntry, .inl ⟨1, "x", "1"⟩, 0, 0, 0⟩, ⟨.callEntry, .inl ⟨0, "x", ""⟩, 1, 1, 1⟩,
        ⟨.returnEntry, .inr ⟨"2"⟩, 1, 2, 1⟩, ⟨.returnEntry, .inr ⟨""⟩, 0, 3, 0⟩]
    ∃ as p info partials, Runs.Run (Pool.step (fillDefault kvModel) true false) Runs.Any
        (Pool.start (fillDefault kvModel) [es]) as p ∧ p.phase = .done .illegal info ∧
      info[0]? = some partials ∧ ∀ seq ∈ partials, IsPartialLinearization
        (opStep (fillDefault kvModel) es) (es.map Entry.mark) "" seq := by
  intro es
  obtain ⟨p, hr, hp⟩ := Runs.exists_run (Pool.step (fillDefault kvModel) true false) Runs.Any
    (Pool.start (fillDefault kvModel) [es])
    (List.replicate 6 (.worker 0) ++ [.receive, .finish [[0]]]) (Pool.hasResult .illegal)
    (by decide +kernel)
  obtain ⟨info, hdone⟩ := Pool.hasResult_iff.mp hp
  obtain ⟨hlen, hinfo⟩ := checkParallel_info (congruent_fillDefault rfl) (by decide) hr hdone
  obtain ⟨partials, rfl⟩ := List.length_eq_one_iff.mp hlen
  exact ⟨_, p, _, partials, hr, hdone, rfl, (hinfo 0 es partials rfl rfl).1⟩

end Main

end GoServices.Porcupine
