import GoServices.Porcupine.Parallel
import GoServices.Schemes.Renaming

/-! Histories given as events (`renumber`, `convertEntries`, `checkEvents`).

    The ids of the events are any numbers. They are replaced by 0, 1, 2 and so on, in the order in
    which they come up for the first time, because the search uses them as places in a bitset. -/

namespace GoServices.Porcupine

open Histories

variable {I O S : Type}

/-- The loop of `renumber`: `m` is the renumbering so far, and `id` the next number. -/
def renumberFrom (m : ℤ → Option ℕ) (id : ℕ) : List (Event I O) → List (Event I O)
  | [] => []
  | v :: events =>
    match m v.id with
    | some r => { v with id := r } :: renumberFrom m id events
    | none => { v with id := id } :: renumberFrom (Function.update m v.id (some id)) (id + 1) events

/-- The events with the ids 0, 1, 2 and so on, in the order in which ids first appear. -/
def renumber (events : List (Event I O)) : List (Event I O) := renumberFrom (fun _ => none) 0 events

/-- The kind of entry that an event is turned into. -/
def entryKind : EventKind → EntryKind
  | .callEvent => .callEntry
  | .returnEvent => .returnEntry

/-- The index is used as the time. -/
def convertEntries (events : List (Event I O)) : List (Entry I O) :=
  events.mapIdx fun i elem => ⟨entryKind elem.kind, elem.value, elem.id.toNat, i, elem.clientId⟩

/-- An event without its value. -/
def Event.mark (v : Event I O) : Mark ℤ :=
  match v.kind with
  | .callEvent => .call v.id
  | .returnEvent => .ret v.id

/-- A history with complete operations, inputs in the calls and outputs in the returns. -/
structure EventsWellFormed (events : List (Event I O)) : Prop where
  complete : Complete (events.map Event.mark)
  input : ∀ v ∈ events, v.kind = .callEvent → v.value.isLeft = true
  output : ∀ v ∈ events, v.kind = .returnEvent → v.value.isRight = true

instance (events : List (Event I O)) : Decidable (EventsWellFormed events) :=
  decidable_of_iff (Complete (events.map Event.mark) ∧
      (∀ v ∈ events, v.kind = .callEvent → v.value.isLeft = true) ∧
      ∀ v ∈ events, v.kind = .returnEvent → v.value.isRight = true)
    ⟨fun h => ⟨h.1, h.2.1, h.2.2⟩, fun h => ⟨h.1, h.2, h.3⟩⟩

/-- What the model says about the operation with an id. -/
def eventStep (model : FullModel I O S) (events : List (Event I O)) (s : S) (i : ℤ) : Option S := do
  let input ← (events.find? fun v => v.mark = .call i).bind fun v => v.value.getLeft?
  let output ← (events.find? fun v => v.mark = .ret i).bind fun v => v.value.getRight?
  if (model.step s input output).1 then some (model.step s input output).2 else none

/-- The history is linearizable, with the ids it was given with. -/
def EventsLinearizable (model : FullModel I O S) (events : List (Event I O)) : Prop :=
  Linearizable (eventStep model events) (events.map Event.mark) model.init

section Renumber

/-- The ids that have no number yet. -/
def newIds (m : ℤ → Option ℕ) (events : List (Event I O)) : Finset ℤ :=
  (events.map Event.id).toFinset.filter fun i => m i = none

theorem newIds_cons_some {m : ℤ → Option ℕ} {v : Event I O} {r : ℕ} (h : m v.id = some r)
    (events : List (Event I O)) : newIds m (v :: events) = newIds m events := by
  ext i
  simp only [newIds, List.map_cons, List.toFinset_cons, Finset.mem_filter, Finset.mem_insert]
  constructor
  · rintro ⟨rfl | hi, hm⟩
    · rw [h] at hm
      cases hm
    · exact ⟨hi, hm⟩
  · exact fun ⟨hi, hm⟩ => ⟨.inr hi, hm⟩

theorem card_newIds_cons_none {m : ℤ → Option ℕ} {v : Event I O} (h : m v.id = none) (id : ℕ)
    (events : List (Event I O)) : (newIds m (v :: events)).card =
      (newIds (Function.update m v.id (some id)) events).card + 1 := by
  rw [← Finset.card_insert_of_notMem (a := v.id) (by simp [newIds])]
  congr 1
  ext i
  simp only [newIds, List.map_cons, List.toFinset_cons, Finset.mem_filter, Finset.mem_insert]
  by_cases hi : i = v.id
  · simp [hi, h]
  · simp [hi]

/-- What a renumbering does: it gives a number to each id, different ones to different ids, and it
    keeps the numbers that were given before. -/
structure Renumbers (m : ℤ → Option ℕ) (id : ℕ) (events : List (Event I O)) (num : ℤ → ℕ) : Prop where
  renumberFrom_eq : renumberFrom m id events = events.map fun v => { v with id := num v.id }
  extends_old : ∀ i r, m i = some r → num i = r
  inj : ∀ i j, (m i ≠ none ∨ i ∈ events.map Event.id) → (m j ≠ none ∨ j ∈ events.map Event.id) →
    num i = num j → i = j
  lt : ∀ i ∈ events.map Event.id, num i < id + (newIds m events).card

/-- Numbers below `id` have been given, different ones to different ids. -/
structure Numbered (m : ℤ → Option ℕ) (id : ℕ) : Prop where
  lt : ∀ i r, m i = some r → r < id
  inj : ∀ i j r, m i = some r → m j = some r → i = j

theorem numbered_none : Numbered (fun _ => none) 0 := ⟨by simp, by simp⟩

theorem Numbered.update {m : ℤ → Option ℕ} {id : ℕ} (h : Numbered m id) (k : ℤ) :
    Numbered (Function.update m k (some id)) (id + 1) := by
  have hm : ∀ i r, Function.update m k (some id) i = some r → i = k ∧ r = id ∨ m i = some r := by
    intro i r hr
    by_cases hi : i = k
    · subst hi
      simp only [Function.update_self, Option.some.injEq] at hr
      exact .inl ⟨rfl, hr.symm⟩
    · exact .inr (by rwa [Function.update_of_ne hi] at hr)
  refine ⟨fun i r hr => ?_, fun i j r hi hj => ?_⟩
  · rcases hm i r hr with ⟨-, rfl⟩ | hr
    · exact Nat.lt_succ_self r
    · exact Nat.lt_succ_of_lt (h.lt i r hr)
  · rcases hm i r hi with ⟨hik, hr⟩ | hi' <;> rcases hm j r hj with ⟨hjk, hr'⟩ | hj'
    · rw [hik, hjk]
    · exact absurd (hr ▸ h.lt j r hj') (lt_irrefl id)
    · exact absurd (hr' ▸ h.lt i r hi') (lt_irrefl id)
    · exact h.inj i j r hi' hj'

/-- An event whose id has a number. -/
theorem Renumbers.cons_some {m : ℤ → Option ℕ} {id r : ℕ} {v : Event I O} {events : List (Event I O)}
    {num : ℤ → ℕ} (h : Renumbers m id events num) (hm : Numbered m id) (hv : m v.id = some r) :
    Renumbers m id (v :: events) num := by
  have hnum := h.extends_old _ _ hv
  have hdom : ∀ i, (m i ≠ none ∨ i ∈ (v :: events).map Event.id) →
      m i ≠ none ∨ i ∈ events.map Event.id := by
    rintro i (hi | hi)
    · exact .inl hi
    · rcases List.mem_cons.mp hi with rfl | hi
      · exact .inl (by simp [hv])
      · exact .inr hi
  refine ⟨?_, h.extends_old, fun i j hi hj => h.inj i j (hdom i hi) (hdom j hj), fun i hi => ?_⟩
  · simp [renumberFrom, hv, hnum, h.renumberFrom_eq]
  · rw [newIds_cons_some hv]
    rcases List.mem_cons.mp hi with rfl | hi
    · have := hm.lt _ _ hv
      omega
    · exact h.lt i hi

/-- An event whose id gets the next number. -/
theorem Renumbers.cons_none {m : ℤ → Option ℕ} {id : ℕ} {v : Event I O} {events : List (Event I O)}
    {num : ℤ → ℕ} (h : Renumbers (Function.update m v.id (some id)) (id + 1) events num)
    (hv : m v.id = none) : Renumbers m id (v :: events) num := by
  have hnum : num v.id = id := h.extends_old _ _ (Function.update_self ..)
  have hdom : ∀ i, (m i ≠ none ∨ i ∈ (v :: events).map Event.id) →
      Function.update m v.id (some id) i ≠ none ∨ i ∈ events.map Event.id := by
    intro i hi
    by_cases hiv : i = v.id
    · subst hiv
      exact .inl (by simp)
    · rw [Function.update_of_ne hiv]
      exact hi.imp_right fun h => (List.mem_cons.mp h).resolve_left hiv
  refine ⟨?_, fun i r hi => h.extends_old i r ?_,
    fun i j hi hj => h.inj i j (hdom i hi) (hdom j hj), fun i hi => ?_⟩
  · simp [renumberFrom, hv, hnum, h.renumberFrom_eq]
  · have hne : i ≠ v.id := fun h => by simp [h, hv] at hi
    rwa [Function.update_of_ne hne]
  · rw [card_newIds_cons_none hv id]
    rcases List.mem_cons.mp hi with rfl | hi
    · omega
    · have := h.lt i hi
      omega

theorem exists_renumbers (events : List (Event I O)) : ∀ (m : ℤ → Option ℕ) (id : ℕ), Numbered m id →
    ∃ num, Renumbers m id events num := by
  induction events with
  | nil =>
    intro m id hm
    refine ⟨fun i => (m i).getD 0, rfl, fun i r h => by simp [h], fun i j hi hj hij => ?_, by simp⟩
    obtain ⟨r, hr⟩ := Option.ne_none_iff_exists'.mp (hi.resolve_right (by simp))
    obtain ⟨r', hr'⟩ := Option.ne_none_iff_exists'.mp (hj.resolve_right (by simp))
    simp only [hr, hr', Option.getD_some] at hij
    exact hm.inj i j r hr (hij ▸ hr')
  | cons v events ih =>
    intro m id hm
    cases hv : m v.id with
    | some r =>
      obtain ⟨num, h⟩ := ih m id hm
      exact ⟨num, h.cons_some hm hv⟩
    | none =>
      obtain ⟨num, h⟩ := ih _ _ (hm.update v.id)
      exact ⟨num, h.cons_none hv⟩

end Renumber

/-- `checkEvents` of one partition. -/
def eventEntries (events : List (Event I O)) : List (Entry I O) := convertEntries (renumber events)

section EventEntries

variable {events : List (Event I O)} {num : ℤ → ℕ}

theorem Event.mark_op (v : Event I O) : v.mark.op = v.id := by
  cases h : v.kind <;> simp [Event.mark, h]

theorem mem_eventEntries (hnum : Renumbers (fun _ => none) 0 events num) {e : Entry I O} :
    e ∈ eventEntries events ↔ ∃ (i : ℕ) (v : Event I O), events[i]? = some v ∧
      e = ⟨entryKind v.kind, v.value, num v.id, i, v.clientId⟩ := by
  rw [eventEntries, renumber, hnum.renumberFrom_eq, convertEntries, List.mem_mapIdx]
  constructor
  · rintro ⟨i, hi, rfl⟩
    rw [List.length_map] at hi
    exact ⟨i, events[i], List.getElem?_eq_getElem hi, by simp⟩
  · rintro ⟨i, v, hv, rfl⟩
    obtain ⟨hi, rfl⟩ := List.getElem?_eq_some_iff.mp hv
    exact ⟨i, by simpa using hi, by simp⟩

theorem length_eventEntries (hnum : Renumbers (fun _ => none) 0 events num) :
    (eventEntries events).length = events.length := by
  simp [eventEntries, renumber, hnum.renumberFrom_eq, convertEntries]

theorem marks_eventEntries (hnum : Renumbers (fun _ => none) 0 events num) :
    (eventEntries events).map Entry.mark = (events.map Event.mark).map (Mark.rename num) := by
  rw [eventEntries, renumber, hnum.renumberFrom_eq, convertEntries]
  refine List.ext_getElem? fun i => ?_
  simp only [List.getElem?_map, List.getElem?_mapIdx, Option.map_map]
  refine congrArg (fun f => Option.map f events[i]?) (funext fun v => ?_)
  cases h : v.kind <;> simp [Entry.mark, Event.mark, entryKind, h, Mark.rename]

theorem distinct_of_renumbers (hnum : Renumbers (fun _ => none) 0 events num) :
    Distinct num (events.map Event.mark) := by
  intro x hx y hy hxy
  obtain ⟨v, hv, rfl⟩ := List.mem_map.mp hx
  obtain ⟨w, hw, rfl⟩ := List.mem_map.mp hy
  rw [Event.mark_op, Event.mark_op] at hxy ⊢
  exact hnum.inj _ _ (.inr (List.mem_map_of_mem hv)) (.inr (List.mem_map_of_mem hw)) hxy

theorem wellFormed_eventEntries (h : EventsWellFormed events)
    (hnum : Renumbers (fun _ => none) 0 events num) : WellFormed (eventEntries events) := by
  refine ⟨?_, fun e he => ?_, fun e he hk => ?_, fun e he hk => ?_⟩
  · rw [marks_eventEntries hnum]
    exact h.complete.rename (distinct_of_renumbers hnum)
  · obtain ⟨i, v, hv, rfl⟩ := (mem_eventEntries hnum).mp he
    have hlt := hnum.lt v.id (List.mem_map_of_mem (List.mem_of_getElem? hv))
    have hids : newIds (fun _ => none) events = ((events.map Event.mark).map Mark.op).toFinset := by
      simp [newIds, Function.comp_def, Event.mark_op]
    have hlen := h.complete.length_eq
    rw [← hids, List.length_map] at hlen
    rw [length_eventEntries hnum]
    simp only
    omega
  · obtain ⟨i, v, hv, rfl⟩ := (mem_eventEntries hnum).mp he
    refine h.input v (List.mem_of_getElem? hv) ?_
    cases hkind : v.kind with
    | callEvent => rfl
    | returnEvent => simp [hkind, entryKind] at hk
  · obtain ⟨i, v, hv, rfl⟩ := (mem_eventEntries hnum).mp he
    refine h.output v (List.mem_of_getElem? hv) ?_
    cases hkind : v.kind with
    | callEvent => simp [hkind, entryKind] at hk
    | returnEvent => rfl

/-- An event is found under its new number. -/
theorem find?_eventEntries (h : EventsWellFormed events)
    (hnum : Renumbers (fun _ => none) 0 events num) {x : Mark ℤ} (hx : x ∈ events.map Event.mark) :
    ((eventEntries events).find? fun e => e.mark = x.rename num).map Entry.value =
      (events.find? fun v => v.mark = x).map Event.value := by
  obtain ⟨v, hv, rfl⟩ := List.mem_map.mp hx
  obtain ⟨i, hi⟩ := List.getElem?_of_mem hv
  have hmem := (mem_eventEntries hnum).mpr ⟨i, v, hi, rfl⟩
  have hmark : Entry.mark (⟨entryKind v.kind, v.value, num v.id, i, v.clientId⟩ : Entry I O) =
      v.mark.rename num := by
    cases hk : v.kind <;> simp [Entry.mark, Event.mark, entryKind, hk, Mark.rename]
  rw [h.complete.find?_eq hv, ← hmark,
    (wellFormed_eventEntries h hnum).complete.find?_eq hmem]
  rfl

theorem opStep_eventEntries (h : EventsWellFormed events)
    (hnum : Renumbers (fun _ => none) 0 events num) (model : FullModel I O S) {i : ℤ}
    (hi : Mark.call i ∈ events.map Event.mark) (s : S) :
    opStep model (eventEntries events) s (num i) = eventStep model events s i := by
  have hcall := find?_eventEntries h hnum hi
  have hret := find?_eventEntries h hnum (h.complete.returns i hi)
  have hbind : ∀ {α β : Type} (o : Option α) (f : α → I ⊕ O) (g : I ⊕ O → Option β),
      (o.bind fun x => g (f x)) = (o.map f).bind g := by
    intro α β o f g
    cases o <;> rfl
  simp only [opStep, inputOf, outputOf, eventStep]
  rw [hbind _ Entry.value, hbind _ Entry.value, hbind _ Event.value, hbind _ Event.value, ← hcall, ← hret]
  rfl

/-- Renumbering and converting changes nothing about linearizability. -/
theorem isLinearizable_eventEntries (h : EventsWellFormed events) (model : FullModel I O S) :
    IsLinearizable model (eventEntries events) ↔ EventsLinearizable model events := by
  obtain ⟨num, hnum⟩ := exists_renumbers events (fun _ => none) 0 numbered_none
  rw [IsLinearizable, marks_eventEntries hnum]
  exact linearizable_map_iff h.complete (distinct_of_renumbers hnum) fun i hi s =>
    opStep_eventEntries h hnum model hi s

end EventEntries

/-- `checkEvents` when its goroutines start. -/
def checkEvents [DecidableEq S] (model : Model I O S) (history : List (Event I O)) : Pool I O S :=
  let model := fillDefault model
  Pool.start model ((model.partitionEvent history).map eventEntries)

/-- The verdict on a history of events, with any ids and whatever the order of events in the checker. -/
theorem checkEvents_verdict [DecidableEq S] {model : Model I O S} (hE : Congruent (fillDefault model))
    {history : List (Event I O)}
    (hwf : ∀ events ∈ (fillDefault model).partitionEvent history, EventsWellFormed events)
    {computeInfo hasTimeout : Bool} {as : List PoolAction} {p : Pool I O S}
    (hr : Runs.Run (Pool.step (fillDefault model) computeInfo hasTimeout) Runs.Any
      (checkEvents model history) as p)
    {res : CheckResult} {info : List (List (List ℕ))} (hdone : p.phase = .done res info) :
    (res = .ok → ∀ events ∈ (fillDefault model).partitionEvent history,
        EventsLinearizable (fillDefault model) events) ∧
      (res = .illegal → ∃ events ∈ (fillDefault model).partitionEvent history,
        ¬ EventsLinearizable (fillDefault model) events) ∧
      (res = .unknown → hasTimeout = true) := by
  have hwf' : ∀ es ∈ ((fillDefault model).partitionEvent history).map eventEntries, WellFormed es := by
    intro es hes
    obtain ⟨events, hmem, rfl⟩ := List.mem_map.mp hes
    obtain ⟨num, hnum⟩ := exists_renumbers events (fun _ => none) 0 numbered_none
    exact wellFormed_eventEntries (hwf events hmem) hnum
  obtain ⟨hok, hillegal, hunknown⟩ := checkParallel_sound hE hwf' computeInfo hasTimeout hr hdone
  refine ⟨fun h events hmem => ?_, fun h => ?_, hunknown⟩
  · exact (isLinearizable_eventEntries (hwf events hmem) _).mp
      (hok h _ (List.mem_map_of_mem hmem))
  · obtain ⟨es, hes, hno⟩ := hillegal h
    obtain ⟨events, hmem, rfl⟩ := List.mem_map.mp hes
    exact ⟨events, hmem, fun hlin => hno ((isLinearizable_eventEntries (hwf events hmem) _).mpr hlin)⟩

/-- A put and a get with ids that are not small numbers. -/
theorem checkEvents_verdict_ids :
    let history : List (Event KvInput KvOutput) :=
      [⟨0, .callEvent, .inl ⟨1, "x", "1"⟩, 70⟩, ⟨1, .callEvent, .inl ⟨0, "x", ""⟩, -3⟩,
        ⟨1, .returnEvent, .inr ⟨"1"⟩, -3⟩, ⟨0, .returnEvent, .inr ⟨""⟩, 70⟩]
    ∃ as p info, Runs.Run (Pool.step (fillDefault kvModel) false false) Runs.Any
        (checkEvents kvModel history) as p ∧ p.phase = .done .ok info ∧
      EventsLinearizable (fillDefault kvModel) history := by
  intro history
  obtain ⟨p, hr, hp⟩ := Runs.exists_run (Pool.step (fillDefault kvModel) false false) Runs.Any
    (checkEvents kvModel history) (List.replicate 4 (.worker 0) ++ [.receive, .finish []])
    (Pool.hasResult .ok) (by decide +kernel)
  obtain ⟨info, hdone⟩ := Pool.hasResult_iff.mp hp
  exact ⟨_, p, info, hr, hdone, (checkEvents_verdict (congruent_fillDefault rfl) (by decide) hr hdone).1
    rfl history (by simp [fillDefault, kvModel, noPartitionEvent])⟩

end GoServices.Porcupine
