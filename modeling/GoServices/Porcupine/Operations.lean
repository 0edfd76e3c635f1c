import GoServices.Porcupine.Parallel
import GoServices.Schemes.Locality

/-! Histories given as operations with times of call and return (`makeEntries`,
    `checkOperations`).

    The entries are sorted by time, calls before returns at the same time, with an algorithm that is
    free to order the rest. A history of entries is linearizable exactly if the operations are. -/

namespace GoServices.Porcupine

open Histories

variable {I O S : Type}

/-- `byTime.Less`. -/
def less (a b : Entry I O) : Bool :=
  if a.time ≠ b.time then a.time < b.time else a.kind = .callEntry && b.kind = .returnEntry

theorem not_less_iff {a b : Entry I O} : less b a = false ↔
    a.time < b.time ∨ a.time = b.time ∧ (a.kind = .callEntry ∨ b.kind = .returnEntry) := by
  rcases lt_trichotomy a.time b.time with h | h | h
  · simp [less, h.ne', h.le, h]
  · cases ha : a.kind <;> cases hb : b.kind <;> simp [less, h, ha, hb]
  · simp [less, h.ne, h, h.not_gt, h.ne']

theorem not_less_total (a b : Entry I O) : less b a = false ∨ less a b = false := by
  rw [not_less_iff, not_less_iff]
  cases ha : a.kind <;> grind

theorem not_less_trans {a b c : Entry I O} (hab : less b a = false) (hbc : less c b = false) :
    less c a = false := by
  rw [not_less_iff] at hab hbc ⊢
  cases hb : b.kind <;> grind

/-- `sort.Sort(byTime(...))`: nothing is less than what stands before it. -/
structure Sorter (I O : Type) where
  sort : List (Entry I O) → List (Entry I O)
  perm : ∀ es, (sort es).Perm es
  sorted : ∀ es, (sort es).Pairwise fun a b => less b a = false

/-- An instance, to run the checker with. -/
def insertionSorter (I O : Type) : Sorter I O where
  sort es := es.insertionSort fun a b => less b a = false
  perm es := List.perm_insertionSort _ es
  sorted es :=
    haveI : Std.Total fun a b : Entry I O => less b a = false := ⟨not_less_total⟩
    haveI : IsTrans (Entry I O) fun a b => less b a = false := ⟨fun _ _ _ => not_less_trans⟩
    List.pairwise_insertionSort _ es

/-- The entry for the call of an operation. -/
def Operation.callEntry (op : Operation I O) (id : ℕ) : Entry I O :=
  ⟨.callEntry, .inl op.input, id, op.call, op.clientId⟩

/-- The entry for the return of an operation. -/
def Operation.returnEntry (op : Operation I O) (id : ℕ) : Entry I O :=
  ⟨.returnEntry, .inr op.output, id, op.ret, op.clientId⟩

/-- The loop of `makeEntries`. -/
def entriesFrom : ℕ → List (Operation I O) → List (Entry I O)
  | _, [] => []
  | id, elem :: history => elem.callEntry id :: elem.returnEntry id :: entriesFrom (id + 1) history

/-- The entries of all operations, sorted by time. -/
def makeEntries (sorter : Sorter I O) (history : List (Operation I O)) : List (Entry I O) :=
  sorter.sort (entriesFrom 0 history)

/-- What the model says about an operation. -/
def Operation.step (model : FullModel I O S) (s : S) (op : Operation I O) : Option S :=
  if (model.step s op.input op.output).1 then some (model.step s op.input op.output).2 else none

/-- The operations have an order that the model accepts and that agrees with their times. -/
def OpsLinearizable (model : FullModel I O S) (ops : List (Operation I O)) : Prop :=
  Locality.Linearizable Operation.call Operation.ret (Operation.step model) model.init ops

@[simp] theorem mark_callEntry (op : Operation I O) (id : ℕ) : (op.callEntry id).mark = .call id := rfl

@[simp] theorem mark_returnEntry (op : Operation I O) (id : ℕ) : (op.returnEntry id).mark = .ret id := rfl

theorem mem_entriesFrom {e : Entry I O} {id : ℕ} {ops : List (Operation I O)} :
    e ∈ entriesFrom id ops ↔ ∃ (k : ℕ) (op : Operation I O), ops[k]? = some op ∧
      (e = op.callEntry (id + k) ∨ e = op.returnEntry (id + k)) := by
  induction ops generalizing id with
  | nil => simp [entriesFrom]
  | cons op ops ih =>
    simp only [entriesFrom, List.mem_cons, ih]
    constructor
    · rintro (rfl | rfl | ⟨k, op', hk, he⟩)
      · exact ⟨0, op, rfl, .inl rfl⟩
      · exact ⟨0, op, rfl, .inr rfl⟩
      · exact ⟨k + 1, op', hk, by rwa [show id + (k + 1) = id + 1 + k by omega]⟩
    · rintro ⟨k, op', hk, he⟩
      cases k with
      | zero =>
        obtain rfl : op = op' := by simpa using hk
        exact he.elim .inl fun h => .inr (.inl h)
      | succ k =>
        exact .inr (.inr ⟨k, op', hk, by rwa [show id + 1 + k = id + (k + 1) by omega]⟩)

theorem length_entriesFrom (id : ℕ) (ops : List (Operation I O)) :
    (entriesFrom id ops).length = 2 * ops.length := by
  induction ops generalizing id with
  | nil => rfl
  | cons op ops ih =>
    simp only [entriesFrom, List.length_cons, ih]
    omega

theorem nodup_entriesFrom (id : ℕ) (ops : List (Operation I O)) :
    ((entriesFrom id ops).map Entry.mark).Nodup := by
  induction ops generalizing id with
  | nil => simp [entriesFrom]
  | cons op ops ih =>
    have hlater : ∀ x ∈ (entriesFrom (id + 1) ops).map Entry.mark, id < x.op := by
      intro x hx
      obtain ⟨e, he, rfl⟩ := List.mem_map.mp hx
      obtain ⟨k, op', -, rfl | rfl⟩ := mem_entriesFrom.mp he
      · simp only [mark_callEntry, Mark.op_call]
        omega
      · simp only [mark_returnEntry, Mark.op_ret]
        omega
    simp only [entriesFrom, List.map_cons, mark_callEntry, mark_returnEntry, List.nodup_cons,
      List.mem_cons, not_or]
    refine ⟨⟨by simp, fun hmem => ?_⟩, fun hmem => ?_, ih (id + 1)⟩
    · exact absurd (hlater _ hmem) (by simp)
    · exact absurd (hlater _ hmem) (by simp)

section MakeEntries

variable (sorter : Sorter I O) {ops : List (Operation I O)}

theorem mem_makeEntries {e : Entry I O} : e ∈ makeEntries sorter ops ↔
    ∃ (k : ℕ) (op : Operation I O), ops[k]? = some op ∧
      (e = op.callEntry k ∨ e = op.returnEntry k) := by
  rw [makeEntries, (sorter.perm _).mem_iff, mem_entriesFrom]
  simp

theorem call_mem_makeEntries {i : ℕ} :
    Mark.call i ∈ (makeEntries sorter ops).map Entry.mark ↔ i < ops.length := by
  simp only [List.mem_map, mem_makeEntries]
  constructor
  · rintro ⟨e, ⟨k, op, hk, rfl | rfl⟩, he⟩
    · obtain rfl : k = i := Mark.call.inj he
      exact (List.getElem?_eq_some_iff.mp hk).1
    · cases he
  · intro hi
    exact ⟨ops[i].callEntry i, ⟨i, ops[i], List.getElem?_eq_getElem hi, .inl rfl⟩, rfl⟩

theorem ret_mem_makeEntries {i : ℕ} :
    Mark.ret i ∈ (makeEntries sorter ops).map Entry.mark ↔ i < ops.length := by
  simp only [List.mem_map, mem_makeEntries]
  constructor
  · rintro ⟨e, ⟨k, op, hk, rfl | rfl⟩, he⟩
    · cases he
    · obtain rfl : k = i := Mark.ret.inj he
      exact (List.getElem?_eq_some_iff.mp hk).1
  · intro hi
    exact ⟨ops[i].returnEntry i, ⟨i, ops[i], List.getElem?_eq_getElem hi, .inr rfl⟩, rfl⟩

theorem nodup_makeEntries : ((makeEntries sorter ops).map Entry.mark).Nodup :=
  ((sorter.perm _).map _).nodup_iff.mpr (nodup_entriesFrom 0 ops)

/-- Of two entries the one that stands in front is not later. -/
theorem less_of_cut {pre post : List (Mark ℕ)} {x y : Mark ℕ}
    (hcut : (makeEntries sorter ops).map Entry.mark = pre ++ y :: post) (hx : x ∈ pre) :
    ∃ a ∈ makeEntries sorter ops, ∃ b ∈ makeEntries sorter ops, a.mark = x ∧ b.mark = y ∧
      less b a = false := by
  obtain ⟨es₁, es₂, hes, rfl, hpost⟩ := List.map_eq_append_iff.mp hcut
  obtain ⟨b, es₃, rfl, rfl, -⟩ := List.map_eq_cons_iff.mp hpost
  obtain ⟨a, ha, rfl⟩ := List.mem_map.mp hx
  have hsorted := sorter.sorted (entriesFrom 0 ops)
  rw [show sorter.sort (entriesFrom 0 ops) = es₁ ++ b :: es₃ from hes, List.pairwise_append]
    at hsorted
  refine ⟨a, by rw [hes]; simp [ha], b, by rw [hes]; simp, rfl, rfl, hsorted.2.2 a ha b (by simp)⟩

theorem entry_of_mark {e : Entry I O} (he : e ∈ makeEntries sorter ops) {i : ℕ} :
    (e.mark = .call i → ∃ op, ops[i]? = some op ∧ e = op.callEntry i) ∧
      (e.mark = .ret i → ∃ op, ops[i]? = some op ∧ e = op.returnEntry i) := by
  obtain ⟨k, op, hk, rfl | rfl⟩ := (mem_makeEntries sorter).mp he
  · refine ⟨fun h => ?_, fun h => by cases h⟩
    obtain rfl : k = i := Mark.call.inj h
    exact ⟨op, hk, rfl⟩
  · refine ⟨fun h => (by cases h), fun h => ?_⟩
    obtain rfl : k = i := Mark.ret.inj h
    exact ⟨op, hk, rfl⟩

/-- Real time: `i` returns in front of the call of `j` exactly if its time of return is smaller. -/
theorem precedes_iff {i j : ℕ} {a b : Operation I O} (hi : ops[i]? = some a) (hj : ops[j]? = some b) :
    Precedes ((makeEntries sorter ops).map Entry.mark) i j ↔ a.ret < b.call := by
  have hilt : i < ops.length := (List.getElem?_eq_some_iff.mp hi).1
  have hjlt : j < ops.length := (List.getElem?_eq_some_iff.mp hj).1
  constructor
  · rintro ⟨pre, post, hcut, hmem⟩
    obtain ⟨x, hx, y, hy, hmx, hmy, hless⟩ := less_of_cut sorter hcut hmem
    obtain ⟨a', ha', rfl⟩ := (entry_of_mark sorter hx).2 hmx
    obtain ⟨b', hb', rfl⟩ := (entry_of_mark sorter hy).1 hmy
    obtain rfl : a = a' := Option.some.inj (hi.symm.trans ha')
    obtain rfl : b = b' := Option.some.inj (hj.symm.trans hb')
    -- at the same time the call would be less
    by_cases heq : b.call = a.ret
    · simp [less, Operation.callEntry, Operation.returnEntry, heq] at hless
    · simp only [less, Operation.callEntry, Operation.returnEntry, ne_eq, heq, not_false_eq_true,
        if_true] at hless
      have := of_decide_eq_false hless
      omega
  · intro hlt
    obtain ⟨pre, post, hcut⟩ := List.append_of_mem ((call_mem_makeEntries sorter).mpr hjlt)
    refine ⟨pre, post, hcut, ?_⟩
    have hret := (ret_mem_makeEntries sorter).mpr hilt
    rw [hcut, List.mem_append, List.mem_cons] at hret
    rcases hret with h | h | h
    · exact h
    · cases h
    · -- the return does not come later
      obtain ⟨mid, post', rfl⟩ := List.append_of_mem h
      obtain ⟨x, hx, y, hy, hmx, hmy, hless⟩ := less_of_cut sorter
        (show _ = (pre ++ .call j :: mid) ++ .ret i :: post' by rw [hcut]; simp)
        (show Mark.call j ∈ _ by simp)
      obtain ⟨b', hb', rfl⟩ := (entry_of_mark sorter hx).1 hmx
      obtain ⟨a', ha', rfl⟩ := (entry_of_mark sorter hy).2 hmy
      obtain rfl : a = a' := Option.some.inj (hi.symm.trans ha')
      obtain rfl : b = b' := Option.some.inj (hj.symm.trans hb')
      have hne : a.ret ≠ b.call := by omega
      simp only [less, Operation.callEntry, Operation.returnEntry, ne_eq, hne, not_false_eq_true,
        if_true] at hless
      have := of_decide_eq_false hless
      omega

theorem wellFormed_makeEntries (htime : ∀ op ∈ ops, op.call ≤ op.ret) :
    WellFormed (makeEntries sorter ops) := by
  refine ⟨⟨nodup_makeEntries sorter, fun i hi => ?_, fun pre i post hcut => ?_⟩, fun e he => ?_,
    fun e he hk => ?_, fun e he hk => ?_⟩
  · exact (ret_mem_makeEntries sorter).mpr ((call_mem_makeEntries sorter).mp hi)
  · have hlt : i < ops.length := (ret_mem_makeEntries sorter).mp (by rw [hcut]; simp)
    have hcall := (call_mem_makeEntries sorter).mpr hlt
    rw [hcut, List.mem_append, List.mem_cons] at hcall
    rcases hcall with h | h | h
    · exact h
    · cases h
    · obtain ⟨mid, post', rfl⟩ := List.append_of_mem h
      have hprec : Precedes ((makeEntries sorter ops).map Entry.mark) i i :=
        ⟨pre ++ .ret i :: mid, post', by rw [hcut]; simp, by simp⟩
      have hi := List.getElem?_eq_getElem hlt
      have := htime _ (List.getElem_mem hlt)
      rw [precedes_iff sorter hi hi] at hprec
      omega
  · rw [makeEntries, (sorter.perm _).length_eq, length_entriesFrom]
    obtain ⟨k, op, hk, rfl | rfl⟩ := (mem_makeEntries sorter).mp he
    · have := (List.getElem?_eq_some_iff.mp hk).1
      simp only [Operation.callEntry]
      omega
    · have := (List.getElem?_eq_some_iff.mp hk).1
      simp only [Operation.returnEntry]
      omega
  · obtain ⟨k, op, -, rfl | rfl⟩ := (mem_makeEntries sorter).mp he
    · rfl
    · cases hk
  · obtain ⟨k, op, -, rfl | rfl⟩ := (mem_makeEntries sorter).mp he
    · cases hk
    · rfl

theorem opStep_makeEntries (htime : ∀ op ∈ ops, op.call ≤ op.ret) (model : FullModel I O S) (s : S)
    {i : ℕ} {op : Operation I O} (hi : ops[i]? = some op) :
    opStep model (makeEntries sorter ops) s i = op.step model s := by
  have hwf := wellFormed_makeEntries sorter htime
  have hcall : inputOf (makeEntries sorter ops) i = some op.input := by
    have hmem := (mem_makeEntries sorter).mpr ⟨i, op, hi, .inl rfl⟩
    rw [inputOf, ← mark_callEntry op i, hwf.complete.find?_eq hmem]
    rfl
  have hret : outputOf (makeEntries sorter ops) i = some op.output := by
    have hmem := (mem_makeEntries sorter).mpr ⟨i, op, hi, .inr rfl⟩
    rw [outputOf, ← mark_returnEntry op i, hwf.complete.find?_eq hmem]
    rfl
  simp [opStep, hcall, hret, Operation.step]

/-- An order of places stands for an order of the operations there. -/
def Denotes (ops : List (Operation I O)) (order : List ℕ) (order' : List (Operation I O)) : Prop :=
  List.Forall₂ (fun i op => ops[i]? = some op) order order'

theorem denotes_range (ops : List (Operation I O)) : Denotes ops (List.range ops.length) ops :=
  List.forall₂_iff_get.mpr ⟨by simp, fun i h₁ h₂ => by simp⟩

theorem forall_mem_iff_of_denotes {order : List ℕ} {order' : List (Operation I O)}
    (h : Denotes ops order order') {p : ℕ → Prop} {q : Operation I O → Prop}
    (hpq : ∀ i op, ops[i]? = some op → (p i ↔ q op)) : (∀ i ∈ order, p i) ↔ ∀ op ∈ order', q op := by
  induction h with
  | nil => simp
  | cons hi _ ih => simp only [List.forall_mem_cons, hpq _ _ hi, ih]

theorem realTime_iff_of_denotes {order : List ℕ} {order' : List (Operation I O)}
    (h : Denotes ops order order') :
    (order.Pairwise fun i j => ¬ Precedes ((makeEntries sorter ops).map Entry.mark) j i) ↔
      Locality.InOrder Operation.call Operation.ret order' := by
  induction h with
  | nil => simp [Locality.InOrder]
  | cons hi h ih =>
    rw [Locality.InOrder, List.pairwise_cons, List.pairwise_cons, ih]
    refine and_congr_left' (forall_mem_iff_of_denotes h fun j op hj => ?_)
    rw [precedes_iff sorter hj hi]

theorem foldlM_of_denotes (htime : ∀ op ∈ ops, op.call ≤ op.ret) (model : FullModel I O S)
    {order : List ℕ} {order' : List (Operation I O)} (h : Denotes ops order order') (s : S) :
    order.foldlM (opStep model (makeEntries sorter ops)) s =
      order'.foldlM (Operation.step model) s := by
  induction h generalizing s with
  | nil => rfl
  | cons hi _ ih => simp only [List.foldlM_cons, opStep_makeEntries sorter htime model s hi, ih]

/-- The entries that are made of operations are linearizable exactly if the operations are. -/
theorem isLinearizable_makeEntries (htime : ∀ op ∈ ops, op.call ≤ op.ret) (model : FullModel I O S) :
    IsLinearizable model (makeEntries sorter ops) ↔ OpsLinearizable model ops := by
  constructor
  · rintro ⟨order, hnodup, hmem, hreal, hlegal⟩
    have hperm : order.Perm (List.range ops.length) :=
      (List.perm_ext_iff_of_nodup hnodup List.nodup_range).mpr fun i => by
        rw [hmem, call_mem_makeEntries, List.mem_range]
    obtain ⟨order', hden, hperm'⟩ := List.perm_comp_forall₂ hperm (denotes_range ops)
    refine ⟨order', hperm', (realTime_iff_of_denotes sorter hden).mp hreal, ?_⟩
    rwa [← foldlM_of_denotes sorter htime model hden]
  · rintro ⟨order', hperm', hreal, hlegal⟩
    obtain ⟨order, hflip, hperm⟩ := List.perm_comp_forall₂ hperm' (denotes_range ops).flip
    have hden : Denotes ops order order' := hflip.flip
    refine ⟨order, hperm.nodup_iff.mpr List.nodup_range, fun i => ?_,
      (realTime_iff_of_denotes sorter hden).mpr hreal, ?_⟩
    · rw [hperm.mem_iff, call_mem_makeEntries, List.mem_range]
    · rwa [foldlM_of_denotes sorter htime model hden]

end MakeEntries

/-- `checkOperations` when its goroutines start. -/
def checkOperations [DecidableEq S] (sorter : Sorter I O) (model : Model I O S)
    (history : List (Operation I O)) : Pool I O S :=
  let model := fillDefault model
  Pool.start model ((model.partition history).map (makeEntries sorter))

section CheckOperations

variable [DecidableEq S] (sorter : Sorter I O) {model : Model I O S} {history : List (Operation I O)}

theorem wellFormed_partitions (htime : ∀ ops ∈ (fillDefault model).partition history,
    ∀ op ∈ ops, op.call ≤ op.ret) :
    ∀ es ∈ ((fillDefault model).partition history).map (makeEntries sorter), WellFormed es := by
  intro es hes
  obtain ⟨ops, hops, rfl⟩ := List.mem_map.mp hes
  exact wellFormed_makeEntries sorter (htime ops hops)

theorem forall_isLinearizable_iff
    (htime : ∀ ops ∈ (fillDefault model).partition history, ∀ op ∈ ops, op.call ≤ op.ret) :
    (∀ es ∈ ((fillDefault model).partition history).map (makeEntries sorter),
        IsLinearizable (fillDefault model) es) ↔
      ∀ ops ∈ (fillDefault model).partition history, OpsLinearizable (fillDefault model) ops := by
  rw [List.forall_mem_map]
  exact forall₂_congr fun ops hops => isLinearizable_makeEntries sorter (htime ops hops) _

/-- The result, whatever the order of events. -/
theorem result_of_run (hE : Congruent (fillDefault model))
    (htime : ∀ ops ∈ (fillDefault model).partition history, ∀ op ∈ ops, op.call ≤ op.ret)
    {computeInfo hasTimeout : Bool} {as : List PoolAction} {p : Pool I O S}
    (hr : Runs.Run (Pool.step (fillDefault model) computeInfo hasTimeout) Runs.Any
      (checkOperations sorter model history) as p)
    {res : CheckResult} {info : List (List (List ℕ))} (hdone : p.phase = .done res info) :
    (res = .ok → ∀ ops ∈ (fillDefault model).partition history,
        OpsLinearizable (fillDefault model) ops) ∧
      (res = .illegal → ¬ ∀ ops ∈ (fillDefault model).partition history,
        OpsLinearizable (fillDefault model) ops) ∧
      (res = .unknown → hasTimeout = true) := by
  obtain ⟨hok, hillegal, hunknown⟩ := checkParallel_sound hE (wellFormed_partitions sorter htime)
    computeInfo hasTimeout hr hdone
  rw [← forall_isLinearizable_iff sorter htime]
  refine ⟨hok, fun h hall => ?_, hunknown⟩
  obtain ⟨es, hes, hno⟩ := hillegal h
  exact hno (hall es hes)

end CheckOperations

end GoServices.Porcupine
