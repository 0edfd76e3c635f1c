import Mathlib.Data.List.Basic
import Mathlib.Data.List.Nodup

/-! Histories of concurrent operations and their linearizations.

    A history is the list of the calls and returns of operations in the order of time. An operation
    can be put next into a sequential order if no other operation that is left has returned before
    it was called. The orders that can be built up in this way, one operation after the other, are
    exactly the linearizations. -/

namespace GoServices.Histories

/-- The call of an operation or its return. -/
inductive Mark (ι : Type) where
  | call (i : ι)
  | ret (i : ι)
  deriving DecidableEq

namespace Mark

variable {ι : Type}

/-- The operation of a mark. -/
def op : Mark ι → ι
  | call i => i
  | ret i => i

/-- Whether a mark is a call. -/
def isCall : Mark ι → Bool
  | call _ => true
  | ret _ => false

@[simp] theorem op_call (i : ι) : (call i).op = i := rfl

@[simp] theorem op_ret (i : ι) : (ret i).op = i := rfl

@[simp] theorem isCall_call (i : ι) : (call i).isCall = true := rfl

@[simp] theorem isCall_ret (i : ι) : (ret i).isCall = false := rfl

end Mark

open Mark

variable {ι S : Type} [DecidableEq ι]

/-- What is left of a history without the operations `c`. -/
def without (c : List ι) (ms : List (Mark ι)) : List (Mark ι) := ms.filter fun x => x.op ∉ c

/-- Operation `i` returns before `j` is called. -/
def Precedes (ms : List (Mark ι)) (i j : ι) : Prop :=
  ∃ pre post, ms = pre ++ call j :: post ∧ ret i ∈ pre

/-- Operation `i` is called before anything returns. -/
def Ready (ms : List (Mark ι)) (i : ι) : Prop :=
  ∃ pre post, ms = pre ++ call i :: post ∧ ∀ x ∈ pre, x.isCall = true

/-- Every operation is called once, and returns once after that. -/
structure Complete (ms : List (Mark ι)) : Prop where
  nodup : ms.Nodup
  returns : ∀ i, call i ∈ ms → ret i ∈ ms
  called : ∀ pre i post, ms = pre ++ ret i :: post → call i ∈ pre

omit [DecidableEq ι] in
/-- Completeness place by place. -/
theorem complete_iff {ms : List (Mark ι)} :
    Complete ms ↔ ms.Nodup ∧ (∀ x ∈ ms, ret x.op ∈ ms) ∧
      ∀ k < ms.length, ∀ x ∈ ms[k]?, x.isCall = false → call x.op ∈ ms.take k := by
  constructor
  · intro h
    refine ⟨h.nodup, fun x hx => ?_, fun k hk x hx hret => ?_⟩
    · cases x with
      | call i => exact h.returns i hx
      | ret i => exact hx
    · obtain ⟨hlt, rfl⟩ := List.getElem?_eq_some_iff.mp hx
      cases hm : ms[k] with
      | call i => simp [hm] at hret
      | ret i => exact h.called _ i (ms.drop (k + 1)) (by
          rw [← hm, List.getElem_cons_drop, List.take_append_drop])
  · rintro ⟨hnd, hret, hcall⟩
    refine ⟨hnd, fun i hi => hret _ hi, fun pre i post hcut => ?_⟩
    have := hcall pre.length (by simp [hcut]) (ret i) (by simp [hcut]) rfl
    simpa [hcut] using this

instance (ms : List (Mark ι)) : Decidable (Complete ms) := decidable_of_iff _ complete_iff.symm

/-- Things that carry the marks of a complete history are found by their marks. -/
theorem Complete.find?_eq {α : Type} {mark : α → Mark ι} {l : List α} (hc : Complete (l.map mark)) {x : α}
    (hx : x ∈ l) : l.find? (fun y => mark y = mark x) = some x := by
  cases hf : l.find? fun y => mark y = mark x with
  | none =>
    have := List.find?_eq_none.mp hf x hx
    simp at this
  | some y =>
    have hmark : mark y = mark x := by simpa using List.find?_some hf
    rw [List.inj_on_of_nodup_map hc.nodup (List.mem_of_find?_eq_some hf) hx hmark]

section Without

variable {ms : List (Mark ι)} {c : List ι} {i j : ι}

@[simp] theorem mem_without {x : Mark ι} : x ∈ without c ms ↔ x ∈ ms ∧ x.op ∉ c := by
  simp [without]

@[simp] theorem without_nil (ms : List (Mark ι)) : without [] ms = ms := by simp [without]

theorem without_append (c d : List ι) (ms : List (Mark ι)) :
    without (c ++ d) ms = without d (without c ms) := by
  simp only [without, List.filter_filter, List.mem_append, not_or, Bool.decide_and]
  congr 1
  funext x
  exact Bool.and_comm _ _

theorem without_cons (i : ι) (c : List ι) (ms : List (Mark ι)) :
    without (i :: c) ms = without c (without [i] ms) := without_append [i] c ms

theorem without_congr {d : List ι} (h : ∀ i, i ∈ c ↔ i ∈ d) (ms : List (Mark ι)) :
    without c ms = without d ms := by simp [without, h]

/-- A cut of what is left is a cut of the whole history. -/
theorem exists_of_without_eq {pre post : List (Mark ι)} {x : Mark ι}
    (h : without c ms = pre ++ x :: post) :
    ∃ pre' post', ms = pre' ++ x :: post' ∧ pre = without c pre' := by
  obtain ⟨l₁, l₂, rfl, h₁, h₂⟩ := List.filter_eq_append_iff.mp h
  obtain ⟨l₃, l₄, rfl, h₃, -, -⟩ := List.filter_eq_cons_iff.mp h₂
  refine ⟨l₁ ++ l₃, l₄, by simp, ?_⟩
  rw [without, List.filter_append, h₁]
  simpa using h₃

theorem Complete.without (h : Complete ms) (c : List ι) : Complete (without c ms) := by
  refine ⟨h.nodup.filter _, fun i hi => ?_, fun pre i post hcut => ?_⟩
  · rw [mem_without] at hi ⊢
    exact ⟨h.returns i hi.1, hi.2⟩
  · have hi : ret i ∈ Histories.without c ms := by rw [hcut]; simp
    obtain ⟨pre', post', hms, rfl⟩ := exists_of_without_eq hcut
    rw [mem_without]
    exact ⟨h.called pre' i post' hms, (mem_without.mp hi).2⟩

theorem Precedes.of_without (h : Precedes (without c ms) i j) : Precedes ms i j := by
  obtain ⟨pre, post, hcut, hi⟩ := h
  obtain ⟨pre', post', hms, rfl⟩ := exists_of_without_eq hcut
  exact ⟨pre', post', hms, (mem_without.mp hi).1⟩

theorem Precedes.without (h : Precedes ms i j) (hi : i ∉ c) (hj : j ∉ c) :
    Precedes (without c ms) i j := by
  obtain ⟨pre, post, rfl, hmem⟩ := h
  refine ⟨Histories.without c pre, Histories.without c post, ?_, by simp [hmem, hi]⟩
  simp [Histories.without, List.filter_append, hj]

omit [DecidableEq ι] in
/-- The cut at an element is unique. -/
theorem append_cons_inj {x : Mark ι} {pre post pre' post' : List (Mark ι)}
    (hnd : (pre ++ x :: post).Nodup) (h : pre ++ x :: post = pre' ++ x :: post') :
    pre = pre' ∧ post = post' := by
  obtain ⟨s, rfl, hs⟩ | ⟨s, rfl, hs⟩ := List.append_eq_append_iff.mp h
  · cases s with
    | nil => simpa using hs
    | cons y s =>
      obtain ⟨rfl, rfl⟩ := List.cons.inj hs
      simp [List.nodup_append] at hnd
  · cases s with
    | nil => simpa using hs.symm
    | cons y s =>
      obtain ⟨rfl, rfl⟩ := List.cons.inj hs
      simp [List.nodup_append] at hnd

omit [DecidableEq ι] in
/-- Nothing returns before an operation that is ready is called. -/
theorem Ready.not_precedes (hr : Ready ms j) (hnd : ms.Nodup) : ¬ Precedes ms i j := by
  obtain ⟨pre, post, rfl, hcalls⟩ := hr
  rintro ⟨pre', post', hcut, hi⟩
  obtain ⟨rfl, -⟩ := append_cons_inj hnd hcut
  simpa using hcalls _ hi

omit [DecidableEq ι] in
theorem ready_of_not_precedes (hj : call j ∈ ms) (h : ∀ i, ¬ Precedes ms i j) : Ready ms j := by
  obtain ⟨pre, post, rfl⟩ := List.append_of_mem hj
  refine ⟨pre, post, rfl, fun x hx => ?_⟩
  cases x with
  | call i => rfl
  | ret i => exact absurd ⟨pre, post, rfl, hx⟩ (h i)

omit [DecidableEq ι] in
theorem Ready.call_mem (hr : Ready ms j) : call j ∈ ms := by
  obtain ⟨pre, post, rfl, -⟩ := hr
  simp

omit [DecidableEq ι] in
/-- What is ready is called before the first return. -/
theorem Ready.call_mem_of_eq {pre post : List (Mark ι)} (hr : Ready (pre ++ ret i :: post) j) :
    call j ∈ pre := by
  obtain ⟨pre', post', hcut, hcalls⟩ := hr
  obtain ⟨s, rfl, hs⟩ | ⟨s, rfl, hs⟩ := List.append_eq_append_iff.mp hcut
  · cases s with
    | nil => simp at hs
    | cons y s =>
      obtain ⟨rfl, -⟩ := List.cons.inj hs
      simpa using hcalls (ret i) (by simp)
  · cases s with
    | nil => simp at hs
    | cons y s =>
      obtain ⟨rfl, -⟩ := List.cons.inj hs
      simp

omit [DecidableEq ι] in
/-- No operation returns before it is called. -/
theorem Complete.not_precedes_self (h : Complete ms) : ¬ Precedes ms i i := by
  rintro ⟨pre, post, rfl, hi⟩
  obtain ⟨a, b, rfl⟩ := List.append_of_mem hi
  have hc := h.called a i (b ++ call i :: post) (by simp)
  have hnd := h.nodup
  simp only [List.append_assoc, List.nodup_append] at hnd
  exact hnd.2.2 (call i) hc (call i) (by simp) rfl

end Without

section Orders

variable (step : S → ι → Option S)

/-- Put operations into order one by one: from a history and a state to what is left of the history
    and the state after them. -/
inductive Steps : List (Mark ι) → S → List ι → List (Mark ι) → S → Prop where
  | nil (ms : List (Mark ι)) (s : S) : Steps ms s [] ms s
  | cons {ms : List (Mark ι)} {s s' : S} {i : ι} {order : List ι} {ms' : List (Mark ι)} {t : S}
      (hr : Ready ms i) (hs : step s i = some s') (h : Steps (without [i] ms) s' order ms' t) :
      Steps ms s (i :: order) ms' t

/-- All operations can be put into order. -/
def Finishes (ms : List (Mark ι)) (s : S) : Prop := ∃ order t, Steps step ms s order [] t

/-- A sequence of distinct operations that the state accepts, in which each operation comes after
    all those that returned before it was called. -/
structure IsPartialLinearization (ms : List (Mark ι)) (s : S) (order : List ι) : Prop where
  nodup : order.Nodup
  called : ∀ i ∈ order, call i ∈ ms
  closed : ∀ a j b, order = a ++ j :: b → ∀ i, Precedes ms i j → i ∈ a
  legal : (order.foldlM step s).isSome

/-- An order of all operations that the state accepts and that never contradicts real time. -/
structure IsLinearization (ms : List (Mark ι)) (s : S) (order : List ι) : Prop where
  nodup : order.Nodup
  mem_iff : ∀ i, i ∈ order ↔ call i ∈ ms
  realTime : order.Pairwise fun i j => ¬ Precedes ms j i
  legal : (order.foldlM step s).isSome

/-- The history has a linearization. -/
def Linearizable (ms : List (Mark ι)) (s : S) : Prop := ∃ order, IsLinearization step ms s order

variable {step} {ms ms' : List (Mark ι)} {s t : S} {order : List ι}

theorem Steps.left (h : Steps step ms s order ms' t) : ms' = without order ms := by
  induction h with
  | nil ms s => simp
  | cons _ _ _ ih => rw [ih, ← without_cons]

theorem Steps.legal (h : Steps step ms s order ms' t) : order.foldlM step s = some t := by
  induction h with
  | nil ms s => rfl
  | cons _ hs _ ih => rw [List.foldlM_cons, hs, Option.bind_eq_bind, Option.bind_some, ih]

theorem Steps.append {order' : List ι} {ms'' : List (Mark ι)} {u : S}
    (h : Steps step ms s order ms' t) (h' : Steps step ms' t order' ms'' u) :
    Steps step ms s (order ++ order') ms'' u := by
  induction h with
  | nil ms s => exact h'
  | cons hr hs _ ih => exact .cons hr hs (ih h')

theorem Steps.concat {i : ι} {u : S} (h : Steps step ms s order ms' t) (hr : Ready ms' i)
    (hs : step t i = some u) : Steps step ms s (order ++ [i]) (without [i] ms') u :=
  h.append (.cons hr hs (.nil _ _))

theorem isPartialLinearization_of_steps (hc : Complete ms) (h : Steps step ms s order ms' t) :
    IsPartialLinearization step ms s order := by
  have hlegal : (order.foldlM step s).isSome := by rw [h.legal]; rfl
  induction h with
  | nil ms s => exact ⟨List.nodup_nil, by simp, by simp, hlegal⟩
  | @cons ms s s' i order ms' t hr hs h ih =>
    obtain ⟨hnd, hcalled, hclosed, -⟩ := ih (hc.without [i]) (by rw [h.legal]; rfl)
    refine ⟨List.nodup_cons.mpr ⟨fun hi => ?_, hnd⟩, fun j hj => ?_, fun a j b hcut k hk => ?_, hlegal⟩
    · simpa using hcalled i hi
    · obtain rfl | hj := List.mem_cons.mp hj
      · exact hr.call_mem
      · exact (mem_without.mp (hcalled j hj)).1
    · cases a with
      | nil =>
        obtain ⟨rfl, -⟩ := List.cons.inj hcut
        exact absurd hk (hr.not_precedes hc.nodup)
      | cons x a =>
        obtain ⟨rfl, rfl⟩ := List.cons.inj hcut
        have hj := hcalled j (by simp)
        by_cases hki : k = i
        · exact hki ▸ List.mem_cons_self
        · refine List.mem_cons_of_mem _ (hclosed a j b rfl k (hk.without (by simpa using hki) ?_))
          exact (mem_without.mp hj).2

theorem steps_of_isPartialLinearization (hc : Complete ms)
    (h : IsPartialLinearization step ms s order) :
    ∃ t, Steps step ms s order (without order ms) t := by
  induction order generalizing ms s with
  | nil => exact ⟨s, by rw [without_nil]; exact .nil ms s⟩
  | cons i order ih =>
    obtain ⟨hnd, hcalled, hclosed, hlegal⟩ := h
    have hr : Ready ms i := ready_of_not_precedes (hcalled i List.mem_cons_self)
      fun k hk => List.not_mem_nil (hclosed [] i order rfl k hk)
    rw [List.foldlM_cons] at hlegal
    obtain ⟨s', hs⟩ : ∃ s', step s i = some s' := by
      cases hs : step s i with
      | none => rw [hs] at hlegal; exact absurd hlegal (by simp)
      | some s' => exact ⟨s', rfl⟩
    rw [hs] at hlegal
    have hrest : IsPartialLinearization step (without [i] ms) s' order := by
      refine ⟨(List.nodup_cons.mp hnd).2, fun j hj => ?_, fun a j b hcut k hk => ?_, hlegal⟩
      · rw [mem_without]
        refine ⟨hcalled j (List.mem_cons_of_mem i hj), fun hji => ?_⟩
        obtain rfl : j = i := by simpa using hji
        exact (List.nodup_cons.mp hnd).1 hj
      · have hki : k ≠ i := by
          obtain ⟨pre, post, hcut', hmem⟩ := hk
          have hk' : ret k ∈ without [i] ms := by rw [hcut']; simp [hmem]
          simpa using (mem_without.mp hk').2
        have hmem := hclosed (i :: a) j b (by rw [hcut]; rfl) k hk.of_without
        exact (List.mem_cons.mp hmem).resolve_left hki
    obtain ⟨t, ht⟩ := ih (hc.without [i]) hrest
    exact ⟨t, by rw [without_cons]; exact .cons hr hs ht⟩

omit [DecidableEq ι] in
theorem IsLinearization.isPartialLinearization (hc : Complete ms)
    (h : IsLinearization step ms s order) : IsPartialLinearization step ms s order := by
  refine ⟨h.nodup, fun i hi => (h.mem_iff i).mp hi, fun a j b hcut i hi => ?_, h.legal⟩
  obtain ⟨pre, post, hms, hret⟩ := id hi
  obtain ⟨x, y, rfl⟩ := List.append_of_mem hret
  have hcall : call i ∈ ms := by
    have := hc.called x i (y ++ call j :: post) (by rw [hms]; simp)
    rw [hms]
    simp [this]
  have hmem : i ∈ a ++ j :: b := hcut ▸ (h.mem_iff i).mpr hcall
  have hpw := h.realTime
  rw [hcut, List.pairwise_append] at hpw
  rcases List.mem_append.mp hmem with ha | hb
  · exact ha
  · obtain rfl | hb := List.mem_cons.mp hb
    · exact absurd hi hc.not_precedes_self
    · exact absurd hi ((List.pairwise_cons.mp hpw.2.1).1 i hb)

omit [DecidableEq ι] in
theorem IsPartialLinearization.isLinearization (h : IsPartialLinearization step ms s order)
    (hall : ∀ i, call i ∈ ms → i ∈ order) : IsLinearization step ms s order := by
  refine ⟨h.nodup, fun i => ⟨h.called i, hall i⟩, ?_, h.legal⟩
  rw [List.pairwise_iff_forall_sublist]
  intro i j hij hji
  have hnd := h.nodup
  obtain ⟨a, b, rfl, hi, hj⟩ := List.cons_sublist_iff.mp hij
  obtain ⟨c, d, rfl⟩ := List.append_of_mem hi
  have hmem := h.closed c i (d ++ b) (by simp) j hji
  have hjb : j ∈ b := List.singleton_sublist.mp hj
  rw [List.nodup_append] at hnd
  exact hnd.2.2 j (List.mem_append_left _ hmem) j hjb rfl

theorem finishes_iff_linearizable (hc : Complete ms) :
    Finishes step ms s ↔ Linearizable step ms s := by
  constructor
  · rintro ⟨order, t, h⟩
    refine ⟨order, (isPartialLinearization_of_steps hc h).isLinearization fun i hi => ?_⟩
    by_contra hno
    have : call i ∈ without order ms := mem_without.mpr ⟨hi, hno⟩
    rw [← h.left] at this
    exact List.not_mem_nil this
  · rintro ⟨order, h⟩
    obtain ⟨t, ht⟩ := steps_of_isPartialLinearization hc (h.isPartialLinearization hc)
    have hnil : without order ms = [] := by
      rw [List.eq_nil_iff_forall_not_mem]
      intro x hx
      obtain ⟨hx, hop⟩ := mem_without.mp hx
      refine hop ((h.mem_iff x.op).mpr ?_)
      cases x with
      | call i => exact hx
      | ret i =>
        obtain ⟨pre, post, hms⟩ := List.append_of_mem hx
        rw [hms]
        exact List.mem_append_left _ (hc.called pre i post hms)
    exact ⟨order, t, hnil ▸ ht⟩

/-- A state that can follow another one in every step can follow it along every order. -/
theorem Steps.simulate {E : S → S → Prop}
    (hE : ∀ s t i s', E s t → step s i = some s' → ∃ t', step t i = some t' ∧ E s' t')
    (h : Steps step ms s order ms' t) {u : S} (hu : E s u) :
    ∃ u', Steps step ms u order ms' u' ∧ E t u' := by
  induction h generalizing u with
  | nil ms s => exact ⟨u, .nil ms u, hu⟩
  | cons hr hs _ ih =>
    obtain ⟨v, hv, hE'⟩ := hE _ _ _ _ hu hs
    obtain ⟨u', hu', ht⟩ := ih hE'
    exact ⟨u', .cons hr hv hu', ht⟩

end Orders

end GoServices.Histories
