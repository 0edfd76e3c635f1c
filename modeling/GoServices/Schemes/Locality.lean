import Mathlib.Algebra.Order.Group.Int
import Mathlib.Data.Finset.Max
import Mathlib.Data.List.Perm.Basic

/-! Linearizability is local.

    Operations have a key, a time of call and a time of return, and each works on the part of the
    state that belongs to its key. Orders for the operations of the single keys can be merged into
    one order for all: always take, of the operations that come first for their keys, the one that
    was called first. Nothing that is left can have returned before it was called. -/

namespace GoServices.Locality

variable {α κ S : Type}

/-- An order never puts an operation behind one that was called after it had returned. -/
def InOrder (call ret : α → ℤ) (order : List α) : Prop := order.Pairwise fun a b => ¬ ret b < call a

/-- The operations can be ordered, in agreement with the times, so that the state accepts them. -/
def Linearizable (call ret : α → ℤ) (step : S → α → Option S) (s : S) (ops : List α) : Prop :=
  ∃ order : List α, order.Perm ops ∧ InOrder call ret order ∧ (order.foldlM step s).isSome

variable [DecidableEq κ] (key : α → κ)

/-- The operations of one key. -/
def ofKey (k : κ) (ops : List α) : List α := ops.filter fun a => key a = k

/-- An operation works on the state of its key. -/
def stepAt (step : S → α → Option S) (s : κ → S) (a : α) : Option (κ → S) :=
  (step (s (key a)) a).map fun t => Function.update s (key a) t

variable {key}

@[simp] theorem mem_ofKey {k : κ} {ops : List α} {a : α} : a ∈ ofKey key k ops ↔ a ∈ ops ∧ key a = k := by
  simp [ofKey]

theorem ofKey_cons_self (a : α) (ops : List α) :
    ofKey key (key a) (a :: ops) = a :: ofKey key (key a) ops := by simp [ofKey]

theorem ofKey_cons_of_ne {k : κ} {a : α} (h : key a ≠ k) (ops : List α) :
    ofKey key k (a :: ops) = ofKey key k ops := by simp [ofKey, h]

/-- The state accepts operations if the part of each key does. -/
theorem isSome_foldlM_stepAt_iff (step : S → α → Option S) (order : List α) (s : κ → S) :
    (order.foldlM (stepAt key step) s).isSome ↔
      ∀ k, ((ofKey key k order).foldlM step (s k)).isSome := by
  induction order generalizing s with
  | nil => simp [ofKey]
  | cons a order ih =>
    rw [List.foldlM_cons]
    cases hstep : step (s (key a)) a with
    | none =>
      simp only [stepAt, hstep, Option.map_none, Option.bind_eq_bind, Option.bind_none,
        Option.isSome_none, Bool.false_eq_true, false_iff, not_forall]
      refine ⟨key a, ?_⟩
      rw [ofKey_cons_self, List.foldlM_cons, hstep]
      simp
    | some t =>
      simp only [stepAt, hstep, Option.map_some, Option.bind_eq_bind, Option.bind_some]
      rw [ih]
      refine forall_congr' fun k => ?_
      by_cases hk : k = key a
      · subst hk
        rw [ofKey_cons_self, List.foldlM_cons, hstep, Function.update_self]
        rfl
      · rw [ofKey_cons_of_ne (Ne.symm hk), Function.update_of_ne hk]

/-- For every key an order of its operations. -/
structure Orders (key : α → κ) (call ret : α → ℤ) (ops : List α) (L : κ → List α) : Prop where
  perm : ∀ k, (L k).Perm (ofKey key k ops)
  inOrder : ∀ k, InOrder call ret (L k)

section Merge

variable {call ret : α → ℤ} {ops : List α} {L : κ → List α}

theorem Orders.mem (h : Orders key call ret ops L) {a : α} (ha : a ∈ ops) : a ∈ L (key a) :=
  (h.perm _).mem_iff.mpr (mem_ofKey.mpr ⟨ha, rfl⟩)

/-- The order of a key that has an operation starts with an operation of this key. -/
theorem Orders.exists_head (h : Orders key call ret ops L) {a : α} (ha : a ∈ ops) :
    ∃ b rest, L (key a) = b :: rest ∧ b ∈ ops ∧ key b = key a := by
  obtain ⟨b, rest, hb⟩ := List.exists_cons_of_ne_nil (List.ne_nil_of_mem (h.mem ha))
  have hmem : b ∈ ofKey key (key a) ops := (h.perm _).mem_iff.mp (by rw [hb]; exact List.mem_cons_self)
  exact ⟨b, rest, hb, mem_ofKey.mp hmem⟩

/-- No operation returns before the one is called that comes first for its key. -/
theorem Orders.head_le (h : Orders key call ret ops L) (htime : ∀ a ∈ ops, call a ≤ ret a) {a b : α}
    {rest : List α} (ha : a ∈ ops) (hb : L (key a) = b :: rest) : call b ≤ ret a := by
  have hmem := h.mem ha
  have hord := h.inOrder (key a)
  rw [hb] at hmem hord
  obtain rfl | hmem := List.mem_cons.mp hmem
  · exact htime a ha
  · exact not_lt.mp ((List.pairwise_cons.mp hord).1 a hmem)

/-- One operation comes first for its key and was called before any has returned. -/
theorem Orders.exists_first (h : Orders key call ret ops L) (htime : ∀ a ∈ ops, call a ≤ ret a)
    (hne : ops ≠ []) : ∃ f rest, f ∈ ops ∧ L (key f) = f :: rest ∧ ∀ b ∈ ops, call f ≤ ret b := by
  classical
  obtain ⟨a, ha, hmin⟩ := Finset.exists_min_image ops.toFinset
    (fun a => ((L (key a)).head?.map call).getD 0) ⟨_, List.mem_toFinset.mpr (List.head_mem hne)⟩
  obtain ⟨f, rest, hf, hfmem, hkey⟩ := h.exists_head (List.mem_toFinset.mp ha)
  refine ⟨f, rest, hfmem, by rw [hkey, hf], fun b hb => ?_⟩
  obtain ⟨g, rest', hg, -⟩ := h.exists_head hb
  have hfg : call f ≤ call g := by
    have := hmin b (List.mem_toFinset.mpr hb)
    simpa [hf, hg] using this
  exact hfg.trans (h.head_le htime hb hg)

/-- What is left of the orders when the first operation of a key has been taken. -/
theorem Orders.tail (h : Orders key call ret ops L) {f : α} {rest ops' : List α}
    (hops : ops.Perm (f :: ops')) (hf : L (key f) = f :: rest) :
    Orders key call ret ops' (Function.update L (key f) rest) := by
  refine ⟨fun k => ?_, fun k => ?_⟩ <;> by_cases hk : k = key f
  · subst hk
    have hperm := (h.perm (key f)).trans (hops.filter _)
    rw [hf] at hperm
    rw [Function.update_self]
    exact (hperm.trans (.of_eq (ofKey_cons_self f ops'))).cons_inv
  · rw [Function.update_of_ne hk]
    exact ((h.perm k).trans (hops.filter _)).trans (.of_eq (ofKey_cons_of_ne (Ne.symm hk) ops'))
  · subst hk
    have hord := h.inOrder (key f)
    rw [hf] at hord
    rw [Function.update_self]
    exact (List.pairwise_cons.mp hord).2
  · rw [Function.update_of_ne hk]
    exact h.inOrder k

/-- Orders for the single keys can be merged. -/
theorem Orders.exists_merge (h : Orders key call ret ops L) (htime : ∀ a ∈ ops, call a ≤ ret a) :
    ∃ order : List α, order.Perm ops ∧ InOrder call ret order ∧ ∀ k, ofKey key k order = L k := by
  induction hn : ops.length generalizing ops L with
  | zero =>
    obtain rfl := List.eq_nil_of_length_eq_zero hn
    exact ⟨[], .refl _, List.Pairwise.nil, fun k => ((h.perm k).eq_nil).symm⟩
  | succ n ih =>
    obtain ⟨f, rest, hfmem, hf, hfirst⟩ := h.exists_first htime (List.ne_nil_of_length_eq_add_one hn)
    obtain ⟨pre, post, hops⟩ := List.append_of_mem hfmem
    have hperm : ops.Perm (f :: (pre ++ post)) := hops ▸ List.perm_middle
    have hmem : ∀ b ∈ pre ++ post, b ∈ ops := fun b hb =>
      hperm.mem_iff.mpr (List.mem_cons_of_mem f hb)
    obtain ⟨order, hop, hord, hkeys⟩ := ih (h.tail hperm hf) (fun b hb => htime b (hmem b hb))
      (Nat.succ.inj (hperm.length_eq.symm.trans hn))
    refine ⟨f :: order, (hop.cons f).trans hperm.symm, .cons (fun b hb => ?_) hord, fun k => ?_⟩
    · exact not_lt.mpr (hfirst b (hmem b (hop.mem_iff.mp hb)))
    · by_cases hk : k = key f
      · rw [hk, ofKey_cons_self, hkeys, Function.update_self, hf]
      · rw [ofKey_cons_of_ne (Ne.symm hk), hkeys, Function.update_of_ne hk]

end Merge

/-- Operations on a state with a part for every key are linearizable if those of each key are. -/
theorem linearizable_iff_forall_key {call ret : α → ℤ} {step : S → α → Option S} {s : κ → S}
    {ops : List α} (htime : ∀ a ∈ ops, call a ≤ ret a) :
    Linearizable call ret (stepAt key step) s ops ↔
      ∀ k, Linearizable call ret step (s k) (ofKey key k ops) := by
  constructor
  · rintro ⟨order, hperm, hord, hlegal⟩ k
    exact ⟨ofKey key k order, hperm.filter _, hord.filter _,
      (isSome_foldlM_stepAt_iff step order s).mp hlegal k⟩
  · intro h
    choose L hL using h
    have horders : Orders key call ret ops L := ⟨fun k => (hL k).1, fun k => (hL k).2.1⟩
    obtain ⟨order, hperm, hord, hofKey⟩ := horders.exists_merge htime
    refine ⟨order, hperm, hord, (isSome_foldlM_stepAt_iff step order s).mpr fun k => ?_⟩
    rw [hofKey]
    exact (hL k).2.2

end GoServices.Locality
