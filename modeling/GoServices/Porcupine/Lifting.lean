import GoServices.Schemes.Histories
import GoServices.Porcupine.Checker

/-! Taking an operation out of the linked list and putting it back.

    `lift` takes out a call and its return, `unlift` puts both back. As long as the list holds the
    calls and returns of whole operations, neither follows a nil pointer, and `unlift` undoes `lift`. -/

namespace GoServices.Porcupine

open Histories

variable {I O S : Type}

/-- The operation that a node belongs to. -/
def idOf (nodes : List (Node I O)) (a : Ref) : ℕ := (nodes[a]?.map Node.id).getD 0

/-- What a node stands for in the history. -/
def mark (nodes : List (Node I O)) (a : Ref) : Mark ℕ :=
  if (nodes[a]?.bind Node.matching).isSome then .call (idOf nodes a) else .ret (idOf nodes a)

@[simp] theorem op_mark (nodes : List (Node I O)) (a : Ref) : (mark nodes a).op = idOf nodes a := by
  unfold mark
  split <;> rfl

/-- The nodes of a complete history of `n` operations, in order of time behind the head. `step` is
    what the model says about the operations. -/
structure Laid (model : FullModel I O S) (nodes : List (Node I O)) (headEntry : Ref)
    (refs : List Ref) (n : ℕ) (step : S → ℕ → Option S) : Prop where
  nodup : (headEntry :: refs).Nodup
  complete : Complete (refs.map (mark nodes))
  node : ∀ a ∈ refs, ∃ node, nodes[a]? = some node ∧ node.id < n
  call : ∀ a ∈ refs, ∀ node r, nodes[a]? = some node → node.matching = some r →
    r ∈ refs ∧ ∃ ret input output, nodes[r]? = some ret ∧ ret.matching = none ∧ ret.id = node.id ∧
      node.value = .inl input ∧ ret.value = .inr output ∧ ∀ s, step s node.id =
        if (model.step s input output).1 then some (model.step s input output).2 else none

/-- The nodes left when the operations `c` are in the order already. -/
def left (nodes : List (Node I O)) (refs : List Ref) (c : List ℕ) : List Ref :=
  refs.filter fun a => idOf nodes a ∉ c

variable {nodes : List (Node I O)} {headEntry : Ref} {refs : List Ref} {c : List ℕ}

@[simp] theorem mem_left {a : Ref} : a ∈ left nodes refs c ↔ a ∈ refs ∧ idOf nodes a ∉ c := by
  simp [left]

@[simp] theorem left_nil : left nodes refs [] = refs := by simp [left]

theorem left_append (c d : List ℕ) :
    left nodes refs (c ++ d) = (left nodes refs c).filter fun a => idOf nodes a ∉ d := by
  simp only [left, List.filter_filter, List.mem_append, not_or, Bool.decide_and]
  congr 1
  funext x
  exact Bool.and_comm _ _

theorem map_mark_left (c : List ℕ) :
    (left nodes refs c).map (mark nodes) = without c (refs.map (mark nodes)) := by
  rw [without, List.filter_map]
  simp [left, Function.comp_def]

namespace Laid

variable {model : FullModel I O S} {n : ℕ} {step : S → ℕ → Option S}
  (h : Laid model nodes headEntry refs n step)
include h

theorem nodup_left (c : List ℕ) : (headEntry :: left nodes refs c).Nodup := by
  have hnd := List.nodup_cons.mp h.nodup
  refine List.nodup_cons.mpr ⟨fun hmem => hnd.1 (mem_left.mp hmem).1, hnd.2.filter _⟩

theorem complete_left (c : List ℕ) : Complete ((left nodes refs c).map (mark nodes)) := by
  rw [map_mark_left]
  exact h.complete.without c

theorem eq_of_mark_eq {a b : Ref} (ha : a ∈ refs) (hb : b ∈ refs) (hab : mark nodes a = mark nodes b) :
    a = b := List.inj_on_of_nodup_map h.complete.nodup ha hb hab

/-- A call is left together with its return, which comes later. -/
theorem exists_cut {pre ys : List Ref} {e r : Ref} {node : Node I O}
    (hcut : left nodes refs c = pre ++ e :: ys) (hnode : nodes[e]? = some node)
    (hmatch : node.matching = some r) : ∃ mid post, ys = mid ++ r :: post := by
  have he := mem_left.mp (hcut ▸ List.mem_append_right pre List.mem_cons_self)
  obtain ⟨hr, ret, -, -, hret, hrm, hrid, -⟩ := h.call e he.1 node r hnode hmatch
  have hmarke : mark nodes e = .call node.id := by simp [mark, idOf, hnode, hmatch]
  have hmarkr : mark nodes r = .ret node.id := by simp [mark, idOf, hret, hrm, hrid]
  have hleft : r ∈ left nodes refs c := by
    refine mem_left.mpr ⟨hr, ?_⟩
    rw [← op_mark, hmarkr, Mark.op_ret, ← Mark.op_call node.id, ← hmarke, op_mark]
    exact he.2
  rw [hcut, List.mem_append, List.mem_cons] at hleft
  rcases hleft with hpre | rfl | hys
  · -- a return before its call: its own call would be even further in front
    obtain ⟨p₁, p₂, rfl⟩ := List.append_of_mem hpre
    have hcomp := h.complete_left c
    rw [hcut] at hcomp
    have hcalled := hcomp.called (p₁.map (mark nodes)) node.id
      (p₂.map (mark nodes) ++ (e :: ys).map (mark nodes)) (by simp [hmarkr])
    have hnd := hcomp.nodup
    simp only [List.map_append, List.map_cons, List.append_assoc, List.nodup_append] at hnd
    exact absurd hmarke.symm (hnd.2.2 _ hcalled _ (by simp))
  · rw [hmarke] at hmarkr
    cases hmarkr
  · exact List.append_of_mem hys

/-- Without a call and its return exactly the other nodes are left. -/
theorem left_concat {pre mid post : List Ref} {e r : Ref} {node : Node I O}
    (hcut : left nodes refs c = pre ++ e :: (mid ++ r :: post)) (hnode : nodes[e]? = some node)
    (hmatch : node.matching = some r) : left nodes refs (c ++ [node.id]) = pre ++ (mid ++ post) := by
  have he := mem_left.mp (hcut ▸ List.mem_append_right pre List.mem_cons_self)
  obtain ⟨hr, ret, -, -, hret, hrm, hrid, -⟩ := h.call e he.1 node r hnode hmatch
  have hide : idOf nodes e = node.id := by simp [idOf, hnode]
  have hidr : idOf nodes r = node.id := by simp [idOf, hret, hrid]
  have hnd := (List.nodup_cons.mp (h.nodup_left c)).2
  -- only the call and the return belong to the operation
  have hother : ∀ x ∈ left nodes refs c, x ≠ e → x ≠ r → idOf nodes x ≠ node.id := by
    intro x hx hxe hxr hid
    have hxrefs := (mem_left.mp hx).1
    by_cases hcall : (nodes[x]?.bind Node.matching).isSome
    · refine hxe (h.eq_of_mark_eq hxrefs he.1 ?_)
      simp [mark, hcall, hid, hide, hnode, hmatch]
    · refine hxr (h.eq_of_mark_eq hxrefs hr ?_)
      simp [mark, hcall, hid, hidr, hret, hrm]
  rw [hcut] at hnd hother
  rw [left_append, hcut]
  simp only [List.filter_append, List.filter_cons, List.mem_singleton, hide, hidr, not_true_eq_false,
    decide_false, Bool.false_eq_true, if_false]
  simp only [List.nodup_append, List.nodup_cons, List.mem_append, List.mem_cons, not_or] at hnd
  congr 1
  · refine List.filter_eq_self.mpr fun x hx => ?_
    have hxe : x ≠ e := fun h => hnd.2.2 x hx e (.inl rfl) h
    have hxr : x ≠ r := fun h => hnd.2.2 x hx r (by simp) h
    simpa using hother x (by simp [hx]) hxe hxr
  congr 1
  · refine List.filter_eq_self.mpr fun x hx => ?_
    have hxe : x ≠ e := fun h => hnd.2.1.1.1 (h ▸ hx)
    have hxr : x ≠ r := fun h => hnd.2.1.2.2.2 x hx r (.inl rfl) h
    simpa using hother x (by simp [hx]) hxe hxr
  · refine List.filter_eq_self.mpr fun x hx => ?_
    have hxe : x ≠ e := fun h => hnd.2.1.1.2.2 (h ▸ hx)
    have hxr : x ≠ r := fun h => hnd.2.1.2.2.1.1 (h ▸ hx)
    simpa using hother x (by simp [hx]) hxe hxr

end Laid

/-- `lift` takes two cells out. -/
theorem lift_eq {l l₁ l₂ : Links Ref} {e r : Ref} {node : Node I O} (hnode : nodes[e]? = some node)
    (hmatch : node.matching = some r) (h₁ : l.remove e = some l₁) (hnext : l₁.next e ≠ none)
    (h₂ : l₁.remove r = some l₂) : lift nodes l e = some l₂ := by
  obtain ⟨p, hp, h₁⟩ := Option.bind_eq_some_iff.mp h₁
  cases hq : (l.setNext p (l.next e)).next e with
  | none =>
    simp only [hq, Option.some.injEq] at h₁
    exact absurd (h₁ ▸ hq) hnext
  | some q =>
    simp only [hq, Option.some.injEq] at h₁
    obtain ⟨p', hp', h₂⟩ := Option.bind_eq_some_iff.mp h₂
    cases hq' : (l₁.setNext p' (l₁.next r)).next r <;>
    · simp only [hq'] at h₂
      simp only [lift, hp, hq, hnode, hmatch, h₁, hp', hq', h₂, Option.bind_eq_bind,
        Option.bind_some]

/-- `unlift` puts two cells back. -/
theorem unlift_eq {l l₁ l₂ : Links Ref} {e r : Ref} {node : Node I O} (hnode : nodes[e]? = some node)
    (hmatch : node.matching = some r) (h₂ : l₂.restore r = some l₁) (h₁ : l₁.restore e = some l)
    (hnext : l.next e ≠ none) : unlift nodes l₂ e = some l := by
  obtain ⟨p', hp', h₂⟩ := Option.bind_eq_some_iff.mp h₂
  obtain ⟨p, hp, h₁⟩ := Option.bind_eq_some_iff.mp h₁
  obtain ⟨q, hq⟩ : ∃ q, (l₁.setNext p (some e)).next e = some q := by
    cases hq : (l₁.setNext p (some e)).next e with
    | none =>
      simp only [hq, Option.some.injEq] at h₁
      exact absurd (h₁ ▸ hq) hnext
    | some q => exact ⟨q, rfl⟩
  simp only [hq, Option.some.injEq] at h₁
  cases hq' : (l₂.setNext p' (some r)).next r <;>
  · simp only [hq', Option.some.injEq] at h₂
    subst h₂
    simp only [unlift, hnode, hmatch, hp', hq', hp, hq, h₁, Option.bind_eq_bind, Option.bind_some]

/-- Lifting a call leaves the list without its operation, and unlifting it gives the list back. -/
theorem Laid.exists_lift {model : FullModel I O S} {n : ℕ} {step : S → ℕ → Option S}
    (h : Laid model nodes headEntry refs n step) {l : Links Ref} {pre ys : List Ref} {e r : Ref}
    {node : Node I O} (hl : l.Follows headEntry (left nodes refs c))
    (hcut : left nodes refs c = pre ++ e :: ys) (hnode : nodes[e]? = some node)
    (hmatch : node.matching = some r) :
    ∃ l', lift nodes l e = some l' ∧ l'.Follows headEntry (left nodes refs (c ++ [node.id])) ∧
      unlift nodes l' e = some l := by
  obtain ⟨mid, post, rfl⟩ := h.exists_cut hcut hnode hmatch
  rw [h.left_concat hcut hnode hmatch]
  have hnd := h.nodup_left c
  rw [hcut] at hl hnd
  obtain ⟨l₁, hl₁, hrem₁⟩ := Links.exists_removed hl hnd
  have he : e ∉ headEntry :: pre := by
    rintro hmem
    rw [← List.cons_append, List.nodup_append] at hnd
    exact hnd.2.2 e hmem e List.mem_cons_self rfl
  have hnext : l.next e ≠ none := by
    rw [hl.drop.next_head]
    simp
  have hnext₁ : l₁.next e ≠ none := by rwa [hrem₁.next_eq e he]
  have hfol := hrem₁.follows
  rw [← List.append_assoc] at hfol
  obtain ⟨l₂, hl₂, hrem₂⟩ := Links.exists_removed hfol (by
    rw [List.append_assoc]
    exact hnd.sublist (by simp))
  refine ⟨l₂, lift_eq hnode hmatch hl₁ hnext₁ hl₂, ?_,
    unlift_eq hnode hmatch hrem₂.restore hrem₁.restore hnext⟩
  rw [← List.append_assoc]
  exact hrem₂.follows

end GoServices.Porcupine
