import Mathlib.Data.List.Basic
import Mathlib.Logic.Function.Basic

/-! Doubly linked lists whose cells are taken out and put back.

    A cell that is taken out keeps its own pointers, so it can be put back later, provided that the
    cells taken out after it are back in place. -/

namespace GoServices

/-- The pointers of all cells; a missing one is nil. -/
structure Links (R : Type) where
  next : R → Option R
  prev : R → Option R

variable {R : Type} [DecidableEq R]

namespace Links

/-- Sets the next pointer of `p`. -/
def setNext (l : Links R) (p : R) (q : Option R) : Links R :=
  { l with next := Function.update l.next p q }

/-- Sets the previous pointer of `p`. -/
def setPrev (l : Links R) (p : R) (q : Option R) : Links R :=
  { l with prev := Function.update l.prev p q }

/-- Take a cell out; it must have one before it. -/
def remove (l : Links R) (x : R) : Option (Links R) := do
  let p ← l.prev x
  let l := l.setNext p (l.next x)
  match l.next x with
  | some q => some (l.setPrev q (l.prev x))
  | none => some l

/-- Put a cell back where its own pointers say. -/
def restore (l : Links R) (x : R) : Option (Links R) := do
  let p ← l.prev x
  let l := l.setNext p (some x)
  match l.next x with
  | some q => some (l.setPrev q (some x))
  | none => some l

/-- After `a` come exactly the cells `xs`. -/
def Follows (l : Links R) : R → List R → Prop
  | a, [] => l.next a = none
  | a, b :: xs => l.next a = some b ∧ l.prev b = some a ∧ Follows l b xs

variable {l l' : Links R} {a x : R} {xs ys : List R}

@[simp] theorem setNext_next (p : R) (q : Option R) :
    (l.setNext p q).next = Function.update l.next p q := rfl

@[simp] theorem setNext_prev (p : R) (q : Option R) : (l.setNext p q).prev = l.prev := rfl

@[simp] theorem setPrev_next (p : R) (q : Option R) : (l.setPrev p q).next = l.next := rfl

@[simp] theorem setPrev_prev (p : R) (q : Option R) :
    (l.setPrev p q).prev = Function.update l.prev p q := rfl

omit [DecidableEq R] in
/-- A list depends only on the pointers of its own cells. -/
theorem Follows.congr (h : Follows l a xs) (hnext : ∀ r ∈ a :: xs, l'.next r = l.next r)
    (hprev : ∀ r ∈ xs, l'.prev r = l.prev r) : Follows l' a xs := by
  induction xs generalizing a with
  | nil => exact (hnext a List.mem_cons_self).trans h
  | cons b xs ih =>
    obtain ⟨hn, hp, h⟩ := h
    refine ⟨(hnext a List.mem_cons_self).trans hn, (hprev b List.mem_cons_self).trans hp, ih h ?_ ?_⟩
    · exact fun r hr => hnext r (List.mem_cons_of_mem a hr)
    · exact fun r hr => hprev r (List.mem_cons_of_mem b hr)

omit [DecidableEq R] in
theorem Follows.next_head (h : Follows l a xs) : l.next a = xs.head? := by
  cases xs with
  | nil => exact h
  | cons b xs => exact h.1

omit [DecidableEq R] in
/-- Every cell of a list points to the rest of the list. -/
theorem Follows.drop (h : Follows l a (xs ++ x :: ys)) : Follows l x ys := by
  induction xs generalizing a with
  | nil => exact h.2.2
  | cons b xs ih => exact ih h.2.2

/-- What taking `x` out from between `xs` and `ys`, behind `a`, leaves. -/
structure Removed (l l' : Links R) (a : R) (xs : List R) (x : R) (ys : List R) : Prop where
  follows : Follows l' a (xs ++ ys)
  restore : l'.restore x = some l
  next_eq : ∀ r ∉ a :: xs, l'.next r = l.next r
  prev_eq : ∀ r ∉ ys, l'.prev r = l.prev r

/-- The cell right behind the head is taken out. -/
theorem exists_removed_first (h : Follows l a (x :: ys)) (hnd : (a :: x :: ys).Nodup) :
    ∃ l', l.remove x = some l' ∧ Removed l l' a [] x ys := by
  obtain ⟨hn, hp, h⟩ := h
  have hxa : x ≠ a := by rintro rfl; simp at hnd
  have hback : Function.update l.next a (some x) = l.next := by rw [← hn, Function.update_eq_self]
  cases ys with
  | nil =>
    have hx : l.next x = none := h
    refine ⟨l.setNext a none, ?_, ?_, ?_, ?_, fun r _ => rfl⟩
    · simp [remove, hp, hx, hxa]
    · exact Function.update_self ..
    · simp [Links.restore, hp, hx, hxa, setNext, hback]
    · intro r hr
      simp only [List.mem_singleton] at hr
      simp [hr]
  | cons q ys =>
    obtain ⟨hx, hq, h⟩ := h
    have hqa : q ≠ a := by rintro rfl; simp at hnd
    have hqx : q ≠ x := by rintro rfl; simp at hnd
    have hprev : Function.update l.prev q (some x) = l.prev := by
      rw [← hq, Function.update_eq_self]
    refine ⟨(l.setNext a (some q)).setPrev q (some a), ?_, ⟨?_, ?_, ?_⟩, ?_, ?_, ?_⟩
    · simp [remove, hp, hx, hxa]
    · simp
    · simp
    · refine h.congr (fun r hr => ?_) (fun r hr => ?_)
      · have hra : r ≠ a := by
          rintro rfl
          exact (List.nodup_cons.mp hnd).1 (List.mem_cons_of_mem x hr)
        simp [hra]
      · have hrq : r ≠ q := by
          rintro rfl
          exact (List.nodup_cons.mp (List.nodup_cons.mp (List.nodup_cons.mp hnd).2).2).1 hr
        simp [hrq]
    · simp [Links.restore, hp, hx, hxa, hqx.symm, setNext, setPrev, hback, hprev]
    · intro r hr
      simp only [List.mem_singleton] at hr
      simp [hr]
    · intro r hr
      simp only [List.mem_cons, not_or] at hr
      simp [hr.1]

/-- A cell of a list can be taken out and put back. -/
theorem exists_removed (h : Follows l a (xs ++ x :: ys)) (hnd : (a :: (xs ++ x :: ys)).Nodup) :
    ∃ l', l.remove x = some l' ∧ Removed l l' a xs x ys := by
  induction xs generalizing a with
  | nil => exact exists_removed_first h hnd
  | cons b xs ih =>
    obtain ⟨hn, hp, h⟩ := h
    rw [List.cons_append, List.nodup_cons] at hnd
    obtain ⟨l', hl', hrem⟩ := ih h hnd.2
    have ha : a ∉ b :: xs := fun ha => hnd.1 (by
      rw [← List.cons_append]
      exact List.mem_append_left _ ha)
    have hb : b ∉ ys := fun hb => (List.nodup_cons.mp hnd.2).1
      (List.mem_append_right _ (List.mem_cons_of_mem x hb))
    refine ⟨l', hl', ⟨?_, ?_, hrem.follows⟩, hrem.restore, ?_, hrem.prev_eq⟩
    · rw [hrem.next_eq a ha, hn]
    · rw [hrem.prev_eq b hb, hp]
    · intro r hr
      exact hrem.next_eq r fun hr' => hr (List.mem_cons_of_mem a hr')

end Links

end GoServices
