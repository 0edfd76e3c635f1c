import Mathlib.Control.Basic
import Mathlib.Data.List.Basic
import Mathlib.Tactic.SplitIfs

/-! Reading from slices with bounds.

    A `Buf` is a slice: the elements it shows, and those that lie behind them in the same array up
    to the capacity. Indexing panics beyond the length. Slicing panics only beyond the capacity, so
    that it can reach elements the slice does not show; `inside` records whether that happened. -/

namespace GoServices.Bounds

variable {A B C : Type}

/-- A slice, with what lies behind it up to its capacity. -/
structure Buf (A : Type) where
  items : List A
  spare : List A

/-- What a computation that reads slices did: whether all its accesses lay inside the slices, and
    its result, `none` after a panic. -/
structure Access (B : Type) where
  inside : Bool
  result : Option B

namespace Access

instance : Monad Access where
  pure b := ⟨true, some b⟩
  bind x f := match x.result with
    | none => ⟨x.inside, none⟩
    | some b => ⟨x.inside && (f b).inside, (f b).result⟩

instance : LawfulMonad Access := LawfulMonad.mk' Access
  (fun x => by rcases x with ⟨i, _ | b⟩ <;> simp [Functor.map])
  (fun b f => by simp [bind, pure])
  (fun x f g => by
    rcases x with ⟨i, _ | b⟩
    · rfl
    · simp only [bind]
      cases (f b).result <;> simp [Bool.and_assoc])

/-- The end after an access that was not possible. -/
def crash : Access B := ⟨false, none⟩

@[simp] theorem result_pure (b : B) : (pure b : Access B).result = some b := rfl

@[simp] theorem inside_pure (b : B) : (pure b : Access B).inside = true := rfl

theorem result_bind {x : Access B} {f : B → Access C} {c : C} :
    (x >>= f).result = some c ↔ ∃ b, x.result = some b ∧ (f b).result = some c := by
  rcases x with ⟨i, _ | b⟩ <;> simp [bind]

theorem inside_bind {x : Access B} {f : B → Access C} :
    (x >>= f).inside = true ↔ x.inside = true ∧ ∀ b, x.result = some b → (f b).inside = true := by
  rcases x with ⟨i, _ | b⟩ <;> simp [bind]

end Access

namespace Buf

variable (x : Buf A)

/-- `x[i]` -/
def index (i : ℕ) : Access A :=
  match x.items[i]? with
  | some a => pure a
  | none => Access.crash

/-- `x[lo:hi]` -/
def slice (lo hi : ℕ) : Access (Buf A) :=
  if lo ≤ hi ∧ hi ≤ (x.items ++ x.spare).length then
    ⟨decide (hi ≤ x.items.length),
      some ⟨((x.items ++ x.spare).drop lo).take (hi - lo), (x.items ++ x.spare).drop hi⟩⟩
  else Access.crash

variable {x} {i lo hi : ℕ}

theorem index_eq {a : A} (h : x.items[i]? = some a) : x.index i = pure a := by
  simp only [index, h]

theorem result_index {a : A} : (x.index i).result = some a ↔ x.items[i]? = some a := by
  unfold index
  cases x.items[i]? <;> simp [Access.crash]

theorem inside_index : (x.index i).inside = true ↔ i < x.items.length := by
  unfold index
  cases hi : x.items[i]? with
  | none => simpa [Access.crash] using hi
  | some a => simpa using (List.getElem?_eq_some_iff.mp hi).1

theorem inside_slice : (x.slice lo hi).inside = true ↔ lo ≤ hi ∧ hi ≤ x.items.length := by
  unfold slice
  split_ifs with hb
  · simp [hb.1]
  · rw [List.length_append] at hb
    simp only [Access.crash, Bool.false_eq_true, false_iff]
    omega

theorem slice_eq (hlo : lo ≤ hi) (hhi : hi ≤ x.items.length) :
    x.slice lo hi = pure ⟨(x.items.drop lo).take (hi - lo), x.items.drop hi ++ x.spare⟩ := by
  unfold slice
  rw [if_pos ⟨hlo, by rw [List.length_append]; omega⟩, decide_eq_true hhi,
    List.drop_append_of_le_length hhi, List.drop_append_of_le_length (by omega),
    List.take_append_of_le_length (by rw [List.length_drop]; omega)]
  rfl

theorem result_slice {y : Buf A} (h : (x.slice lo hi).result = some y) (hlo : lo ≤ hi)
    (hhi : hi ≤ x.items.length) : y.items = (x.items.drop lo).take (hi - lo) := by
  rw [slice_eq hlo hhi] at h
  rw [← Option.some.inj h]

end Buf

end GoServices.Bounds
