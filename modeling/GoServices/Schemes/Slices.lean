import Mathlib.Data.List.Basic

/-! Slices: windows on arrays that several windows may share. Appending writes into the shared array
    as long as the capacity of the window allows it, and moves to a new array otherwise. -/

namespace GoServices.Slices

variable {A : Type}

/-- The arrays that were made, in the order they were made in. -/
structure Heap (A : Type) where
  arrays : List (List A)

/-- A window of an array, with room behind it up to its capacity. -/
structure Slice where
  array : ℕ
  offset : ℕ
  len : ℕ
  cap : ℕ
  deriving DecidableEq

namespace Slice

/-- The nil slice. -/
def nil : Slice := ⟨0, 0, 0, 0⟩

/-- `s[:n]` -/
def take (s : Slice) (n : ℕ) : Slice := { s with len := n }

/-- `s[n:]` -/
def drop (s : Slice) (n : ℕ) : Slice := ⟨s.array, s.offset + n, s.len - n, s.cap - n⟩

/-- The window shows cell `x` of array `k`. -/
def Shows (s : Slice) (k x : ℕ) : Prop := s.array = k ∧ s.offset ≤ x ∧ x < s.offset + s.len

/-- The cell that appending an element writes to: the one behind the window, if there is room. -/
def Next (s : Slice) (k x : ℕ) : Prop := s.array = k ∧ x = s.offset + s.len ∧ s.len < s.cap

instance (s : Slice) (k x : ℕ) : Decidable (s.Shows k x) :=
  inferInstanceAs (Decidable (_ ∧ _ ∧ _))

instance (s : Slice) (k x : ℕ) : Decidable (s.Next k x) :=
  inferInstanceAs (Decidable (_ ∧ _ ∧ _))

end Slice

namespace Heap

/-- No arrays. -/
def empty : Heap A := ⟨[]⟩

/-- The cells of an array. -/
def array (h : Heap A) (k : ℕ) : List A := h.arrays.getD k []

/-- What a slice shows. -/
def read (h : Heap A) (s : Slice) : List A := ((h.array s.array).drop s.offset).take s.len

/-- Overwrite an array from position `i` on. -/
def write (h : Heap A) (k i : ℕ) (xs : List A) : Heap A :=
  ⟨h.arrays.modify k fun l => l.take i ++ xs ++ l.drop (i + xs.length)⟩

/-- A slice literal. -/
def make (h : Heap A) (xs : List A) : Heap A × Slice :=
  (⟨h.arrays ++ [xs]⟩, ⟨h.arrays.length, 0, xs.length, xs.length⟩)

/-- `append(s, xs...)`. A new array has places to spare, which hold `zero`; how many is not fixed by
    the language: `spare n` for `n` elements. -/
def append (zero : A) (spare : ℕ → ℕ) (h : Heap A) (s : Slice) (xs : List A) : Heap A × Slice :=
  if s.len + xs.length ≤ s.cap then
    (h.write s.array (s.offset + s.len) xs, { s with len := s.len + xs.length })
  else
    let ys := h.read s ++ xs
    (⟨h.arrays ++ [ys ++ List.replicate (spare ys.length) zero]⟩,
      ⟨h.arrays.length, 0, ys.length, ys.length + spare ys.length⟩)

/-! ### Cells

    Two heaps show the same in a window when its cells agree, so what an operation leaves alone is said
    cell by cell. -/

/-- One cell of an array. -/
def cell (h : Heap A) (k x : ℕ) : Option A := (h.array k)[x]?

theorem getElem?_read (h : Heap A) (s : Slice) (j : ℕ) :
    (h.read s)[j]? = if j < s.len then h.cell s.array (s.offset + j) else none := by
  simp [read, cell, List.getElem?_take, List.getElem?_drop]

theorem read_eq_read_iff {h h' : Heap A} {s : Slice} :
    h'.read s = h.read s ↔ ∀ x, s.Shows s.array x → h'.cell s.array x = h.cell s.array x := by
  constructor
  · rintro hread x ⟨-, hlo, hhi⟩
    have hj : x - s.offset < s.len := by omega
    have hx := congrArg (·[x - s.offset]?) hread
    simpa [getElem?_read, hj, Nat.add_sub_cancel' hlo] using hx
  · intro hcells
    refine List.ext_getElem? fun j => ?_
    rw [getElem?_read, getElem?_read]
    split_ifs with hj
    · exact hcells _ ⟨rfl, by omega, by omega⟩
    · rfl

theorem array_eq_nil {h : Heap A} {k : ℕ} (hk : h.arrays.length ≤ k) : h.array k = [] := by
  rw [array, List.getD_eq_getElem?_getD, List.getElem?_eq_none hk]
  rfl

/-- The window lies in its array. -/
structure Valid (h : Heap A) (s : Slice) : Prop where
  len_le : s.len ≤ s.cap
  cap_le : s.offset + s.cap ≤ (h.array s.array).length

theorem valid_nil (h : Heap A) : h.Valid Slice.nil := ⟨Nat.le_refl 0, Nat.zero_le _⟩

namespace Valid

variable {h : Heap A} {s : Slice}

theorem take {n : ℕ} (hs : h.Valid s) (hn : n ≤ s.cap) : h.Valid (s.take n) := ⟨hn, hs.cap_le⟩

theorem drop {n : ℕ} (hs : h.Valid s) (hn : n ≤ s.len) : h.Valid (s.drop n) := by
  have hlen := hs.len_le
  have hcap := hs.cap_le
  exact ⟨by simp only [Slice.drop]; omega, by simp only [Slice.drop]; omega⟩

theorem length_read (hs : h.Valid s) : (h.read s).length = s.len := by
  have hlen := hs.len_le
  have hcap := hs.cap_le
  rw [read, List.length_take, List.length_drop]
  omega

/-- An array that a valid window shows a cell of has been made. -/
theorem array_lt {k x : ℕ} (hs : h.Valid s) (hx : s.Shows k x) : k < h.arrays.length := by
  obtain ⟨rfl, hlo, hhi⟩ := hx
  have hlen := hs.len_le
  have hcap := hs.cap_le
  by_contra hk
  rw [array_eq_nil (Nat.le_of_not_lt hk), List.length_nil] at hcap
  omega

end Valid

/-- Arrays stay as long as they are. -/
def Grows (h h' : Heap A) : Prop := ∀ k, (h.array k).length ≤ (h'.array k).length

theorem Grows.refl (h : Heap A) : h.Grows h := fun _ => Nat.le_refl _

theorem Grows.trans {h h' h'' : Heap A} (h₁ : h.Grows h') (h₂ : h'.Grows h'') : h.Grows h'' :=
  fun k => Nat.le_trans (h₁ k) (h₂ k)

theorem Valid.mono {h h' : Heap A} {s : Slice} (hs : h.Valid s) (hh : h.Grows h') : h'.Valid s :=
  ⟨hs.len_le, Nat.le_trans hs.cap_le (hh _)⟩

/-! ### New arrays -/

theorem array_push_of_lt {h : Heap A} {k : ℕ} (l : List A) (hk : k < h.arrays.length) :
    (⟨h.arrays ++ [l]⟩ : Heap A).array k = h.array k := by
  simp [array, List.getD_eq_getElem?_getD, List.getElem?_append_left hk]

theorem array_push (h : Heap A) (l : List A) :
    (⟨h.arrays ++ [l]⟩ : Heap A).array h.arrays.length = l := by
  simp [array, List.getD_eq_getElem?_getD]

theorem grows_push (h : Heap A) (l : List A) : h.Grows ⟨h.arrays ++ [l]⟩ := by
  intro k
  by_cases hk : k < h.arrays.length
  · exact Nat.le_of_eq (by rw [array_push_of_lt l hk])
  · simp [array_eq_nil (Nat.le_of_not_lt hk)]

theorem cell_push {h : Heap A} {k : ℕ} (l : List A) (x : ℕ) (hk : k < h.arrays.length) :
    (⟨h.arrays ++ [l]⟩ : Heap A).cell k x = h.cell k x := by
  rw [cell, cell, array_push_of_lt l hk]

theorem valid_make (h : Heap A) (xs : List A) : (h.make xs).1.Valid (h.make xs).2 :=
  ⟨Nat.le_refl _, by simp [make, array_push]⟩

theorem grows_make (h : Heap A) (xs : List A) : h.Grows (h.make xs).1 := grows_push h xs

/-! ### Writing -/

theorem array_write (h : Heap A) (k i : ℕ) (xs : List A) (k' : ℕ) :
    (h.write k i xs).array k' =
      if k' = k then if k < h.arrays.length then
        (h.array k).take i ++ xs ++ (h.array k).drop (i + xs.length) else []
      else h.array k' := by
  simp only [write, array, List.getD_eq_getElem?_getD, List.getElem?_modify]
  split_ifs with hk hlt hk <;> subst_vars <;> simp_all

theorem grows_write {h : Heap A} {k i : ℕ} {xs : List A} (hi : i + xs.length ≤ (h.array k).length) :
    h.Grows (h.write k i xs) := by
  intro k'
  rw [array_write]
  split_ifs with hk hlt
  · subst hk
    simp only [List.length_append, List.length_take, List.length_drop]
    omega
  · simp [hk, array_eq_nil (Nat.le_of_not_lt hlt)]
  · exact Nat.le_refl _

theorem cell_write {h : Heap A} {k i : ℕ} {xs : List A} (hi : i + xs.length ≤ (h.array k).length)
    (k' x : ℕ) : (h.write k i xs).cell k' x =
      if k' = k ∧ i ≤ x ∧ x < i + xs.length then xs[x - i]? else h.cell k' x := by
  rw [cell, array_write]
  split_ifs with hk hlt hx hx hx
  · rw [List.append_assoc, List.getElem?_append_right (by simp; omega),
      List.getElem?_append_left (by simp; omega), List.length_take, Nat.min_eq_left (by omega)]
  · subst hk
    rw [List.append_assoc, List.getElem?_append, cell]
    split_ifs with hlo
    · rw [List.length_take] at hlo
      exact List.getElem?_take_of_lt (by omega)
    · rw [List.length_take, Nat.min_eq_left (by omega)] at hlo ⊢
      rw [List.getElem?_append_right (by omega), List.getElem?_drop]
      congr 1
      omega
  · have hnil : h.array k = [] := array_eq_nil (Nat.le_of_not_lt hlt)
    rw [hnil, List.length_nil] at hi
    omega
  · rw [hk, cell, array_eq_nil (Nat.le_of_not_lt hlt)]
  · exact absurd hx.1 hk
  · rfl

/-! ### Appending -/

section Append

variable {zero : A} {spare : ℕ → ℕ} {h : Heap A} {s w : Slice} {xs : List A}

theorem append_of_room (hroom : s.len + xs.length ≤ s.cap) : h.append zero spare s xs =
    (h.write s.array (s.offset + s.len) xs, { s with len := s.len + xs.length }) := if_pos hroom

theorem append_of_full (hfull : ¬s.len + xs.length ≤ s.cap) : h.append zero spare s xs =
    (⟨h.arrays ++ [h.read s ++ xs ++ List.replicate (spare (h.read s ++ xs).length) zero]⟩,
      ⟨h.arrays.length, 0, (h.read s ++ xs).length,
        (h.read s ++ xs).length + spare (h.read s ++ xs).length⟩) := if_neg hfull

theorem grows_append (hs : h.Valid s) : h.Grows (h.append zero spare s xs).1 := by
  have hcap := hs.cap_le
  by_cases hroom : s.len + xs.length ≤ s.cap
  · rw [append_of_room hroom]
    exact grows_write (by omega)
  · rw [append_of_full hroom]
    exact grows_push h _

theorem valid_append (hs : h.Valid s) :
    (h.append zero spare s xs).1.Valid (h.append zero spare s xs).2 := by
  by_cases hroom : s.len + xs.length ≤ s.cap
  · have hgrows : h.Grows (h.append zero spare s xs).1 := grows_append hs
    rw [append_of_room hroom] at hgrows ⊢
    exact ⟨hroom, Nat.le_trans hs.cap_le (hgrows _)⟩
  · rw [append_of_full hroom]
    exact ⟨Nat.le_add_right _ _, by simp [array_push, Nat.add_assoc]⟩

theorem read_append (hs : h.Valid s) :
    (h.append zero spare s xs).1.read (h.append zero spare s xs).2 = h.read s ++ xs := by
  have hlen := hs.len_le
  have hcap := hs.cap_le
  by_cases hroom : s.len + xs.length ≤ s.cap
  · rw [append_of_room hroom]
    refine List.ext_getElem? fun j => ?_
    rw [getElem?_read, cell_write (by omega), List.getElem?_append, hs.length_read, getElem?_read]
    dsimp only
    split_ifs with hj hx hlo hlo <;> try omega
    · congr 1
      omega
    · rfl
    · exact (List.getElem?_eq_none (by omega)).symm
  · rw [append_of_full hroom, read, array_push]
    exact List.take_left

/-- Appending one element changes at most the cell behind the window. -/
theorem cell_append_one {v : A} {k x : ℕ} (hs : h.Valid s) (hw : h.Valid w) (hx : w.Shows k x) :
    (h.append zero spare s [v]).1.cell k x = if s.Next k x then some v else h.cell k x := by
  have hcap := hs.cap_le
  by_cases hroom : s.len + [v].length ≤ s.cap
  · rw [append_of_room hroom, cell_write (by omega)]
    simp only [List.length_singleton] at hroom ⊢
    split_ifs with hin hnext hnext
    · rw [hnext.2.1]
      simp
    · exact absurd ⟨hin.1.symm, by omega, by omega⟩ hnext
    · exact absurd ⟨hnext.1.symm, by have := hnext.2.1; omega, by have := hnext.2.1; omega⟩ hin
    · rfl
  · rw [append_of_full hroom, cell_push _ _ (hw.array_lt hx), if_neg]
    intro hnext
    exact hroom hnext.2.2

theorem read_append_one_iff {v : A} (hs : h.Valid s) (hw : h.Valid w) :
    (h.append zero spare s [v]).1.read w = h.read w ↔
      ∀ x, w.Shows s.array x → s.Next s.array x → h.cell s.array x = some v := by
  rw [read_eq_read_iff]
  constructor
  · intro hcells x hx hnext
    have hcell := hcells x ⟨rfl, hx.2⟩
    rw [hx.1, cell_append_one hs hw hx, if_pos hnext] at hcell
    exact hcell.symm
  · intro hnext x hx
    rw [cell_append_one hs hw hx]
    split_ifs with hs'
    · rw [← hs'.1] at hx ⊢
      exact (hnext x hx ⟨rfl, hs'.2⟩).symm
    · rfl

/-! ### Closing a gap

    `append(s[:i], s[i+1:]...)` takes element `i` out of a slice: the elements behind it move one cell
    to the front. -/

variable {i : ℕ}

theorem room_of_gap (hs : h.Valid s) (hi : i < s.len) :
    (s.take i).len + ((h.read s).drop (i + 1)).length ≤ (s.take i).cap := by
  have hlen := hs.len_le
  rw [List.length_drop, hs.length_read]
  simp only [Slice.take]
  omega

theorem append_gap_snd (hs : h.Valid s) (hi : i < s.len) :
    (h.append zero spare (s.take i) ((h.read s).drop (i + 1))).2 = s.take (s.len - 1) := by
  rw [append_of_room (room_of_gap hs hi)]
  simp only [Slice.take, Slice.mk.injEq, List.length_drop, hs.length_read, true_and, and_true]
  omega

theorem read_append_gap (hs : h.Valid s) (hi : i < s.len) :
    (h.append zero spare (s.take i) ((h.read s).drop (i + 1))).1.read (s.take (s.len - 1)) =
      (h.read s).eraseIdx i := by
  have hlen := hs.len_le
  rw [← append_gap_snd hs hi, read_append (hs.take (by omega)), List.eraseIdx_eq_take_drop_succ]
  congr 1
  simp only [read, Slice.take, List.take_take]
  rw [Nat.min_eq_left (by omega)]

theorem cell_append_gap (hs : h.Valid s) (hi : i < s.len) (k x : ℕ) :
    (h.append zero spare (s.take i) ((h.read s).drop (i + 1))).1.cell k x =
      if s.array = k ∧ s.offset + i ≤ x ∧ x + 1 < s.offset + s.len then h.cell k (x + 1)
      else h.cell k x := by
  have hlen := hs.len_le
  have hcap := hs.cap_le
  have hdrop : ((h.read s).drop (i + 1)).length = s.len - (i + 1) := by
    rw [List.length_drop, hs.length_read]
  rw [append_of_room (room_of_gap hs hi)]
  change (h.write s.array (s.offset + i) ((h.read s).drop (i + 1))).cell k x = _
  rw [cell_write (by omega), hdrop]
  by_cases hin : s.array = k ∧ s.offset + i ≤ x ∧ x + 1 < s.offset + s.len
  · rw [if_pos hin, if_pos ⟨hin.1.symm, by omega, by omega⟩, List.getElem?_drop, getElem?_read,
      if_pos (by omega), hin.1]
    congr 1
    omega
  · rw [if_neg hin, if_neg]
    rintro ⟨hk, hlo, hhi⟩
    exact hin ⟨hk.symm, hlo, by omega⟩

end Append

end Heap

end GoServices.Slices
