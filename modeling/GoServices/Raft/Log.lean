import Mathlib.Data.Fintype.Card
import Mathlib.Data.List.Basic
import Mathlib.Order.Bounds.Defs

/-! The log of one Raft server (`raft_log.go`): a snapshot of a prefix and the entries after it.

    `tailLog` starts with a dummy entry that stands at index `snapLastIdx` and carries only the term
    `snapLastTerm`. Indexes outside `[snapLastIdx, size - 1]` panic in `idx`; a panic is `none` here.

        index     snapLastIdx   snapLastIdx+1   ...   size-1
        tailLog   dummy         entry                 entry

    `Repr rl X` relates such a log to the full list `X` of entries it stands for (index `i` of the
    log is the `i`-th entry of `X`, counted from 1); every operation is then an operation on `X`. -/

namespace GoServices.Consensus

/-- A log entry; `command` is `none` for Go's `nil`. -/
structure LogEntry (C : Type) where
  term : ℕ
  commandValid : Bool
  command : Option C
  deriving DecidableEq

/-- No term. -/
def invalidTerm : ℕ := 0
/-- No index. -/
def invalidIndex : ℕ := 0

/-- The entry `LogEntry{Term: term}` that stands in for the snapshot. -/
def dummy {C : Type} (term : ℕ) : LogEntry C := ⟨term, false, none⟩

/-- A log: the snapshot, and the entries behind it with a dummy in front. -/
structure RaftLog (C : Type) where
  snapLastIdx : ℕ
  snapLastTerm : ℕ
  snapshot : List UInt8
  tailLog : List (LogEntry C)
  deriving DecidableEq

variable {C : Type}

/-- A log that begins with a snapshot. -/
def newLog (snapLastIdx snapLastTerm : ℕ) (snapshot : List UInt8) (entries : List (LogEntry C)) :
    RaftLog C :=
  ⟨snapLastIdx, snapLastTerm, snapshot, dummy snapLastTerm :: entries⟩

namespace RaftLog

/-- The number of entries, compacted ones and the dummy included. -/
def size (rl : RaftLog C) : ℕ := rl.snapLastIdx + rl.tailLog.length

/-- Position in `tailLog` of a logical index; the bounds check panics. -/
def idx (rl : RaftLog C) (logicIdx : ℕ) : Option ℕ :=
  if logicIdx < rl.snapLastIdx ∨ rl.size ≤ logicIdx then none else some (logicIdx - rl.snapLastIdx)

/-- The source's `at`. -/
def entryAt (rl : RaftLog C) (logicIdx : ℕ) : Option (LogEntry C) :=
  (rl.idx logicIdx).bind fun i => rl.tailLog[i]?

/-- Index and term of the last entry; an empty `tailLog` would panic. -/
def last (rl : RaftLog C) : Option (ℕ × ℕ) :=
  (rl.tailLog[rl.tailLog.length - 1]?).map fun e => (rl.snapLastIdx + (rl.tailLog.length - 1), e.term)

/-- The scan of `firstFor`: stop at the first entry of the term, give up at a larger term. -/
def firstForLoop (term base : ℕ) : List (LogEntry C) → ℕ → ℕ
  | [], _ => invalidIndex
  | e :: es, i =>
    if e.term = term then i + base
    else if term < e.term then invalidIndex
    else firstForLoop term base es (i + 1)

/-- The first index with this term. -/
def firstFor (rl : RaftLog C) (term : ℕ) : ℕ := firstForLoop term rl.snapLastIdx rl.tailLog 0

/-- The entries from `startIdx` on; a compacted index panics. -/
def tail (rl : RaftLog C) (startIdx : ℕ) : Option (List (LogEntry C)) :=
  if rl.size ≤ startIdx then some [] else (rl.idx startIdx).map fun i => rl.tailLog.drop i

/-- One more entry. -/
def append (rl : RaftLog C) (e : LogEntry C) : RaftLog C := { rl with tailLog := rl.tailLog ++ [e] }

/-- Drop everything after `logicPrevIndex`, then append. -/
def appendFrom (rl : RaftLog C) (logicPrevIndex : ℕ) (entries : List (LogEntry C)) :
    Option (RaftLog C) :=
  (rl.idx logicPrevIndex).map fun i => { rl with tailLog := rl.tailLog.take (i + 1) ++ entries }

/-- The entries up to `index` are compacted; an index outside the log panics. -/
def doSnapshot (rl : RaftLog C) (index : ℕ) (snapshot : List UInt8) : Option (RaftLog C) :=
  (rl.idx index).bind fun i => (rl.tailLog[i]?).map fun e =>
    { snapLastIdx := index
      snapLastTerm := e.term
      snapshot := snapshot
      tailLog := dummy e.term :: rl.tailLog.drop (i + 1) }

/-- The whole log is replaced by a snapshot. -/
def installSnapshot (_ : RaftLog C) (index term : ℕ) (snapshot : List UInt8) : RaftLog C :=
  { snapLastIdx := index
    snapLastTerm := term
    snapshot := snapshot
    tailLog := [dummy term] }

/-! ### Searching for a term -/

/-- What `at` reads lies in `tailLog`. -/
theorem entryAt_eq_some {rl : RaftLog C} {i : ℕ} {e : LogEntry C} :
    rl.entryAt i = some e ↔ ∃ j, i = j + rl.snapLastIdx ∧ rl.tailLog[j]? = some e := by
  rw [entryAt, idx, size]
  constructor
  · intro h
    split_ifs at h with hi
    · exact absurd h (by simp)
    · exact ⟨i - rl.snapLastIdx, by omega, h⟩
  · rintro ⟨j, rfl, hj⟩
    have hlt := (List.getElem?_eq_some_iff.mp hj).1
    rw [if_neg (by omega), Option.bind_some, Nat.add_sub_cancel]
    exact hj

/-- The scan stops at an entry of the term, or says that there is none. -/
theorem firstForLoop_cases (term base : ℕ) (es : List (LogEntry C)) (i : ℕ) :
    firstForLoop term base es i = invalidIndex ∨
      ∃ j e, es[j]? = some e ∧ e.term = term ∧ firstForLoop term base es i = i + j + base := by
  induction es generalizing i with
  | nil => exact Or.inl rfl
  | cons x xs ih =>
    rw [firstForLoop]
    split_ifs with hx hlt
    · exact Or.inr ⟨0, x, rfl, hx, rfl⟩
    · exact Or.inl rfl
    · refine (ih (i + 1)).imp_right ?_
      rintro ⟨j, e, hj, he, heq⟩
      exact ⟨j + 1, e, hj, he, by omega⟩

/-- In a sorted list the scan finds a term that occurs, at its first place. -/
theorem firstForLoop_le {es : List (LogEntry C)} (hs : es.Pairwise (·.term ≤ ·.term)) {j : ℕ}
    {e : LogEntry C} (he : es[j]? = some e) (base i : ℕ) :
    ∃ k d, k ≤ j ∧ es[k]? = some d ∧ d.term = e.term ∧
      firstForLoop e.term base es i = i + k + base := by
  induction es generalizing i j with
  | nil => simp at he
  | cons x xs ih =>
    rw [List.pairwise_cons] at hs
    rw [firstForLoop]
    by_cases hx : x.term = e.term
    · exact ⟨0, x, Nat.zero_le j, rfl, hx, if_pos hx⟩
    · cases j with
      | zero => exact absurd (congrArg LogEntry.term (Option.some.inj he)) hx
      | succ j =>
        have hle := hs.1 e (List.mem_of_getElem? he)
        obtain ⟨k, d, hk, hd, hdt, heq⟩ := ih hs.2 he (i + 1)
        rw [if_neg hx, if_neg (Nat.not_lt_of_le hle)]
        exact ⟨k + 1, d, Nat.succ_le_succ hk, hd, hdt, by omega⟩

theorem firstFor_cases (rl : RaftLog C) (t : ℕ) :
    rl.firstFor t = invalidIndex ∨ ∃ e, rl.entryAt (rl.firstFor t) = some e ∧ e.term = t := by
  refine (firstForLoop_cases t rl.snapLastIdx rl.tailLog 0).imp_right ?_
  rintro ⟨j, e, hj, he, heq⟩
  exact ⟨e, entryAt_eq_some.mpr ⟨j, heq.trans (by rw [Nat.zero_add]), hj⟩, he⟩

theorem firstFor_le {rl : RaftLog C} (hs : rl.tailLog.Pairwise (·.term ≤ ·.term)) {i : ℕ}
    {e : LogEntry C} (he : rl.entryAt i = some e) :
    rl.firstFor e.term ≤ i ∧ ∃ d, rl.entryAt (rl.firstFor e.term) = some d ∧ d.term = e.term := by
  obtain ⟨j, rfl, hj⟩ := entryAt_eq_some.mp he
  obtain ⟨k, d, hk, hd, hdt, heq⟩ := firstForLoop_le hs hj rl.snapLastIdx 0
  rw [Nat.zero_add] at heq
  exact ⟨(le_of_eq heq).trans (Nat.add_le_add_right hk _), d, entryAt_eq_some.mpr ⟨k, heq, hd⟩, hdt⟩

/-- In a sorted log `firstFor` finds the first index of a term that occurs. -/
theorem firstFor_isLeast {rl : RaftLog C} (hs : rl.tailLog.Pairwise (·.term ≤ ·.term)) {t : ℕ}
    (ht : ∃ i e, rl.entryAt i = some e ∧ e.term = t) :
    IsLeast {i | ∃ e, rl.entryAt i = some e ∧ e.term = t} (rl.firstFor t) := by
  constructor
  · obtain ⟨i, e, he, rfl⟩ := ht
    exact (firstFor_le hs he).2
  · rintro j ⟨d, hd, rfl⟩
    exact (firstFor_le hs hd).1

theorem firstFor_eq_invalidIndex {rl : RaftLog C} {t : ℕ}
    (ht : ¬ ∃ i e, rl.entryAt i = some e ∧ e.term = t) : rl.firstFor t = invalidIndex :=
  (rl.firstFor_cases t).resolve_right fun ⟨e, he, het⟩ => ht ⟨_, e, he, het⟩

end RaftLog

/-! ### The full log behind a compacted one -/

/-- Term at an index of a full log; index 0 is before the first entry and has term 0. -/
def termAt (X : List (LogEntry C)) : ℕ → ℕ
  | 0 => 0
  | i + 1 => ((X[i]?).map LogEntry.term).getD 0

/-- `rl` is the full log `X` with its first `snapLastIdx` entries compacted away. -/
structure Repr (rl : RaftLog C) (X : List (LogEntry C)) : Prop where
  le : rl.snapLastIdx ≤ X.length
  term : rl.snapLastTerm = termAt X rl.snapLastIdx
  tail : rl.tailLog = dummy rl.snapLastTerm :: X.drop rl.snapLastIdx

theorem termAt_of_getElem? {X : List (LogEntry C)} {i : ℕ} {e : LogEntry C} (hi : 0 < i)
    (he : X[i - 1]? = some e) : termAt X i = e.term := by
  obtain ⟨j, rfl⟩ := Nat.exists_eq_add_of_lt hi
  simp only [Nat.zero_add, Nat.add_sub_cancel] at he
  simp [termAt, he]

theorem exists_getElem? {X : List (LogEntry C)} {i : ℕ} (hi : 0 < i) (hle : i ≤ X.length) :
    ∃ e, X[i - 1]? = some e ∧ e.term = termAt X i := by
  have hlt : i - 1 < X.length := by omega
  exact ⟨X[i - 1], List.getElem?_eq_getElem hlt,
    (termAt_of_getElem? hi (List.getElem?_eq_getElem hlt)).symm⟩

/-- Terms up to an index depend on the prefix only. -/
theorem termAt_prefix {X Y : List (LogEntry C)} {i : ℕ} (h : X.take i = Y.take i) :
    termAt X i = termAt Y i := by
  cases i with
  | zero => rfl
  | succ j =>
    have hget : ∀ Z : List (LogEntry C), Z[j]? = (Z.take (j + 1))[j]? :=
      fun Z => (List.getElem?_take_of_lt (by omega)).symm
    simp only [termAt]
    rw [hget X, hget Y, h]

namespace Repr

variable {rl : RaftLog C} {X : List (LogEntry C)}

theorem new : Repr (newLog 0 0 [] [] : RaftLog C) [] := ⟨le_refl _, rfl, rfl⟩

theorem size (h : Repr rl X) : rl.size = X.length + 1 := by
  have := h.le
  rw [RaftLog.size, h.tail, List.length_cons, List.length_drop]
  omega

theorem idx (h : Repr rl X) {i : ℕ} (hlo : rl.snapLastIdx ≤ i) (hhi : i ≤ X.length) :
    rl.idx i = some (i - rl.snapLastIdx) := by
  rw [RaftLog.idx, if_neg]
  rw [h.size]; omega

/-- Above the snapshot the log holds the entries of the full log. -/
theorem entryAt (h : Repr rl X) {i : ℕ} (hlo : rl.snapLastIdx < i) (hhi : i ≤ X.length) :
    rl.entryAt i = X[i - 1]? := by
  rw [RaftLog.entryAt, h.idx (le_of_lt hlo) hhi, Option.bind_some, h.tail]
  obtain ⟨j, hj⟩ : ∃ j, i - rl.snapLastIdx = j + 1 := ⟨i - rl.snapLastIdx - 1, by omega⟩
  rw [hj, List.getElem?_cons_succ, List.getElem?_drop]
  congr 1; omega

theorem entryAt_snap (h : Repr rl X) : rl.entryAt rl.snapLastIdx = some (dummy rl.snapLastTerm) := by
  rw [RaftLog.entryAt, h.idx (le_refl _) h.le, Option.bind_some, h.tail, Nat.sub_self]
  rfl

/-- At and above the snapshot the log knows the terms of the full log. -/
theorem entryAt_term (h : Repr rl X) {i : ℕ} (hlo : rl.snapLastIdx ≤ i) (hhi : i ≤ X.length) :
    ∃ e, rl.entryAt i = some e ∧ e.term = termAt X i := by
  rcases Nat.lt_or_eq_of_le hlo with hlt | rfl
  · obtain ⟨e, he, ht⟩ := exists_getElem? (by omega) hhi
    exact ⟨e, by rw [h.entryAt hlt hhi, he], ht⟩
  · exact ⟨_, h.entryAt_snap, h.term⟩

/-- An entry that `at` returns lies inside the log. -/
theorem of_entryAt (h : Repr rl X) {i : ℕ} {e : LogEntry C} (he : rl.entryAt i = some e) :
    rl.snapLastIdx ≤ i ∧ i ≤ X.length := by
  rw [RaftLog.entryAt, RaftLog.idx, h.size] at he
  split_ifs at he with hi
  · simp at he
  · omega

theorem term_of_entryAt (h : Repr rl X) {i : ℕ} {e : LogEntry C} (he : rl.entryAt i = some e) :
    rl.snapLastIdx ≤ i ∧ i ≤ X.length ∧ e.term = termAt X i := by
  obtain ⟨hlo, hhi⟩ := h.of_entryAt he
  obtain ⟨d, hd, hdt⟩ := h.entryAt_term hlo hhi
  obtain rfl := Option.some.inj (he.symm.trans hd)
  exact ⟨hlo, hhi, hdt⟩

theorem last (h : Repr rl X) : rl.last = some (X.length, termAt X X.length) := by
  obtain ⟨e, he, ht⟩ := h.entryAt_term h.le (le_refl _)
  have hlen : rl.tailLog.length - 1 = X.length - rl.snapLastIdx := by
    rw [h.tail, List.length_cons, List.length_drop]; omega
  rw [RaftLog.entryAt, h.idx h.le (le_refl _), Option.bind_some] at he
  rw [RaftLog.last, hlen, he, Option.map_some, ht]
  have := h.le
  congr 2; omega

theorem tail_eq (h : Repr rl X) {i : ℕ} (hlo : rl.snapLastIdx < i) :
    rl.tail i = some (X.drop (i - 1)) := by
  rw [RaftLog.tail, h.size]; split_ifs with hi
  · rw [List.drop_of_length_le (by omega)]
  · rw [h.idx (le_of_lt hlo) (by omega), Option.map_some, h.tail]
    obtain ⟨j, hj⟩ : ∃ j, i - rl.snapLastIdx = j + 1 := ⟨i - rl.snapLastIdx - 1, by omega⟩
    rw [hj, List.drop_succ_cons, List.drop_drop]
    congr 2; omega

theorem append (h : Repr rl X) (e : LogEntry C) : Repr (rl.append e) (X ++ [e]) := by
  have hle := h.le
  refine ⟨?_, ?_, ?_⟩
  · simp only [RaftLog.append, List.length_append]; omega
  · simp only [RaftLog.append]
    rw [h.term]
    exact termAt_prefix (List.take_append_of_le_length hle).symm
  · simp only [RaftLog.append]
    rw [h.tail, List.drop_append_of_le_length hle, List.cons_append]

/-- `appendFrom` inside the log keeps the entries up to `prev`. -/
theorem appendFrom (h : Repr rl X) {prev : ℕ} (hlo : rl.snapLastIdx ≤ prev) (hhi : prev ≤ X.length)
    (es : List (LogEntry C)) : ∃ rl', rl.appendFrom prev es = some rl' ∧
      Repr rl' (X.take prev ++ es) ∧ rl'.snapLastIdx = rl.snapLastIdx ∧
      rl'.snapshot = rl.snapshot := by
  refine ⟨{ rl with tailLog := rl.tailLog.take (prev - rl.snapLastIdx + 1) ++ es },
    by rw [RaftLog.appendFrom, h.idx hlo hhi, Option.map_some], ⟨?_, ?_, ?_⟩, rfl, rfl⟩
  · simp only [List.length_append, List.length_take]; omega
  · simp only
    rw [h.term]
    refine termAt_prefix ?_
    rw [List.take_append_of_le_length (by rw [List.length_take]; omega), List.take_take,
      Nat.min_eq_left hlo]
  · simp only
    rw [h.tail, List.take_succ_cons, List.cons_append, List.drop_append_of_le_length (by
      rw [List.length_take]; omega), List.take_drop]
    congr 4; omega

/-- `doSnapshot` inside the log compacts without changing the full log. -/
theorem doSnapshot (h : Repr rl X) {index : ℕ} (hlo : rl.snapLastIdx ≤ index)
    (hhi : index ≤ X.length) (snapshot : List UInt8) :
    ∃ rl', rl.doSnapshot index snapshot = some rl' ∧ Repr rl' X ∧ rl'.snapLastIdx = index := by
  obtain ⟨e, he, ht⟩ := h.entryAt_term hlo hhi
  rw [RaftLog.entryAt, h.idx hlo hhi, Option.bind_some] at he
  refine ⟨_, by rw [RaftLog.doSnapshot, h.idx hlo hhi, Option.bind_some, he, Option.map_some],
    ⟨hhi, ht, ?_⟩, rfl⟩
  simp only
  rw [h.tail, List.drop_succ_cons, List.drop_drop]
  congr 2; omega

/-- Compaction keeps a log sorted by terms. -/
theorem pairwise (h : Repr rl X) (hX : X.Pairwise (·.term ≤ ·.term)) :
    rl.tailLog.Pairwise (·.term ≤ ·.term) := by
  rw [h.tail, List.pairwise_cons]
  refine ⟨fun e he => ?_, hX.sublist (List.drop_sublist _ _)⟩
  show rl.snapLastTerm ≤ e.term
  rw [h.term]
  rcases Nat.eq_zero_or_pos rl.snapLastIdx with h0 | hpos
  · rw [h0]
    exact Nat.zero_le _
  · -- the last compacted entry stands before `e`
    obtain ⟨d, hd, hdt⟩ := exists_getElem? hpos h.le
    rw [← List.take_append_drop rl.snapLastIdx X, List.pairwise_append] at hX
    have hmem : (X.take rl.snapLastIdx)[rl.snapLastIdx - 1]? = some d := by
      rw [List.getElem?_take_of_lt (by omega)]
      exact hd
    rw [← hdt]
    exact hX.2.2 d (List.mem_of_getElem? hmem) e he

/-- A bound on the terms of the full log is one on those of `tailLog`, the dummy entry included. -/
theorem term_le (h : Repr rl X) {t : ℕ} (hX : ∀ e ∈ X, e.term ≤ t) :
    ∀ e ∈ rl.tailLog, e.term ≤ t := by
  intro e he
  rw [h.tail, List.mem_cons] at he
  rcases he with rfl | he
  · show rl.snapLastTerm ≤ t
    rw [h.term]
    rcases Nat.eq_zero_or_pos rl.snapLastIdx with h0 | hpos
    · rw [h0]
      exact Nat.zero_le t
    · obtain ⟨d, hd, hdt⟩ := exists_getElem? hpos h.le
      exact hdt ▸ hX d (List.mem_of_getElem? hd)
  · exact hX e (List.mem_of_mem_drop he)

theorem installSnapshot (rl : RaftLog C) {Y : List (LogEntry C)} {index : ℕ}
    (hle : index ≤ Y.length) (snapshot : List UInt8) :
    Repr (rl.installSnapshot index (termAt Y index) snapshot) (Y.take index) := by
  have hlen : (Y.take index).length = index := by rw [List.length_take]; omega
  refine ⟨le_of_eq hlen.symm, ?_, ?_⟩
  · refine termAt_prefix (Y := Y.take index) (i := index) ?_
    rw [List.take_take, Nat.min_self]
  · simp only [RaftLog.installSnapshot]
    rw [List.drop_of_length_le (le_of_eq hlen)]

end Repr

end GoServices.Consensus
