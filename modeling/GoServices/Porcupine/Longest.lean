import GoServices.Porcupine.Checker

/-! The table `longest` of the checker: for every operation the longest order seen that holds it. -/

namespace GoServices.Porcupine

variable {I O S : Type}

/-- The sequence recorded for an operation. -/
def longestSeq (seqs : List (List ℕ)) (longest : List (Option ℕ)) (i : ℕ) : Option (List ℕ) :=
  longest[i]?.join.bind fun p => seqs[p]?

/-- The length of the longest sequence recorded for operation `i`. -/
def longestLen (seqs : List (List ℕ)) (longest : List (Option ℕ)) (i : ℕ) : ℕ :=
  ((longestSeq seqs longest i).getD []).length

/-- The pointers lead to sequences that exist. -/
def Pointed (seqs : List (List ℕ)) (longest : List (Option ℕ)) : Prop :=
  ∀ (i q : ℕ), longest[i]? = some (some q) → q < seqs.length

variable {seqs : List (List ℕ)} {longest longest' longest'' : List (Option ℕ)} {p i : ℕ}
  {seq ids : List ℕ}

theorem longestSeq_of_getElem? {q : ℕ} (h : longest[i]? = some (some q)) :
    longestSeq seqs longest i = seqs[q]? := by simp [longestSeq, h]

theorem longestSeq_congr (h : longest'[i]? = longest[i]?) :
    longestSeq seqs longest' i = longestSeq seqs longest i := by rw [longestSeq, h, longestSeq]

theorem exists_of_longestSeq (h : longestSeq seqs longest i = some seq) :
    ∃ q, longest[i]? = some (some q) ∧ seqs[q]? = some seq := by
  obtain ⟨q, hq, hseq⟩ := Option.bind_eq_some_iff.mp h
  exact ⟨q, Option.join_eq_some_iff.mp hq, hseq⟩

/-- A new sequence changes nothing as long as nothing points to it. -/
theorem longestSeq_append (h : Pointed seqs longest) (seq : List ℕ) (i : ℕ) :
    longestSeq (seqs ++ [seq]) longest i = longestSeq seqs longest i := by
  rw [longestSeq, longestSeq]
  cases hi : longest[i]?.join with
  | none => rfl
  | some q =>
    rw [Option.bind_some, Option.bind_some]
    exact List.getElem?_append_left (h i q (Option.join_eq_some_iff.mp hi))

/-- What recording the sequence at `p` for the operations `ids` leads to. -/
structure Recorded (seqs : List (List ℕ)) (p : ℕ) (seq ids : List ℕ)
    (longest longest' : List (Option ℕ)) : Prop where
  length_eq : longest'.length = longest.length
  same_or : ∀ i : ℕ, longest'[i]? = longest[i]? ∨ i ∈ ids ∧ longest'[i]? = some (some p)
  mono : ∀ i : ℕ, longestLen seqs longest i ≤ longestLen seqs longest' i
  ge : ∀ i ∈ ids, seq.length ≤ longestLen seqs longest' i

theorem exists_recordOne (hp : seqs[p]? = some seq) (hi : i < longest.length)
    (hptr : Pointed seqs longest) :
    ∃ longest', Frame.recordOne seqs p seq.length longest i = some longest' ∧
      Recorded seqs p seq [i] longest longest' := by
  have hself : (longest.set i (some p))[i]? = some (some p) := List.getElem?_set_self hi
  have hlen : longestLen seqs (longest.set i (some p)) i = seq.length := by
    rw [longestLen, longestSeq_of_getElem? hself, hp, Option.getD_some]
  -- the entry is replaced by the new sequence, which is not shorter
  have hset : longestLen seqs longest i ≤ seq.length →
      Recorded seqs p seq [i] longest (longest.set i (some p)) := by
    intro hle
    refine ⟨List.length_set, fun j => ?_, fun j => ?_, fun j hj => ?_⟩
    · by_cases hj : j = i
      · exact .inr ⟨by simp [hj], hj ▸ hself⟩
      · exact .inl (List.getElem?_set_ne (Ne.symm hj))
    · by_cases hj : j = i
      · rw [hj, hlen]
        exact hle
      · exact Nat.le_of_eq (by
          rw [longestLen, longestLen, longestSeq_congr (List.getElem?_set_ne (Ne.symm hj))])
    · exact Nat.le_of_eq (by rw [List.mem_singleton.mp hj, hlen])
  rw [Frame.recordOne, List.getElem?_eq_getElem hi]
  cases hold : longest[i] with
  | none =>
    have hnil : longestSeq seqs longest i = none := by
      simp [longestSeq, List.getElem?_eq_getElem hi, hold]
    exact ⟨_, rfl, hset (by rw [longestLen, hnil]; simp)⟩
  | some q =>
    have hq : longest[i]? = some (some q) := by rw [List.getElem?_eq_getElem hi, hold]
    have hlt := hptr i q hq
    have hold' : longestLen seqs longest i = seqs[q].length := by
      rw [longestLen, longestSeq_of_getElem? hq, List.getElem?_eq_getElem hlt, Option.getD_some]
    simp only [Option.bind_eq_bind, Option.bind_some, List.getElem?_eq_getElem hlt]
    split
    · exact ⟨_, rfl, hset (by omega)⟩
    · refine ⟨_, rfl, rfl, fun j => .inl rfl, fun j => Nat.le_refl _, fun j hj => ?_⟩
      rw [List.mem_singleton.mp hj]
      omega

theorem Recorded.pointed (h : Recorded seqs p seq ids longest longest') (hp : seqs[p]? = some seq)
    (hptr : Pointed seqs longest) : Pointed seqs longest' := by
  intro i q hq
  obtain hsame | ⟨-, hnew⟩ := h.same_or i
  · exact hptr i q (hsame ▸ hq)
  · obtain rfl : p = q := by simpa [hnew] using hq
    exact (List.getElem?_eq_some_iff.mp hp).1

/-- The loop over all operations on the stack. -/
theorem exists_recorded (hp : seqs[p]? = some seq) :
    ∀ (ids : List ℕ) (longest : List (Option ℕ)), (∀ i ∈ ids, i < longest.length) →
      Pointed seqs longest →
      ∃ longest', ids.foldlM (Frame.recordOne seqs p seq.length) longest = some longest' ∧
        Recorded seqs p seq ids longest longest' := by
  intro ids
  induction ids with
  | nil =>
    intro longest _ _
    exact ⟨longest, rfl, rfl, fun j => .inl rfl, fun j => Nat.le_refl _, by simp⟩
  | cons id ids ih =>
    intro longest hids hptr
    obtain ⟨longest₁, h₁, hrec₁⟩ := exists_recordOne hp (hids id List.mem_cons_self) hptr
    have hlt : ∀ i ∈ ids, i < longest₁.length := by
      intro i hi
      rw [hrec₁.length_eq]
      exact hids i (List.mem_cons_of_mem id hi)
    obtain ⟨longest₂, h₂, hrec₂⟩ := ih longest₁ hlt (hrec₁.pointed hp hptr)
    refine ⟨longest₂, by rw [List.foldlM_cons, h₁]; exact h₂, ?_, fun j => ?_, fun j => ?_,
      fun j hj => ?_⟩
    · exact hrec₂.length_eq.trans hrec₁.length_eq
    · rcases hrec₂.same_or j with hsame | ⟨hj, hnew⟩
      · rw [hsame]
        rcases hrec₁.same_or j with hsame₁ | ⟨hj, hnew⟩
        · exact .inl hsame₁
        · exact .inr ⟨by simp [List.mem_singleton.mp hj], hnew⟩
      · exact .inr ⟨List.mem_cons_of_mem id hj, hnew⟩
    · exact Nat.le_trans (hrec₁.mono j) (hrec₂.mono j)
    · obtain rfl | hj := List.mem_cons.mp hj
      · exact Nat.le_trans (hrec₁.ge j (List.mem_singleton_self j)) (hrec₂.mono j)
      · exact hrec₂.ge j hj

end GoServices.Porcupine
