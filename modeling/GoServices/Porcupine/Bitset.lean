import Mathlib.Data.List.Basic
import Mathlib.Data.Nat.Notation
import Mathlib.Tactic.SplitIfs

/-! The bit sets of the linearizability checker (`porcupine/bitset.go`).

    A set is a list of 64-bit words; an index beyond the last word panics. -/

namespace GoServices.Porcupine

/-- The words of a bitset, lowest first. -/
abbrev Bitset := List (BitVec 64)

namespace Bitset

/-- A bitset with room for `bits` bits, none of them set. -/
def newBitset (bits : ℕ) : Bitset :=
  let extra := if bits % 64 ≠ 0 then 1 else 0
  List.replicate (bits / 64 + extra) 0

/-- The word that holds a bit, and the place of the bit in it. -/
def bitsetIndex (pos : ℕ) : ℕ × ℕ := (pos / 64, pos % 64)

/-- Sets a bit; a position outside the slice panics. -/
def set (b : Bitset) (pos : ℕ) : Option Bitset :=
  let (major, minor) := bitsetIndex pos
  b[major]?.map fun word => List.set b major (word ||| 1#64 <<< minor)

/-- Clears a bit; a position outside the slice panics. -/
def clear (b : Bitset) (pos : ℕ) : Option Bitset :=
  let (major, minor) := bitsetIndex pos
  b[major]?.map fun word => List.set b major (word &&& ~~~(1#64 <<< minor))

/-- The number of bits that are set. -/
def popcnt (b : Bitset) : ℕ := b.foldl (fun total v => total + v.cpop.toNat) 0

/-- The exclusive or of the words, started with the number of set bits. -/
def hash (b : Bitset) : BitVec 64 := b.foldl (· ^^^ ·) (BitVec.ofNat 64 b.popcnt)

/-- Whether two bitsets have the same words. -/
def equals (b b2 : Bitset) : Bool :=
  if b.length ≠ b2.length then false else (b.zip b2).all fun p => p.1 == p.2

/-- Whether a position is in the set. -/
def bit (b : Bitset) (pos : ℕ) : Bool := (b[pos / 64]?.getD 0).getLsbD (pos % 64)

theorem getLsbD_one_shiftLeft (i j : ℕ) (hi : i < 64) :
    (1#64 <<< i).getLsbD j = decide (j = i) := by
  rw [← BitVec.twoPow_eq, BitVec.getLsbD_twoPow]
  simp [hi, eq_comm]

theorem getLsbD_bit (b : Bitset) (word : BitVec 64) (pos : ℕ) (h : b[pos / 64]? = some word) :
    word.getLsbD (pos % 64) = bit b pos := by simp [bit, h]

/-- What a change of one word at `pos` does to the bits. -/
theorem bit_set {b : Bitset} {pos : ℕ} (h : pos / 64 < b.length) (word : BitVec 64) (q : ℕ) :
    bit (List.set b (pos / 64) word) q =
      if q / 64 = pos / 64 then word.getLsbD (q % 64) else bit b q := by
  unfold bit
  split_ifs with hq
  · rw [hq, List.getElem?_set_self h, Option.getD_some]
  · rw [List.getElem?_set_ne (Ne.symm hq)]

theorem exists_set {b : Bitset} {pos : ℕ} (h : pos / 64 < b.length) :
    ∃ b', b.set pos = some b' ∧ b'.length = b.length ∧
      ∀ q, bit b' q = (bit b q || decide (q = pos)) := by
  have hlt : pos % 64 < 64 := Nat.mod_lt _ (by decide)
  refine ⟨List.set b (pos / 64) (b[pos / 64] ||| 1#64 <<< (pos % 64)), ?_, List.length_set, ?_⟩
  · simp [set, bitsetIndex, h]
  · intro q
    rw [bit_set h]
    split_ifs with hq
    · have hsame : q % 64 = pos % 64 ↔ q = pos := by omega
      rw [BitVec.getLsbD_or, getLsbD_one_shiftLeft _ _ hlt, ← getLsbD_bit b b[pos / 64] q]
      · simp [hsame]
      · rw [hq, List.getElem?_eq_getElem h]
    · have hne : q ≠ pos := fun h => hq (by rw [h])
      simp [hne]

theorem exists_clear {b : Bitset} {pos : ℕ} (h : pos / 64 < b.length) :
    ∃ b', b.clear pos = some b' ∧ b'.length = b.length ∧
      ∀ q, bit b' q = (bit b q && !decide (q = pos)) := by
  have hlt : pos % 64 < 64 := Nat.mod_lt _ (by decide)
  refine ⟨List.set b (pos / 64) (b[pos / 64] &&& ~~~(1#64 <<< (pos % 64))), ?_, List.length_set, ?_⟩
  · simp [clear, bitsetIndex, h]
  · intro q
    rw [bit_set h]
    split_ifs with hq
    · have hsame : q % 64 = pos % 64 ↔ q = pos := by omega
      have hqlt : q % 64 < 64 := Nat.mod_lt _ (by decide)
      rw [BitVec.getLsbD_and, BitVec.getLsbD_not, getLsbD_one_shiftLeft _ _ hlt,
        ← getLsbD_bit b b[pos / 64] q]
      · simp [hsame, hqlt]
      · rw [hq, List.getElem?_eq_getElem h]
    · have hne : q ≠ pos := fun h => hq (by rw [h])
      simp [hne]

/-- A set is determined by its length and its bits. -/
theorem eq_of_bit {b b' : Bitset} (hlen : b.length = b'.length) (h : ∀ q, bit b q = bit b' q) :
    b = b' := by
  refine List.ext_getElem hlen fun i hi hi' => BitVec.eq_of_getLsbD_eq fun j hj => ?_
  have hq := h (64 * i + j)
  have hdiv : (64 * i + j) / 64 = i := by omega
  have hmod : (64 * i + j) % 64 = j := by omega
  rw [bit, bit, hdiv, hmod, List.getElem?_eq_getElem hi, List.getElem?_eq_getElem hi'] at hq
  exact hq

/-- Clearing a bit that was just set gives the old set back. -/
theorem clear_of_set {b b' : Bitset} {pos : ℕ} (h : b.set pos = some b') (hbit : bit b pos = false) :
    b'.clear pos = some b := by
  have hlt : pos / 64 < b.length := by
    rw [set, bitsetIndex] at h
    by_contra hge
    simp [List.getElem?_eq_none (Nat.le_of_not_lt hge)] at h
  obtain ⟨b₁, h₁, hlen₁, hbit₁⟩ := exists_set hlt
  obtain rfl : b₁ = b' := Option.some.inj (h₁.symm.trans h)
  obtain ⟨b₂, h₂, hlen₂, hbit₂⟩ := exists_clear (show pos / 64 < b₁.length by omega)
  rw [h₂, eq_of_bit (hlen₂.trans hlen₁) fun q => ?_]
  rw [hbit₂, hbit₁]
  by_cases hq : q = pos
  · simp [hq, hbit]
  · simp [hq]

theorem equals_iff {b b2 : Bitset} : b.equals b2 = true ↔ b = b2 := by
  induction b generalizing b2 with
  | nil => cases b2 <;> simp [equals]
  | cons word b ih =>
    cases b2 with
    | nil => simp [equals]
    | cons word2 b2 =>
      have := @ih b2
      simp only [equals, ne_eq, ite_not, Bool.if_false_right, Bool.and_eq_true, decide_eq_true_eq]
        at this
      simp only [equals, List.length_cons, ne_eq, Nat.add_right_cancel_iff, ite_not,
        Bool.if_false_right, List.zip_cons_cons, List.all_cons, Bool.and_eq_true, decide_eq_true_eq,
        beq_iff_eq, List.cons.injEq, ← this]
      tauto

theorem length_newBitset (n : ℕ) : n ≤ 64 * (newBitset n).length := by
  simp only [newBitset, List.length_replicate]
  split_ifs <;> omega

theorem bit_newBitset (n q : ℕ) : bit (newBitset n) q = false := by
  rw [bit, newBitset]
  simp only [List.getElem?_replicate]
  split_ifs <;> simp

/-- The set with the positions `c`, as long as `n` positions need. -/
structure Holds (n : ℕ) (c : List ℕ) (b : Bitset) : Prop where
  length_eq : b.length = (newBitset n).length
  bit_iff : ∀ q, bit b q = true ↔ q ∈ c

variable {n : ℕ} {c d : List ℕ} {b b' : Bitset}

theorem holds_newBitset (n : ℕ) : Holds n [] (newBitset n) :=
  ⟨rfl, fun q => by simp [bit_newBitset]⟩

/-- Adding a position, and taking it away again. -/
theorem Holds.exists_set (h : Holds n c b) {pos : ℕ} (hpos : pos < n) (hc : pos ∉ c) :
    ∃ b', b.set pos = some b' ∧ Holds n (c ++ [pos]) b' ∧ b'.clear pos = some b := by
  have hlt : pos / 64 < b.length := by
    have := length_newBitset n
    rw [h.length_eq]
    omega
  obtain ⟨b', hb', hlen, hbit⟩ := Bitset.exists_set hlt
  refine ⟨b', hb', ⟨hlen.trans h.length_eq, fun q => ?_⟩, clear_of_set hb' ?_⟩
  · rw [hbit, Bool.or_eq_true, h.bit_iff, decide_eq_true_eq]
    simp
  · rw [← Bool.not_eq_true, h.bit_iff]
    exact hc

/-- Equal sets hold the same positions. -/
theorem Holds.mem_iff (h : Holds n c b) (h' : Holds n d b) (q : ℕ) : q ∈ c ↔ q ∈ d := by
  rw [← h.bit_iff, h'.bit_iff]

end Bitset

end GoServices.Porcupine
