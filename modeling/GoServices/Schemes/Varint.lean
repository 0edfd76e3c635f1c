import Mathlib.Data.BitVec
import Mathlib.Tactic.SplitIfs

/-! Words as bytes of seven bits each, lowest first; every byte but the last has its high bit set.

    `read` takes bytes until one has no high bit and adds up what it sees, each group shifted into
    its place; it also says how many bytes it took, or that the bytes ended inside the number. -/

namespace GoServices.Varint

variable {w : ℕ}

/-- The number in groups of seven bits, lowest first, with a high bit on all but the last. -/
def write (n : BitVec w) : List UInt8 :=
  if n >>> 7 ≠ 0 then (UInt8.ofNat (n.toNat % 128) + 128) :: write (n >>> 7)
  else [UInt8.ofNat (n.toNat % 128)]
termination_by n.toNat
decreasing_by
  rename_i h
  have hne : (n >>> 7).toNat ≠ 0 := fun h0 => h (BitVec.eq_of_toNat_eq (by simpa using h0))
  rw [BitVec.toNat_ushiftRight, Nat.shiftRight_eq_div_pow] at hne ⊢
  omega

/-- `k` groups have been read and `acc` is what they add up to. -/
def read : List UInt8 → ℕ → BitVec w → BitVec w × Option ℕ
  | [], _, acc => (acc, none)
  | b :: rest, k, acc =>
    let acc := acc + ((b &&& 0x7F).toBitVec.setWidth w <<< (7 * k))
    if b < 128 then (acc, some (k + 1)) else read rest (k + 1) acc

/-! ### The two halves of a word -/

theorem group_toNat (n : ℕ) : ((UInt8.ofNat (n % 128) &&& 0x7F : UInt8)).toNat = n % 128 := by
  rw [UInt8.toNat_and, show (0x7F : UInt8).toNat = 2 ^ 7 - 1 from rfl, Nat.and_two_pow_sub_one_eq_mod,
    UInt8.toNat_ofNat']
  omega

theorem group_high_toNat (n : ℕ) : ((UInt8.ofNat (n % 128) + 128 &&& 0x7F : UInt8)).toNat = n % 128 := by
  rw [UInt8.toNat_and, show (0x7F : UInt8).toNat = 2 ^ 7 - 1 from rfl, Nat.and_two_pow_sub_one_eq_mod,
    UInt8.toNat_add, UInt8.toNat_ofNat']
  have : (128 : UInt8).toNat = 128 := rfl
  omega

theorem ofNat_lt (n : ℕ) : UInt8.ofNat (n % 128) < 128 := by
  rw [UInt8.lt_iff_toNat_lt, UInt8.toNat_ofNat']
  have : (128 : UInt8).toNat = 128 := rfl
  omega

theorem not_ofNat_high_lt (n : ℕ) : ¬ UInt8.ofNat (n % 128) + 128 < 128 := by
  rw [UInt8.lt_iff_toNat_lt, UInt8.toNat_add, UInt8.toNat_ofNat']
  have : (128 : UInt8).toNat = 128 := rfl
  omega

theorem setWidth_group {b : UInt8} {n : BitVec w} (h : b.toNat = n.toNat % 128) :
    b.toBitVec.setWidth w = BitVec.ofNat w (n.toNat % 128) := by
  apply BitVec.eq_of_toNat_eq
  rw [BitVec.toNat_setWidth, BitVec.toNat_ofNat, ← h]
  rfl

/-- The low group and the rest, each in its place. -/
theorem low_add_high (n : BitVec w) : BitVec.ofNat w (n.toNat % 128) + (n >>> 7) <<< 7 = n := by
  apply BitVec.eq_of_toNat_eq
  rw [BitVec.toNat_add, BitVec.toNat_ofNat, BitVec.toNat_shiftLeft, BitVec.toNat_ushiftRight,
    Nat.shiftRight_eq_div_pow, Nat.shiftLeft_eq, ← Nat.add_mod]
  have hlt := n.isLt
  rw [show n.toNat % 128 + n.toNat / 2 ^ 7 * 2 ^ 7 = n.toNat by omega]
  exact Nat.mod_eq_of_lt hlt

/-! ### Reading what was written -/

theorem read_write (n : BitVec w) (rest : List UInt8) (k : ℕ) (acc : BitVec w) :
    read (write n ++ rest) k acc = (acc + n <<< (7 * k), some (k + (write n).length)) := by
  induction hn : n.toNat using Nat.strong_induction_on generalizing n k acc with
  | _ _ ih =>
    rw [write]
    split_ifs with hhigh
    · have hlt : (n >>> 7).toNat < n.toNat := by
        have hne : (n >>> 7).toNat ≠ 0 := fun h0 => hhigh (BitVec.eq_of_toNat_eq (by simpa using h0))
        rw [BitVec.toNat_ushiftRight, Nat.shiftRight_eq_div_pow] at hne ⊢
        omega
      rw [List.cons_append, read, if_neg (not_ofNat_high_lt _), setWidth_group (group_high_toNat _),
        ih _ (hn ▸ hlt) (n >>> 7) _ _ rfl]
      refine Prod.ext ?_ ?_
      · have hshift : (n >>> 7) <<< (7 * (k + 1)) = ((n >>> 7) <<< 7) <<< (7 * k) := by
          rw [← BitVec.shiftLeft_add, show 7 + 7 * k = 7 * (k + 1) by omega]
        rw [hshift, BitVec.add_assoc, ← BitVec.shiftLeft_add_distrib, low_add_high]
      · rw [List.length_cons]
        exact congrArg some (by omega)
    · have hzero : n >>> 7 = 0 := not_not.mp hhigh
      have hlow : BitVec.ofNat w (n.toNat % 128) = n := by
        simpa [hzero] using low_add_high n
      rw [List.cons_append, read, if_pos (ofNat_lt _), setWidth_group (group_toNat _), hlow]
      rfl

/-- Bytes that make a number: only the last one has no high bit. -/
def Terminated (l : List UInt8) : Prop :=
  ∃ init last, l = init ++ [last] ∧ (∀ b ∈ init, ¬ b < 128) ∧ last < 128

/-- What `read` takes is terminated. -/
theorem read_some {l : List UInt8} {k k' : ℕ} {acc v : BitVec w} (h : read l k acc = (v, some k')) :
    ∃ taken rest, l = taken ++ rest ∧ Terminated taken ∧ k' = k + taken.length := by
  induction l generalizing k acc with
  | nil => exact absurd (congrArg Prod.snd h) (by simp [read])
  | cons b l ih =>
    rw [read] at h
    split_ifs at h with hb
    · have hk : k + 1 = k' := Option.some.inj (congrArg Prod.snd h)
      exact ⟨[b], l, rfl, ⟨[], b, rfl, by simp, hb⟩, by simp [hk]⟩
    · obtain ⟨taken, rest, rfl, ⟨init, last, rfl, hinit, hlast⟩, hk⟩ := ih h
      refine ⟨b :: (init ++ [last]), rest, rfl, ⟨b :: init, last, rfl, ?_, hlast⟩, ?_⟩
      · rintro x (_ | ⟨_, hx⟩)
        · exact hb
        · exact hinit x hx
      · rw [hk, List.length_cons]
        omega

/-- A byte without a high bit ends the reading. -/
theorem read_isSome {l : List UInt8} (k : ℕ) (acc : BitVec w) (h : ∃ b ∈ l, b < 128) :
    (read l k acc).2.isSome = true := by
  induction l generalizing k acc with
  | nil => obtain ⟨b, hb, -⟩ := h; exact absurd hb List.not_mem_nil
  | cons b l ih =>
    rw [read]
    split_ifs with hb
    · rfl
    · obtain ⟨x, hx, hlt⟩ := h
      rcases List.mem_cons.mp hx with rfl | hx
      · exact absurd hlt hb
      · exact ih _ _ ⟨x, hx, hlt⟩

/-- Without a last byte nothing is taken. -/
theorem read_eq_none {l : List UInt8} (k : ℕ) (acc : BitVec w) (h : ∀ b ∈ l, ¬ b < 128) :
    (read l k acc).2 = none := by
  induction l generalizing k acc with
  | nil => rfl
  | cons b l ih =>
    rw [read, if_neg (h b (by simp))]
    exact ih _ _ fun x hx => h x (by simp [hx])

end GoServices.Varint
