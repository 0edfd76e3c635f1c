import GoServices.Schemes.Balance
import Mathlib.Order.Bounds.Basic

/-! Even distributions of items over groups.

    A distribution is even when no group has two items more than another. Moving one item from a
    fullest group to an emptiest one that has at least two fewer is never a detour: every even
    distribution can be exchanged for one that is just as close and needs this very move
    (`exchange`). Hence a sequence of such moves that ends with an even distribution is as short as
    any way to an even distribution, and moves no item twice. -/

namespace GoServices.Balance

variable {S G : Type} [Fintype S] [DecidableEq S] [DecidableEq G] {groups : Finset G}
  {owner f : S → G} {s x y : S} {a b g h v : G}

/-- Every item is with one of the groups, and no group has two more than another. -/
structure Evenly (groups : Finset G) (f : S → G) : Prop where
  mem : ∀ s, f s ∈ groups
  close : ∀ g ∈ groups, ∀ g' ∈ groups, count f g ≤ count f g' + 1

/-- How many items have different owners. -/
def moved (owner f : S → G) : ℕ := (Finset.univ.filter fun s => owner s ≠ f s).card

omit [DecidableEq S] in
theorem sum_count (hf : ∀ s, f s ∈ groups) : ∑ g ∈ groups, count f g = Fintype.card S :=
  (Finset.card_eq_sum_card_fiberwise fun s _ => hf s).symm

omit [DecidableEq S] in
/-- If one group has less than before, another one has more. -/
theorem exists_count_lt {f f' : S → G} (hf : ∀ s, f s ∈ groups) (hf' : ∀ s, f' s ∈ groups)
    (hg : g ∈ groups) (hlt : count f g < count f' g) : ∃ h ∈ groups, count f' h < count f h := by
  by_contra hnone
  push Not at hnone
  have hsum := Finset.sum_lt_sum hnone ⟨g, hg, hlt⟩
  rw [sum_count hf, sum_count hf'] at hsum
  exact lt_irrefl _ hsum

omit [DecidableEq S] in
/-- A group that has more items in `f'` has one that it does not have in `f`. -/
theorem exists_mem_of_count_lt {f f' : S → G} (hlt : count f g < count f' g) :
    ∃ x, f' x = g ∧ f x ≠ g := by
  obtain ⟨x, hx, hnot⟩ := Finset.exists_mem_notMem_of_card_lt_card hlt
  rw [Finset.mem_filter] at hx hnot
  exact ⟨x, hx.2, fun hfx => hnot ⟨Finset.mem_univ x, hfx⟩⟩

/-! ### Changing a distribution -/

/-- Item `x` goes to `v`, and `y` takes the place of `x`. -/
def rotate (f : S → G) (x y : S) (v : G) : S → G := Function.update (Function.update f y (f x)) x v

omit [Fintype S] [DecidableEq G] in
theorem rotate_self : rotate f x y v x = v := Function.update_self _ _ _

omit [Fintype S] [DecidableEq G] in
theorem rotate_of_ne {z : S} (hx : z ≠ x) (hy : z ≠ y) : rotate f x y v z = f z := by
  rw [rotate, Function.update_of_ne hx, Function.update_of_ne hy]

/-- Only the groups that `y` leaves and `x` enters change their counts. -/
theorem count_rotate (f : S → G) (x y : S) (v g : G) :
    count (rotate f x y v) g + (if f y = g then 1 else 0) =
      count f g + (if v = g then 1 else 0) := by
  have hfirst := count_update f y (f x) g
  have hsecond := count_update (Function.update f y (f x)) x v g
  have hx : Function.update f y (f x) x = f x := by
    rcases eq_or_ne x y with rfl | hne
    · exact Function.update_self _ _ _
    · exact Function.update_of_ne hne _ _
  rw [hx] at hsecond
  rw [rotate]
  omega

omit [Fintype S] [DecidableEq G] in
theorem rotate_mem (hf : ∀ s, f s ∈ groups) (hv : v ∈ groups) (s : S) : rotate f x y v s ∈ groups := by
  unfold rotate
  rw [Function.update_apply, Function.update_apply]
  split_ifs
  · exact hv
  · exact hf x
  · exact hf s

/-- Bringing `x` home costs nothing, whatever becomes of `y`. -/
theorem moved_rotate_le (hx : owner x ≠ f x) (hv : owner x = v) :
    moved owner (rotate f x y v) ≤ moved owner f := by
  have hsub : (Finset.univ.filter fun s => owner s ≠ rotate f x y v s) ⊆
      insert y ((Finset.univ.filter fun s => owner s ≠ f s).erase x) := by
    intro z hz
    have hne := (Finset.mem_filter.mp hz).2
    have hzx : z ≠ x := by
      rintro rfl
      exact hne (hv.trans rotate_self.symm)
    by_cases hzy : z = y
    · exact Finset.mem_insert.mpr (Or.inl hzy)
    · rw [rotate_of_ne hzx hzy] at hne
      exact Finset.mem_insert_of_mem
        (Finset.mem_erase.mpr ⟨hzx, Finset.mem_filter.mpr ⟨Finset.mem_univ z, hne⟩⟩)
  have hmem : x ∈ Finset.univ.filter fun s => owner s ≠ f s :=
    Finset.mem_filter.mpr ⟨Finset.mem_univ x, hx⟩
  calc moved owner (rotate f x y v) ≤ _ := Finset.card_le_card hsub
    _ ≤ ((Finset.univ.filter fun s => owner s ≠ f s).erase x).card + 1 := Finset.card_insert_le _ _
    _ = moved owner f := Finset.card_erase_add_one hmem

/-- An item that is away may be anywhere. -/
theorem moved_update_le (hx : owner x ≠ f x) : moved owner (Function.update f x v) ≤ moved owner f := by
  refine Finset.card_le_card fun z hz => ?_
  have hne := (Finset.mem_filter.mp hz).2
  refine Finset.mem_filter.mpr ⟨Finset.mem_univ z, ?_⟩
  rcases eq_or_ne z x with rfl | hzx
  · exact hx
  · rwa [Function.update_of_ne hzx] at hne

omit [DecidableEq S] in
/-- The counts of two groups change places. -/
theorem Evenly.of_shift {f' : S → G} (hf : Evenly groups f) (hmem : ∀ s, f' s ∈ groups)
    (hg : g ∈ groups) (hh : h ∈ groups) (hgh : count f g = count f h + 1)
    (hcount : ∀ k, count f' k + (if g = k then 1 else 0) = count f k + (if h = k then 1 else 0)) :
    Evenly groups f' := by
  refine ⟨hmem, fun k hk k' hk' => ?_⟩
  have hne : g ≠ h := by
    rintro rfl
    omega
  -- every group has as many items as `h` or one more, before and after
  have hbounds : ∀ k ∈ groups, count f h ≤ count f' k ∧ count f' k ≤ count f h + 1 := by
    intro k hk
    have hkh := hf.close k hk h hh
    have hgk := hf.close g hg k hk
    have hc := hcount k
    by_cases hkg : g = k
    · subst hkg
      rw [if_pos rfl, if_neg (Ne.symm hne)] at hc
      omega
    · by_cases hkh' : h = k
      · subst hkh'
        rw [if_neg hkg, if_pos rfl] at hc
        omega
      · rw [if_neg hkg, if_neg hkh'] at hc
        omega
  have h₁ := hbounds k hk
  have h₂ := hbounds k' hk'
  omega

/-- An item goes where another one comes from. -/
theorem count_rotate_of_eq (hy : f y = v) (g : G) : count (rotate f x y v) g = count f g := by
  have hc := count_rotate f x y v g
  rw [hy] at hc
  omega

theorem Evenly.rotate (hf : Evenly groups f) (hv : v ∈ groups) (hy : f y = v) :
    Evenly groups (rotate f x y v) := by
  refine ⟨rotate_mem hf.mem hv, fun g hg g' hg' => ?_⟩
  rw [count_rotate_of_eq hy, count_rotate_of_eq hy]
  exact hf.close g hg g' hg'

/-- If `x` goes to `v` in place of `y`, one item less is away. -/
theorem moved_update_rotate_lt (hx : owner x ≠ f x) (hy : f y = v) (hoy : owner y ≠ v) :
    moved (Function.update owner x v) (rotate f x y v) < moved owner f := by
  have hmem : x ∈ Finset.univ.filter fun z => owner z ≠ f z :=
    Finset.mem_filter.mpr ⟨Finset.mem_univ x, hx⟩
  refine Nat.lt_of_le_of_lt (Finset.card_le_card ?_) (Finset.card_erase_lt_of_mem hmem)
  intro z hz
  have hne := (Finset.mem_filter.mp hz).2
  have hzx : z ≠ x := by
    rintro rfl
    exact hne ((Function.update_self _ _ _).trans rotate_self.symm)
  rw [Function.update_of_ne hzx] at hne
  refine Finset.mem_erase.mpr ⟨hzx, Finset.mem_filter.mpr ⟨Finset.mem_univ z, ?_⟩⟩
  by_cases hzy : z = y
  · rw [hzy, hy]
    exact hoy
  · rwa [rotate_of_ne hzx hzy] at hne

/-! ### The exchange -/

/-- `a` is a fullest group, `b` an emptiest one, and they are two apart. -/
structure Apart (groups : Finset G) (owner : S → G) (a b : G) : Prop where
  mem : ∀ s, owner s ∈ groups
  max_mem : a ∈ groups
  min_mem : b ∈ groups
  max : ∀ g ∈ groups, count owner g ≤ count owner a
  min : ∀ g ∈ groups, count owner b ≤ count owner g
  gap : count owner b + 1 < count owner a

/-- Some even distribution that is no further away gives `b` more. -/
theorem Apart.gain (hab : Apart groups owner a b) (hf : Evenly groups f) :
    ∃ f', Evenly groups f' ∧ moved owner f' ≤ moved owner f ∧ count owner b < count f' b := by
  by_cases hlt : count owner b < count f b
  · exact ⟨f, hf, le_rfl, hlt⟩
  have hgap := hab.gap
  have hfa := hf.close a hab.max_mem b hab.min_mem
  -- `a` has less than before, so some `h` has more; it can spare one for `b`
  have hlack : count f a < count owner a := by omega
  obtain ⟨h, hh, hless⟩ := exists_count_lt hf.mem hab.mem hab.max_mem hlack
  obtain ⟨u, hu, hou⟩ := exists_mem_of_count_lt hless
  have hbh := hab.min h hh
  have hhb := hf.close h hh b hab.min_mem
  refine ⟨Function.update f u b, ?_, moved_update_le (by rw [hu]; exact hou), ?_⟩
  · refine hf.of_shift (fun s => ?_) hh hab.min_mem (by omega) fun k => ?_
    · rw [Function.update_apply]
      split_ifs
      · exact hab.min_mem
      · exact hf.mem s
    · have hc := count_update f u b k
      rwa [hu] at hc
  · have hc := count_update f u b b
    have hne : f u ≠ b := by
      rw [hu]
      rintro rfl
      omega
    rw [if_neg hne, if_pos rfl] at hc
    omega

/-- And one that also takes something from `a`. -/
theorem Apart.loss (hab : Apart groups owner a b) (hf : Evenly groups f)
    (hgain : count owner b < count f b) :
    ∃ f', Evenly groups f' ∧ moved owner f' ≤ moved owner f ∧ count owner b < count f' b ∧
      count f' a < count owner a := by
  by_cases hlt : count f a < count owner a
  · exact ⟨f, hf, le_rfl, hgain, hlt⟩
  have hgap := hab.gap
  -- `b` has more than before, so some `h` has less; it can take one from `a`
  obtain ⟨h, hh, hless⟩ := exists_count_lt hab.mem hf.mem hab.min_mem hgain
  obtain ⟨u, hou, hu⟩ := exists_mem_of_count_lt hless
  have hha := hab.max h hh
  have hah := hf.close a hab.max_mem h hh
  obtain ⟨w, hw⟩ : ∃ w, f w = a := by
    have hpos : 0 < count f a := by omega
    obtain ⟨w, hw⟩ := Finset.card_pos.mp hpos
    exact ⟨w, (Finset.mem_filter.mp hw).2⟩
  have hcount : ∀ k, count (rotate f u w h) k + (if a = k then 1 else 0) =
      count f k + (if h = k then 1 else 0) := fun k => hw ▸ count_rotate f u w h k
  have hne : a ≠ h := by
    rintro rfl
    omega
  refine ⟨rotate f u w h, ?_, moved_rotate_le (by rw [hou]; exact Ne.symm hu) hou, ?_, ?_⟩
  · exact hf.of_shift (rotate_mem hf.mem hh) hab.max_mem hh (by omega) hcount
  · have hc := hcount b
    have hb : a ≠ b := by
      rintro rfl
      omega
    rw [if_neg hb] at hc
    omega
  · have hc := hcount a
    rw [if_pos rfl, if_neg (Ne.symm hne)] at hc
    omega

/-- And one in which `a` gives `s` away. -/
theorem Apart.release (hab : Apart groups owner a b) (hf : Evenly groups f)
    (hgain : count owner b < count f b) (hloss : count f a < count owner a) (s : S) :
    ∃ f', Evenly groups f' ∧ moved owner f' ≤ moved owner f ∧ count owner b < count f' b ∧
      f' s ≠ a := by
  by_cases hsa : f s = a
  swap
  · exact ⟨f, hf, le_rfl, hgain, hsa⟩
  -- an item that leaves `a` stays instead of `s`
  obtain ⟨t, hot, ht⟩ := exists_mem_of_count_lt hloss
  have hst : s ≠ t := by
    rintro rfl
    exact ht hsa
  refine ⟨rotate f t s a, hf.rotate hab.max_mem hsa, moved_rotate_le (by rw [hot]; exact Ne.symm ht) hot,
    by rw [count_rotate_of_eq hsa]; exact hgain, ?_⟩
  rw [rotate, Function.update_of_ne hst, Function.update_self]
  exact ht

/-- Taking an item from the fullest group to the emptiest one brings every even distribution, or one
    that is just as close, a move nearer. -/
theorem Apart.exchange (hab : Apart groups owner a b) (hf : Evenly groups f) (hs : owner s = a) :
    ∃ f', Evenly groups f' ∧ moved (Function.update owner s b) f' + 1 ≤ moved owner f := by
  obtain ⟨f₁, hf₁, hle₁, hgain₁⟩ := hab.gain hf
  obtain ⟨f₂, hf₂, hle₂, hgain₂, hloss⟩ := hab.loss hf₁ hgain₁
  obtain ⟨f₃, hf₃, hle₃, hgain₃, hs₃⟩ := hab.release hf₂ hgain₂ hloss s
  -- `s` takes the place of one of those that `b` gets
  obtain ⟨u, hu, hou⟩ := exists_mem_of_count_lt hgain₃
  refine ⟨rotate f₃ s u b, hf₃.rotate hab.min_mem hu, ?_⟩
  have hs' : owner s ≠ f₃ s := by
    rw [hs]
    exact Ne.symm hs₃
  exact (moved_update_rotate_lt hs' hu hou).trans_le (hle₃.trans (hle₂.trans hle₁))

/-! ### Sequences of moves -/

/-- The items `l` go one after the other from a fullest group to an emptiest. -/
inductive Levelling (groups : Finset G) : (S → G) → List S → (S → G) → Prop where
  | nil (owner : S → G) : Levelling groups owner [] owner
  | cons {owner owner' : S → G} {a b : G} {s : S} {l : List S} (hab : Apart groups owner a b)
      (hs : owner s = a) (h : Levelling groups (Function.update owner s b) l owner') :
      Levelling groups owner (s :: l) owner'

variable {owner' : S → G} {l : List S}

/-- There is no shorter way to any even distribution. -/
theorem Levelling.length_le (h : Levelling groups owner l owner') (hf : Evenly groups f) :
    l.length ≤ moved owner f := by
  induction h generalizing f with
  | nil => exact Nat.zero_le _
  | cons hab hs _ ih =>
    obtain ⟨f', hf', hle⟩ := hab.exchange hf hs
    have hrest := ih hf'
    rw [List.length_cons]
    omega

theorem Levelling.eq_of_notMem (h : Levelling groups owner l owner') (hs : s ∉ l) :
    owner' s = owner s := by
  induction h with
  | nil => rfl
  | cons hab hx _ ih =>
    rw [List.mem_cons, not_or] at hs
    rw [ih hs.2, Function.update_of_ne hs.1]

/-- Moves that end with an even distribution are moves of different items, as many as there are
    items with a new owner. -/
theorem Levelling.nodup (h : Levelling groups owner l owner') (he : Evenly groups owner') :
    l.Nodup ∧ moved owner owner' = l.length := by
  have hsub : (Finset.univ.filter fun s => owner s ≠ owner' s) ⊆ l.toFinset := by
    intro s hs
    by_contra hnot
    rw [List.mem_toFinset] at hnot
    exact (Finset.mem_filter.mp hs).2 (h.eq_of_notMem hnot).symm
  have hmoved : moved owner owner' ≤ l.toFinset.card := Finset.card_le_card hsub
  have hcard := l.toFinset_card_le
  have hlen := h.length_le he
  have hfull : l.toFinset.card = (l : Multiset S).card := by
    rw [Multiset.coe_card]
    omega
  exact ⟨Multiset.coe_nodup.mp (Multiset.toFinset_card_eq_card_iff_nodup.mp hfull), by omega⟩

/-- The least number of items that must change their owner is the number that do. -/
theorem Levelling.isLeast (h : Levelling groups owner l owner') (he : Evenly groups owner') :
    IsLeast {n | ∃ f, Evenly groups f ∧ moved owner f = n} (moved owner owner') := by
  refine ⟨⟨owner', he, rfl⟩, ?_⟩
  rintro n ⟨f, hf, rfl⟩
  rw [(h.nodup he).2]
  exact h.length_le hf

/-! ### Filling up -/

section Filling

variable {x y : G → ℕ}

/-- No group has more than an even share of `total`, and at most as many as there is a remainder for
    have the larger share. -/
def Fits (groups : Finset G) (total : ℕ) (x : G → ℕ) : Prop :=
  (∀ g ∈ groups, x g ≤ total / groups.card + 1) ∧
    (groups.filter fun g => x g = total / groups.card + 1).card ≤ total % groups.card

instance (groups : Finset G) (total : ℕ) (x : G → ℕ) : Decidable (Fits groups total x) :=
  inferInstanceAs (Decidable (_ ∧ _))

omit [DecidableEq G] in
/-- As a sum over the groups: the smaller share for all, and one more for some. -/
theorem sum_share (groups : Finset G) (q : ℕ) (p : G → Prop) [DecidablePred p] :
    ∑ g ∈ groups, (q + if p g then 1 else 0) = groups.card * q + (groups.filter p).card := by
  rw [Finset.sum_add_distrib, Finset.sum_const_nat fun _ _ => rfl, Finset.card_filter]

omit [DecidableEq G] in
/-- Counts that are close to each other are even shares. -/
theorem share_of_close (hne : groups.Nonempty) (hclose : ∀ g ∈ groups, ∀ g' ∈ groups, y g ≤ y g' + 1)
    (hg : g ∈ groups) : (∑ k ∈ groups, y k) / groups.card ≤ y g ∧
      y g ≤ (∑ k ∈ groups, y k) / groups.card + 1 := by
  have hpos : 0 < groups.card := hne.card_pos
  constructor
  · -- all have at most `y g + 1`, and `g` has less
    have hlt : ∑ k ∈ groups, y k < ∑ _k ∈ groups, (y g + 1) :=
      Finset.sum_lt_sum (fun k hk => hclose k hk g hg) ⟨g, hg, Nat.lt_succ_self _⟩
    rw [Finset.sum_const_nat fun _ _ => rfl, Nat.mul_comm] at hlt
    have := (Nat.div_lt_iff_lt_mul hpos).mpr hlt
    omega
  · -- all have at least `y g - 1`
    have hle : ∑ _k ∈ groups, (y g - 1) ≤ ∑ k ∈ groups, y k :=
      Finset.sum_le_sum fun k hk => by
        have := hclose g hg k hk
        omega
    rw [Finset.sum_const_nat fun _ _ => rfl, Nat.mul_comm] at hle
    have := (Nat.le_div_iff_mul_le hpos).mpr hle
    omega

omit [DecidableEq G] in
/-- Groups that were filled up from below are even exactly if what they had before fits into even
    shares. -/
theorem close_iff_fits (hne : groups.Nonempty) (hle : ∀ g ∈ groups, x g ≤ y g)
    (hraised : ∀ g ∈ groups, x g < y g → ∀ g' ∈ groups, y g ≤ y g' + 1) :
    (∀ g ∈ groups, ∀ g' ∈ groups, y g ≤ y g' + 1) ↔ Fits groups (∑ g ∈ groups, y g) x := by
  have hdiv := Nat.div_add_mod (∑ g ∈ groups, y g) groups.card
  constructor
  · intro hclose
    have hshare := fun g hg => share_of_close (g := g) hne hclose hg
    refine ⟨fun g hg => (hle g hg).trans (hshare g hg).2, ?_⟩
    have hsum : ∑ g ∈ groups, y g = ∑ g ∈ groups, ((∑ k ∈ groups, y k) / groups.card +
        if y g = (∑ k ∈ groups, y k) / groups.card + 1 then 1 else 0) := by
      refine Finset.sum_congr rfl fun g hg => ?_
      have := hshare g hg
      split_ifs <;> omega
    rw [sum_share] at hsum
    have hsub : (groups.filter fun g => x g = (∑ k ∈ groups, y k) / groups.card + 1).card ≤
        (groups.filter fun g => y g = (∑ k ∈ groups, y k) / groups.card + 1).card := by
      refine Finset.card_le_card fun g hg => ?_
      rw [Finset.mem_filter] at hg ⊢
      have h₁ := hle g hg.1
      have h₂ := (hshare g hg.1).2
      exact ⟨hg.1, by omega⟩
    omega
  · rintro ⟨hmax, hfew⟩
    by_contra hnot
    push Not at hnot
    obtain ⟨g, hg, g', hg', hgap⟩ := hnot
    -- whoever is two above `g'` was not filled up
    have hkept : ∀ k ∈ groups, y g' + 1 < y k → x k = y k := by
      intro k hk hgk
      by_contra hne'
      have hr := hraised k hk (lt_of_le_of_ne (hle k hk) hne') g' hg'
      omega
    have hxg := hmax g hg
    rw [hkept g hg hgap] at hxg
    have hbound : ∀ k ∈ groups, y k ≤ (∑ k ∈ groups, y k) / groups.card +
        if x k = (∑ k ∈ groups, y k) / groups.card + 1 then 1 else 0 := by
      intro k hk
      by_cases hk' : y g' + 1 < y k
      · have hxk := hmax k hk
        rw [hkept k hk hk'] at hxk ⊢
        split_ifs <;> omega
      · split_ifs <;> omega
    have hlt := Finset.sum_lt_sum hbound ⟨g', hg', by omega⟩
    rw [sum_share] at hlt
    omega

end Filling

end GoServices.Balance
