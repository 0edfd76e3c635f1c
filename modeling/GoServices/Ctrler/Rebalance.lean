import GoServices.Ctrler.Assignment

/-! The loops of `Join` and `Leave`.

    `Join` moves shards as long as gid 0 has one, and then from the fullest group to the emptiest as
    long as they are two apart. `weight 0` of the owners falls with every move, so that it ends, with
    one and the same result for all orders. `Leave` puts the shards of the groups that go aside and
    hands each of them to the group with the fewest. -/

namespace GoServices.ShardCtrler

open Ranges Balance

variable {m m' : Buckets} {owner : Fin nShards → Option ℤ} {shards : Fin nShards → ℤ} {g : ℤ}

/-! ### `Join` -/

/-- What a move does: the first shard of a bucket changes its owner. -/
theorem moveShard_head (h : Assigns m (some ∘ shards)) {a b : ℤ} (hne : a ≠ b) {s : Fin nShards}
    {rest : List (Fin nShards)} (hb : bucket m a = s :: rest) :
    ∃ m', moveShard m a b = some m' ∧ shards s = a ∧
      Assigns m' (some ∘ Function.update shards s b) ∧ m'.keys = insert a (insert b m.keys) := by
  have hs : shards s = a :=
    Option.some.inj ((h.mem a s).mp (by rw [hb]; exact List.mem_cons_self))
  have hmoved := (h.pop hb).add (s := s) (by rw [Function.update_self]) b
  rw [bucket_set_of_ne _ hne.symm, Map.set_comm hne, Function.update_idem, ← Function.comp_update]
    at hmoved
  refine ⟨_, ?_, hs, hmoved, rfl⟩
  simp only [moveShard, hb, List.head?_cons, Option.map_some, bucket_set_of_ne _ hne, List.tail_cons]

theorem moveShard_spec (h : Assigns m (some ∘ shards)) {a b : ℤ} (hne : a ≠ b)
    (ha : bucket m a ≠ []) :
    ∃ m' s, moveShard m a b = some m' ∧ shards s = a ∧
      Assigns m' (some ∘ Function.update shards s b) ∧ m'.keys = insert a (insert b m.keys) := by
  obtain ⟨s, rest, hb⟩ := List.exists_cons_of_ne_nil ha
  obtain ⟨m', hmove⟩ := moveShard_head h hne hb
  exact ⟨m', s, hmove⟩

/-- Nobody's bucket is empty and no group has two more than another. -/
structure Level (m : Buckets) : Prop where
  drained : bucket m 0 = []
  close : ∀ g ∈ m.keys, ∀ g' ∈ m.keys, g' ≠ 0 → (bucket m g).length ≤ (bucket m g').length + 1

theorem Level.ne_zero {m : Buckets} {shards : Fin nShards → ℤ} (hlevel : Level m)
    (h : Assigns m (some ∘ shards)) (s : Fin nShards) : shards s ≠ 0 := by
  intro h0
  have hs : s ∈ bucket m 0 := (h.mem _ s).mpr (congrArg some h0)
  rw [hlevel.drained] at hs
  exact List.not_mem_nil hs

/-- An order to compare the others with. -/
def someOrder : Order ℤ := Order.first []

/-- Every map gone through in one fixed order. -/
def someOrders : Orders :=
  ⟨someOrder, someOrder, someOrder, fun _ => someOrder, fun _ => someOrder, someOrder⟩

/-- The condition under which the loop breaks off. -/
abbrev Stops (m : Buckets) : Prop :=
  gidWithMaxShards someOrder m ≠ 0 ∧ ((bucket m (gidWithMaxShards someOrder m)).length : ℤ) -
    (bucket m (gidWithMinShards someOrder m)).length ≤ 1

/-- The loop stops only at level buckets. -/
theorem level_of_stop (hstop : Stops m) (h : Assigns m owner) : Level m := by
  obtain ⟨ha, hle⟩ := hstop
  have h0 : bucket m 0 = [] := by
    by_contra hne
    exact ha (gidWithMaxShards_zero someOrder hne)
  refine ⟨h0, fun g hg g' hg' hne => ?_⟩
  have hmax := (gidWithMaxShards_spec someOrder h0 hg).2
  have hmin := (gidWithMinShards_spec someOrder h hg' hne).2 g' hg' hne
  omega

/-- If the loop goes on although gid 0 has nothing, the fullest and the emptiest group are two apart. -/
theorem gap_of_go (h : Assigns m (some ∘ shards)) (h0 : bucket m 0 = [])
    (hgo : ¬ Stops m) :
    gidWithMaxShards someOrder m ∈ m.keys ∧ bucket m (gidWithMaxShards someOrder m) ≠ [] ∧
      (bucket m (gidWithMinShards someOrder m)).length + 1 <
        (bucket m (gidWithMaxShards someOrder m)).length := by
  -- the bucket of the first shard shows that the fullest group has a shard
  have hfirst : ⟨0, by decide⟩ ∈ bucket m (shards ⟨0, by decide⟩) := (h.mem _ _).mpr rfl
  obtain ⟨hmem, hlen⟩ := gidWithMaxShards_spec someOrder h0 (mem_keys_of_mem hfirst)
  have hpos := List.length_pos_of_mem hfirst
  have hne : bucket m (gidWithMaxShards someOrder m) ≠ [] := fun hnil => by
    rw [hnil, List.length_nil] at hlen; omega
  have hmax0 : gidWithMaxShards someOrder m ≠ 0 := fun heq => hne (heq ▸ h0)
  refine ⟨hmem, hne, ?_⟩
  have := fun hle => hgo ⟨hmax0, hle⟩
  omega

/-- A round that does not stop takes a shard from gid 0 or from a group with two more. -/
theorem go_cases (h : Assigns m (some ∘ shards)) (hgo : ¬ Stops m) :
    gidWithMaxShards someOrder m ≠ gidWithMinShards someOrder m ∧
    gidWithMaxShards someOrder m ∈ m.keys ∧ bucket m (gidWithMaxShards someOrder m) ≠ [] ∧
    (gidWithMaxShards someOrder m = 0 ∨ bucket m 0 = [] ∧
      (bucket m (gidWithMinShards someOrder m)).length + 1 <
        (bucket m (gidWithMaxShards someOrder m)).length) := by
  by_cases h0 : bucket m 0 = []
  · obtain ⟨hmem, hne, hgap⟩ := gap_of_go h h0 hgo
    refine ⟨fun heq => ?_, hmem, hne, Or.inr ⟨h0, hgap⟩⟩
    rw [heq] at hgap
    omega
  · have hzero := gidWithMaxShards_zero someOrder h0
    obtain ⟨x, hx⟩ := List.exists_mem_of_ne_nil _ h0
    rw [hzero]
    exact ⟨(gidWithMinShards_ne_zero someOrder m).symm, mem_keys_of_mem hx, h0, Or.inl rfl⟩

/-- So the weight falls. -/
theorem moveShard_round (h : Assigns m (some ∘ shards)) (hgo : ¬ Stops m) :
    ∃ m' shards', moveShard m (gidWithMaxShards someOrder m) (gidWithMinShards someOrder m) = some m' ∧
      Assigns m' (some ∘ shards') ∧ weight 0 shards' < weight 0 shards ∧
      ((∃ g ∈ m.keys, g ≠ 0) → m'.keys = m.keys) := by
  have hmin0 := gidWithMinShards_ne_zero someOrder m
  obtain ⟨hdiff, hmem, hne, hcase⟩ := go_cases h hgo
  obtain ⟨m', s, hmove, hs, hassign, hk⟩ := moveShard_spec h hdiff hne
  refine ⟨m', _, hmove, hassign, ?_, ?_⟩
  · rcases hcase with hzero | ⟨h0, hgap⟩
    · exact weight_drain 0 (hs.trans hzero) hmin0
    · refine weight_level 0 ?_ hmin0 ?_
      · rw [← h.length_eq, h0, List.length_nil]
      · rw [hs, ← h.length_eq, ← h.length_eq]
        exact hgap
  · rintro ⟨k, hk', hk0⟩
    rw [hk, Finset.insert_eq_of_mem (gidWithMinShards_spec someOrder h hk' hk0).1,
      Finset.insert_eq_of_mem hmem]

theorem rebalance_succ (o : Orders) (fuel i : ℕ) (m : Buckets) :
    rebalance o (fuel + 1) i m =
      if Stops m then some m
      else (moveShard m (gidWithMaxShards someOrder m) (gidWithMinShards someOrder m)).bind
        (rebalance o fuel (i + 1)) := by
  rw [rebalance, gidWithMaxShards_eq (o.maxShards i) someOrder,
    gidWithMinShards_eq (o.minShards i) someOrder]

/-- Any fuel is enough to stop. -/
theorem rebalance_of_stops (hstop : Stops m) (w : ℕ) :
    ∀ (o : Orders) (fuel i : ℕ), w < fuel → rebalance o fuel i m = some m := by
  intro o fuel i hfuel
  obtain ⟨fuel, rfl⟩ := Nat.exists_eq_add_of_lt hfuel
  rw [rebalance_succ, if_pos hstop]

/-- A round takes one unit of fuel. -/
theorem rebalance_of_round {m₁ m' : Buckets} {w w₁ : ℕ} (hstop : ¬ Stops m)
    (hmove : moveShard m (gidWithMaxShards someOrder m) (gidWithMinShards someOrder m) = some m₁)
    (hlt : w₁ < w) (hrun : ∀ (o : Orders) (fuel i : ℕ), w₁ < fuel → rebalance o fuel i m₁ = some m') :
    ∀ (o : Orders) (fuel i : ℕ), w < fuel → rebalance o fuel i m = some m' := by
  intro o fuel i hfuel
  obtain ⟨fuel, rfl⟩ := Nat.exists_eq_add_of_lt hfuel
  rw [rebalance_succ, if_neg hstop, hmove, Option.bind_some]
  exact hrun o _ (i + 1) (by omega)

/-- The loop ends with level buckets, and its result is the same for all orders. -/
theorem rebalance_spec (h : Assigns m (some ∘ shards)) :
    ∃ m' shards', Assigns m' (some ∘ shards') ∧ Level m' ∧
      ((∃ g ∈ m.keys, g ≠ 0) → m'.keys = m.keys) ∧
      ∀ (o : Orders) (fuel i : ℕ), weight 0 shards < fuel → rebalance o fuel i m = some m' := by
  induction hw : weight 0 shards using Nat.strong_induction_on generalizing m shards with
  | _ w ih =>
    by_cases hstop : Stops m
    · exact ⟨m, shards, h, level_of_stop hstop h, fun _ => rfl, rebalance_of_stops hstop w⟩
    · obtain ⟨m₁, shards₁, hmove, h₁, hlt, hkeys₁⟩ := moveShard_round h hstop
      rw [hw] at hlt
      obtain ⟨m', shards', h', hlevel, hkeys, hrun⟩ := ih _ hlt h₁ rfl
      refine ⟨m', shards', h', hlevel, fun hk => ?_, rebalance_of_round hstop hmove hlt hrun⟩
      rw [← hkeys₁ hk]
      exact hkeys (hkeys₁ hk ▸ hk)

/-- What a round preserves, the loop preserves. -/
theorem rebalance_preserves {I : Buckets → Prop} (hround : ∀ m m', I m → ¬ Stops m →
      moveShard m (gidWithMaxShards someOrder m) (gidWithMinShards someOrder m) = some m' → I m')
    {o : Orders} {fuel i : ℕ} (h : rebalance o fuel i m = some m') (hm : I m) : I m' := by
  induction fuel generalizing i m with
  | zero => exact absurd h (by simp [rebalance])
  | succ fuel ih =>
    rw [rebalance_succ] at h
    split_ifs at h with hstop
    · exact Option.some.inj h ▸ hm
    · obtain ⟨m₁, hmove, h⟩ := Option.bind_eq_some_iff.mp h
      exact ih h (hround m m₁ hm hstop hmove)

/-- More fuel does not change a result. -/
theorem rebalance_mono {o : Orders} {fuel : ℕ} (k : ℕ) {i : ℕ} (h : rebalance o fuel i m = some m') :
    rebalance o (fuel + k) i m = some m' := by
  induction fuel generalizing i m with
  | zero => exact absurd h (by simp [rebalance])
  | succ fuel ih =>
    rw [Nat.add_right_comm]
    rw [rebalance_succ] at h ⊢
    split_ifs at h ⊢
    · exact h
    · obtain ⟨m₁, hmove, h⟩ := Option.bind_eq_some_iff.mp h
      rw [hmove, Option.bind_some]
      exact ih h

/-! ### `Leave` -/

theorem bucket_erase (k : ℤ) : bucket (m.erase k) g = if g = k then [] else bucket m g := by
  unfold bucket
  rw [Map.get_erase]
  split_ifs <;> rfl

/-- A bucket is thrown away. -/
theorem Assigns.erase (h : Assigns m owner) (k : ℤ) :
    Assigns (m.erase k) fun s => if owner s = some k then none else owner s := by
  refine ⟨fun x => ?_, fun x s => ?_⟩
  · rw [bucket_erase]
    split_ifs
    · exact List.nodup_nil
    · exact h.nodup x
  · rw [bucket_erase]
    by_cases hx : x = k
    · rw [if_pos hx]
      split_ifs with hs
      · simp
      · simp [hx, hs]
    · rw [if_neg hx, h.mem]
      split_ifs with hs
      · simp [hs, Ne.symm hx]
      · rfl

/-- The groups and buckets of the gids go, and their shards are put aside. -/
theorem removeGids_owner (gids : List ℤ) (groups : Map ℤ (List String))
    {unassigned : List (Fin nShards)} (h : Assigns m owner) (hnd : unassigned.Nodup)
    (hun : ∀ s, s ∈ unassigned ↔ owner s = none) :
    ∃ groups' m' unassigned', removeGids gids groups m unassigned = (groups', m', unassigned') ∧
      Assigns m' (fun s => (owner s).filter (· ∉ gids)) ∧ unassigned'.Nodup ∧
      (∀ s, s ∈ unassigned' ↔ (owner s).filter (· ∉ gids) = none) ∧
      groups'.keys = groups.keys \ gids.toFinset ∧ m'.keys = m.keys \ gids.toFinset := by
  induction gids generalizing groups m unassigned owner with
  | nil =>
    have hall : ∀ s, (owner s).filter (· ∉ ([] : List ℤ)) = owner s := by
      intro s
      cases owner s <;> simp [Option.filter]
    simp only [hall]
    exact ⟨groups, m, unassigned, rfl, h, hnd, hun, by simp, by simp⟩
  | cons gid gids ih =>
    have hnd' : (unassigned ++ bucket m gid).Nodup := by
      refine hnd.append (h.nodup gid) fun s hs hs' => ?_
      rw [hun] at hs
      rw [h.mem, hs] at hs'
      exact absurd hs' (by simp)
    have hun' : ∀ s, s ∈ unassigned ++ bucket m gid ↔
        (if owner s = some gid then none else owner s) = none := by
      intro s
      rw [List.mem_append, hun, h.mem]
      split_ifs with hs <;> simp [hs]
    have hfilter : ∀ s, (if owner s = some gid then none else owner s).filter (· ∉ gids) =
        (owner s).filter (· ∉ gid :: gids) := by
      intro s
      cases hs : owner s with
      | none => simp
      | some g =>
        by_cases hg : g = gid
        · simp [hg, Option.filter]
        · simp [hg, Option.filter]
    obtain ⟨groups', m', unassigned', heq, h', hnd'', hun'', hgroups, hkeys⟩ :=
      ih (groups.erase gid) (h.erase gid) hnd' hun'
    simp only [hfilter] at h' hun''
    refine ⟨groups', m', unassigned', heq, h', hnd'', hun'', ?_, ?_⟩
    · rw [hgroups, Map.keys_erase, List.toFinset_cons, Finset.sdiff_insert, Finset.erase_sdiff_comm]
    · rw [hkeys, Map.keys_erase, List.toFinset_cons, Finset.sdiff_insert, Finset.erase_sdiff_comm]

theorem assignShards_eq (o o' : Orders) (l : List (Fin nShards)) (i : ℕ) (m : Buckets) :
    assignShards o l i m = assignShards o' l i m := by
  induction l generalizing i m with
  | nil => rfl
  | cons s l ih =>
    simp only [assignShards]
    rw [gidWithMinShards_eq (o.minShards i) (o'.minShards i), ih]

/-- Every shard that was put aside gets an owner. -/
theorem assignShards_spec (o : Orders) (l : List (Fin nShards)) (i : ℕ) (h : Assigns m owner)
    (hnd : l.Nodup) (hl : ∀ s, s ∈ l ↔ owner s = none) :
    ∃ shards, Assigns (assignShards o l i m) (some ∘ shards) ∧
      ((∃ g ∈ m.keys, g ≠ 0) → (assignShards o l i m).keys = m.keys) := by
  induction l generalizing i m owner with
  | nil =>
    have hsome : ∀ s, ∃ g, owner s = some g := fun s =>
      Option.ne_none_iff_exists'.mp fun hs => List.not_mem_nil ((hl s).mpr hs)
    choose shards hshards using hsome
    exact ⟨shards, (funext hshards : owner = some ∘ shards) ▸ h, fun _ => rfl⟩
  | cons s l ih =>
    rw [List.nodup_cons] at hnd
    have hadd := h.add ((hl s).mp List.mem_cons_self) (gidWithMinShards (o.minShards i) m)
    have hl' : ∀ x, x ∈ l ↔
        Function.update owner s (some (gidWithMinShards (o.minShards i) m)) x = none := by
      intro x
      rcases eq_or_ne x s with rfl | hx
      · simp [hnd.1]
      · rw [Function.update_of_ne hx, ← hl, List.mem_cons, or_iff_right hx]
    obtain ⟨shards, h', hkeys⟩ := ih (i + 1) hadd hnd.2 hl'
    refine ⟨shards, h', fun hk => ?_⟩
    obtain ⟨k, hk, hk0⟩ := hk
    have hsame : (m.set (gidWithMinShards (o.minShards i) m)
        (bucket m (gidWithMinShards (o.minShards i) m) ++ [s])).keys = m.keys :=
      Finset.insert_eq_of_mem (gidWithMinShards_spec _ h hk hk0).1
    rw [assignShards, hkeys ⟨k, hsame ▸ hk, hk0⟩, hsame]

/-- A group that gets a shard had the fewest then, so it never has two more than another. -/
theorem assignShards_fills (o : Orders) (l : List (Fin nShards)) (i : ℕ) (h : Assigns m owner)
    (hnd : l.Nodup) (hl : ∀ s ∈ l, owner s = none) (hk : ∃ g ∈ m.keys, g ≠ 0) :
    ∀ g, (bucket m g).length ≤ (bucket (assignShards o l i m) g).length ∧
    ((bucket m g).length < (bucket (assignShards o l i m) g).length → ∀ g' ∈ m.keys, g' ≠ 0 →
      (bucket (assignShards o l i m) g).length ≤ (bucket (assignShards o l i m) g').length + 1) := by
  induction l generalizing i m owner with
  | nil => exact fun g => ⟨le_rfl, fun hlt => absurd hlt (lt_irrefl _)⟩
  | cons s l ih =>
    rw [List.nodup_cons] at hnd
    obtain ⟨k, hk, hk0⟩ := hk
    obtain ⟨hmin, hall⟩ := gidWithMinShards_spec (o.minShards i) h hk hk0
    obtain ⟨b, hb⟩ : ∃ b, gidWithMinShards (o.minShards i) m = b := ⟨_, rfl⟩
    rw [hb] at hmin hall
    have hadd := h.add (hl s List.mem_cons_self) b
    have hl' : ∀ x ∈ l, Function.update owner s (some b) x = none := by
      intro x hx
      have hxs : x ≠ s := fun heq => hnd.1 (heq ▸ hx)
      rw [Function.update_of_ne hxs]
      exact hl x (List.mem_cons_of_mem _ hx)
    have hsame : (m.set b (bucket m b ++ [s])).keys = m.keys := Finset.insert_eq_of_mem hmin
    have hrest := ih (i + 1) hadd hnd.2 hl' ⟨k, hsame ▸ hk, hk0⟩
    simp only [hsame, bucket_set] at hrest
    rw [assignShards, hb]
    intro g
    obtain ⟨hle, hraised⟩ := hrest g
    by_cases hg : g = b
    · subst hg
      rw [if_pos rfl, List.length_append, List.length_singleton] at hle hraised
      refine ⟨by omega, fun _ g' hg' hne => ?_⟩
      rcases Nat.lt_or_eq_of_le hle with hlt | heq
      · exact hraised hlt g' hg' hne
      · have h₁ := hall g' hg' hne
        have h₂ := (hrest g').1
        split_ifs at h₂ with hgg
        · rw [hgg]
          omega
        · omega
    · rw [if_neg hg] at hle hraised
      exact ⟨hle, hraised⟩

end GoServices.ShardCtrler
