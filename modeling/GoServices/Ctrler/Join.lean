import GoServices.Ctrler.History
import GoServices.Schemes.Even

/-! What a `Join` moves, and where it leaves the shards.

    Without shards on gid 0 every round of the loop takes a shard from a fullest group to an emptiest
    one that has at least two fewer, so that the loop is a `Levelling` and moves as few shards as
    possible. Shards on gid 0 are handed out; a gid that has shards and is not a group keeps some,
    and without any group they all go to -1. -/

namespace GoServices.ShardCtrler

open Ranges Balance Runs

variable {m m' : Buckets} {shards : Fin nShards → ℤ} {csm : CtrlerStateMachine} {c : Config}

/-! ### The moves -/

/-- The shards that the loop of `Join` moves, from round `i` on. -/
def movedShards (o : Orders) : ℕ → ℕ → Buckets → List (Fin nShards)
  | 0, _, _ => []
  | fuel + 1, i, m =>
    let maxGid := gidWithMaxShards (o.maxShards i) m
    let minGid := gidWithMinShards (o.minShards i) m
    if maxGid ≠ 0 ∧ ((bucket m maxGid).length : ℤ) - (bucket m minGid).length ≤ 1 then []
    else (bucket m maxGid).head?.toList ++
      (moveShard m maxGid minGid).elim [] (movedShards o fuel (i + 1))

theorem movedShards_succ (o : Orders) (fuel i : ℕ) (m : Buckets) :
    movedShards o (fuel + 1) i m =
      if Stops m then []
      else (bucket m (gidWithMaxShards someOrder m)).head?.toList ++
        (moveShard m (gidWithMaxShards someOrder m) (gidWithMinShards someOrder m)).elim []
          (movedShards o fuel (i + 1)) := by
  rw [movedShards, gidWithMaxShards_eq (o.maxShards i) someOrder,
    gidWithMinShards_eq (o.minShards i) someOrder]

/-- A round of the loop, if `shard` is what it moves. -/
def moveNamed (m : Buckets) (shard : Fin nShards) : Option Buckets :=
  if (bucket m (gidWithMaxShards someOrder m)).head? = some shard then
    moveShard m (gidWithMaxShards someOrder m) (gidWithMinShards someOrder m)
  else none

/-- The moves, one after the other, lead to where the loop ends. -/
theorem rebalance_eq_moves {o : Orders} {fuel i : ℕ} (h : rebalance o fuel i m = some m') :
    (movedShards o fuel i m).foldlM moveNamed m = some m' := by
  induction fuel generalizing i m with
  | zero => exact absurd h (by simp [rebalance])
  | succ fuel ih =>
    rw [rebalance_succ] at h
    rw [movedShards_succ]
    split_ifs at h ⊢ with hstop
    · exact h
    · obtain ⟨m₁, hmove, h⟩ := Option.bind_eq_some_iff.mp h
      obtain ⟨shard, hshard, -⟩ := Option.map_eq_some_iff.mp hmove
      rw [hmove, hshard, Option.elim_some, Option.toList_some, List.singleton_append, List.foldlM_cons,
        moveNamed, if_pos hshard, hmove]
      exact ih h

/-- Among real groups, a round of the loop moves a shard between groups that are `Apart`. -/
theorem apart_of_go (h : Assigns m (some ∘ shards)) (h0 : 0 ∉ m.keys) (hgo : ¬ Stops m) :
    Apart m.keys shards (gidWithMaxShards someOrder m) (gidWithMinShards someOrder m) := by
  have hne0 : ∀ g ∈ m.keys, g ≠ 0 := fun g hg heq => h0 (heq ▸ hg)
  have hnil : bucket m 0 = [] := bucket_eq_nil h0
  obtain ⟨hmem, -, hgap⟩ := gap_of_go h hnil hgo
  obtain ⟨hmin, hall⟩ := gidWithMinShards_spec someOrder h hmem (hne0 _ hmem)
  refine ⟨h.owner_mem_keys, hmem, hmin, fun g hg => ?_, fun g hg => ?_, ?_⟩
  · rw [← h.length_eq, ← h.length_eq]
    exact (gidWithMaxShards_spec someOrder hnil hg).2
  · rw [← h.length_eq, ← h.length_eq]
    exact hall g hg (hne0 g hg)
  · rw [← h.length_eq, ← h.length_eq]
    exact hgap

/-- Among real groups the loop levels: `l` are the shards that it moves, with any fuel the first of
    them. -/
theorem rebalance_levelling (h : Assigns m (some ∘ shards)) (h0 : 0 ∉ m.keys) :
    ∃ m' shards' l, Assigns m' (some ∘ shards') ∧ Level m' ∧ m'.keys = m.keys ∧
      Levelling m.keys shards l shards' ∧
      (∀ (o : Orders) (fuel i : ℕ), movedShards o fuel i m <+: l) ∧
      ∀ (o : Orders) (fuel i : ℕ), weight 0 shards < fuel → rebalance o fuel i m = some m' := by
  induction hw : weight 0 shards using Nat.strong_induction_on generalizing m shards with
  | _ w ih =>
    by_cases hstop : Stops m
    · refine ⟨m, shards, [], h, level_of_stop hstop h, rfl, .nil shards, fun o fuel i => ?_,
        rebalance_of_stops hstop w⟩
      cases fuel with
      | zero => exact List.prefix_rfl
      | succ fuel => rw [movedShards_succ, if_pos hstop]
    · have hab := apart_of_go h h0 hstop
      have hgap := hab.gap
      have hdiff : gidWithMaxShards someOrder m ≠ gidWithMinShards someOrder m := fun heq => by
        rw [heq] at hgap; omega
      obtain ⟨-, hne, -⟩ := gap_of_go h (bucket_eq_nil h0) hstop
      obtain ⟨s, rest, hb⟩ := List.exists_cons_of_ne_nil hne
      obtain ⟨m₁, hmove, hs, h₁, hkeys⟩ := moveShard_head h hdiff hb
      have hkeys₁ : m₁.keys = m.keys := by
        rw [hkeys, Finset.insert_eq_of_mem hab.min_mem, Finset.insert_eq_of_mem hab.max_mem]
      have hlt : weight 0 (Function.update shards s (gidWithMinShards someOrder m)) < weight 0 shards := by
        refine weight_level 0 ?_ (gidWithMinShards_ne_zero someOrder m) (by rw [hs]; exact hgap)
        rw [← h.length_eq, bucket_eq_nil h0, List.length_nil]
      rw [hw] at hlt
      obtain ⟨m', shards', l, h', hlevel, hkeys', hlev, hmoved, hrun⟩ :=
        ih _ hlt h₁ (hkeys₁ ▸ h0) rfl
      rw [hkeys₁] at hkeys' hlev
      refine ⟨m', shards', s :: l, h', hlevel, hkeys', .cons hab hs hlev, fun o fuel i => ?_,
        rebalance_of_round hstop hmove hlt hrun⟩
      cases fuel with
      | zero => exact List.nil_prefix
      | succ fuel =>
        rw [movedShards_succ, if_neg hstop, hb, hmove]
        exact (List.prefix_cons_inj s).mpr (hmoved o fuel (i + 1))

/-- Level buckets without gid 0 are an even distribution. -/
theorem Level.even (hlevel : Level m) (h : Assigns m (some ∘ shards)) (h0 : 0 ∉ m.keys) :
    Evenly m.keys shards := by
  refine ⟨h.owner_mem_keys, fun g hg g' hg' => ?_⟩
  rw [← h.length_eq, ← h.length_eq]
  exact hlevel.close g hg g' hg' fun heq => h0 (heq ▸ hg')

/-- `Join` moves no shard twice, and it moves as few shards as any way to spread them evenly over the
    new groups. -/
theorem join_moves_fewest (hlast : csm.configs.getLast? = some c) (hnamed : 0 ∉ c.groups.keys)
    (hplaced : ∀ s, c.shards s ∈ c.groups.keys) {newGroups : Map ℤ (List String)}
    (hnew : 0 ∉ newGroups.keys) :
    ∃ shards groups, Settles csm (.join newGroups) (csm.add shards groups) ∧
      groups.keys = c.groups.keys ∪ newGroups.keys ∧
      (∀ o fuel, (movedShards o fuel 0 (gidToShards o.gidToShards
        (addGroups o.newGroups (copyGroups o.copyGroups c.groups) newGroups) c.shards)).Nodup) ∧
      IsLeast {n | ∃ f, Evenly groups.keys f ∧ moved c.shards f = n} (moved c.shards shards) := by
  obtain ⟨groups, hgr⟩ : ∃ groups, addGroups someOrder c.groups newGroups = groups := ⟨_, rfl⟩
  have hkeys : groups.keys = c.groups.keys ∪ newGroups.keys :=
    hgr ▸ keys_addGroups someOrder c.groups newGroups
  obtain ⟨hassign, hbkeys⟩ := assigns_gidToShards someOrder groups c.shards
  have hbkeys' : (gidToShards someOrder groups c.shards).keys = groups.keys := by
    rw [hbkeys, Finset.union_eq_left]
    intro g hg
    obtain ⟨s, -, rfl⟩ := Finset.mem_image.mp hg
    rw [hkeys]
    exact Finset.mem_union_left _ (hplaced s)
  have h0 : 0 ∉ (gidToShards someOrder groups c.shards).keys := by
    rw [hbkeys', hkeys, Finset.mem_union, not_or]
    exact ⟨hnamed, hnew⟩
  obtain ⟨m, shards, l, h, hlevel, hmkeys, hlev, hmoved, hrun⟩ := rebalance_levelling hassign h0
  have heven : Evenly (gidToShards someOrder groups c.shards).keys shards :=
    hmkeys ▸ hlevel.even h (hmkeys ▸ h0)
  refine ⟨shards, groups, ?_, hkeys, fun o fuel => ?_, ?_⟩
  · subst hgr
    exact join_settles_of_rebalance hlast newGroups h hrun
  · rw [copyGroups_eq, addGroups_eq o.newGroups someOrder, hgr, gidToShards_eq o.gidToShards someOrder]
    exact (hlev.nodup heven).1.sublist (hmoved o fuel 0).sublist
  · rw [← hbkeys']
    exact hlev.isLeast heven

/-- Group 1 has eight shards and group 2 has two. -/
def lopsided : Config :=
  ⟨0, fun s => if s.val < 8 then 1 else 2, (Map.empty.set 1 ["a"]).set 2 ["b"]⟩

theorem join_moves_fewest_lopsided : ∃ shards groups,
    Settles ⟨[lopsided]⟩ (.join (Map.empty.set 3 ["c"]))
      (CtrlerStateMachine.add ⟨[lopsided]⟩ shards groups) ∧
    groups.keys = {1, 2, 3} ∧
    IsLeast {n | ∃ f, Evenly groups.keys f ∧ moved lopsided.shards f = n}
      (moved lopsided.shards shards) := by
  obtain ⟨shards, groups, hsettles, hkeys, -, hleast⟩ := join_moves_fewest
    (show (⟨[lopsided]⟩ : CtrlerStateMachine).configs.getLast? = some lopsided from rfl) (by decide)
    (by decide) (show 0 ∉ (Map.empty.set 3 ["c"]).keys by decide)
  exact ⟨shards, groups, hsettles, by rw [hkeys]; decide, hleast⟩

/-! ### Where the shards are afterwards -/

/-- Every shard is with a group, or all are with nobody because there is no group. -/
def Config.Placed (c : Config) : Prop :=
  if c.groups.keys = ∅ then ∀ s, c.shards s = 0 else ∀ s, c.shards s ∈ c.groups.keys

/-- The loop never takes the last shard of a gid other than 0. -/
theorem count_pos_of_round (h : Assigns m (some ∘ shards)) (hgo : ¬ Stops m)
    (hmove : moveShard m (gidWithMaxShards someOrder m) (gidWithMinShards someOrder m) = some m')
    {g : ℤ} (hg0 : g ≠ 0) (hg : 0 < count shards g) :
    ∃ shards', Assigns m' (some ∘ shards') ∧ 0 < count shards' g := by
  obtain ⟨hdiff, -, hne, hcase⟩ := go_cases h hgo
  obtain ⟨m₁, s, hmove₁, hs, h₁, -⟩ := moveShard_spec h hdiff hne
  obtain rfl : m' = m₁ := Option.some.inj (hmove.symm.trans hmove₁)
  refine ⟨_, h₁, ?_⟩
  have hcount := count_update shards s (gidWithMinShards someOrder m) g
  by_cases hsg : shards s = g
  · -- `g` gives a shard away, so it has two more than another
    rcases hcase with hzero | ⟨-, hgap⟩
    · exact absurd (hsg.symm.trans (hs.trans hzero)) hg0
    · rw [h.length_eq, h.length_eq, ← hs, hsg] at hgap
      rw [if_pos hsg] at hcount
      omega
  · rw [if_neg hsg] at hcount
    omega

/-- A gid other than 0 that has shards before a `Join` has some afterwards, and gid 0 has none. -/
theorem join_keeps (hlast : csm.configs.getLast? = some c) (newGroups : Map ℤ (List String)) :
    ∃ shards groups, Settles csm (.join newGroups) (csm.add shards groups) ∧
      groups.keys = c.groups.keys ∪ newGroups.keys ∧ (∀ s, shards s ≠ 0) ∧
      ((∃ g ∈ groups.keys, g ≠ 0) → ∀ s, shards s ∈ groups.keys ∪ Finset.univ.image c.shards) ∧
      ∀ s, c.shards s ≠ 0 → ∃ s', shards s' = c.shards s := by
  obtain ⟨m₀, m, shards, groups, hsettles, hkeys, hassign, h, hlevel, hm, n, hrun⟩ :=
    join_rebalanced hlast newGroups
  refine ⟨shards, groups, hsettles, hkeys, hlevel.ne_zero h, fun hk s => ?_, fun s hs => ?_⟩
  · rw [← hm hk]
    exact h.owner_mem_keys s
  · have hpos : 0 < count c.shards (c.shards s) :=
      Finset.card_pos.mpr ⟨s, Finset.mem_filter.mpr ⟨Finset.mem_univ s, rfl⟩⟩
    obtain ⟨shards', h', hpos'⟩ := rebalance_preserves
      (I := fun m => ∃ shards, Assigns m (some ∘ shards) ∧ 0 < count shards (c.shards s))
      (fun _ _ ⟨_, hm, hp⟩ hgo hmove => count_pos_of_round hm hgo hmove hs hp)
      (hrun (visiting []) _ 0 (Nat.lt_succ_self _)) ⟨c.shards, hassign, hpos⟩
    obtain ⟨s', hs'⟩ := Finset.card_pos.mp hpos'
    have hown : shards' s' = c.shards s := (Finset.mem_filter.mp hs').2
    refine ⟨s', ?_⟩
    have hbucket : s' ∈ bucket m (c.shards s) := (h'.mem _ s').mpr (congrArg some hown)
    exact Option.some.inj ((h.mem _ s').mp hbucket)

/-- A `Join` leaves every shard with a group exactly if there is a group other than 0 afterwards and
    before it no shard is with a gid that is neither 0 nor one of these groups. -/
theorem join_placed_iff (hlast : csm.configs.getLast? = some c) (newGroups : Map ℤ (List String)) :
    ∃ shards groups, Settles csm (.join newGroups) (csm.add shards groups) ∧
      groups.keys = c.groups.keys ∪ newGroups.keys ∧
      ((⟨csm.configs.length, shards, groups⟩ : Config).Placed ↔
        (∃ g ∈ c.groups.keys ∪ newGroups.keys, g ≠ 0) ∧
          ∀ s, c.shards s = 0 ∨ c.shards s ∈ c.groups.keys ∪ newGroups.keys) := by
  obtain ⟨shards, groups, hsettles, hkeys, hne0, hin, hkept⟩ := join_keeps hlast newGroups
  refine ⟨shards, groups, hsettles, hkeys, ?_⟩
  rw [← hkeys, Config.Placed]
  constructor
  · intro hplaced
    have hnonempty : groups.keys ≠ ∅ := fun hempty => by
      rw [if_pos hempty] at hplaced
      exact hne0 ⟨0, by decide⟩ (hplaced ⟨0, by decide⟩)
    rw [if_neg hnonempty] at hplaced
    refine ⟨⟨shards ⟨0, by decide⟩, hplaced _, hne0 _⟩, fun s => ?_⟩
    by_cases hs : c.shards s = 0
    · exact Or.inl hs
    · obtain ⟨s', hs'⟩ := hkept s hs
      exact Or.inr (hs' ▸ hplaced s')
  · rintro ⟨⟨g, hg, hg0⟩, hall⟩
    rw [if_neg (Finset.ne_empty_of_mem hg)]
    intro s
    rcases Finset.mem_union.mp (hin ⟨g, hg, hg0⟩ s) with hmem | himage
    · exact hmem
    · obtain ⟨x, -, hx⟩ := Finset.mem_image.mp himage
      dsimp only
      rw [← hx]
      exact (hall x).resolve_left fun hzero => hne0 s (hx.symm.trans hzero)

/-- The first group takes over all shards of nobody. -/
theorem join_placed_first : ∃ shards groups,
    Settles newCtrlerStateMachine (.join (Map.empty.set 1 ["a"]))
      (newCtrlerStateMachine.add shards groups) ∧
    groups.keys = {1} ∧ (⟨1, shards, groups⟩ : Config).Placed := by
  obtain ⟨shards, groups, hsettles, hkeys, hiff⟩ := join_placed_iff
    (show newCtrlerStateMachine.configs.getLast? = some defaultConfig from rfl)
    (Map.empty.set 1 ["a"])
  exact ⟨shards, groups, hsettles, by rw [hkeys]; decide, hiff.mpr ⟨⟨1, by decide⟩, fun _ => Or.inl rfl⟩⟩

/-- A `Join` of nobody gives all shards to gid -1. -/
theorem join_of_nobody : ∃ csm c,
    Run step Any newCtrlerStateMachine [⟨.join Map.empty, visiting [], 12⟩] csm ∧
    csm.configs.getLast? = some c ∧ c.groups.keys = ∅ ∧ (∀ s, c.shards s = -1) ∧ ¬ c.Placed := by
  obtain ⟨csm, hr, hq⟩ := exists_run step Any newCtrlerStateMachine
    [⟨.join Map.empty, visiting [], 12⟩] (fun csm => csm.configs.getLast?.any fun c =>
      c.groups.keys = ∅ ∧ ∀ s, c.shards s = -1) (by decide +kernel)
  obtain ⟨c, hlast, hc⟩ := (Option.any_eq_true _ _).mp hq
  obtain ⟨hempty, hshards⟩ := of_decide_eq_true hc
  refine ⟨csm, c, hr, hlast, hempty, hshards, fun hplaced => ?_⟩
  rw [Config.Placed, if_pos hempty] at hplaced
  exact absurd ((hshards ⟨0, by decide⟩).symm.trans (hplaced ⟨0, by decide⟩)) (by decide)

end GoServices.ShardCtrler
