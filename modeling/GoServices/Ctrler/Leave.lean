import GoServices.Ctrler.History
import GoServices.Schemes.Even

/-! Whether a `Leave` leaves the remaining groups balanced.

    `Leave` hands out only the shards of the groups that go, one at a time to a group that has the
    fewest, and takes nothing away from the groups that stay. It ends up balanced exactly if they do
    not have too much already, which is what `Fits` says of the counts before it; a `Move` can give a
    group more than its share. -/

namespace GoServices.ShardCtrler

open Ranges Balance Runs

variable {csm : CtrlerStateMachine} {c : Config} {m : Buckets}

/-- A group that stays keeps its bucket when others leave. -/
theorem length_of_stays {gids : List ℤ} {shards : Fin nShards → ℤ} {g : ℤ}
    (h : Assigns m (fun s => (some (shards s)).filter (· ∉ gids))) (hg : g ∉ gids) :
    (bucket m g).length = count shards g := by
  rw [← List.toFinset_card_of_nodup (h.nodup g), count]
  congr 1
  ext s
  rw [List.mem_toFinset, h.mem, Finset.mem_filter, Option.filter_eq_some_iff]
  constructor
  · rintro ⟨heq, -⟩
    exact ⟨Finset.mem_univ s, Option.some.inj heq⟩
  · rintro ⟨-, rfl⟩
    exact ⟨rfl, decide_eq_true hg⟩

/-- After a `Leave` of a valid configuration the remaining groups have all the shards; each has at
    least what it had, and one that got more has at most one more than any other. -/
theorem leave_fills (hlast : csm.configs.getLast? = some c) (hc : c.Valid) (gids : List ℤ) :
    ∃ shards groups, Settles csm (.leave gids) (csm.add shards groups) ∧
      groups.keys = c.groups.keys \ gids.toFinset ∧
      (groups.keys.Nonempty → (∀ s, shards s ∈ groups.keys) ∧
        ∀ g ∈ groups.keys, count c.shards g ≤ count shards g ∧
          (count c.shards g < count shards g →
            ∀ g' ∈ groups.keys, count shards g ≤ count shards g' + 1)) := by
  obtain ⟨hassign, hbkeys⟩ := assigns_gidToShards someOrder c.groups c.shards
  obtain ⟨groups, m, unassigned, hremove, h, hnd, hun, hgroups, hmkeys⟩ :=
    removeGids_owner gids c.groups hassign List.nodup_nil fun s => by simp
  obtain ⟨shards, h', hkeys⟩ := assignShards_spec someOrders unassigned 0 h hnd hun
  refine ⟨_, groups, leave_settles_of_assign hlast hremove h', hgroups, fun hne => ?_⟩
  rw [if_pos (Finset.card_ne_zero.mpr hne)]
  obtain ⟨k, hk⟩ := hne
  have hsub : groups.keys ⊆ c.groups.keys := hgroups ▸ Finset.sdiff_subset
  have hne0 : ∀ g ∈ groups.keys, g ≠ 0 := fun g hg h0 => hc.named (h0 ▸ hsub hg)
  have hplaced := hc.placed (Finset.ne_empty_of_mem (hsub hk))
  -- the buckets are those of the remaining groups, because every shard was with a group
  have hsame : m.keys = groups.keys := by
    rw [hmkeys, hgroups, hbkeys, Finset.union_eq_left.mpr]
    intro g hg
    obtain ⟨s, -, rfl⟩ := Finset.mem_image.mp hg
    exact hplaced s
  have hk' : ∃ g ∈ m.keys, g ≠ 0 := ⟨k, hsame ▸ hk, hne0 k hk⟩
  have hfills := assignShards_fills someOrders unassigned 0 h hnd (fun s hs => (hun s).mp hs) hk'
  refine ⟨fun s => ?_, fun g hg => ?_⟩
  · rw [← hsame, ← hkeys hk']
    exact h'.owner_mem_keys s
  · have hstays : g ∉ gids := fun hin =>
      (Finset.mem_sdiff.mp (hgroups ▸ hg)).2 (List.mem_toFinset.mpr hin)
    obtain ⟨hle, hraised⟩ := hfills g
    rw [h'.length_eq, length_of_stays h hstays] at hle hraised
    refine ⟨hle, fun hlt g' hg' => ?_⟩
    rw [← h'.length_eq g']
    exact hraised hlt g' (hsame ▸ hg') (hne0 g' hg')

/-- After every history, a `Leave` that leaves a group behind ends with counts at most one apart
    exactly if none of the remaining groups had more than the larger share before, and no more of
    them had that much than there are larger shares. -/
theorem leave_balanced_iff {acts : List Action}
    (h : Run step (fun csm a => Admissible csm a.op) newCtrlerStateMachine acts csm)
    (hlast : csm.configs.getLast? = some c) (gids : List ℤ)
    (hne : (c.groups.keys \ gids.toFinset).Nonempty) :
    ∃ shards groups, Settles csm (.leave gids) (csm.add shards groups) ∧
      groups.keys = c.groups.keys \ gids.toFinset ∧
      ((∀ g ∈ groups.keys, ∀ g' ∈ groups.keys, count shards g ≤ count shards g' + 1) ↔
        Fits (c.groups.keys \ gids.toFinset) nShards (count c.shards)) := by
  have hc : c.Valid := (sound_of_run h).valid c (List.mem_of_getLast? hlast)
  obtain ⟨shards, groups, hsettles, hkeys, hfills⟩ := leave_fills hlast hc gids
  rw [← hkeys] at hne ⊢
  obtain ⟨hplaced, hgrow⟩ := hfills hne
  refine ⟨shards, groups, hsettles, rfl, ?_⟩
  have hsum : ∑ g ∈ groups.keys, count shards g = nShards :=
    (sum_count hplaced).trans (Fintype.card_fin nShards)
  have hiff := close_iff_fits hne (fun g hg => (hgrow g hg).1) fun g hg => (hgrow g hg).2
  rwa [hsum] at hiff

instance (csm : CtrlerStateMachine) : (op : Op) → Decidable (Admissible csm op)
  | .join groups => inferInstanceAs (Decidable (groups.keys ≠ ∅ ∧ 0 ∉ groups.keys))
  | .leave _ => inferInstanceAs (Decidable True)
  | .move shardid gid => inferInstanceAs
      (Decidable (ShardInRange shardid ∧ ∃ c ∈ csm.configs.getLast?, gid ∈ c.groups.keys))

/-- Three groups join at once. -/
def joinThree : Action := ⟨.join (((Map.empty.set 1 ["a"]).set 2 ["b"]).set 3 ["c"]), visiting [], 12⟩

/-- Without a `Move`, the groups that stay have three or four shards, and get what group 3 had. -/
theorem leave_balanced_joined : ∃ csm c,
    Run step (fun csm a => Admissible csm a.op) newCtrlerStateMachine [joinThree] csm ∧
    csm.configs.getLast? = some c ∧ ∃ shards groups,
      Settles csm (.leave [3]) (csm.add shards groups) ∧ groups.keys = {1, 2} ∧
      ∀ g ∈ groups.keys, ∀ g' ∈ groups.keys, count shards g ≤ count shards g' + 1 := by
  obtain ⟨csm, hrun, hq⟩ := exists_run step (fun csm a => Admissible csm a.op) newCtrlerStateMachine
    [joinThree] (fun csm => csm.configs.getLast?.any fun c =>
      c.groups.keys \ [3].toFinset = {1, 2} ∧
        Fits (c.groups.keys \ [3].toFinset) nShards (count c.shards)) (by decide +kernel)
  obtain ⟨c, hlast, hc⟩ := (Option.any_eq_true _ _).mp hq
  obtain ⟨hstay, hfits⟩ := of_decide_eq_true hc
  obtain ⟨shards, groups, hsettles, hkeys, hiff⟩ :=
    leave_balanced_iff hrun hlast [3] (hstay ▸ ⟨1, by decide⟩)
  exact ⟨csm, c, hrun, hlast, shards, groups, hsettles, hkeys.trans hstay, hiff.mpr hfits⟩

/-- Group 1 gets three shards by hand; group 2 gets all that group 3 leaves and still has far fewer. -/
theorem leave_after_moves : ∃ csm c,
    Run step (fun csm a => Admissible csm a.op) newCtrlerStateMachine
      [joinThree, ⟨.move 1 1, visiting [], 0⟩, ⟨.move 2 1, visiting [], 0⟩,
        ⟨.move 4 1, visiting [], 0⟩, ⟨.leave [3], visiting [], 0⟩] csm ∧
    csm.configs.getLast? = some c ∧ c.groups.keys = {1, 2} ∧
    count c.shards 1 = 7 ∧ count c.shards 2 = 3 := by
  obtain ⟨csm, hrun, hq⟩ := exists_run step (fun csm a => Admissible csm a.op) newCtrlerStateMachine
    [joinThree, ⟨.move 1 1, visiting [], 0⟩, ⟨.move 2 1, visiting [], 0⟩,
      ⟨.move 4 1, visiting [], 0⟩, ⟨.leave [3], visiting [], 0⟩]
    (fun csm => csm.configs.getLast?.any fun c => c.groups.keys = {1, 2} ∧
      count c.shards 1 = 7 ∧ count c.shards 2 = 3) (by decide +kernel)
  obtain ⟨c, hlast, hc⟩ := (Option.any_eq_true _ _).mp hq
  exact ⟨csm, c, hrun, hlast, of_decide_eq_true hc⟩

end GoServices.ShardCtrler
