import GoServices.Ctrler.Rebalance
import GoServices.Schemes.Runs

/-! Histories of the shard controller.

    `Settles csm op csm'` says that carrying out `op` in `csm` comes to an end with `csm'`, whatever
    the orders of the map loops. Every operation settles; along a history the configurations are
    numbered, stay as they are and are valid, and a `Join` leaves the groups balanced. -/

namespace GoServices.ShardCtrler

open Ranges Balance Runs

variable {csm csm' : CtrlerStateMachine} {c : Config}

/-- The operation ends with `csm'` once it has enough fuel, and never with anything else. -/
def Settles (csm : CtrlerStateMachine) (op : Op) (csm' : CtrlerStateMachine) : Prop :=
  (∃ n, ∀ orders fuel, n ≤ fuel → step csm ⟨op, orders, fuel⟩ = some csm') ∧
    ∀ orders fuel x, step csm ⟨op, orders, fuel⟩ = some x → x = csm'

theorem settles_of_eq {op : Op} (h : ∀ orders fuel, step csm ⟨op, orders, fuel⟩ = some csm') :
    Settles csm op csm' :=
  ⟨⟨0, fun orders fuel _ => h orders fuel⟩, fun orders fuel _ hx =>
    Option.some.inj (hx.symm.trans (h orders fuel))⟩

theorem Settles.eq_of_isSome {op : Op} {orders : Orders} {fuel : ℕ} (h : Settles csm op csm')
    (hsome : (step csm ⟨op, orders, fuel⟩).isSome) : step csm ⟨op, orders, fuel⟩ = some csm' := by
  obtain ⟨x, hx⟩ := Option.isSome_iff_exists.mp hsome
  rw [hx, h.2 orders fuel x hx]

@[simp] theorem step_join (o : Orders) (fuel : ℕ) (groups : Map ℤ (List String)) :
    step csm ⟨.join groups, o, fuel⟩ = csm.join fuel o groups := rfl

@[simp] theorem step_move (o : Orders) (fuel : ℕ) (shardid gid : ℤ) :
    step csm ⟨.move shardid gid, o, fuel⟩ = csm.move o shardid gid := rfl

/-- A new configuration at the end. -/
def CtrlerStateMachine.add (csm : CtrlerStateMachine) (shards : Fin nShards → ℤ)
    (groups : Map ℤ (List String)) : CtrlerStateMachine :=
  ⟨csm.configs ++ [⟨csm.configs.length, shards, groups⟩]⟩

theorem getLast?_add (csm : CtrlerStateMachine) (shards : Fin nShards → ℤ)
    (groups : Map ℤ (List String)) :
    (csm.add shards groups).configs.getLast? = some ⟨csm.configs.length, shards, groups⟩ :=
  List.getLast?_concat

/-! ### The three operations -/

/-- `Join` with the orders taken out: it rebalances the buckets of the new groups. -/
theorem join_eq (hlast : csm.configs.getLast? = some c) (newGroups : Map ℤ (List String)) (o : Orders)
    (fuel : ℕ) : csm.join fuel o newGroups =
      (rebalance o fuel 0 (gidToShards someOrder (addGroups someOrder c.groups newGroups) c.shards)).map
        fun m => csm.add (storeShards o.newShards m) (addGroups someOrder c.groups newGroups) := by
  rw [CtrlerStateMachine.join, hlast, Option.bind_some, copyGroups_eq,
    addGroups_eq o.newGroups someOrder]
  dsimp only
  rw [gidToShards_eq o.gidToShards someOrder]
  rfl

/-- A loop that comes to an end settles the `Join`. -/
theorem join_settles_of_rebalance (hlast : csm.configs.getLast? = some c)
    (newGroups : Map ℤ (List String)) {m : Buckets} {shards : Fin nShards → ℤ}
    (h : Assigns m (some ∘ shards)) {n : ℕ} (hrun : ∀ o fuel i, n < fuel → rebalance o fuel i
      (gidToShards someOrder (addGroups someOrder c.groups newGroups) c.shards) = some m) :
    Settles csm (.join newGroups) (csm.add shards (addGroups someOrder c.groups newGroups)) := by
  have hstore : ∀ o, storeShards o m = shards := fun o => storeShards_eq o h
  refine ⟨⟨n + 1, fun o fuel hfuel => ?_⟩, fun o fuel x hx => ?_⟩
  · rw [step_join, join_eq hlast, hrun o fuel 0 hfuel, Option.map_some, hstore]
  · -- whatever the fuel was, with more of it the result is the one above
    rw [step_join, join_eq hlast] at hx
    obtain ⟨m', hm', rfl⟩ := Option.map_eq_some_iff.mp hx
    have hmore := hrun o (fuel + (n + 1)) 0 (by omega)
    rw [rebalance_mono _ hm'] at hmore
    rw [Option.some.inj hmore, hstore]

/-- A `Join` settles on level buckets, which the loop reaches from those of the last config. -/
theorem join_rebalanced (hlast : csm.configs.getLast? = some c) (newGroups : Map ℤ (List String)) :
    ∃ (m₀ m : Buckets) (shards : Fin nShards → ℤ) (groups : Map ℤ (List String)),
      Settles csm (.join newGroups) (csm.add shards groups) ∧
      groups.keys = c.groups.keys ∪ newGroups.keys ∧
      Assigns m₀ (some ∘ c.shards) ∧ Assigns m (some ∘ shards) ∧ Level m ∧
      ((∃ g ∈ groups.keys, g ≠ 0) → m.keys = groups.keys ∪ Finset.univ.image c.shards) ∧
      ∃ n, ∀ o fuel i, n < fuel → rebalance o fuel i m₀ = some m := by
  obtain ⟨hassign, hbkeys⟩ :=
    assigns_gidToShards someOrder (addGroups someOrder c.groups newGroups) c.shards
  obtain ⟨m, shards, h, hlevel, hkeys, hrun⟩ := rebalance_spec hassign
  refine ⟨_, m, shards, _, join_settles_of_rebalance hlast newGroups h hrun,
    keys_addGroups someOrder c.groups newGroups, hassign, h, hlevel, fun hk => ?_, _, hrun⟩
  rw [← hbkeys]
  exact hkeys (hk.imp fun g hg => ⟨hbkeys ▸ Finset.mem_union_left _ hg.1, hg.2⟩)

theorem join_settles (hlast : csm.configs.getLast? = some c) (newGroups : Map ℤ (List String)) :
    ∃ shards groups, Settles csm (.join newGroups) (csm.add shards groups) ∧
      groups.keys = c.groups.keys ∪ newGroups.keys ∧
      ((∃ g ∈ groups.keys, g ≠ 0) →
        (∀ s, shards s ≠ 0 ∧ shards s ∈ groups.keys ∪ Finset.univ.image c.shards) ∧
        ∀ g ∈ groups.keys, ∀ g' ∈ groups.keys, g' ≠ 0 → count shards g ≤ count shards g' + 1) := by
  obtain ⟨-, m, shards, groups, hsettles, hkeys, -, h, hlevel, hm, -⟩ := join_rebalanced hlast newGroups
  refine ⟨shards, groups, hsettles, hkeys, fun hk => ⟨fun s => ⟨hlevel.ne_zero h s, ?_⟩, ?_⟩⟩
  · rw [← hm hk]
    exact h.owner_mem_keys s
  · intro g hg g' hg' hne
    have hin : ∀ k ∈ groups.keys, k ∈ m.keys := fun k hk' => hm hk ▸ Finset.mem_union_left _ hk'
    rw [← h.length_eq, ← h.length_eq]
    exact hlevel.close g (hin g hg) g' (hin g' hg') hne

/-- `Leave` with the orders taken out: the shards put aside are handed out again. -/
theorem leave_settles_of_assign (hlast : csm.configs.getLast? = some c) {gids : List ℤ}
    {groups : Map ℤ (List String)} {m : Buckets} {unassigned : List (Fin nShards)}
    (hremove : removeGids gids c.groups (gidToShards someOrder c.groups c.shards) [] =
      (groups, m, unassigned)) {o₀ : Orders} {shards : Fin nShards → ℤ}
    (h : Assigns (assignShards o₀ unassigned 0 m) (some ∘ shards)) :
    Settles csm (.leave gids)
      (csm.add (if groups.keys.card ≠ 0 then shards else fun _ => 0) groups) := by
  refine settles_of_eq fun o fuel => ?_
  show csm.leave o gids = _
  rw [CtrlerStateMachine.leave, hlast, Option.map_some, copyGroups_eq]
  dsimp only
  rw [gidToShards_eq o.gidToShards someOrder, hremove]
  dsimp only
  rw [assignShards_eq o o₀, storeShards_eq o.newShards h]
  rfl

theorem leave_settles (hlast : csm.configs.getLast? = some c) (gids : List ℤ) :
    ∃ shards groups, Settles csm (.leave gids) (csm.add shards groups) ∧
      groups.keys = c.groups.keys \ gids.toFinset ∧
      (groups.keys = ∅ → ∀ s, shards s = 0) ∧
      ((∃ g ∈ groups.keys, g ≠ 0) →
        ∀ s, shards s ∈ (c.groups.keys ∪ Finset.univ.image c.shards) \ gids.toFinset) := by
  obtain ⟨hassign, hbkeys⟩ := assigns_gidToShards someOrder c.groups c.shards
  obtain ⟨groups, m, unassigned, hremove, h, hnd, hun, hgroups, hmkeys⟩ :=
    removeGids_owner gids c.groups hassign List.nodup_nil fun s => by simp
  obtain ⟨shards, h', hkeys⟩ := assignShards_spec someOrders unassigned 0 h hnd hun
  refine ⟨_, groups, leave_settles_of_assign hlast hremove h', hgroups, fun hempty s => ?_,
    fun hk s => ?_⟩
  · rw [hempty]; rfl
  · have hcard : groups.keys.card ≠ 0 := by
      obtain ⟨g, hg, -⟩ := hk
      exact Finset.card_ne_zero_of_mem hg
    rw [if_pos hcard, ← hbkeys, ← hmkeys, ← hkeys ?_]
    · exact h'.owner_mem_keys s
    · rw [hmkeys, hbkeys]
      rw [hgroups] at hk
      exact hk.imp fun g hg => ⟨Finset.sdiff_subset_sdiff Finset.subset_union_left le_rfl hg.1, hg.2⟩

/-- The shards a client may name. -/
abbrev ShardInRange (shardid : ℤ) : Prop := 0 ≤ shardid ∧ shardid.toNat < nShards

theorem move_settles (hlast : csm.configs.getLast? = some c) {shardid : ℤ} (h : ShardInRange shardid)
    (gid : ℤ) : Settles csm (.move shardid gid)
      (csm.add (Function.update c.shards ⟨shardid.toNat, h.2⟩ gid) c.groups) :=
  settles_of_eq fun o fuel => by
    rw [step_move, CtrlerStateMachine.move, hlast, Option.bind_some, dif_pos h, copyGroups_eq]
    rfl

/-! ### Valid configurations -/

/-- Gid 0 is nobody; it has all shards as long as there is no group, and none otherwise. -/
structure Config.Valid (c : Config) : Prop where
  named : 0 ∉ c.groups.keys
  idle : c.groups.keys = ∅ → ∀ s, c.shards s = 0
  placed : c.groups.keys ≠ ∅ → ∀ s, c.shards s ∈ c.groups.keys

/-- Shards of a valid configuration are with its groups or with nobody. -/
theorem Config.Valid.mem_of_mem_union (h : c.Valid) {g : ℤ} {gs : Finset ℤ} (hgs : c.groups.keys ⊆ gs)
    (hg : g ∈ gs ∪ Finset.univ.image c.shards) : g ∈ gs ∨ g = 0 := by
  rcases Finset.mem_union.mp hg with hg | hg
  · exact Or.inl hg
  · obtain ⟨s, -, rfl⟩ := Finset.mem_image.mp hg
    by_cases hempty : c.groups.keys = ∅
    · exact Or.inr (h.idle hempty s)
    · exact Or.inl (hgs (h.placed hempty s))

/-- The configurations are numbered from 0 and valid. -/
structure Sound (csm : CtrlerStateMachine) : Prop where
  nonempty : csm.configs ≠ []
  num : ∀ (i : ℕ) (c : Config), csm.configs[i]? = some c → c.num = i
  valid : ∀ c ∈ csm.configs, c.Valid

theorem sound_new : Sound newCtrlerStateMachine := by
  refine ⟨List.cons_ne_nil _ _, fun i c hi => ?_, fun c hc => ?_⟩
  · cases i with
    | zero => exact (Option.some.inj hi) ▸ rfl
    | succ i => exact absurd hi (by simp [newCtrlerStateMachine])
  · rw [List.mem_singleton.mp hc]
    exact ⟨Finset.notMem_empty 0, fun _ _ => rfl, fun h => absurd rfl h⟩

theorem Sound.add (h : Sound csm) {shards : Fin nShards → ℤ} {groups : Map ℤ (List String)}
    (hvalid : (⟨csm.configs.length, shards, groups⟩ : Config).Valid) : Sound (csm.add shards groups) := by
  refine ⟨List.append_ne_nil_of_right_ne_nil _ (List.cons_ne_nil _ _), fun i c hi => ?_, fun c hc => ?_⟩
  · rw [CtrlerStateMachine.add, List.getElem?_append] at hi
    split_ifs at hi with hlt
    · exact h.num i c hi
    · obtain ⟨hle, rfl⟩ := List.getElem?_eq_some_iff.mp hi
      rw [List.length_singleton] at hle
      rw [List.getElem_singleton]
      dsimp only
      omega
  · rcases List.mem_append.mp hc with hc | hc
    · exact h.valid c hc
    · rwa [List.mem_singleton.mp hc]

/-- What clients ask for: groups to join have nonzero gids, and a shard moves to a group of the
    latest configuration. -/
def Admissible (csm : CtrlerStateMachine) : Op → Prop
  | .join groups => groups.keys ≠ ∅ ∧ 0 ∉ groups.keys
  | .leave _ => True
  | .move shardid gid => ShardInRange shardid ∧ ∃ c ∈ csm.configs.getLast?, gid ∈ c.groups.keys

/-- Every admissible operation settles, with a valid configuration at the end that is balanced if
    the operation was a `Join`. -/
theorem Sound.settles (h : Sound csm) {op : Op} (hop : Admissible csm op) :
    ∃ shards groups, Settles csm op (csm.add shards groups) ∧
      (⟨csm.configs.length, shards, groups⟩ : Config).Valid ∧
      ∀ newGroups, op = .join newGroups →
        ∀ g ∈ groups.keys, ∀ g' ∈ groups.keys, count shards g ≤ count shards g' + 1 := by
  obtain ⟨c, hlast⟩ : ∃ c, csm.configs.getLast? = some c :=
    Option.ne_none_iff_exists'.mp fun hnone => h.nonempty (List.getLast?_eq_none_iff.mp hnone)
  have hc := h.valid c (List.mem_of_getLast? hlast)
  cases op with
  | join newGroups =>
    obtain ⟨shards, groups, hsettles, hkeys, hrest⟩ := join_settles hlast newGroups
    have hnamed : 0 ∉ groups.keys := by
      rw [hkeys, Finset.mem_union, not_or]; exact ⟨hc.named, hop.2⟩
    have hne0 : ∀ g ∈ groups.keys, g ≠ 0 := fun g hg h0 => hnamed (h0 ▸ hg)
    obtain ⟨g₀, hg₀⟩ := Finset.nonempty_iff_ne_empty.mpr hop.1
    have hmem : g₀ ∈ groups.keys := hkeys ▸ Finset.mem_union_right _ hg₀
    obtain ⟨hplaced, hclose⟩ := hrest ⟨g₀, hmem, hne0 g₀ hmem⟩
    refine ⟨shards, groups, hsettles, ⟨hnamed, fun hempty => ?_, fun _ s => ?_⟩,
      fun _ _ g hg g' hg' => hclose g hg g' hg' (hne0 g' hg')⟩
    · exact absurd (hempty ▸ hmem) (Finset.notMem_empty g₀)
    · exact (hc.mem_of_mem_union (hkeys ▸ Finset.subset_union_left) (hplaced s).2).resolve_right
        (hplaced s).1
  | leave gids =>
    obtain ⟨shards, groups, hsettles, hkeys, hidle, hrest⟩ := leave_settles hlast gids
    have hnamed : 0 ∉ groups.keys := fun h0 => hc.named (Finset.mem_sdiff.mp (hkeys ▸ h0)).1
    refine ⟨shards, groups, hsettles, ⟨hnamed, hidle, fun hne s => ?_⟩, fun _ heq => by cases heq⟩
    obtain ⟨g, hg⟩ := Finset.nonempty_iff_ne_empty.mpr hne
    have hgroups : c.groups.keys ≠ ∅ :=
      Finset.ne_empty_of_mem (Finset.mem_sdiff.mp (hkeys ▸ hg)).1
    obtain ⟨hin, hout⟩ := Finset.mem_sdiff.mp (hrest ⟨g, hg, fun h0 => hnamed (h0 ▸ hg)⟩ s)
    refine hkeys ▸ Finset.mem_sdiff.mpr ⟨?_, hout⟩
    rcases Finset.mem_union.mp hin with hin | hin
    · exact hin
    · obtain ⟨x, -, hx⟩ := Finset.mem_image.mp hin
      dsimp only
      rw [← hx]
      exact hc.placed hgroups x
  | move shardid gid =>
    obtain ⟨hrange, c', hc', hgid⟩ := hop
    obtain rfl : c = c' := Option.some.inj (hlast.symm.trans hc')
    refine ⟨_, _, move_settles hlast hrange gid, ⟨hc.named, fun hempty => ?_, fun hne s => ?_⟩,
      fun _ heq => by cases heq⟩
    · exact absurd (hempty ▸ hgid) (Finset.notMem_empty gid)
    · dsimp only
      rw [Function.update_apply]
      split_ifs
      · exact hgid
      · exact hc.placed hne s

theorem Sound.step (h : Sound csm) {a : Action} (hop : Admissible csm a.op) (hs : step csm a = some csm') :
    Sound csm' := by
  obtain ⟨shards, groups, hsettles, hvalid, -⟩ := h.settles hop
  rw [hsettles.2 a.orders a.fuel csm' hs]
  exact h.add hvalid

/-! ### Histories -/

theorem sound_of_run {acts : List Action}
    (h : Run step (fun csm a => Admissible csm a.op) newCtrlerStateMachine acts csm) : Sound csm :=
  h.preserves (I := Sound) (fun _ _ _ hs hop hst => hs.step hop hst) sound_new

/-- After every history of admissible operations the configurations are numbered and valid; every
    further admissible operation ends, adds one configuration and leaves the earlier ones alone, and
    after a `Join` the shard counts of two groups are at most one apart. -/
theorem controller_history {acts : List Action}
    (h : Run step (fun csm a => Admissible csm a.op) newCtrlerStateMachine acts csm) :
    (∀ (i : ℕ) (c : Config), csm.configs[i]? = some c → c.num = i ∧ c.Valid) ∧
    (∀ op, Admissible csm op →
      ∃ csm' n, ∀ orders fuel, n ≤ fuel → step csm ⟨op, orders, fuel⟩ = some csm') ∧
    (∀ a csm', Admissible csm a.op → step csm a = some csm' →
      ∃ c : Config, csm'.configs = csm.configs ++ [c] ∧ ∀ newGroups, a.op = .join newGroups →
        ∀ g ∈ c.groups.keys, ∀ g' ∈ c.groups.keys, count c.shards g ≤ count c.shards g' + 1) := by
  have hsound := sound_of_run h
  refine ⟨fun i c hi => ⟨hsound.num i c hi, hsound.valid c (List.mem_of_getElem? hi)⟩, ?_, ?_⟩
  · intro op hop
    obtain ⟨shards, groups, hsettles, -, -⟩ := hsound.settles hop
    exact ⟨_, hsettles.1⟩
  · intro a csm' hop hst
    obtain ⟨shards, groups, hsettles, -, hbalanced⟩ := hsound.settles hop
    refine ⟨⟨csm.configs.length, shards, groups⟩, ?_, hbalanced⟩
    rw [hsettles.2 a.orders a.fuel csm' hst]
    rfl

/-- Orders that visit the gids of `l` first. -/
def visiting (l : List ℤ) : Orders :=
  ⟨.first l, .first l, .first l, fun _ => .first l, fun _ => .first l, .first l⟩

/-- Two groups join, one of them gets a shard by hand and then leaves. -/
def pair (fuel : ℕ) : List Action :=
  [⟨.join ((Map.empty.set 1 ["a"]).set 2 ["b"]), visiting [2], fuel⟩, ⟨.move 0 2, visiting [], 0⟩,
    ⟨.leave [2, 7, 2], visiting [1], 0⟩]

theorem controller_history_pair : ∃ fuel csm,
    Run step (fun csm a => Admissible csm a.op) newCtrlerStateMachine (pair fuel) csm ∧
    ∃ c, csm.configs[3]? = some c ∧ c.num = 3 ∧ c.groups.keys = {1} ∧ ∀ s, c.shards s = 1 := by
  obtain ⟨shards, groups, ⟨⟨fuel, hjoin⟩, -⟩, hkeys, -⟩ :=
    join_settles (show newCtrlerStateMachine.configs.getLast? = some defaultConfig from rfl)
      ((Map.empty.set 1 ["a"]).set 2 ["b"])
  have hmove := move_settles (getLast?_add newCtrlerStateMachine shards groups)
    (⟨by decide, by decide⟩ : ShardInRange 0) 2
  obtain ⟨shards', groups', hleave, hkeys', -, -⟩ := leave_settles
    (getLast?_add (newCtrlerStateMachine.add shards groups)
      (Function.update shards ⟨0, by decide⟩ 2) groups) [2, 7, 2]
  have hgroups : groups.keys = {1, 2} := by rw [hkeys]; decide
  have hgroups' : groups'.keys = {1} := by rw [hkeys', hgroups]; decide
  have hrun : Run step (fun csm a => Admissible csm a.op) newCtrlerStateMachine (pair fuel)
      (((newCtrlerStateMachine.add shards groups).add (Function.update shards ⟨0, by decide⟩ 2)
        groups).add shards' groups') := by
    refine Run.cons ⟨by decide, by decide⟩ (hjoin _ fuel le_rfl) ?_
    refine Run.cons ⟨⟨by decide, by decide⟩, _, getLast?_add _ shards groups, ?_⟩
      (hmove.eq_of_isSome rfl) (Run.cons trivial (hleave.eq_of_isSome rfl) (Run.nil _))
    dsimp only
    rw [hgroups]
    decide
  obtain ⟨hnum, hvalid⟩ := (controller_history hrun).1 3 _ rfl
  refine ⟨fuel, _, hrun, _, rfl, hnum, hgroups', fun s => ?_⟩
  have hs := hvalid.placed (by rw [hgroups']; decide) s
  exact Finset.mem_singleton.mp (hgroups' ▸ hs)

/-! ### Replicas -/

/-- Any arguments, as long as `Move` names a shard. -/
def Op.InRange : Op → Prop
  | .move shardid _ => ShardInRange shardid
  | _ => True

theorem exists_settles (h : csm.configs ≠ []) {op : Op} (hop : op.InRange) :
    ∃ shards groups, Settles csm op (csm.add shards groups) := by
  obtain ⟨c, hlast⟩ : ∃ c, csm.configs.getLast? = some c :=
    Option.ne_none_iff_exists'.mp fun hnone => h (List.getLast?_eq_none_iff.mp hnone)
  cases op with
  | join newGroups =>
    obtain ⟨shards, groups, hsettles, -⟩ := join_settles hlast newGroups
    exact ⟨shards, groups, hsettles⟩
  | leave gids =>
    obtain ⟨shards, groups, hsettles, -⟩ := leave_settles hlast gids
    exact ⟨shards, groups, hsettles⟩
  | move shardid gid => exact ⟨_, _, move_settles hlast hop gid⟩

/-- A sequence of operations settles, one after the other. -/
theorem run_settles (ops : List Op) (hops : ∀ op ∈ ops, op.InRange) (h : csm.configs ≠ []) :
    ∃ csm', (∀ acts : List Action, acts.map Action.op = ops →
        ∀ x, Run step Any csm acts x → x = csm') ∧
      ∃ n, ∀ acts : List Action, acts.map Action.op = ops → (∀ a ∈ acts, n ≤ a.fuel) →
        Run step Any csm acts csm' := by
  induction ops generalizing csm with
  | nil =>
    refine ⟨csm, fun acts hacts x hx => ?_, 0, fun acts hacts _ => ?_⟩
    · obtain rfl := List.map_eq_nil_iff.mp hacts
      cases hx
      rfl
    · obtain rfl := List.map_eq_nil_iff.mp hacts
      exact Run.nil csm
  | cons op ops ih =>
    obtain ⟨shards, groups, ⟨n, hn⟩, hsame⟩ := exists_settles h (hops op List.mem_cons_self)
    have hnext : (csm.add shards groups).configs ≠ [] :=
      List.append_ne_nil_of_right_ne_nil _ (List.cons_ne_nil _ _)
    obtain ⟨csm', hagree, n', hn'⟩ := ih (fun op hop => hops op (List.mem_cons_of_mem _ hop)) hnext
    refine ⟨csm', fun acts hacts x hx => ?_, max n n', fun acts hacts hfuel => ?_⟩
    · obtain ⟨a, acts, rfl, rfl, hrest⟩ := List.map_eq_cons_iff.mp hacts
      cases hx with
      | cons _ hst hx => exact hagree acts hrest x (hsame _ _ _ hst ▸ hx)
    · obtain ⟨a, acts, rfl, rfl, hrest⟩ := List.map_eq_cons_iff.mp hacts
      have ha := hfuel a List.mem_cons_self
      refine Run.cons trivial (hn a.orders a.fuel (le_trans (le_max_left n n') ha)) ?_
      exact hn' acts hrest fun b hb => le_trans (le_max_right n n') (hfuel b (List.mem_cons_of_mem _ hb))

/-- Replicas that carry out the same operations have the same configurations, whatever the orders of
    their map loops, and every replica gets to the end. -/
theorem replicas_agree (ops : List Op) (hops : ∀ op ∈ ops, op.InRange) :
    (∀ acts acts' : List Action, acts.map Action.op = ops → acts'.map Action.op = ops →
      ∀ csm csm', Run step Any newCtrlerStateMachine acts csm →
        Run step Any newCtrlerStateMachine acts' csm' → csm.configs = csm'.configs) ∧
    ∃ n, ∀ acts : List Action, acts.map Action.op = ops → (∀ a ∈ acts, n ≤ a.fuel) →
      ∃ csm, Run step Any newCtrlerStateMachine acts csm := by
  obtain ⟨x, hagree, n, hn⟩ :=
    run_settles ops hops (show newCtrlerStateMachine.configs ≠ [] from List.cons_ne_nil _ _)
  refine ⟨fun acts acts' hacts hacts' csm csm' hrun hrun' => ?_, n, fun acts hacts hfuel => ?_⟩
  · rw [hagree acts hacts csm hrun, hagree acts' hacts' csm' hrun']
  · exact ⟨x, hn acts hacts hfuel⟩

/-- Groups that include gid 0 and a `Move` to a gid nobody has. -/
def stray (l : List ℤ) (fuel : ℕ) : List Action :=
  [⟨.join ((Map.empty.set 0 ["z"]).set 5 ["e"]), visiting l, fuel⟩, ⟨.move 3 9, visiting l, fuel⟩,
    ⟨.leave [5], visiting l, fuel⟩, ⟨.join (Map.empty.set 4 ["d"]), visiting l, fuel⟩]

theorem replicas_agree_stray : ∃ fuel csm csm',
    Run step Any newCtrlerStateMachine (stray [5, 0] fuel) csm ∧
    Run step Any newCtrlerStateMachine (stray [9, 4, 0] fuel) csm' ∧ csm.configs = csm'.configs := by
  have hops : ∀ op ∈ (stray [] 0).map Action.op, op.InRange := by
    intro op hop
    simp only [stray, List.map_cons, List.map_nil, List.mem_cons, List.not_mem_nil, or_false] at hop
    rcases hop with rfl | rfl | rfl | rfl
    · trivial
    · exact ⟨by decide, by decide⟩
    · trivial
    · trivial
  obtain ⟨hagree, fuel, hend⟩ := replicas_agree ((stray [] 0).map Action.op) hops
  have hfuel : ∀ l, ∀ a ∈ stray l fuel, fuel ≤ a.fuel := by
    intro l a ha
    simp only [stray, List.mem_cons, List.not_mem_nil, or_false] at ha
    rcases ha with rfl | rfl | rfl | rfl <;> exact le_rfl
  obtain ⟨csm, hrun⟩ := hend (stray [5, 0] fuel) rfl (hfuel _)
  obtain ⟨csm', hrun'⟩ := hend (stray [9, 4, 0] fuel) rfl (hfuel _)
  exact ⟨fuel, csm, csm', hrun, hrun', hagree (stray [5, 0] fuel) (stray [9, 4, 0] fuel) rfl rfl csm csm' hrun hrun'⟩

end GoServices.ShardCtrler
