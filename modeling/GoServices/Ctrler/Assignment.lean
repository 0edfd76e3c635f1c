import GoServices.Ctrler.StateMachine
import GoServices.Schemes.Balance

/-! The buckets of the controller as an assignment of shards to gids.

    `Assigns m owner` says that the buckets hold every shard that has an owner exactly once, with
    its owner. Each loop of `Join` and `Leave` then changes owners in a way that no map order can
    influence: the groups are known, the gids are sorted before one is chosen, and a shard is written
    back from the one bucket it is in. -/

namespace GoServices.ShardCtrler

open Ranges Balance

variable {m m' : Buckets} {owner : Fin nShards → Option ℤ} {g : ℤ}

/-! ### Groups -/

theorem copyGroups_eq (o : Order ℤ) (groups : Map ℤ (List String)) : copyGroups o groups = groups := by
  ext1 k
  have h := get_foldl_set o groups id Map.empty k
  rwa [Option.map_id_apply, Map.get_empty, Option.or_none] at h

theorem get_addGroups (o : Order ℤ) (old new : Map ℤ (List String)) (k : ℤ) :
    (addGroups o old new).get k = (old.get k).or (new.get k) := get_foldl_setNew o new old k

theorem addGroups_eq (o o' : Order ℤ) (old new : Map ℤ (List String)) :
    addGroups o old new = addGroups o' old new := by
  ext1 k
  rw [get_addGroups, get_addGroups]

theorem keys_addGroups (o : Order ℤ) (old new : Map ℤ (List String)) :
    (addGroups o old new).keys = old.keys ∪ new.keys := by
  ext k
  rw [Map.mem_keys, get_addGroups, Finset.mem_union, old.mem_keys, new.mem_keys, Option.isSome_or,
    Bool.or_eq_true]

/-! ### Buckets -/

theorem bucket_set (k : ℤ) (v : List (Fin nShards)) :
    bucket (m.set k v) g = if g = k then v else bucket m g := by
  unfold bucket
  rw [Map.get_set]
  split_ifs <;> rfl

theorem bucket_set_of_ne {k : ℤ} (v : List (Fin nShards)) (h : g ≠ k) :
    bucket (m.set k v) g = bucket m g := by
  rw [bucket_set, if_neg h]

theorem bucket_eq_nil (h : g ∉ m.keys) : bucket m g = [] := by
  rw [bucket, Map.get_eq_none h]; rfl

theorem mem_keys_of_mem {s : Fin nShards} (h : s ∈ bucket m g) : g ∈ m.keys := by
  by_contra hg
  rw [bucket_eq_nil hg] at h
  exact List.not_mem_nil h

/-- Every shard that has an owner is in its owner's bucket, once, and nowhere else. -/
structure Assigns (m : Buckets) (owner : Fin nShards → Option ℤ) : Prop where
  nodup : ∀ g, (bucket m g).Nodup
  mem : ∀ g s, s ∈ bucket m g ↔ owner s = some g

theorem Assigns.owner_mem_keys {shards : Fin nShards → ℤ} (h : Assigns m (some ∘ shards))
    (s : Fin nShards) : shards s ∈ m.keys :=
  mem_keys_of_mem ((h.mem _ s).mpr rfl)

theorem Assigns.length_le (h : Assigns m owner) (g : ℤ) : (bucket m g).length ≤ nShards := by
  have := (h.nodup g).length_le_card
  rwa [Fintype.card_fin] at this

/-- The length of a bucket counts the shards of its gid. -/
theorem Assigns.length_eq {shards : Fin nShards → ℤ} (h : Assigns m (some ∘ shards)) (g : ℤ) :
    (bucket m g).length = count shards g := by
  rw [count, ← List.toFinset_card_of_nodup (h.nodup g)]
  congr 1
  ext s
  rw [List.mem_toFinset, h.mem, Finset.mem_filter, Function.comp_apply, Option.some.injEq]
  exact ⟨fun hs => ⟨Finset.mem_univ s, hs⟩, fun hs => hs.2⟩

/-- One more shard at the end of a bucket. -/
theorem Assigns.add (h : Assigns m owner) {s : Fin nShards} (hs : owner s = none) (g : ℤ) :
    Assigns (m.set g (bucket m g ++ [s])) (Function.update owner s (some g)) := by
  have hout : ∀ k, s ∉ bucket m k := fun k hk => by rw [h.mem, hs] at hk; exact absurd hk (by simp)
  refine ⟨fun k => ?_, fun k x => ?_⟩
  · rw [bucket_set]
    split_ifs
    · rw [← List.concat_eq_append]
      exact (h.nodup g).concat (hout g)
    · exact h.nodup k
  · rcases eq_or_ne x s with rfl | hx
    · rw [Function.update_self, Option.some.injEq, bucket_set]
      split_ifs with hk
      · simp [hk]
      · exact ⟨fun hmem => absurd hmem (hout k), fun heq => absurd heq.symm hk⟩
    · rw [Function.update_of_ne hx, ← h.mem, bucket_set]
      split_ifs with hk
      · rw [hk, List.mem_append, List.mem_singleton]
        exact or_iff_left hx
      · rfl

/-- The first shard of a bucket is taken out. -/
theorem Assigns.pop (h : Assigns m owner) {s : Fin nShards} {rest : List (Fin nShards)}
    (hb : bucket m g = s :: rest) : Assigns (m.set g rest) (Function.update owner s none) := by
  have hnd := h.nodup g
  rw [hb, List.nodup_cons] at hnd
  have hown : owner s = some g := (h.mem g s).mp (by rw [hb]; exact List.mem_cons_self)
  refine ⟨fun k => ?_, fun k x => ?_⟩
  · rw [bucket_set]
    split_ifs
    · exact hnd.2
    · exact h.nodup k
  · rcases eq_or_ne x s with rfl | hx
    · rw [Function.update_self, bucket_set]
      refine ⟨fun hmem => ?_, fun heq => absurd heq (by simp)⟩
      split_ifs at hmem with hk
      · exact absurd hmem hnd.1
      · rw [h.mem, hown, Option.some.injEq] at hmem
        exact absurd hmem.symm hk
    · rw [Function.update_of_ne hx, ← h.mem, bucket_set]
      split_ifs with hk
      · rw [hk, hb, List.mem_cons, or_iff_right hx]
      · rfl

/-! ### `gidToShards` -/

theorem gidToShards_eq (o o' : Order ℤ) (groups : Map ℤ (List String)) (shards : Fin nShards → ℤ) :
    gidToShards o groups shards = gidToShards o' groups shards := by
  unfold gidToShards
  congr 1
  ext1 k
  rw [get_foldl_set o groups (fun _ => []), get_foldl_set o' groups (fun _ => [])]

/-- Shards handed out one after the other. -/
theorem foldl_assigns (shards : Fin nShards → ℤ) (l : List (Fin nShards)) (hl : l.Nodup)
    (h : Assigns m owner) (hout : ∀ s ∈ l, owner s = none) :
    Assigns (l.foldl (fun m s => m.set (shards s) (bucket m (shards s) ++ [s])) m)
      (fun s => if s ∈ l then some (shards s) else owner s) ∧
    (l.foldl (fun m s => m.set (shards s) (bucket m (shards s) ++ [s])) m).keys =
      m.keys ∪ (l.map shards).toFinset := by
  induction l generalizing m owner with
  | nil => simpa using h
  | cons x l ih =>
    rw [List.nodup_cons] at hl
    have hx := h.add (hout x List.mem_cons_self) (shards x)
    obtain ⟨hassign, hkeys⟩ := ih hl.2 hx fun s hs => by
      have hne : s ≠ x := fun heq => hl.1 (heq ▸ hs)
      rw [Function.update_of_ne hne]
      exact hout s (List.mem_cons_of_mem _ hs)
    rw [List.foldl_cons]
    refine ⟨?_, ?_⟩
    · convert hassign using 1
      funext s
      rcases eq_or_ne s x with rfl | hs
      · rw [if_pos List.mem_cons_self, if_neg hl.1, Function.update_self]
      · simp only [Function.update_of_ne hs, List.mem_cons, hs, false_or]
    · rw [hkeys, Map.keys_set, List.map_cons, List.toFinset_cons, Finset.insert_union,
        Finset.union_insert]

theorem assigns_gidToShards (o : Order ℤ) (groups : Map ℤ (List String)) (shards : Fin nShards → ℤ) :
    Assigns (gidToShards o groups shards) (some ∘ shards) ∧
    (gidToShards o groups shards).keys = groups.keys ∪ Finset.univ.image shards := by
  obtain ⟨base, hbase⟩ : ∃ base : Buckets, (o.range groups).foldl (fun m e => m.set e.1 []) Map.empty =
      base := ⟨_, rfl⟩
  have hget : ∀ k, base.get k = (groups.get k).map fun _ => [] := fun k => by
    have h := get_foldl_set o groups (fun _ => ([] : List (Fin nShards))) Map.empty k
    rwa [hbase, Map.get_empty, Option.or_none] at h
  have hnil : ∀ k, bucket base k = [] := fun k => by
    rw [bucket, hget]
    cases groups.get k <;> rfl
  have hempty : Assigns base fun _ => none :=
    ⟨fun k => by rw [hnil]; exact List.nodup_nil, fun k s => by rw [hnil]; simp⟩
  have hkeys : base.keys = groups.keys := by
    ext k
    rw [Map.mem_keys, hget, groups.mem_keys, Option.isSome_map]
  have hfold := foldl_assigns shards (List.finRange nShards) (List.nodup_finRange _) hempty
    fun _ _ => rfl
  simp only [List.mem_finRange, if_true, hkeys] at hfold
  rw [gidToShards, hbase]
  exact hfold

/-! ### The fullest and the emptiest group -/

theorem mem_sortedGids {o : Order ℤ} : g ∈ sortedGids o m ↔ g ∈ m.keys := by
  rw [sortedGids, List.mem_insertionSort, o.mem_list]

theorem gidWithMaxShards_eq (o o' : Order ℤ) (m : Buckets) :
    gidWithMaxShards o m = gidWithMaxShards o' m := by
  unfold gidWithMaxShards sortedGids
  rw [Order.sorted_eq o o']

theorem gidWithMinShards_eq (o o' : Order ℤ) (m : Buckets) :
    gidWithMinShards o m = gidWithMinShards o' m := by
  unfold gidWithMinShards sortedGids
  rw [Order.sorted_eq o o']

theorem gidWithMaxShards_zero (o : Order ℤ) (h : bucket m 0 ≠ []) : gidWithMaxShards o m = 0 :=
  if_pos (List.length_pos_of_ne_nil h)

theorem gidWithMaxShards_spec (o : Order ℤ) (h0 : bucket m 0 = []) (hk : g ∈ m.keys) :
    gidWithMaxShards o m ∈ m.keys ∧
    (bucket m g).length ≤ (bucket m (gidWithMaxShards o m)).length := by
  obtain ⟨hres, -, hall⟩ := foldl_best (r := fun x y : ℤ => x > y) (p := fun _ : ℤ => True)
    (fun x y h => by omega) (fun x y z h h' => by omega)
    (fun gid => ((bucket m gid).length : ℤ)) (sortedGids o m) (-1, -1)
  have hdef : gidWithMaxShards o m = ((sortedGids o m).foldl (fun (best : ℤ × ℤ) gid =>
      if True ∧ ((bucket m gid).length : ℤ) > best.2 then (gid, ((bucket m gid).length : ℤ)) else best)
      (-1, -1)).1 := by
    rw [gidWithMaxShards, h0, if_neg (by simp)]
    simp only [true_and]
  have hg := hall g (mem_sortedGids.mpr hk) trivial
  rw [hdef]
  rcases hres with heq | ⟨hmem, -, hval⟩
  · rw [heq] at hg
    exact absurd hg (by simp; omega)
  · exact ⟨mem_sortedGids.mp hmem, by rw [hval] at hg; omega⟩

theorem gidWithMinShards_cases (o : Order ℤ) (m : Buckets) :
    (gidWithMinShards o m = -1 ∧ ∀ k ∈ m.keys, k ≠ 0 → nShards < (bucket m k).length) ∨
    (gidWithMinShards o m ∈ m.keys ∧ gidWithMinShards o m ≠ 0 ∧ ∀ k ∈ m.keys, k ≠ 0 →
      (bucket m (gidWithMinShards o m)).length ≤ (bucket m k).length) := by
  obtain ⟨hres, -, hall⟩ := foldl_best (r := fun x y : ℤ => x < y) (p := fun gid : ℤ => gid ≠ 0)
    (fun x y h => by omega) (fun x y z h h' => by omega)
    (fun gid => ((bucket m gid).length : ℤ)) (sortedGids o m) (-1, (nShards : ℤ) + 1)
  have hall' := fun k hk => hall k (mem_sortedGids.mpr hk)
  rcases hres with heq | ⟨hmem, hne, hval⟩
  · refine Or.inl ⟨by rw [gidWithMinShards, heq], fun k hk hk0 => ?_⟩
    have := hall' k hk hk0
    rw [heq] at this
    dsimp only at this
    omega
  · refine Or.inr ⟨mem_sortedGids.mp hmem, hne, fun k hk hk0 => ?_⟩
    have := hall' k hk hk0
    rw [hval] at this
    unfold gidWithMinShards
    omega

theorem gidWithMinShards_ne_zero (o : Order ℤ) (m : Buckets) : gidWithMinShards o m ≠ 0 := by
  rcases gidWithMinShards_cases o m with ⟨h, -⟩ | ⟨-, h, -⟩
  · rw [h]; decide
  · exact h

theorem gidWithMinShards_spec (o : Order ℤ) (h : Assigns m owner) (hk : g ∈ m.keys) (h0 : g ≠ 0) :
    gidWithMinShards o m ∈ m.keys ∧
    ∀ k ∈ m.keys, k ≠ 0 → (bucket m (gidWithMinShards o m)).length ≤ (bucket m k).length := by
  rcases gidWithMinShards_cases o m with ⟨-, hall⟩ | ⟨hmem, -, hall⟩
  · have := hall g hk h0
    have := h.length_le g
    omega
  · exact ⟨hmem, hall⟩

/-! ### Writing back -/

theorem foldl_update_of_notMem (shards : List (Fin nShards)) (g : ℤ) (f : Fin nShards → ℤ)
    {s : Fin nShards} (hs : s ∉ shards) :
    shards.foldl (fun f shard => Function.update f shard g) f s = f s := by
  induction shards generalizing f with
  | nil => rfl
  | cons x xs ih =>
    rw [List.mem_cons, not_or] at hs
    rw [List.foldl_cons, ih _ hs.2, Function.update_of_ne hs.1]

theorem foldl_update_of_mem (shards : List (Fin nShards)) (g : ℤ) (f : Fin nShards → ℤ)
    {s : Fin nShards} (hs : s ∈ shards) :
    shards.foldl (fun f shard => Function.update f shard g) f s = g := by
  induction shards generalizing f with
  | nil => exact absurd hs List.not_mem_nil
  | cons x xs ih =>
    rw [List.foldl_cons]
    by_cases hxs : s ∈ xs
    · exact ih _ hxs
    · obtain rfl := (List.mem_cons.mp hs).resolve_right hxs
      rw [foldl_update_of_notMem xs g _ hxs, Function.update_self]

/-- Whichever buckets come first, a shard ends with the one gid whose bucket it is in. -/
theorem storeShards_eq (o : Order ℤ) (h : Assigns m owner) :
    storeShards o m = fun s => (owner s).getD 0 := by
  funext s
  have hin : ∀ e ∈ o.range m, s ∈ e.2 → owner s = some e.1 := fun e he hs => by
    refine (h.mem e.1 s).mp ?_
    rw [bucket, Order.mem_range.mp he]
    exact hs
  have hfold : ∀ (l : List (ℤ × List (Fin nShards))) (f : Fin nShards → ℤ),
      (∀ e ∈ l, s ∈ e.2 → owner s = some e.1) →
      l.foldl (fun f e => e.2.foldl (fun f shard => Function.update f shard e.1) f) f s =
        if ∃ e ∈ l, s ∈ e.2 then (owner s).getD 0 else f s := by
    intro l
    induction l with
    | nil => intro f _; simp
    | cons e l ih =>
      intro f hl
      rw [List.foldl_cons, ih _ fun e' he' => hl e' (List.mem_cons_of_mem _ he')]
      by_cases hs : s ∈ e.2
      · rw [foldl_update_of_mem e.2 e.1 f hs, hl e List.mem_cons_self hs, Option.getD_some, ite_self,
          if_pos ⟨e, List.mem_cons_self, hs⟩]
      · rw [foldl_update_of_notMem e.2 e.1 f hs]
        simp only [List.mem_cons, exists_eq_or_imp, hs, false_or]
  unfold storeShards
  rw [hfold _ _ hin]
  split_ifs with hex
  · rfl
  · cases how : owner s with
    | none => rfl
    | some k =>
      have hmem : s ∈ bucket m k := (h.mem k s).mpr how
      obtain ⟨v, hv⟩ := Map.exists_get (mem_keys_of_mem hmem)
      rw [bucket, hv] at hmem
      exact absurd ⟨(k, v), Order.mem_range.mpr hv, hmem⟩ hex

end GoServices.ShardCtrler
