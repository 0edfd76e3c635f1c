import Mathlib.Data.Finset.Card
import Mathlib.Data.List.Sort

/-! Finite maps and loops over them in an unspecified order.

    A `Map` knows the set of its keys. An `Order` is one way to enumerate every finite set of keys,
    and `Order.range` lists the entries of a map in that order. A loop over a map is a fold over
    such a list; the lemmas below say which folds do not depend on the order, either because their
    result is known (`get_foldl_set`, `get_foldl_setNew`) or because the keys are sorted first
    (`Order.sorted_eq`). -/

namespace GoServices.Ranges

variable {K V W : Type} [DecidableEq K]

/-- A finite map together with the set of its keys. -/
structure Map (K V : Type) [DecidableEq K] where
  get : K → Option V
  keys : Finset K
  mem_keys : ∀ k, k ∈ keys ↔ (get k).isSome = true

namespace Map

variable {m m' : Map K V} {k k' : K} {v : V}

@[ext] theorem ext (h : ∀ k, m.get k = m'.get k) : m = m' := by
  have hkeys : m.keys = m'.keys := by
    ext k
    rw [m.mem_keys, m'.mem_keys, h]
  cases m
  cases m'
  simp only [mk.injEq]
  exact ⟨funext h, hkeys⟩

instance [DecidableEq V] : DecidableEq (Map K V) := fun m m' =>
  decidable_of_iff (m.keys = m'.keys ∧ ∀ k ∈ m.keys, m.get k = m'.get k) (by
    constructor
    · rintro ⟨hkeys, hget⟩
      ext1 k
      by_cases hk : k ∈ m.keys
      · exact hget k hk
      · have hk' : k ∉ m'.keys := hkeys ▸ hk
        rw [m.mem_keys, Bool.not_eq_true, Option.isSome_eq_false_iff, Option.isNone_iff_eq_none] at hk
        rw [m'.mem_keys, Bool.not_eq_true, Option.isSome_eq_false_iff, Option.isNone_iff_eq_none] at hk'
        rw [hk, hk']
    · rintro rfl
      exact ⟨rfl, fun _ _ => rfl⟩)

/-- The empty map. -/
def empty : Map K V := ⟨fun _ => none, ∅, fun k => by simp⟩

/-- The map with `k` set to `v`. -/
def set (m : Map K V) (k : K) (v : V) : Map K V where
  get := Function.update m.get k (some v)
  keys := insert k m.keys
  mem_keys := fun k' => by
    rcases eq_or_ne k' k with rfl | hk
    · simp
    · rw [Finset.mem_insert, Function.update_of_ne hk, m.mem_keys]
      simp [hk]

/-- The map without `k`. -/
def erase (m : Map K V) (k : K) : Map K V where
  get := Function.update m.get k none
  keys := m.keys.erase k
  mem_keys := fun k' => by
    rcases eq_or_ne k' k with rfl | hk
    · simp
    · rw [Finset.mem_erase, Function.update_of_ne hk, m.mem_keys]
      simp [hk]

/-- Every value changed by `f`. -/
def map (f : V → W) (m : Map K V) : Map K W where
  get := fun k => (m.get k).map f
  keys := m.keys
  mem_keys := fun k => by rw [Option.isSome_map, m.mem_keys]

@[simp] theorem get_map (f : V → W) : (m.map f).get k = (m.get k).map f := rfl

@[simp] theorem get_empty : (empty : Map K V).get k = none := rfl

theorem get_set : (m.set k v).get k' = if k' = k then some v else m.get k' :=
  Function.update_apply m.get k (some v) k'

@[simp] theorem get_set_self : (m.set k v).get k = some v := by rw [get_set, if_pos rfl]

@[simp] theorem get_set_of_ne (h : k' ≠ k) : (m.set k v).get k' = m.get k' := by
  rw [get_set, if_neg h]

theorem set_comm {v' : V} (h : k ≠ k') : (m.set k v).set k' v' = (m.set k' v').set k v := by
  ext1 x
  exact congrFun (Function.update_comm h (some v) (some v') m.get) x

@[simp] theorem keys_set : (m.set k v).keys = insert k m.keys := rfl

theorem get_erase : (m.erase k).get k' = if k' = k then none else m.get k' :=
  Function.update_apply m.get k none k'

@[simp] theorem keys_erase : (m.erase k).keys = m.keys.erase k := rfl

theorem mem_keys_of_get (h : m.get k = some v) : k ∈ m.keys := by
  rw [m.mem_keys, h]; rfl

theorem get_eq_none (h : k ∉ m.keys) : m.get k = none := by
  rw [m.mem_keys, Bool.not_eq_true] at h
  exact Option.not_isSome_iff_eq_none.mp (by simp [h])

theorem exists_get (h : k ∈ m.keys) : ∃ v, m.get k = some v :=
  Option.isSome_iff_exists.mp ((m.mem_keys k).mp h)

end Map

/-! ### Orders -/

/-- A way to enumerate every finite set of keys. -/
structure Order (K : Type) [DecidableEq K] where
  list : Finset K → List K
  nodup : ∀ s, (list s).Nodup
  mem_list : ∀ s k, k ∈ list s ↔ k ∈ s

/-- The elements of a finite set in ascending order. -/
def ascending [LinearOrder K] (s : Finset K) : List K :=
  Quot.liftOn s.val (List.insertionSort (· ≤ ·)) fun l l' h =>
    List.Perm.eq_of_pairwise' (List.pairwise_insertionSort (· ≤ ·) l)
      (List.pairwise_insertionSort (· ≤ ·) l') (((List.perm_insertionSort _ l).trans h).trans (List.perm_insertionSort _ l').symm)

omit [DecidableEq K] in
theorem ascending_perm [LinearOrder K] (s : Finset K) : (ascending s : Multiset K) = s.val := by
  obtain ⟨l, hl⟩ := Quot.exists_rep s.val
  unfold ascending
  rw [← hl]
  exact Multiset.coe_eq_coe.mpr (List.perm_insertionSort _ l)

namespace Order

/-- First the keys of `l` that are there, then the others in ascending order. -/
def first [LinearOrder K] (l : List K) : Order K where
  list := fun s => l.dedup.filter (· ∈ s) ++ (ascending s).filter (· ∉ l)
  nodup := fun s => by
    have hasc : (ascending s).Nodup := by
      rw [← Multiset.coe_nodup, ascending_perm]; exact s.nodup
    refine List.Nodup.append (l.nodup_dedup.filter _) (hasc.filter _) ?_
    intro k hk hk'
    have hin := List.mem_dedup.mp (List.mem_of_mem_filter hk)
    exact absurd hin (by simpa using (List.mem_filter.mp hk').2)
  mem_list := fun s k => by
    have hasc : k ∈ ascending s ↔ k ∈ s := by
      rw [← Multiset.mem_coe, ascending_perm]; rfl
    rw [List.mem_append, List.mem_filter, List.mem_filter, List.mem_dedup, hasc]
    by_cases hk : k ∈ l <;> simp [hk]

variable (o o' : Order K) (m : Map K V)

/-- The entries of a map in the order in which a loop visits them. -/
def range : List (K × V) := (o.list m.keys).filterMap fun k => (m.get k).map fun v => (k, v)

variable {o o' m}

theorem mem_range {k : K} {v : V} : (k, v) ∈ o.range m ↔ m.get k = some v := by
  rw [range, List.mem_filterMap]
  constructor
  · rintro ⟨k', -, h⟩
    obtain ⟨v', hget, heq⟩ := Option.map_eq_some_iff.mp h
    obtain ⟨rfl, rfl⟩ := Prod.mk.inj heq
    exact hget
  · intro h
    exact ⟨k, (o.mem_list _ _).mpr (Map.mem_keys_of_get h), by rw [h]; rfl⟩

theorem map_fst_range : (o.range m).map Prod.fst = o.list m.keys := by
  rw [range, List.map_filterMap]
  have hsome : ∀ k ∈ o.list m.keys, ((m.get k).map fun v => (k, v)).map Prod.fst = some k := by
    intro k hk
    obtain ⟨v, hv⟩ := Map.exists_get ((o.mem_list _ _).mp hk)
    rw [hv]; rfl
  rw [List.filterMap_congr hsome, List.filterMap_some]

theorem nodup_range : ((o.range m).map Prod.fst).Nodup := map_fst_range (o := o) ▸ o.nodup m.keys

theorem length_range : (o.range m).length = m.keys.card := by
  have hset : (o.list m.keys).toFinset = m.keys := by
    ext k
    rw [List.mem_toFinset, o.mem_list]
  rw [← List.length_map (f := Prod.fst), map_fst_range, ← List.toFinset_card_of_nodup (o.nodup _), hset]

theorem list_perm (s : Finset K) : (o.list s).Perm (o'.list s) := by
  rw [List.perm_ext_iff_of_nodup (o.nodup s) (o'.nodup s)]
  exact fun k => (o.mem_list s k).trans (o'.mem_list s k).symm

/-- Sorted keys do not depend on the order in which they were collected. -/
theorem sorted_eq [LinearOrder K] (o o' : Order K) (s : Finset K) :
    (o.list s).insertionSort (· ≤ ·) = (o'.list s).insertionSort (· ≤ ·) :=
  List.Perm.eq_of_pairwise' (List.pairwise_insertionSort (· ≤ ·) _)
    (List.pairwise_insertionSort (· ≤ ·) _) (((List.perm_insertionSort _ _).trans (list_perm s)).trans (List.perm_insertionSort _ _).symm)

end Order

/-! ### Loops that build a map -/

section Build

variable {k : K} {l : List (K × V)}

/-- What a list with distinct keys says about a key. -/
theorem get_foldl_of_notMem {f : Map K W → K × V → Map K W}
    (hf : ∀ b e, e.1 ≠ k → (f b e).get k = b.get k) (hk : k ∉ l.map Prod.fst) (b : Map K W) :
    (l.foldl f b).get k = b.get k := by
  induction l generalizing b with
  | nil => rfl
  | cons e l ih =>
    rw [List.map_cons, List.mem_cons, not_or] at hk
    rw [List.foldl_cons, ih hk.2, hf b e (Ne.symm hk.1)]

theorem get_foldl_of_mem {f : Map K W → K × V → Map K W}
    (hf : ∀ b e, e.1 ≠ k → (f b e).get k = b.get k) (hl : (l.map Prod.fst).Nodup) {v : V}
    (hk : (k, v) ∈ l) (b : Map K W) :
    ∃ b' : Map K W, b'.get k = b.get k ∧ (l.foldl f b).get k = (f b' (k, v)).get k := by
  induction l generalizing b with
  | nil => exact absurd hk (List.not_mem_nil)
  | cons e l ih =>
    rw [List.map_cons, List.nodup_cons] at hl
    rcases List.mem_cons.mp hk with rfl | hk
    · exact ⟨b, rfl, get_foldl_of_notMem hf hl.1 _⟩
    · have hne : e.1 ≠ k := fun h => hl.1 (h ▸ List.mem_map_of_mem (f := Prod.fst) hk)
      obtain ⟨b', hb', h⟩ := ih hl.2 hk (f b e)
      exact ⟨b', hb'.trans (hf b e hne), h⟩

/-- Writing every entry, changed by `g`, into a map. -/
theorem get_foldl_set (o : Order K) (m : Map K V) (g : V → W) (b : Map K W) (k : K) :
    ((o.range m).foldl (fun b e => b.set e.1 (g e.2)) b).get k = ((m.get k).map g).or (b.get k) := by
  have hf : ∀ (b : Map K W) (e : K × V), e.1 ≠ k → (b.set e.1 (g e.2)).get k = b.get k :=
    fun b e he => Map.get_set_of_ne (Ne.symm he)
  cases hm : m.get k with
  | none =>
    have hk : k ∉ (o.range m).map Prod.fst := by
      rw [Order.map_fst_range, o.mem_list, m.mem_keys, hm]; simp
    rw [get_foldl_of_notMem hf hk]; rfl
  | some v =>
    obtain ⟨b', -, h⟩ := get_foldl_of_mem hf Order.nodup_range (Order.mem_range.mpr hm) b
    rw [h, Map.get_set_self]; rfl

/-- Writing the entries whose keys are new. -/
theorem get_foldl_setNew (o : Order K) (m : Map K V) (b : Map K V) (k : K) :
    ((o.range m).foldl (fun b e => if (b.get e.1).isSome then b else b.set e.1 e.2) b).get k =
      (b.get k).or (m.get k) := by
  have hf : ∀ (b : Map K V) (e : K × V), e.1 ≠ k →
      (if (b.get e.1).isSome then b else b.set e.1 e.2).get k = b.get k := by
    intro b e he
    split_ifs
    · rfl
    · exact Map.get_set_of_ne (Ne.symm he)
  cases hm : m.get k with
  | none =>
    have hk : k ∉ (o.range m).map Prod.fst := by
      rw [Order.map_fst_range, o.mem_list, m.mem_keys, hm]; simp
    rw [get_foldl_of_notMem hf hk, Option.or_none]
  | some v =>
    obtain ⟨b', hb', h⟩ := get_foldl_of_mem hf Order.nodup_range (Order.mem_range.mpr hm) b
    rw [h, ← hb']
    cases hb : b'.get k with
    | none => simp
    | some w => simp [hb]

end Build

/-! ### A running best candidate -/

/-- A loop that replaces its candidate by the first strictly better one ends with a candidate that
    nothing in the list beats. -/
theorem foldl_best {A B : Type} {r : B → B → Prop} [DecidableRel r] {p : A → Prop} [DecidablePred p]
    (hasymm : ∀ x y, r x y → ¬ r y x) (htrans : ∀ x y z, ¬ r x y → ¬ r y z → ¬ r x z) (f : A → B)
    (l : List A) (acc : A × B) :
    let res := l.foldl (fun acc a => if p a ∧ r (f a) acc.2 then (a, f a) else acc) acc
    (res = acc ∨ res.1 ∈ l ∧ p res.1 ∧ res.2 = f res.1) ∧ ¬ r acc.2 res.2 ∧
      ∀ a ∈ l, p a → ¬ r (f a) res.2 := by
  induction l generalizing acc with
  | nil => exact ⟨Or.inl rfl, fun h => hasymm _ _ h h, fun a ha => absurd ha (List.not_mem_nil)⟩
  | cons a l ih =>
    dsimp only [List.foldl_cons]
    by_cases hnew : p a ∧ r (f a) acc.2
    · rw [if_pos hnew]
      obtain ⟨hres, hacc, hall⟩ := ih (a, f a)
      refine ⟨Or.inr ?_, htrans _ _ _ (hasymm _ _ hnew.2) hacc, ?_⟩
      · rcases hres with heq | ⟨hmem, hrest⟩
        · rw [heq]; exact ⟨List.mem_cons_self, hnew.1, rfl⟩
        · exact ⟨List.mem_cons_of_mem _ hmem, hrest⟩
      · intro x hx hp
        rcases List.mem_cons.mp hx with rfl | hx
        · exact hacc
        · exact hall x hx hp
    · rw [if_neg hnew]
      obtain ⟨hres, hacc, hall⟩ := ih acc
      refine ⟨hres.imp_right fun h => ⟨List.mem_cons_of_mem _ h.1, h.2⟩, hacc, ?_⟩
      intro x hx hp
      rcases List.mem_cons.mp hx with rfl | hx
      · exact htrans _ _ _ (fun hr => hnew ⟨hp, hr⟩) hacc
      · exact hall x hx hp

end GoServices.Ranges
