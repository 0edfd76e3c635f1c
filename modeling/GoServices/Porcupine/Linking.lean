import GoServices.Porcupine.Lifting

/-! The linked list that `makeLinkedEntries` builds.

    The list is built from its end, so the node of the entry with `k` entries behind it is number
    `k`. Each call finds its return in the map of the returns that come after it. -/

namespace GoServices.Porcupine

open Histories

variable {I O S : Type}

/-- An entry without its value. -/
def Entry.mark (e : Entry I O) : Mark ℕ :=
  match e.kind with
  | .callEntry => .call e.id
  | .returnEntry => .ret e.id

/-- A history that `checkSingle` is made for: complete, with ids below the number of operations,
    inputs in the calls and outputs in the returns. -/
structure WellFormed (es : List (Entry I O)) : Prop where
  complete : Complete (es.map Entry.mark)
  id_lt : ∀ e ∈ es, e.id < es.length / 2
  input : ∀ e ∈ es, e.kind = .callEntry → e.value.isLeft = true
  output : ∀ e ∈ es, e.kind = .returnEntry → e.value.isRight = true

instance (es : List (Entry I O)) : Decidable (WellFormed es) :=
  decidable_of_iff (Complete (es.map Entry.mark) ∧ (∀ e ∈ es, e.id < es.length / 2) ∧
      (∀ e ∈ es, e.kind = .callEntry → e.value.isLeft = true) ∧
      ∀ e ∈ es, e.kind = .returnEntry → e.value.isRight = true)
    ⟨fun h => ⟨h.1, h.2.1, h.2.2.1, h.2.2.2⟩, fun h => ⟨h.1, h.2, h.3, h.4⟩⟩

/-- The input of operation `i`, taken from its call. -/
def inputOf (es : List (Entry I O)) (i : ℕ) : Option I :=
  (es.find? fun e => e.mark = .call i).bind fun e => e.value.getLeft?

/-- The output of operation `i`, taken from its return. -/
def outputOf (es : List (Entry I O)) (i : ℕ) : Option O :=
  (es.find? fun e => e.mark = .ret i).bind fun e => e.value.getRight?

/-- What the model says about operation `i` of a history. -/
def opStep (model : FullModel I O S) (es : List (Entry I O)) (s : S) (i : ℕ) : Option S := do
  let input ← inputOf es i
  let output ← outputOf es i
  if (model.step s input output).1 then some (model.step s input output).2 else none

/-- Every call has its return later in the list. -/
def ReturnsLater : List (Entry I O) → Prop
  | [] => True
  | e :: es => (e.kind = .callEntry → ∃ e' ∈ es, e'.mark = .ret e.id) ∧ ReturnsLater es

/-- The nodes of a list of `n` entries, from the first entry on. -/
def refs (n : ℕ) : List ℕ := (List.range n).reverse

@[simp] theorem mem_refs {n a : ℕ} : a ∈ refs n ↔ a < n := by simp [refs]

theorem refs_succ (n : ℕ) : refs (n + 1) = n :: refs n := by simp [refs, List.range_succ]

theorem nodup_refs (n : ℕ) : (refs n).Nodup := List.nodup_reverse.mpr List.nodup_range

theorem follows_insertBefore {l : Links Ref} {n mark : Ref} {xs : List Ref} (hprev : l.prev mark = none)
    (hl : l.Follows mark xs) (hn : n ∉ mark :: xs) (hmark : mark ∉ xs) :
    (insertBefore l n (some mark)).Follows n (mark :: xs) := by
  simp only [insertBefore, hprev]
  refine ⟨by simp, by simp, hl.congr (fun r hr => ?_) (fun r hr => ?_)⟩
  · have hrn : r ≠ n := fun h => hn (h ▸ hr)
    simp [hrn]
  · have hrm : r ≠ mark := fun h => hmark (h ▸ hr)
    simp [hrm]

theorem length_of_follows {l : Links Ref} {a : Ref} {xs : List Ref} (h : l.Follows a xs) :
    ∀ fuel, xs.length < fuel → length l fuel (some a) = xs.length + 1 := by
  induction xs generalizing a with
  | nil =>
    intro fuel hfuel
    obtain ⟨fuel, rfl⟩ : ∃ k, fuel = k + 1 := ⟨fuel - 1, by simp at hfuel; omega⟩
    rw [length, show l.next a = none from h]
    cases fuel <;> rfl
  | cons b xs ih =>
    intro fuel hfuel
    obtain ⟨fuel, rfl⟩ : ∃ k, fuel = k + 1 := ⟨fuel - 1, by simp at hfuel; omega⟩
    rw [length, h.1, ih h.2.2 fuel (by simpa using hfuel), List.length_cons]

/-- What `makeLinkedEntries` has built when it has come to the first of `es`. -/
structure Linked (es : List (Entry I O)) (k : Linking I O) : Prop where
  length_eq : k.nodes.length = es.length
  marks : (refs es.length).map (mark k.nodes) = es.map Entry.mark
  node : ∀ (a : ℕ) (node : Node I O), k.nodes[a]? = some node → ∃ e ∈ es, node.value = e.value ∧
    mark k.nodes a = e.mark
  matching : ∀ (a : ℕ) (node : Node I O) (r : ℕ), k.nodes[a]? = some node → node.matching = some r →
    r < es.length ∧ mark k.nodes r = .ret node.id
  matchOf : ∀ i r : ℕ, k.matchOf i = some r → r < es.length ∧ mark k.nodes r = .ret i
  matchOf_isSome : ∀ e ∈ es, ∀ i, e.mark = .ret i → (k.matchOf i).isSome
  fresh : ∀ p : ℕ, es.length ≤ p → k.links.next p = none ∧ k.links.prev p = none
  root : k.root = (refs es.length).head?
  root_prev : ∀ p : ℕ, k.root = some p → k.links.prev p = none
  follows : ∀ (p : ℕ) (xs : List ℕ), refs es.length = p :: xs → k.links.Follows p xs

/-- Making a node changes nothing about those that exist. -/
theorem mark_append (nodes : List (Node I O)) (node : Node I O) {a : Ref} (ha : a < nodes.length) :
    mark (nodes ++ [node]) a = mark nodes a := by
  simp [mark, idOf, List.getElem?_append_left ha]

theorem linked_new : Linked ([] : List (Entry I O)) Linking.new := by
  refine ⟨rfl, rfl, by simp [Linking.new], by simp [Linking.new], by simp [Linking.new], by simp,
    fun _ _ => ⟨rfl, rfl⟩, rfl, by simp [Linking.new], ?_⟩
  intro p xs h
  simp [refs] at h

/-- The pointers when another node is put in front. -/
theorem Linked.insertBefore {es : List (Entry I O)} {k : Linking I O} (h : Linked es k) :
    (insertBefore k.links es.length k.root).Follows es.length (refs es.length) ∧
      (insertBefore k.links es.length k.root).prev es.length = none ∧
      ∀ p : ℕ, es.length + 1 ≤ p → (insertBefore k.links es.length k.root).next p = none ∧
        (insertBefore k.links es.length k.root).prev p = none := by
  cases hrefs : refs es.length with
  | nil =>
    have hroot : k.root = none := by rw [h.root, hrefs]; rfl
    rw [hroot]
    exact ⟨(h.fresh _ (Nat.le_refl _)).1, (h.fresh _ (Nat.le_refl _)).2,
      fun p hp => h.fresh p (by omega)⟩
  | cons p xs =>
    have hroot : k.root = some p := by rw [h.root, hrefs]; rfl
    have hp : p < es.length := mem_refs.mp (hrefs ▸ List.mem_cons_self)
    have hnd := nodup_refs es.length
    rw [hrefs] at hnd
    have hfresh : es.length ∉ p :: xs := by
      rw [← hrefs, mem_refs]
      omega
    rw [hroot]
    refine ⟨follows_insertBefore (h.root_prev p hroot) (h.follows p xs hrefs) hfresh
      (List.nodup_cons.mp hnd).1, ?_, fun q hq => ?_⟩
    · have hne : es.length ≠ p := by omega
      simp [Porcupine.insertBefore, h.root_prev p hroot, hne, h.fresh es.length (Nat.le_refl _)]
    · have hqp : q ≠ p := by omega
      have hqn : q ≠ es.length := by omega
      simp [Porcupine.insertBefore, h.root_prev p hroot, hqp, hqn, h.fresh q (by omega)]

theorem Linking.add_links (e : Entry I O) (k : Linking I O) :
    (Linking.add e k).links = insertBefore k.links k.nodes.length k.root := by
  cases hk : e.kind <;> simp [Linking.add, hk]

theorem Linking.add_root (e : Entry I O) (k : Linking I O) :
    (Linking.add e k).root = some k.nodes.length := by
  cases hk : e.kind <;> simp [Linking.add, hk]

/-- The map of the returns gets the new node if that is a return. -/
theorem Linking.add_matchOf {e : Entry I O} {k : Linking I O} {i r : ℕ}
    (h : (Linking.add e k).matchOf i = some r) :
    k.matchOf i = some r ∨ r = k.nodes.length ∧ e.mark = .ret i := by
  cases hk : e.kind with
  | callEntry => exact .inl (by simpa [Linking.add, hk] using h)
  | returnEntry =>
    by_cases hi : i = e.id
    · refine .inr ⟨?_, by simp [Entry.mark, hk, hi]⟩
      simpa [Linking.add, hk, hi, eq_comm] using h
    · exact .inl (by simpa [Linking.add, hk, hi] using h)

theorem Linking.isSome_add_matchOf {e : Entry I O} {k : Linking I O} {i : ℕ}
    (h : e.mark = .ret i ∨ (k.matchOf i).isSome) : ((Linking.add e k).matchOf i).isSome := by
  cases hk : e.kind with
  | callEntry => simpa [Linking.add, Entry.mark, hk] using h
  | returnEntry =>
    by_cases hi : i = e.id
    · simp [Linking.add, hk, hi]
    · simpa [Linking.add, Entry.mark, hk, hi, Ne.symm hi] using h

/-- The node that is made for an entry. -/
theorem Linked.exists_node {es : List (Entry I O)} {k : Linking I O} (h : Linked es k) {e : Entry I O}
    (hlater : e.kind = .callEntry → ∃ e' ∈ es, e'.mark = .ret e.id) :
    ∃ node, (Linking.add e k).nodes = k.nodes ++ [node] ∧ node.value = e.value ∧
      mark (k.nodes ++ [node]) es.length = e.mark ∧
      ∀ r, node.matching = some r → k.matchOf node.id = some r := by
  cases hk : e.kind with
  | returnEntry =>
    refine ⟨⟨e.value, none, e.id⟩, by simp [Linking.add, hk], rfl, ?_, by simp⟩
    simp [mark, idOf, ← h.length_eq, Entry.mark, hk]
  | callEntry =>
    refine ⟨⟨e.value, k.matchOf e.id, e.id⟩, by simp [Linking.add, hk], rfl, ?_, fun r hr => hr⟩
    obtain ⟨e', he', hret⟩ := hlater hk
    have := h.matchOf_isSome e' he' e.id hret
    simp [mark, idOf, ← h.length_eq, Entry.mark, hk, this]

/-- A node is one of the old ones or the new one. -/
theorem getElem?_nodes {nodes : List (Node I O)} {node node' : Node I O} {a : ℕ}
    (h : (nodes ++ [node])[a]? = some node') :
    a < nodes.length ∧ nodes[a]? = some node' ∨ a = nodes.length ∧ node' = node := by
  have hlt := (List.getElem?_eq_some_iff.mp h).1
  rw [List.length_append, List.length_singleton] at hlt
  by_cases ha : a < nodes.length
  · exact .inl ⟨ha, by rwa [List.getElem?_append_left ha] at h⟩
  · obtain rfl : a = nodes.length := by omega
    exact .inr ⟨rfl, by simpa [eq_comm] using h⟩

/-- One round of the loop. -/
theorem Linked.add {es : List (Entry I O)} {k : Linking I O} (h : Linked es k) (e : Entry I O)
    (hlater : e.kind = .callEntry → ∃ e' ∈ es, e'.mark = .ret e.id) :
    Linked (e :: es) (Linking.add e k) := by
  obtain ⟨hfol, hprev, hfresh⟩ := h.insertBefore
  obtain ⟨node, hnodes, hvalue, hmark, hmatching⟩ := h.exists_node hlater
  have hlinks := Linking.add_links e k
  have hroot := Linking.add_root e k
  rw [h.length_eq] at hlinks hroot
  have hold : ∀ a < es.length, mark (k.nodes ++ [node]) a = mark k.nodes a := fun a ha =>
    mark_append k.nodes node (by rw [h.length_eq]; exact ha)
  -- a return that an old node or the map names is still there
  have hret : ∀ {r i : ℕ}, r < es.length ∧ mark k.nodes r = .ret i →
      r < (e :: es).length ∧ mark (k.nodes ++ [node]) r = .ret i := fun ⟨hr, hm⟩ =>
    ⟨Nat.lt_succ_of_lt hr, by rw [hold _ hr, hm]⟩
  constructor
  case length_eq => simp [hnodes, h.length_eq]
  case marks =>
    rw [hnodes, List.length_cons, refs_succ, List.map_cons, List.map_cons, hmark, ← h.marks]
    exact congrArg _ (List.map_congr_left fun a ha => hold a (mem_refs.mp ha))
  case node =>
    intro a node' ha
    rw [hnodes] at ha ⊢
    obtain ⟨hlt, ha⟩ | ⟨rfl, rfl⟩ := getElem?_nodes ha
    · obtain ⟨e', he', hv, hm⟩ := h.node a node' ha
      exact ⟨e', List.mem_cons_of_mem e he', hv, by rw [hold a (h.length_eq ▸ hlt), hm]⟩
    · exact ⟨e, List.mem_cons_self, hvalue, by rw [h.length_eq, hmark]⟩
  case matching =>
    intro a node' r ha hr
    rw [hnodes] at ha ⊢
    obtain ⟨-, ha⟩ | ⟨-, rfl⟩ := getElem?_nodes ha
    · exact hret (h.matching a node' r ha hr)
    · exact hret (h.matchOf _ r (hmatching r hr))
  case matchOf =>
    intro i r hr
    rw [hnodes]
    obtain hr | ⟨rfl, hi⟩ := Linking.add_matchOf hr
    · exact hret (h.matchOf i r hr)
    · rw [h.length_eq]
      exact ⟨Nat.lt_succ_self _, hmark.trans hi⟩
  case matchOf_isSome =>
    intro e' he' i hi
    obtain rfl | he' := List.mem_cons.mp he'
    · exact Linking.isSome_add_matchOf (.inl hi)
    · exact Linking.isSome_add_matchOf (.inr (h.matchOf_isSome e' he' i hi))
  case fresh =>
    intro p hp
    rw [hlinks]
    exact hfresh p hp
  case root => rw [hroot, List.length_cons, refs_succ, List.head?_cons]
  case root_prev =>
    intro p hp
    rw [hroot, Option.some.injEq] at hp
    rw [hlinks, ← hp]
    exact hprev
  case follows =>
    intro p xs hp
    rw [List.length_cons, refs_succ, List.cons.injEq] at hp
    rw [hlinks, ← hp.1, ← hp.2]
    exact hfol

theorem linked_makeLinkedEntries {es : List (Entry I O)} (h : ReturnsLater es) :
    Linked es (makeLinkedEntries es) := by
  induction es with
  | nil => exact linked_new
  | cons e es ih => exact (ih h.2).add e h.1

end GoServices.Porcupine
