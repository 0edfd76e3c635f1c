import Mathlib.Data.Finset.Insert
import Mathlib.Logic.Relation

/-! Depth-first search that records what it has seen and does not go into it again.

    A node that is seen already was explored before, or is being explored, so what lies behind it is
    or will be recorded. Hence every node that is recorded during a search has its children recorded
    when the search is over, and after the searches from all roots exactly the nodes behind the roots
    are recorded. -/

namespace GoServices.Search

variable {N : Type} [DecidableEq N]

/-- Explore what lies behind a node, down to some depth. -/
def explore (children : N → List N) : ℕ → N → Finset N → Finset N
  | 0, _, seen => seen
  | depth + 1, n, seen => (children n).foldl
      (fun seen c => if c ∈ seen then seen else explore children depth c (insert c seen)) seen

variable {children : N → List N}

/-- `y` lies behind `x`. -/
abbrev Behind (children : N → List N) : N → N → Prop := Relation.TransGen fun x y => y ∈ children x

/-- What was recorded between `seen` and `found`: only nodes behind `n`, all with their children. -/
structure Recorded (children : N → List N) (n : N) (seen found : Finset N) : Prop where
  subset : seen ⊆ found
  closed : ∀ x ∈ found, x ∉ seen → ∀ c ∈ children x, c ∈ found
  behind : ∀ x ∈ found, x ∉ seen → Behind children n x

omit [DecidableEq N] in
theorem Recorded.refl (n : N) (seen : Finset N) : Recorded children n seen seen :=
  ⟨Finset.Subset.refl _, fun _ h h' => absurd h h', fun _ h h' => absurd h h'⟩

theorem Recorded.trans {n : N} {seen found found' : Finset N} (h : Recorded children n seen found)
    (h' : Recorded children n found found') : Recorded children n seen found' := by
  refine ⟨h.subset.trans h'.subset, fun x hx hseen => ?_, fun x hx hseen => ?_⟩
  · by_cases hfound : x ∈ found
    · exact fun c hc => h'.subset (h.closed x hfound hseen c hc)
    · exact h'.closed x hx hfound
  · by_cases hfound : x ∈ found
    · exact h.behind x hfound hseen
    · exact h'.behind x hx hfound

/-- A child that is recorded and then explored. -/
theorem Recorded.child {n c : N} {seen found : Finset N} (hc : c ∈ children n)
    (h : Recorded children c (insert c seen) found) (hchildren : ∀ d ∈ children c, d ∈ found) :
    Recorded children n seen found := by
  refine ⟨(Finset.subset_insert c seen).trans h.subset, fun x hx hseen => ?_, fun x hx hseen => ?_⟩
  · by_cases hxc : x = c
    · exact hxc ▸ hchildren
    · exact h.closed x hx (by simp [hxc, hseen])
  · by_cases hxc : x = c
    · exact hxc ▸ .single hc
    · exact .head hc (h.behind x hx (by simp [hxc, hseen]))

/-- A search that is deep enough records the children of its node, and all that it records is
    complete. -/
theorem explore_spec (rank : N → ℕ) (hrank : ∀ n, ∀ c ∈ children n, rank c < rank n) :
    ∀ (depth : ℕ) (n : N) (seen : Finset N), rank n ≤ depth →
      Recorded children n seen (explore children depth n seen) ∧
        ∀ c ∈ children n, c ∈ explore children depth n seen
  | 0, n, seen, hdepth => by
    refine ⟨Recorded.refl n seen, fun c hc => ?_⟩
    have := hrank n c hc
    omega
  | depth + 1, n, seen, hdepth => by
    -- the loop over the children that are left
    suffices hloop : ∀ (cs : List N) (seen : Finset N), (∀ c ∈ cs, c ∈ children n) →
        Recorded children n seen (cs.foldl (fun seen c =>
          if c ∈ seen then seen else explore children depth c (insert c seen)) seen) ∧
        ∀ c ∈ cs, c ∈ cs.foldl (fun seen c =>
          if c ∈ seen then seen else explore children depth c (insert c seen)) seen from
      hloop (children n) seen fun _ hc => hc
    intro cs
    induction cs with
    | nil => exact fun seen _ => ⟨Recorded.refl n seen, fun c hc => absurd hc List.not_mem_nil⟩
    | cons c cs ih =>
      intro seen hcs
      have hc := hcs c List.mem_cons_self
      have hone : Recorded children n seen
            (if c ∈ seen then seen else explore children depth c (insert c seen)) ∧
          c ∈ if c ∈ seen then seen else explore children depth c (insert c seen) := by
        split_ifs with hseen
        · exact ⟨Recorded.refl n seen, hseen⟩
        · have hlt := hrank n c hc
          obtain ⟨hrec, hchildren⟩ :=
            explore_spec rank hrank depth c (insert c seen) (by omega)
          exact ⟨hrec.child hc hchildren, hrec.subset (Finset.mem_insert_self c seen)⟩
      obtain ⟨hrest, hmem⟩ := ih
        (if c ∈ seen then seen else explore children depth c (insert c seen))
        fun d hd => hcs d (List.mem_cons_of_mem c hd)
      rw [List.foldl_cons]
      refine ⟨hone.1.trans hrest, fun d hd => ?_⟩
      obtain rfl | hd := List.mem_cons.mp hd
      · exact hrest.subset hone.2
      · exact hmem d hd

section Roots

variable {rank : N → ℕ} {depth : ℕ} {seen : Finset N}

/-- What is recorded stays complete. -/
theorem explore_closed (hrank : ∀ n, ∀ c ∈ children n, rank c < rank n) {r : N}
    (hr : rank r ≤ depth) (hclosed : ∀ y ∈ seen, ∀ c ∈ children y, c ∈ seen) :
    ∀ y ∈ explore children depth r seen, ∀ c ∈ children y, c ∈ explore children depth r seen := by
  intro y hy c hc
  obtain ⟨hrec, -⟩ := explore_spec rank hrank depth r seen hr
  by_cases hseen : y ∈ seen
  · exact hrec.subset (hclosed y hseen c hc)
  · exact hrec.closed y hy hseen c hc

theorem mem_explore (hrank : ∀ n, ∀ c ∈ children n, rank c < rank n) {r : N} (hr : rank r ≤ depth)
    (hclosed : ∀ y ∈ seen, ∀ c ∈ children y, c ∈ seen) (x : N) :
    x ∈ explore children depth r seen ↔ x ∈ seen ∨ Behind children r x := by
  obtain ⟨hrec, hchildren⟩ := explore_spec rank hrank depth r seen hr
  constructor
  · intro hx
    by_cases hseen : x ∈ seen
    · exact .inl hseen
    · exact .inr (hrec.behind x hx hseen)
  · rintro (hseen | hbehind)
    · exact hrec.subset hseen
    · induction hbehind with
      | single hc => exact hchildren _ hc
      | tail _ hc hy => exact explore_closed hrank hr hclosed _ hy _ hc

/-- The searches from all roots record exactly the nodes behind them. -/
theorem mem_explore_roots (hrank : ∀ n, ∀ c ∈ children n, rank c < rank n) (x : N) :
    ∀ (roots : List N) (seen : Finset N), (∀ r ∈ roots, rank r ≤ depth) →
      (∀ y ∈ seen, ∀ c ∈ children y, c ∈ seen) →
      (x ∈ roots.foldl (fun seen r => explore children depth r seen) seen ↔
        x ∈ seen ∨ ∃ r ∈ roots, Behind children r x)
  | [], seen, _, _ => by simp
  | r :: roots, seen, hroots, hclosed => by
    have hr := hroots r List.mem_cons_self
    rw [List.foldl_cons, mem_explore_roots hrank x roots _
      (fun s hs => hroots s (List.mem_cons_of_mem r hs)) (explore_closed hrank hr hclosed),
      mem_explore hrank hr hclosed, or_assoc]
    simp

end Roots

end GoServices.Search
