import Mathlib.Data.Nat.Notation
import Mathlib.Logic.Relation
import Mathlib.Tactic.SplitIfs

/-! Runs of a step function, with or without a condition on the steps taken. -/

namespace GoServices.Runs

variable {S A : Type} (step : S → A → Option S)

/-- `Run P s as t`: the actions `as` lead from `s` to `t`, each one meeting `P` where it is taken. -/
inductive Run (P : S → A → Prop) : S → List A → S → Prop where
  | nil (s : S) : Run P s [] s
  | cons {s s' t : S} {a : A} {as : List A} (hP : P s a) (hs : step s a = some s')
      (hr : Run P s' as t) : Run P s (a :: as) t

/-- Every step is allowed. -/
def Any : S → A → Prop := fun _ _ => True

instance (s : S) (a : A) : Decidable (Any s a) := inferInstanceAs (Decidable True)

/-- Carry out actions one by one, as long as they are enabled and meet `P`. -/
def exec (P : S → A → Prop) [∀ s a, Decidable (P s a)] : S → List A → Option S
  | s, [] => some s
  | s, a :: as => if P s a then (step s a).bind fun s' => exec P s' as else none

variable {step} {P : S → A → Prop}

/-- What one step preserves, a run preserves. -/
theorem Run.preserves {I : S → Prop} (h : ∀ s a s', I s → P s a → step s a = some s' → I s')
    {s t : S} {as : List A} (hr : Run step P s as t) (hs : I s) : I t := by
  induction hr with
  | nil s => exact hs
  | cons hP hst _ ih => exact ih (h _ _ _ hs hP hst)

theorem Run.concat {s t u : S} {as : List A} {a : A} (hr : Run step P s as t) (hP : P t a)
    (hs : step t a = some u) : Run step P s (as ++ [a]) u := by
  induction hr with
  | nil s => exact .cons hP hs (.nil u)
  | cons hP' hs' _ ih => exact .cons hP' hs' (ih hP hs)

/-- A system that can follow every step of another one can follow its runs. -/
theorem Run.follow {T : Type} {step' : T → A → Option T} {R : T → S → Prop}
    (h : ∀ x s a s', R x s → step s a = some s' → ∃ x', step' x a = some x' ∧ R x' s')
    {s t : S} {as : List A} (hr : Run step P s as t) {x : T} (hx : R x s) :
    ∃ y, Run step' Any x as y ∧ R y t := by
  induction hr generalizing x with
  | nil s => exact ⟨x, .nil x, hx⟩
  | cons _ hst _ ih =>
    obtain ⟨x', hx', hR⟩ := h _ _ _ _ hx hst
    obtain ⟨y, hy, hyt⟩ := ih hR
    exact ⟨y, .cons trivial hx' hy, hyt⟩

/-- Executions are runs. -/
theorem run_of_exec [∀ s a, Decidable (P s a)] {s t : S} {as : List A}
    (h : exec step P s as = some t) : Run step P s as t := by
  induction as generalizing s with
  | nil => exact Option.some.inj h ▸ Run.nil s
  | cons a as ih =>
    unfold exec at h
    split_ifs at h with hP
    obtain ⟨s', hs, h⟩ := Option.bind_eq_some_iff.mp h
    exact Run.cons hP hs (ih h)

theorem exec_of_run [∀ s a, Decidable (P s a)] {s t : S} {as : List A} (h : Run step P s as t) :
    exec step P s as = some t := by
  induction h with
  | nil s => rfl
  | cons hP hs _ ih => rw [exec, if_pos hP, hs, Option.bind_some, ih]

/-- A loop that may fail is a run of its body. -/
theorem run_of_foldlM {s t : S} {as : List A} (h : as.foldlM step s = some t) :
    Run step Any s as t := by
  induction as generalizing s with
  | nil => exact Option.some.inj h ▸ Run.nil s
  | cons a as ih =>
    obtain ⟨s', hs, h⟩ := Option.bind_eq_some_iff.mp h
    exact Run.cons trivial hs (ih h)

/-- A run to a state with a property that can be checked, found by carrying it out. -/
theorem exists_run (step : S → A → Option S) (P : S → A → Prop) [∀ s a, Decidable (P s a)] (s : S)
    (as : List A) (q : S → Bool)
    (h : (exec step P s as).any q = true) : ∃ t, Run step P s as t ∧ q t = true := by
  cases ht : exec step P s as with
  | none => rw [ht] at h; exact absurd h (by simp)
  | some t => rw [ht] at h; exact ⟨t, run_of_exec ht, h⟩

/-- A measure that falls until the goal is met leads to the goal, unless something blocks the way. -/
theorem exists_goal {R : S → S → Prop} {I G B : S → Prop} (m : S → ℕ)
    (h : ∀ s, I s → ¬ G s → ¬ B s → ∃ t, R s t ∧ I t ∧ m t < m s) {s : S} (hs : I s)
    (hB : ∀ t, Relation.ReflTransGen R s t → ¬ B t) :
    ∃ t, Relation.ReflTransGen R s t ∧ I t ∧ G t := by
  induction hm : m s using Nat.strongRecOn generalizing s with
  | _ k ih =>
    subst hm
    by_cases hG : G s
    · exact ⟨s, .refl, hs, hG⟩
    · obtain ⟨t, hst, ht, hlt⟩ := h s hs hG (hB s .refl)
      obtain ⟨u, htu, hu⟩ := ih (m t) hlt ht (fun v hv => hB v (.head hst hv)) rfl
      exact ⟨u, .head hst htu, hu⟩

end GoServices.Runs
