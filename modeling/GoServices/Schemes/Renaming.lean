import GoServices.Schemes.Histories
import Mathlib.Data.Finset.Card
import Mathlib.Data.List.Perm.Basic

/-! Renaming the operations of a history.

    If different operations keep different names, the renamed history is complete and linearizable
    exactly if the history was. -/

namespace GoServices.Histories

open Mark

variable {ι κ S : Type}

/-- The same mark of a renamed operation. -/
def Mark.rename (f : ι → κ) : Mark ι → Mark κ
  | call i => call (f i)
  | ret i => ret (f i)

/-- No two operations of the history get the same name. -/
def Distinct (f : ι → κ) (ms : List (Mark ι)) : Prop :=
  ∀ x ∈ ms, ∀ y ∈ ms, f x.op = f y.op → x.op = y.op

variable {f : ι → κ} {ms : List (Mark ι)}

theorem Distinct.rename_inj (h : Distinct f ms) {x y : Mark ι} (hx : x ∈ ms) (hy : y ∈ ms)
    (hxy : x.rename f = y.rename f) : x = y := by
  cases x with
  | call i =>
    cases y with
    | call j => exact congrArg call (h _ hx _ hy (Mark.call.inj hxy))
    | ret j => cases hxy
  | ret i =>
    cases y with
    | call j => cases hxy
    | ret j => exact congrArg ret (h _ hx _ hy (Mark.ret.inj hxy))

theorem exists_of_call_mem_map {k : κ} (h : call k ∈ ms.map (Mark.rename f)) :
    ∃ i, call i ∈ ms ∧ f i = k := by
  obtain ⟨x, hx, hk⟩ := List.mem_map.mp h
  cases x with
  | call i => exact ⟨i, hx, Mark.call.inj hk⟩
  | ret i => cases hk

theorem Complete.rename (hc : Complete ms) (h : Distinct f ms) :
    Complete (ms.map (Mark.rename f)) := by
  refine ⟨hc.nodup.map_on fun x hx y hy => h.rename_inj hx hy, fun k hk => ?_,
    fun pre k post hcut => ?_⟩
  · obtain ⟨i, hi, rfl⟩ := exists_of_call_mem_map hk
    exact List.mem_map.mpr ⟨ret i, hc.returns i hi, rfl⟩
  · obtain ⟨a, b, rfl, rfl, hb⟩ := List.map_eq_append_iff.mp hcut
    obtain ⟨y, b', rfl, hy, -⟩ := List.map_eq_cons_iff.mp hb
    cases y with
    | call j => cases hy
    | ret j =>
      obtain rfl : f j = k := Mark.ret.inj hy
      exact List.mem_map.mpr ⟨call j, hc.called a j b' rfl, rfl⟩

theorem Distinct.precedes_iff (h : Distinct f ms) {i j : ι} (hi : ret i ∈ ms) (hj : call j ∈ ms) :
    Precedes (ms.map (Mark.rename f)) (f i) (f j) ↔ Precedes ms i j := by
  constructor
  · rintro ⟨pre, post, hcut, hmem⟩
    obtain ⟨a, b, hms, rfl, hb⟩ := List.map_eq_append_iff.mp hcut
    obtain ⟨y, b', rfl, hy, -⟩ := List.map_eq_cons_iff.mp hb
    obtain rfl : y = call j := h.rename_inj (by simp [hms]) hj hy
    obtain ⟨x, hx, hxi⟩ := List.mem_map.mp hmem
    obtain rfl : x = ret i := h.rename_inj (by simp [hms, hx]) hi hxi
    exact ⟨a, b', hms, hx⟩
  · rintro ⟨pre, post, rfl, hmem⟩
    exact ⟨pre.map (Mark.rename f), post.map (Mark.rename f), by simp [Mark.rename],
      List.mem_map.mpr ⟨ret i, hmem, rfl⟩⟩

theorem exists_map_eq {order : List κ} (h : ∀ k ∈ order, call k ∈ ms.map (Mark.rename f)) :
    ∃ order' : List ι, order'.map f = order ∧ ∀ i ∈ order', call i ∈ ms := by
  induction order with
  | nil => exact ⟨[], rfl, by simp⟩
  | cons k order ih =>
    obtain ⟨i, hi, rfl⟩ := exists_of_call_mem_map (h k (by simp))
    obtain ⟨order', rfl, hall⟩ := ih fun k hk => h k (by simp [hk])
    exact ⟨i :: order', rfl, by simpa using ⟨hi, hall⟩⟩

section Linearizable

variable {step : S → ι → Option S} {step' : S → κ → Option S}

theorem foldlM_map_eq {order : List ι} (hstep : ∀ i ∈ order, ∀ s, step' s (f i) = step s i) (s : S) :
    (order.map f).foldlM step' s = order.foldlM step s := by
  induction order generalizing s with
  | nil => rfl
  | cons i order ih =>
    simp only [List.map_cons, List.foldlM_cons, hstep i (by simp)]
    exact congrArg _ (funext (ih fun j hj => hstep j (by simp [hj])))

theorem isLinearization_map_iff (hc : Complete ms) (h : Distinct f ms)
    (hstep : ∀ i, call i ∈ ms → ∀ s, step' s (f i) = step s i) {s : S} {order : List ι}
    (horder : ∀ i ∈ order, call i ∈ ms) :
    IsLinearization step' (ms.map (Mark.rename f)) s (order.map f) ↔
      IsLinearization step ms s order := by
  have hinj : ∀ i ∈ order, ∀ j, call j ∈ ms → f i = f j → i = j :=
    fun i hi j hj => h _ (horder i hi) _ hj
  have hreal : (order.map f).Pairwise (fun i j => ¬ Precedes (ms.map (Mark.rename f)) j i) ↔
      order.Pairwise fun i j => ¬ Precedes ms j i := by
    rw [List.pairwise_map]
    exact List.Pairwise.iff_of_mem fun hi hj =>
      not_congr (h.precedes_iff (hc.returns _ (horder _ hj)) (horder _ hi))
  have hlegal := foldlM_map_eq (fun i hi => hstep i (horder i hi)) s
  constructor
  · rintro ⟨hnodup, hmem, hreal', hlegal'⟩
    refine ⟨.of_map f hnodup, fun i => ⟨horder i, fun hi => ?_⟩, hreal.mp hreal', hlegal ▸ hlegal'⟩
    obtain ⟨j, hj, hji⟩ := List.mem_map.mp ((hmem (f i)).mpr (List.mem_map.mpr ⟨call i, hi, rfl⟩))
    exact hinj j hj i hi hji ▸ hj
  · rintro ⟨hnodup, hmem, hreal', hlegal'⟩
    refine ⟨hnodup.map_on fun i hi j hj => hinj i hi j (horder j hj), fun k => ⟨fun hk => ?_,
      fun hk => ?_⟩, hreal.mpr hreal', hlegal.symm ▸ hlegal'⟩
    · obtain ⟨i, hi, rfl⟩ := List.mem_map.mp hk
      exact List.mem_map.mpr ⟨call i, horder i hi, rfl⟩
    · obtain ⟨i, hi, rfl⟩ := exists_of_call_mem_map hk
      exact List.mem_map.mpr ⟨i, (hmem i).mpr hi, rfl⟩

theorem linearizable_map_iff (hc : Complete ms) (h : Distinct f ms)
    (hstep : ∀ i, call i ∈ ms → ∀ s, step' s (f i) = step s i) {s : S} :
    Linearizable step' (ms.map (Mark.rename f)) s ↔ Linearizable step ms s := by
  constructor
  · rintro ⟨order, horder⟩
    obtain ⟨order', rfl, hall⟩ := exists_map_eq fun k hk => (horder.mem_iff k).mp hk
    exact ⟨order', (isLinearization_map_iff hc h hstep hall).mp horder⟩
  · rintro ⟨order, horder⟩
    exact ⟨order.map f, (isLinearization_map_iff hc h hstep fun i hi =>
      (horder.mem_iff i).mp hi).mpr horder⟩

end Linearizable

/-- A complete history has two marks for every operation. -/
theorem Complete.length_eq [DecidableEq ι] (hc : Complete ms) :
    ms.length = 2 * (ms.map Mark.op).toFinset.card := by
  have hcalled : ∀ i, ret i ∈ ms → call i ∈ ms := by
    intro i hi
    obtain ⟨pre, post, hcut⟩ := List.append_of_mem hi
    rw [hcut]
    exact List.mem_append_left _ (hc.called pre i post hcut)
  let ops := (ms.map Mark.op).dedup
  have hops : ∀ i, i ∈ ops ↔ call i ∈ ms := by
    intro i
    rw [List.mem_dedup, List.mem_map]
    constructor
    · rintro ⟨x, hx, rfl⟩
      cases x with
      | call i => exact hx
      | ret i => exact hcalled i hx
    · exact fun hi => ⟨call i, hi, rfl⟩
  have hnodup : (ops.map call ++ ops.map ret).Nodup := by
    have hd : ops.Nodup := List.nodup_dedup _
    refine List.nodup_append.mpr ⟨hd.map fun i j h => Mark.call.inj h,
      hd.map fun i j h => Mark.ret.inj h, ?_⟩
    simp
  have hperm : ms.Perm (ops.map call ++ ops.map ret) := by
    refine (List.perm_ext_iff_of_nodup hc.nodup hnodup).mpr fun x => ?_
    cases x with
    | call i => simp [hops]
    | ret i =>
      simp only [List.mem_append, List.mem_map, reduceCtorEq, and_false, exists_false, false_or,
        Mark.ret.injEq, exists_eq_right, hops]
      exact ⟨hcalled i, hc.returns i⟩
  rw [hperm.length_eq, List.length_append, List.length_map, List.length_map, List.card_toFinset]
  show ops.length + ops.length = 2 * ops.length
  omega

end GoServices.Histories
