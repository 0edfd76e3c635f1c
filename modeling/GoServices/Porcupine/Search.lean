import GoServices.Porcupine.Lifting
import GoServices.Porcupine.Longest
import Mathlib.Logic.Relation

/-! The search of `checkSingle` tries all orders, in spite of the cache.

    An order and the state after it go into the cache when the order is extended to it, before it is
    known whether it can be finished. But while it is on the stack only longer orders are looked up,
    and when it is taken from the stack all its extensions have failed. So what is found in the
    cache has failed, and for each of its extensions an order as long is in `longest`. -/

namespace GoServices.Porcupine

open Histories Relation

variable {I O S : Type}

/-- The length of the longest sequence that a frame has recorded for operation `i`. -/
def Frame.longestLen (f : Frame I O S) (i : ℕ) : ℕ := Porcupine.longestLen f.seqs f.longest i

/-- A search: what does not change while it goes on. -/
structure World (I O S : Type) where
  model : FullModel I O S
  computePartial : Bool
  nodes : List (Node I O)
  headEntry : Ref
  refs : List Ref
  n : ℕ
  step : S → ℕ → Option S
  laid : Laid model nodes headEntry refs n step
  /-- A state that is taken for another one can follow it. -/
  follow : ∀ s t i s', model.equal s t = true → step s i = some s' →
    ∃ t', step t i = some t' ∧ model.equal s' t' = true

namespace World

variable (w : World I O S)

/-- The history that the nodes stand for. -/
def marks : List (Mark ℕ) := w.refs.map (mark w.nodes)

/-- One round of the loop, not killed. -/
def Advances (f f' : Frame I O S) : Prop :=
  f.iteration w.model w.computePartial false = some (.running f')

/-- The operations `d` lead to `t`, from where the others cannot be put into order; what can be done
    from there is recorded. -/
structure Failed (len : ℕ → ℕ) (d : List ℕ) (t : S) : Prop where
  not_finishes : ¬ Finishes w.step (without d w.marks) t
  recorded : w.computePartial = true → ∀ order ms t', Steps w.step (without d w.marks) t order ms t' →
    ∀ i ∈ d ++ order, (d ++ order).length ≤ len i

/-- The operations `c` are on the stack. -/
structure At (f : Frame I O S) (c : List ℕ) : Prop where
  nodes_eq : f.nodes = w.nodes
  head_eq : f.headEntry = w.headEntry
  callIds_eq : f.callIds = c
  length_eq : f.calls.length = c.length
  follows : f.links.Follows w.headEntry (left w.nodes w.refs c)
  holds : Bitset.Holds w.n c f.linearized
  steps : Steps w.step w.marks w.model.init c (without c w.marks) f.state

/-- A cache entry has failed, or is on the stack. -/
def CacheOk (f : Frame I O S) (c : List ℕ) : Prop :=
  ∀ hash, ∀ ce ∈ f.cache hash, ∃ d, d.Nodup ∧ Bitset.Holds w.n d ce.linearized ∧
    (w.Failed f.longestLen d ce.state ∨
      ∃ c₁, c₁ <+: c ∧ (∀ i, i ∈ d ↔ i ∈ c₁) ∧ c₁.foldlM w.step w.model.init = some ce.state)

/-- What is in `longest` are partial linearizations. -/
structure LongestOk (seqs : List (List ℕ)) (longest : List (Option ℕ)) : Prop where
  length_eq : longest.length = w.n
  pointed : Pointed seqs longest
  sound : ∀ i seq, longestSeq seqs longest i = some seq →
    i ∈ seq ∧ IsPartialLinearization w.step w.marks w.model.init seq

/-- With `c` on the stack, the calls `pre` have been tried, and the next node is the first of `ys`. -/
structure Cursor (f : Frame I O S) (c : List ℕ) (pre ys : List Ref) : Prop where
  at_ : w.At f c
  cut : left w.nodes w.refs c = pre ++ ys
  entry : f.entry = ys.head?
  calls : ∀ a ∈ pre, (mark w.nodes a).isCall = true
  tried : ∀ a ∈ pre, ∀ s', w.step f.state (idOf w.nodes a) = some s' →
    w.Failed f.longestLen (c ++ [idOf w.nodes a]) s'
  cache : w.CacheOk f c
  longest : w.LongestOk f.seqs f.longest

/-- All operations are in the order. -/
def Won (f : Frame I O S) : Prop :=
  ∃ c, w.At f c ∧ left w.nodes w.refs c = [] ∧ w.LongestOk f.seqs f.longest

/-- The stack is the same again; `longest` may have grown. -/
structure Kept (f f' : Frame I O S) : Prop where
  calls : f'.calls = f.calls
  links : f'.links = f.links
  linearized : f'.linearized = f.linearized
  state : f'.state = f.state
  mono : ∀ i, f.longestLen i ≤ f'.longestLen i

variable {w} {f f' f'' : Frame I O S} {c d : List ℕ} {pre ys : List Ref} {s t : S}
  {len len' : ℕ → ℕ}

theorem complete_marks (w : World I O S) : Complete w.marks := w.laid.complete

theorem map_left (w : World I O S) (c : List ℕ) :
    (left w.nodes w.refs c).map (mark w.nodes) = without c w.marks := map_mark_left c

theorem Kept.refl (f : Frame I O S) : Kept f f := ⟨rfl, rfl, rfl, rfl, fun _ => Nat.le_refl _⟩

theorem Kept.trans (h : Kept f f') (h' : Kept f' f'') : Kept f f'' :=
  ⟨h'.calls.trans h.calls, h'.links.trans h.links, h'.linearized.trans h.linearized,
    h'.state.trans h.state, fun i => Nat.le_trans (h.mono i) (h'.mono i)⟩

theorem Failed.mono (h : w.Failed len d t) (hmono : ∀ i, len i ≤ len' i) :
    w.Failed len' d t :=
  ⟨h.not_finishes, fun hp order ms t' hs i hi =>
    Nat.le_trans (h.recorded hp order ms t' hs i hi) (hmono i)⟩

theorem nodup_of_steps (h : Steps w.step w.marks w.model.init c (without c w.marks) s) : c.Nodup :=
  (isPartialLinearization_of_steps w.complete_marks h).nodup

/-- Failure depends on the set of operations only. -/
theorem Failed.perm (h : w.Failed len d t) (hperm : d.Perm c) : w.Failed len c t := by
  have hwithout := without_congr (fun i => hperm.mem_iff) w.marks
  refine ⟨by rw [← hwithout]; exact h.not_finishes, fun hp order ms t' hs i hi => ?_⟩
  have happ := hperm.append_right order
  rw [← happ.length_eq]
  exact h.recorded hp order ms t' (hwithout ▸ hs) i (happ.mem_iff.mpr hi)

/-- A state that a failed one can follow fails too. -/
theorem Failed.of_equal (h : w.Failed len d t) (hs : w.model.equal s t = true) :
    w.Failed len d s := by
  refine ⟨?_, fun hp order ms s' hsteps => ?_⟩
  · rintro ⟨order, s', hsteps⟩
    obtain ⟨t', ht', -⟩ := hsteps.simulate w.follow hs
    exact h.not_finishes ⟨order, t', ht'⟩
  · obtain ⟨t', ht', -⟩ := hsteps.simulate w.follow hs
    exact h.recorded hp order ms t' ht'

/-- The orders through one of the operations that have been tried are recorded. -/
theorem Cursor.recorded_cons (h : w.Cursor f c pre ys) {a : Ref} (ha : a ∈ pre) {order : List ℕ}
    {ms : List (Mark ℕ)}
    (hs : Steps w.step (without c w.marks) f.state (idOf w.nodes a :: order) ms t) :
    ∃ s', w.Failed f.longestLen (c ++ [idOf w.nodes a]) s' ∧
      Steps w.step (without (c ++ [idOf w.nodes a]) w.marks) s' order ms t := by
  cases hs with
  | cons _ hstep hs => exact ⟨_, h.tried a ha _ hstep, by rwa [without_append]⟩

/-- When the next node is a return, all that could come next has been tried. -/
theorem Cursor.exists_tried {r : Ref} {post : List Ref} (h : w.Cursor f c pre (r :: post))
    (hr : (mark w.nodes r).isCall = false) {i : ℕ} (hi : Ready (without c w.marks) i) :
    ∃ a ∈ pre, idOf w.nodes a = i := by
  rw [← w.map_left, h.cut, List.map_append, List.map_cons] at hi
  obtain ⟨j, hj⟩ : ∃ j, mark w.nodes r = .ret j := by
    cases hm : mark w.nodes r with
    | call j => rw [hm] at hr; cases hr
    | ret j => exact ⟨j, rfl⟩
  rw [hj] at hi
  obtain ⟨a, ha, hmark⟩ := List.mem_map.mp hi.call_mem_of_eq
  exact ⟨a, ha, by rw [← op_mark, hmark, Mark.op_call]⟩

theorem Cursor.not_finishes {r : Ref} {post : List Ref} (h : w.Cursor f c pre (r :: post))
    (hr : (mark w.nodes r).isCall = false) : ¬ Finishes w.step (without c w.marks) f.state := by
  rintro ⟨order, t, hs⟩
  cases order with
  | nil =>
    have := hs.left
    rw [without_nil, ← w.map_left, h.cut] at this
    simp at this
  | cons i order =>
    have hready : Ready (without c w.marks) i := by cases hs; assumption
    obtain ⟨a, ha, rfl⟩ := h.exists_tried hr hready
    obtain ⟨s', hfail, hs'⟩ := h.recorded_cons ha hs
    exact hfail.not_finishes ⟨order, t, hs'⟩

theorem Cursor.recorded {r : Ref} {post : List Ref} (h : w.Cursor f c pre (r :: post))
    (hr : (mark w.nodes r).isCall = false) (hp : w.computePartial = true) {i : ℕ} {order : List ℕ}
    {ms : List (Mark ℕ)} (hs : Steps w.step (without c w.marks) f.state (i :: order) ms t) :
    ∀ j ∈ c ++ i :: order, (c ++ i :: order).length ≤ f.longestLen j := by
  have hready : Ready (without c w.marks) i := by cases hs; assumption
  obtain ⟨a, ha, rfl⟩ := h.exists_tried hr hready
  obtain ⟨s', hfail, hs'⟩ := h.recorded_cons ha hs
  intro j hj
  have := hfail.recorded hp order ms t hs' j (by simpa using hj)
  simpa using this

theorem At.next_head (h : w.At f c) : f.links.next f.headEntry = (left w.nodes w.refs c).head? := by
  rw [h.head_eq]
  exact h.follows.next_head

/-- A round at a call. -/
theorem Cursor.advances_call {e r : Ref} {node : Node I O} (h : w.Cursor f c pre (e :: ys))
    (hnode : w.nodes[e]? = some node) (hmatch : node.matching = some r)
    (htry : f.tryCall w.model e node r = some f') : w.Advances f f' := by
  have hnext : f.links.next f.headEntry ≠ none := by
    rw [h.at_.next_head, h.cut]
    simp
  simp [Advances, Frame.iteration, hnext, h.entry, h.at_.nodes_eq, hnode, hmatch, htry]

/-- The search goes past a call that was tried. -/
theorem Cursor.skip {e : Ref} (h : w.Cursor f c pre (e :: ys))
    (hcall : (mark w.nodes e).isCall = true)
    (htried : ∀ s', w.step f.state (idOf w.nodes e) = some s' →
      w.Failed f.longestLen (c ++ [idOf w.nodes e]) s') :
    w.Cursor { f with entry := f.links.next e } c (pre ++ [e]) ys := by
  refine ⟨⟨h.at_.nodes_eq, h.at_.head_eq, h.at_.callIds_eq, h.at_.length_eq, h.at_.follows,
    h.at_.holds, h.at_.steps⟩, by rw [h.cut]; simp, ?_, ?_, ?_, h.cache, h.longest⟩
  · have hfol := h.at_.follows
    rw [h.cut] at hfol
    exact hfol.drop.next_head
  · intro a ha
    obtain ha | ha := List.mem_append.mp ha
    · exact h.calls a ha
    · rwa [List.mem_singleton.mp ha]
  · intro a ha
    obtain ha | ha := List.mem_append.mp ha
    · exact h.tried a ha
    · rw [List.mem_singleton.mp ha]
      exact htried

/-- What is found in the cache has failed. -/
theorem Cursor.failed_of_cached {i : ℕ} {b : Bitset} (h : w.Cursor f c pre ys) (hi : i ∉ c)
    (hb : Bitset.Holds w.n (c ++ [i]) b)
    (hcached : cacheContains w.model f.cache ⟨b, s⟩ = true) : w.Failed f.longestLen (c ++ [i]) s := by
  obtain ⟨ce, hce, heq⟩ := List.any_eq_true.mp hcached
  rw [Bool.and_eq_true, Bitset.equals_iff] at heq
  obtain ⟨d, hd, hholds, hor⟩ := h.cache _ ce hce
  have hmem : ∀ j, j ∈ d ↔ j ∈ c ++ [i] := hholds.mem_iff (heq.1 ▸ hb)
  have hc : (c ++ [i]).Nodup := by
    rw [List.nodup_append]
    refine ⟨nodup_of_steps h.at_.steps, List.nodup_singleton i, ?_⟩
    rintro x hx y hy rfl
    exact hi (List.mem_singleton.mp hy ▸ hx)
  obtain hfail | ⟨c₁, hc₁, hmem₁, -⟩ := hor
  · exact (hfail.perm ((List.perm_ext_iff_of_nodup hd hc).mpr hmem)).of_equal heq.2
  · -- on the stack are only smaller sets
    have : i ∈ c₁ := (hmem₁ i).mp ((hmem i).mpr (by simp))
    exact absurd (hc₁.subset this) hi

theorem mem_cache_add {cache : BitVec 64 → List (CacheEntry S)} {hash hash' : BitVec 64}
    {ce ce' : CacheEntry S}
    (h : ce ∈ Function.update cache hash (cache hash ++ [ce']) hash') :
    ce ∈ cache hash' ∨ ce = ce' := by
  by_cases hh : hash' = hash
  · subst hh
    simpa using h
  · rw [Function.update_of_ne hh] at h
    exact .inl h

/-- A call that is accepted and new goes on the stack. -/
theorem Cursor.push {e r : Ref} {node ret : Node I O} {input : I} {output : O}
    (h : w.Cursor f c pre (e :: ys)) (hnode : w.nodes[e]? = some node)
    (hmatch : node.matching = some r) (hret : w.nodes[r]? = some ret)
    (hin : node.value = .inl input) (hout : ret.value = .inr output)
    (hok : (w.model.step f.state input output).1 = true)
    (hstep : w.step f.state node.id = some (w.model.step f.state input output).2)
    {b : Bitset} (hset : f.linearized.set node.id = some b)
    (hholds : Bitset.Holds w.n (c ++ [node.id]) b)
    (hnew : cacheContains w.model f.cache ⟨b, (w.model.step f.state input output).2⟩ = false) :
    ∃ f' l, f.tryCall w.model e node r = some f' ∧ f'.calls = f.calls ++ [⟨e, f.state⟩] ∧
      f'.linearized = b ∧ f'.links = l ∧ unlift w.nodes l e = some f.links ∧
      f'.state = (w.model.step f.state input output).2 ∧ f'.longestLen = f.longestLen ∧
      w.Cursor f' (c ++ [node.id]) [] (left w.nodes w.refs (c ++ [node.id])) := by
  obtain ⟨l, hl, hfol, hunlift⟩ := w.laid.exists_lift h.at_.follows h.cut hnode hmatch
  have hid : idOf w.nodes e = node.id := by simp [idOf, hnode]
  have hready : Ready (without c w.marks) node.id := by
    refine ⟨pre.map (mark w.nodes), ys.map (mark w.nodes), ?_, ?_⟩
    · rw [← w.map_left, h.cut]
      simp [mark, hnode, hmatch, hid]
    · intro x hx
      obtain ⟨a, ha, rfl⟩ := List.mem_map.mp hx
      exact h.calls a ha
  have hsteps := h.at_.steps.concat hready hstep
  rw [← without_append] at hsteps
  refine ⟨{ f with
      cache := Function.update f.cache b.hash
        (f.cache b.hash ++ [⟨b, (w.model.step f.state input output).2⟩])
      calls := f.calls ++ [⟨e, f.state⟩]
      state := (w.model.step f.state input output).2
      linearized := b
      links := l
      entry := l.next f.headEntry },
    l, ?_, rfl, rfl, rfl, hunlift, rfl, rfl,
    ⟨h.at_.nodes_eq, h.at_.head_eq, ?_, ?_, hfol, hholds, hsteps⟩, rfl, ?_, by simp, by simp, ?_,
    h.longest⟩
  · simp [Frame.tryCall, h.at_.nodes_eq, hret, hin, hout, hok, hset, hnew, hl]
  · have := h.at_.callIds_eq
    simp only [Frame.callIds, List.filterMap_append] at this ⊢
    rw [this]
    simp [h.at_.nodes_eq, hnode]
  · simp [h.at_.length_eq]
  · rw [h.at_.head_eq]
    exact hfol.next_head
  · intro hash ce hce
    obtain hce | rfl := mem_cache_add hce
    · obtain ⟨d, hd, hholds, hor⟩ := h.cache _ ce hce
      refine ⟨d, hd, hholds, hor.imp_right ?_⟩
      rintro ⟨c₁, hc₁, hmem⟩
      exact ⟨c₁, hc₁.trans (List.prefix_append c _), hmem⟩
    · exact ⟨_, nodup_of_steps hsteps, hholds,
        .inr ⟨_, List.prefix_refl _, fun _ => Iff.rfl, hsteps.legal⟩⟩

theorem At.lt (h : w.At f c) {i : ℕ} (hi : i ∈ c) : i < w.n := by
  have hpart := isPartialLinearization_of_steps w.complete_marks h.steps
  obtain ⟨a, ha, hmark⟩ := List.mem_map.mp (hpart.called i hi)
  obtain ⟨node, hnode, hlt⟩ := w.laid.node a ha
  have hid : idOf w.nodes a = i := by rw [← op_mark, hmark, Mark.op_call]
  rw [← hid]
  simpa [idOf, hnode] using hlt

/-- The order on the stack is recorded. -/
theorem At.exists_recordLongest (h : w.At f c) (hok : w.LongestOk f.seqs f.longest) :
    ∃ longest, f.recordLongest = some { f with longest := longest, seqs := f.seqs ++ [c] } ∧
      w.LongestOk (f.seqs ++ [c]) longest ∧
      (∀ i, f.longestLen i ≤ longestLen (f.seqs ++ [c]) longest i) ∧
      ∀ i ∈ c, c.length ≤ longestLen (f.seqs ++ [c]) longest i := by
  have hp : (f.seqs ++ [c])[f.seqs.length]? = some c := by simp
  have hptr : Pointed (f.seqs ++ [c]) f.longest := by
    intro i q hq
    have := hok.pointed i q hq
    simp
    omega
  obtain ⟨longest, hfold, hrec⟩ := exists_recorded hp c f.longest
    (fun i hi => by rw [hok.length_eq]; exact h.lt hi) hptr
  refine ⟨longest, ?_, ⟨hrec.length_eq.trans hok.length_eq, hrec.pointed hp hptr, ?_⟩, fun i => ?_,
    hrec.ge⟩
  · simp only [Frame.recordLongest, h.callIds_eq, h.length_eq, hfold, Option.bind_eq_bind,
      Option.bind_some]
  · intro i seq hseq
    rcases hrec.same_or i with hsame | ⟨hi, hnew⟩
    · rw [longestSeq_congr hsame, longestSeq_append hok.pointed] at hseq
      exact hok.sound i seq hseq
    · rw [longestSeq_of_getElem? hnew, hp] at hseq
      obtain rfl := Option.some.inj hseq
      exact ⟨hi, isPartialLinearization_of_steps w.complete_marks h.steps⟩
  · have := hrec.mono i
    rwa [longestLen, longestSeq_append hok.pointed] at this

/-- The same, if it is asked for at all. -/
theorem At.exists_record (h : w.At f c) (hok : w.LongestOk f.seqs f.longest) :
    ∃ longest seqs, f.record w.computePartial = some { f with longest := longest, seqs := seqs } ∧
      w.LongestOk seqs longest ∧ (∀ i, f.longestLen i ≤ longestLen seqs longest i) ∧
      (w.computePartial = true → ∀ i ∈ c, c.length ≤ longestLen seqs longest i) := by
  cases hp : w.computePartial with
  | true =>
    obtain ⟨longest, hrec, hok', hmono, hge⟩ := h.exists_recordLongest hok
    exact ⟨longest, _, hrec, hok', hmono, fun _ => hge⟩
  | false =>
    exact ⟨f.longest, f.seqs, rfl, hok, fun i => Nat.le_refl _, fun h => absurd h (by simp)⟩

/-- A return with an operation on the stack: the operation has failed and is taken off. -/
theorem Cursor.pop {i : ℕ} {e r : Ref} {post : List Ref} {node : Node I O}
    {calls : List (CallsEntry S)} {b : Bitset} {l : Links Ref}
    (h : w.Cursor f (c ++ [i]) pre (r :: post)) (hr : (mark w.nodes r).isCall = false)
    (hcalls : f.calls = calls ++ [⟨e, s⟩]) (hnode : w.nodes[e]? = some node) (hid : node.id = i)
    (hclear : f.linearized.clear i = some b) (hunlift : unlift w.nodes f.links e = some l) :
    ∃ longest seqs, w.Advances f { f with
        state := s, linearized := b, calls := calls, links := l, entry := l.next e,
        longest := longest, seqs := seqs } ∧
      w.LongestOk seqs longest ∧ (∀ i, f.longestLen i ≤ longestLen seqs longest i) ∧
      w.Failed (longestLen seqs longest) (c ++ [i]) f.state := by
  obtain ⟨longest, seqs, hrec, hok, hmono, hge⟩ := h.at_.exists_record h.longest
  refine ⟨longest, seqs, ?_, hok, hmono, h.not_finishes hr, fun hp order ms t hs j hj => ?_⟩
  · have hnext : f.links.next f.headEntry ≠ none := by
      rw [h.at_.next_head, h.cut]
      simp
    have hmem : r ∈ left w.nodes w.refs (c ++ [i]) := by
      rw [h.cut]
      simp
    obtain ⟨noder, hnoder, -⟩ := w.laid.node r (mem_left.mp hmem).1
    have hmatch : noder.matching = none := by
      cases hm : noder.matching with
      | none => rfl
      | some x => simp [mark, hnoder, hm] at hr
    simp [Advances, Frame.iteration, hnext, h.entry, h.at_.nodes_eq, hnoder, hmatch, hcalls,
      Frame.backtrack, hrec, hnode, hid, hclear, hunlift]
  · cases order with
    | nil => simpa using hge hp j (by simpa using hj)
    | cons k order => exact Nat.le_trans (h.recorded hr hp hs j hj) (hmono j)

/-- When the operation that failed is off the cache entries on the stack are shorter again. -/
theorem CacheOk.pop {i : ℕ} (h : w.CacheOk f (c ++ [i])) (hcache : f'.cache = f.cache)
    (hmono : ∀ i, f.longestLen i ≤ f'.longestLen i)
    (hsteps : Steps w.step w.marks w.model.init (c ++ [i]) (without (c ++ [i]) w.marks) s)
    (hfail : w.Failed f'.longestLen (c ++ [i]) s) : w.CacheOk f' c := by
  intro hash ce hce
  obtain ⟨d, hd, hholds, hor⟩ := h hash ce (hcache ▸ hce)
  refine ⟨d, hd, hholds, ?_⟩
  rcases hor with hold | ⟨c₁, hc₁, hmem, hstate⟩
  · exact .inl (hold.mono hmono)
  · obtain rfl | hc₁ := List.prefix_concat_iff.mp hc₁
    · have hperm : d.Perm (c ++ [i]) :=
        (List.perm_ext_iff_of_nodup hd (nodup_of_steps hsteps)).mpr hmem
      rw [hsteps.legal, Option.some.injEq] at hstate
      exact .inl ((hstate ▸ hfail).perm hperm.symm)
    · exact .inr ⟨c₁, hc₁, hmem, hstate⟩

/-- The stack is as it was and the call that was on top has failed: go on behind it. -/
theorem Cursor.resume {e : Ref} {longest : List (Option ℕ)} {seqs : List (List ℕ)}
    (h : w.Cursor f c pre (e :: ys)) (hcall : (mark w.nodes e).isCall = true)
    (hat : w.At f' (c ++ [idOf w.nodes e])) (hcache : w.CacheOk f' (c ++ [idOf w.nodes e]))
    (hstep : w.step f.state (idOf w.nodes e) = some f'.state)
    (hok : w.LongestOk seqs longest) (hgrow : ∀ i, f.longestLen i ≤ longestLen seqs longest i)
    (hmono : ∀ i, f'.longestLen i ≤ longestLen seqs longest i)
    (hfail : w.Failed (longestLen seqs longest) (c ++ [idOf w.nodes e]) f'.state) :
    w.Cursor { f' with
      state := f.state, linearized := f.linearized, calls := f.calls, links := f.links,
      entry := f.links.next e, longest := longest, seqs := seqs } c (pre ++ [e]) ys := by
  have hids : f.calls.filterMap (fun v => f'.nodes[v.entry]?.map Node.id) = c := by
    rw [hat.nodes_eq, ← h.at_.nodes_eq]
    exact h.at_.callIds_eq
  have hfol := h.at_.follows
  rw [h.cut] at hfol
  refine ⟨⟨hat.nodes_eq, hat.head_eq, hids, h.at_.length_eq, h.at_.follows, h.at_.holds, h.at_.steps⟩,
    by rw [h.cut]; simp, hfol.drop.next_head, fun a ha => ?_, fun a ha => ?_, ?_, hok⟩
  · obtain ha | ha := List.mem_append.mp ha
    · exact h.calls a ha
    · rwa [List.mem_singleton.mp ha]
  · intro s' hs'
    obtain ha | ha := List.mem_append.mp ha
    · exact (h.tried a ha s' hs').mono hgrow
    · rw [List.mem_singleton.mp ha] at hs' ⊢
      obtain rfl : f'.state = s' := Option.some.inj (hstep.symm.trans hs')
      exact hfail
  · exact hcache.pop rfl hmono hat.steps hfail

/-- The search wins, or comes to the first return with the stack as it was. -/
def Explored (w : World I O S) (f : Frame I O S) (c : List ℕ) : Prop :=
  ∃ f', ReflTransGen w.Advances f f' ∧ (w.Won f' ∨ ∃ pre r post,
    w.Cursor f' c pre (r :: post) ∧ (mark w.nodes r).isCall = false ∧ Kept f f')

/-- One call is tried: the search wins, or goes on behind it with the stack as it was. -/
theorem Cursor.exists_past {e : Ref} (h : w.Cursor f c pre (e :: ys))
    (hm : (mark w.nodes e).isCall = true)
    (shorter : ∀ d, (left w.nodes w.refs d).length < (left w.nodes w.refs c).length → ∀ f,
      w.Cursor f d [] (left w.nodes w.refs d) → left w.nodes w.refs d ≠ [] → w.Explored f d) :
    ys ≠ [] ∧ ∃ f', ReflTransGen w.Advances f f' ∧
      (w.Won f' ∨ Kept f f' ∧ w.Cursor f' c (pre ++ [e]) ys) := by
  have he : e ∈ left w.nodes w.refs c := by
    rw [h.cut]
    simp
  obtain ⟨node, hnode, hlt⟩ := w.laid.node e (mem_left.mp he).1
  obtain ⟨r, hmatch⟩ : ∃ r, node.matching = some r := by
    cases hn : node.matching with
    | none => simp [mark, hnode, hn] at hm
    | some r => exact ⟨r, rfl⟩
  have hid : idOf w.nodes e = node.id := by simp [idOf, hnode]
  have hnotc : node.id ∉ c := hid ▸ (mem_left.mp he).2
  obtain ⟨-, ret, input, output, hret, -, -, hin, hout, hstep⟩ :=
    w.laid.call e (mem_left.mp he).1 node r hnode hmatch
  obtain ⟨mid, post, hys⟩ := w.laid.exists_cut h.cut hnode hmatch
  refine ⟨by simp [hys], ?_⟩
  -- a call that need not be tried is passed over
  have hskip : (∀ s', w.step f.state (idOf w.nodes e) = some s' →
        w.Failed f.longestLen (c ++ [idOf w.nodes e]) s') →
      f.tryCall w.model e node r = some { f with entry := f.links.next e } →
      ∃ f', ReflTransGen w.Advances f f' ∧
        (w.Won f' ∨ Kept f f' ∧ w.Cursor f' c (pre ++ [e]) ys) := fun htried htry =>
    ⟨_, .single (h.advances_call hnode hmatch htry),
      .inr ⟨⟨rfl, rfl, rfl, rfl, fun _ => Nat.le_refl _⟩, h.skip hm htried⟩⟩
  cases hok : (w.model.step f.state input output).1 with
  | false =>
    refine hskip (fun s' hs' => ?_) ?_
    · simp [hid, hstep, hok] at hs'
    · simp [Frame.tryCall, h.at_.nodes_eq, hret, hin, hout, hok]
  | true =>
    obtain ⟨b, hset, hholds, hclear⟩ := h.at_.holds.exists_set hlt hnotc
    have hs : w.step f.state node.id = some (w.model.step f.state input output).2 := by
      simp [hstep, hok]
    cases hc : cacheContains w.model f.cache ⟨b, (w.model.step f.state input output).2⟩ with
    | true =>
      refine hskip (fun s' hs' => ?_) ?_
      · rw [hid, hs, Option.some.injEq] at hs'
        rw [hid, ← hs']
        exact h.failed_of_cached hnotc hholds hc
      · simp [Frame.tryCall, h.at_.nodes_eq, hret, hin, hout, hok, hset, hc]
    | false =>
      obtain ⟨f₁, l, htry, hcalls, hlin, hlinks, hunlift, hstate, hlen, hcur⟩ :=
        h.push hnode hmatch hret hin hout hok hs hset hholds hc
      have hadv := h.advances_call hnode hmatch htry
      by_cases hnil : left w.nodes w.refs (c ++ [node.id]) = []
      · exact ⟨f₁, .single hadv, .inl ⟨_, hcur.at_, hnil, hcur.longest⟩⟩
      have hless : (left w.nodes w.refs (c ++ [node.id])).length < (left w.nodes w.refs c).length := by
        have hcut := h.cut
        rw [hys] at hcut
        rw [w.laid.left_concat hcut hnode hmatch, hcut]
        simp only [List.length_append, List.length_cons]
        omega
      obtain ⟨f₂, hreach, hwon | ⟨pre₂, r₂, post₂, hcur₂, hr₂, hkept⟩⟩ :=
        shorter _ hless _ hcur hnil
      · exact ⟨f₂, .head hadv hreach, .inl hwon⟩
      obtain ⟨longest, seqs, hadv₂, hlong, hmono, hfail⟩ := hcur₂.pop hr₂
        (hkept.calls.trans hcalls) hnode rfl (by rw [hkept.linearized, hlin]; exact hclear)
        (by rw [hkept.links, hlinks]; exact hunlift)
      have hgrow : ∀ i, f.longestLen i ≤ longestLen seqs longest i := fun i =>
        Nat.le_trans (hlen ▸ hkept.mono i) (hmono i)
      rw [← hid] at hcur₂ hfail hs
      refine ⟨_, .head hadv (hreach.tail hadv₂), .inr ⟨⟨rfl, rfl, rfl, rfl, hgrow⟩, ?_⟩⟩
      exact h.resume hm hcur₂.at_ hcur₂.cache (by rw [hs, hkept.state, hstate]) hlong hgrow hmono hfail

/-- From any node on. The induction is on the nodes left, inside it on the nodes to go. -/
theorem Cursor.explored {k : ℕ} (hk : (left w.nodes w.refs c).length = k)
    (h : w.Cursor f c pre ys) (hys : ys ≠ []) : w.Explored f c := by
  induction k using Nat.strongRecOn generalizing c pre ys f with
  | _ k shorter =>
    induction ys generalizing pre f with
    | nil => exact absurd rfl hys
    | cons e ys ih =>
      cases hm : (mark w.nodes e).isCall with
      | false => exact ⟨f, .refl, .inr ⟨pre, e, ys, h, hm, .refl f⟩⟩
      | true =>
        obtain ⟨hne, f₁, hreach, hwon | ⟨hkept, hcur⟩⟩ := h.exists_past hm
          fun d hd f hcur hne => shorter _ (hk ▸ hd) rfl hcur hne
        · exact ⟨f₁, hreach, .inl hwon⟩
        · obtain ⟨f', hreach', hres⟩ := ih hcur hne
          refine ⟨f', hreach.trans hreach', hres.imp_right ?_⟩
          rintro ⟨pre', r, post, hcur', hr, hkept'⟩
          exact ⟨pre', r, post, hcur', hr, hkept.trans hkept'⟩

end World

end GoServices.Porcupine
