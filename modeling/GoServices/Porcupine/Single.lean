import GoServices.Porcupine.Models
import GoServices.Porcupine.Linking
import GoServices.Porcupine.Search
import Mathlib.Data.List.Perm.Basic

/-! `checkSingle` on the history of one partition: it always comes to an end, it accepts exactly the
    linearizable histories, and `longest` holds for every operation the longest order with it. -/

namespace GoServices.Porcupine

open Histories Relation

variable {I O S : Type}

/-- States that the model takes for equal accept the same operations and stay equal. -/
def Congruent (model : FullModel I O S) : Prop :=
  ∀ s t input output, model.equal s t = true → (model.step s input output).1 = true →
    (model.step t input output).1 = true ∧
      model.equal (model.step s input output).2 (model.step t input output).2 = true

/-- The default equality. -/
theorem congruent_fillDefault [DecidableEq S] {model : Model I O S} (h : model.equal = none) :
    Congruent (fillDefault model) := by
  intro s t input output hst hok
  simp only [fillDefault, h, Option.getD_none, shallowEqual, decide_eq_true_eq] at hst ⊢
  subst hst
  exact ⟨hok, rfl⟩

theorem opStep_follow {model : FullModel I O S} (hE : Congruent model) (es : List (Entry I O)) (s t : S)
    (i : ℕ) (s' : S) (hst : model.equal s t = true) (hs : opStep model es s i = some s') :
    ∃ t', opStep model es t i = some t' ∧ model.equal s' t' = true := by
  simp only [opStep, Option.bind_eq_bind, Option.bind_eq_some_iff, Option.ite_none_right_eq_some,
    Option.some.injEq] at hs ⊢
  obtain ⟨input, hin, output, hout, hok, rfl⟩ := hs
  have := hE s t input output hst hok
  exact ⟨_, ⟨input, hin, output, hout, this.1, rfl⟩, this.2⟩

theorem returnsLater_of_complete {es : List (Entry I O)} :
    ∀ pre : List (Entry I O), Complete ((pre ++ es).map Entry.mark) → ReturnsLater es := by
  induction es with
  | nil => exact fun _ _ => trivial
  | cons e es ih =>
    intro pre h
    refine ⟨fun hk => ?_, ih (pre ++ [e]) (by simpa using h)⟩
    have hmark : e.mark = .call e.id := by simp [Entry.mark, hk]
    have hret := h.returns e.id (by simp [hmark])
    obtain ⟨e', he', hm⟩ := List.mem_map.mp hret
    rcases List.mem_append.mp he' with hpre | hrest
    · -- the return is not in front: its call would be even further in front
      obtain ⟨a, b, rfl⟩ := List.append_of_mem hpre
      have hcalled := h.called (a.map Entry.mark) e.id ((b ++ e :: es).map Entry.mark) (by simp [hm])
      have hnd := h.nodup
      simp only [List.append_assoc, List.map_append, List.nodup_append] at hnd
      exact absurd hmark.symm (hnd.2.2 _ hcalled _ (by simp))
    · obtain rfl | hrest := List.mem_cons.mp hrest
      · rw [hmark] at hm
        cases hm
      · exact ⟨e', hrest, hm⟩

section WellFormed

variable {es : List (Entry I O)} (h : WellFormed es)
include h

theorem WellFormed.linked : Linked es (makeLinkedEntries es) :=
  linked_makeLinkedEntries (returnsLater_of_complete [] h.complete)

/-- The nodes that `makeLinkedEntries` makes are those of the history. -/
theorem WellFormed.laid (model : FullModel I O S) :
    Laid model (makeLinkedEntries es).nodes es.length (refs es.length) (es.length / 2)
      (opStep model es) := by
  have hl := h.linked
  refine ⟨List.nodup_cons.mpr ⟨by simp, nodup_refs _⟩, hl.marks ▸ h.complete, fun a ha => ?_,
    fun a ha node r hnode hr => ?_⟩
  · have hlt : a < (makeLinkedEntries es).nodes.length := by
      rw [hl.length_eq]
      exact mem_refs.mp ha
    obtain ⟨e, he, -, hmark⟩ := hl.node a _ (List.getElem?_eq_getElem hlt)
    refine ⟨_, List.getElem?_eq_getElem hlt, ?_⟩
    have hid : idOf (makeLinkedEntries es).nodes a = e.id := by
      rw [← op_mark, hmark, Entry.mark]
      split <;> rfl
    simp only [idOf, List.getElem?_eq_getElem hlt, Option.map_some, Option.getD_some] at hid
    exact hid ▸ h.id_lt e he
  · obtain ⟨e, he, hv, hmark⟩ := hl.node a node hnode
    obtain ⟨hrlt, hmarkr⟩ := hl.matching a node r hnode hr
    have hrlt' : r < (makeLinkedEntries es).nodes.length := by rwa [hl.length_eq]
    obtain ⟨e', he', hv', hmark'⟩ := hl.node r _ (List.getElem?_eq_getElem hrlt')
    have hmarka : e.mark = .call node.id := by rw [← hmark]; simp [mark, idOf, hnode, hr]
    rw [hmarkr] at hmark'
    obtain ⟨input, hin⟩ := Sum.isLeft_iff.mp (h.input e he (by
      cases hk : e.kind with
      | callEntry => rfl
      | returnEntry => simp [Entry.mark, hk] at hmarka))
    obtain ⟨output, hout⟩ := Sum.isRight_iff.mp (h.output e' he' (by
      cases hk : e'.kind with
      | returnEntry => rfl
      | callEntry => simp [Entry.mark, hk] at hmark'))
    have hret : (makeLinkedEntries es).nodes[r].matching = none ∧
        (makeLinkedEntries es).nodes[r].id = node.id := by
      simp only [mark, idOf, List.getElem?_eq_getElem hrlt', Option.bind_some, Option.map_some,
        Option.getD_some] at hmarkr
      split at hmarkr
      · cases hmarkr
      · exact ⟨Option.not_isSome_iff_eq_none.mp ‹_›, Mark.ret.inj hmarkr⟩
    refine ⟨mem_refs.mpr hrlt, _, input, output, List.getElem?_eq_getElem hrlt', hret.1, hret.2,
      hv.trans hin, hv'.trans hout, fun s => ?_⟩
    have hfind := h.complete.find?_eq he
    have hfind' := h.complete.find?_eq he'
    rw [hmarka] at hfind
    rw [← hmark'] at hfind'
    simp [opStep, inputOf, outputOf, hfind, hfind', hin, hout]

/-- The search over a history. -/
def WellFormed.world (model : FullModel I O S) (hE : Congruent model) (computePartial : Bool) :
    World I O S where
  model := model
  computePartial := computePartial
  nodes := (makeLinkedEntries es).nodes
  headEntry := es.length
  refs := refs es.length
  n := es.length / 2
  step := opStep model es
  laid := h.laid model
  follow := opStep_follow hE es

variable (model : FullModel I O S) (hE : Congruent model) (computePartial : Bool)

theorem WellFormed.marks_world : (h.world model hE computePartial).marks = es.map Entry.mark :=
  h.linked.marks

omit hE computePartial in
theorem WellFormed.length_eq :
    length (makeLinkedEntries es).links (makeLinkedEntries es).nodes.length
      (makeLinkedEntries es).root = es.length := by
  have hl := h.linked
  rw [hl.root, hl.length_eq]
  cases hrefs : refs es.length with
  | nil =>
    have : es.length = 0 := by simpa [refs] using hrefs
    rw [this]
    rfl
  | cons p xs =>
    have hlen : xs.length + 1 = es.length := by
      have := congrArg List.length hrefs
      simpa [refs, eq_comm] using this
    rw [List.head?_cons, length_of_follows (hl.follows p xs hrefs) es.length (by omega), hlen]

/-- Where the loop of `checkSingle` starts. -/
theorem WellFormed.cursor_start :
    (h.world model hE computePartial).Cursor (Frame.start model es) [] [] (refs es.length) := by
  have hl := h.linked
  have hlen := h.length_eq
  refine ⟨⟨rfl, hl.length_eq, rfl, rfl, ?_, ?_, ?_⟩, by simp [world], hl.root, by simp,
    by simp, fun _ _ hce => absurd hce List.not_mem_nil, ?_, ?_, ?_⟩
  · rw [left_nil]
    simp only [Frame.start, hl.length_eq]
    exact hl.insertBefore.1
  · simp only [Frame.start, hlen]
    exact Bitset.holds_newBitset _
  · rw [without_nil]
    exact .nil _ _
  · simp only [Frame.start, hlen, List.length_replicate]
    rfl
  · intro i q hq
    simp [Frame.start, List.getElem?_replicate] at hq
  · intro i seq hseq
    obtain ⟨q, hq, -⟩ := exists_of_longestSeq hseq
    simp [Frame.start, List.getElem?_replicate] at hq

end WellFormed

namespace World

variable {w : World I O S} {f : Frame I O S}

/-- Nothing is on the stack and every call has been tried. -/
def Lost (w : World I O S) (f : Frame I O S) : Prop :=
  f.calls = [] ∧ ∃ pre r post, w.Cursor f [] pre (r :: post) ∧ (mark w.nodes r).isCall = false

theorem exists_end (h : w.Cursor f [] [] w.refs) :
    ∃ f', ReflTransGen w.Advances f f' ∧ (w.Won f' ∨ w.Lost f') := by
  by_cases hnil : w.refs = []
  · exact ⟨f, .refl, .inl ⟨[], h.at_, by rw [left_nil, hnil], h.longest⟩⟩
  · obtain ⟨f', hreach, hwon | ⟨pre, r, post, hcur, hr, hkept⟩⟩ := h.explored rfl hnil
    · exact ⟨f', hreach, .inl hwon⟩
    · refine ⟨f', hreach, .inr ⟨?_, pre, r, post, hcur, hr⟩⟩
      exact List.eq_nil_of_length_eq_zero hcur.at_.length_eq

theorem Won.iteration (h : w.Won f) (killed : Bool) :
    f.iteration w.model w.computePartial killed = some (.returned true f.finish) := by
  obtain ⟨c, hat, hnil, -⟩ := h
  simp [Frame.iteration, hat.next_head, hnil]

theorem Lost.iteration (h : w.Lost f) :
    f.iteration w.model w.computePartial false = some (.returned false f) := by
  obtain ⟨hcalls, pre, r, post, hcur, hr⟩ := h
  have hmem : r ∈ left w.nodes w.refs [] := by
    rw [hcur.cut]
    simp
  obtain ⟨node, hnode, -⟩ := w.laid.node r (mem_left.mp hmem).1
  have hmatch : node.matching = none := by
    cases hm : node.matching with
    | none => rfl
    | some x => simp [mark, hnode, hm] at hr
  simp [Frame.iteration, hcur.at_.next_head, hcur.cut, hcur.entry, hcur.at_.nodes_eq, hnode, hmatch,
    hcalls]

theorem Won.linearizable (h : w.Won f) : Linearizable w.step w.marks w.model.init := by
  obtain ⟨c, hat, hnil, -⟩ := h
  refine (finishes_iff_linearizable w.complete_marks).mp ⟨c, f.state, ?_⟩
  have := hat.steps
  rwa [← w.map_left, hnil] at this

theorem Lost.state_eq (h : w.Lost f) : f.state = w.model.init := by
  obtain ⟨-, pre, r, post, hcur, -⟩ := h
  have := hcur.at_.steps.legal
  simpa [eq_comm] using this

theorem Lost.not_linearizable (h : w.Lost f) : ¬ Linearizable w.step w.marks w.model.init := by
  rw [← finishes_iff_linearizable w.complete_marks, ← h.state_eq]
  obtain ⟨-, pre, r, post, hcur, hr⟩ := h
  have := hcur.not_finishes hr
  rwa [without_nil] at this

end World

section CheckSingle

variable {model : FullModel I O S} {es : List (Entry I O)} {computePartial : Bool} {kill : ℕ → Bool}

theorem exists_rounds {w : World I O S} {f : Frame I O S} (hmodel : w.model = model)
    (hcompute : w.computePartial = computePartial)
    (h : ReflTransGen w.Advances (Frame.start model es) f) :
    ∃ k, checkSingle model es computePartial (fun _ => false) k = some (.running f) := by
  induction h with
  | refl => exact ⟨0, rfl⟩
  | tail _ hadv ih =>
    obtain ⟨k, hk⟩ := ih
    refine ⟨k + 1, ?_⟩
    rw [checkSingle, hk]
    rw [World.Advances, hmodel, hcompute] at hadv
    exact hadv

/-- What has returned stays. -/
theorem checkSingle_of_le {k k' : ℕ} {ok : Bool} {f : Frame I O S} (hle : k ≤ k')
    (h : checkSingle model es computePartial kill k = some (.returned ok f)) :
    checkSingle model es computePartial kill k' = some (.returned ok f) := by
  induction hle with
  | refl => exact h
  | step _ ih =>
    rw [checkSingle, ih]
    rfl

/-- Until it is killed, `checkSingle` does what it does when it is never killed. -/
theorem checkSingle_kill (model : FullModel I O S) (es : List (Entry I O)) (computePartial : Bool)
    (kill : ℕ → Bool) (k : ℕ) :
    checkSingle model es computePartial kill k =
        checkSingle model es computePartial (fun _ => false) k ∨
      ∃ f, checkSingle model es computePartial kill k = some (.returned false f) ∧
        ∃ j < k, kill j = true := by
  induction k with
  | zero => exact .inl rfl
  | succ k ih =>
    rcases ih with hsame | ⟨f, hf, j, hj, hkill⟩
    · rw [checkSingle, checkSingle, hsame]
      cases hk : checkSingle model es computePartial (fun _ => false) k with
      | none => exact .inl rfl
      | some turn =>
        cases turn with
        | returned ok f => exact .inl rfl
        | running f =>
          cases hkill : kill k with
          | false => exact .inl rfl
          | true =>
            by_cases hend : f.links.next f.headEntry = none
            · left
              simp [Turn.advance, Frame.iteration, hend]
            · right
              refine ⟨f, ?_, k, Nat.lt_succ_self k, hkill⟩
              simp [Turn.advance, Frame.iteration, hend]
    · right
      refine ⟨f, ?_, j, Nat.lt_succ_of_lt hj, hkill⟩
      rw [checkSingle, hf]
      rfl

/-- The end of `checkSingle` when it is never killed. -/
theorem exists_verdict (hes : WellFormed es) (hE : Congruent model) (computePartial : Bool) :
    ∃ k f, ReflTransGen (hes.world model hE computePartial).Advances (Frame.start model es) f ∧
      checkSingle model es computePartial (fun _ => false) k = some (.running f) ∧
      ((hes.world model hE computePartial).Won f ∨ (hes.world model hE computePartial).Lost f) := by
  obtain ⟨f, hreach, hend⟩ := World.exists_end (hes.cursor_start model hE computePartial)
  obtain ⟨k, hk⟩ := exists_rounds rfl rfl hreach
  exact ⟨k, f, hreach, hk, hend⟩

/-- `checkSingle` comes to an end, in a number of rounds that does not depend on when it is killed.
    It accepts only linearizable histories, and rejects one of them only if it was killed. -/
theorem checkSingle_verdict (hes : WellFormed es) (hE : Congruent model) (computePartial : Bool) :
    ∃ N, ∀ kill k, N ≤ k → ∃ ok f, checkSingle model es computePartial kill k = some (.returned ok f) ∧
      (ok = true → Linearizable (opStep model es) (es.map Entry.mark) model.init) ∧
      (ok = false → Linearizable (opStep model es) (es.map Entry.mark) model.init →
        ∃ j < k, kill j = true) := by
  obtain ⟨N, f, -, hN, hend⟩ := exists_verdict hes hE computePartial
  -- the verdict when it is never killed
  obtain ⟨ok, f', hret, hok⟩ : ∃ ok f', checkSingle model es computePartial (fun _ => false) (N + 1) =
        some (.returned ok f') ∧
      (ok = true ↔ Linearizable (opStep model es) (es.map Entry.mark) model.init) := by
    rw [← hes.marks_world model hE computePartial]
    rcases hend with hwon | hlost
    · refine ⟨true, f.finish, ?_, fun _ => hwon.linearizable, fun _ => rfl⟩
      rw [checkSingle, hN]
      exact hwon.iteration false
    · refine ⟨false, f, ?_, fun h => absurd h (by simp), fun h => absurd h hlost.not_linearizable⟩
      rw [checkSingle, hN]
      exact hlost.iteration
  refine ⟨N + 1, fun kill k hk => ?_⟩
  have hk' := checkSingle_of_le hk hret
  rcases checkSingle_kill model es computePartial kill k with
    hsame | ⟨g, hg, hkill⟩
  · refine ⟨ok, f', hsame.trans hk', hok.mp, fun hf hlin => ?_⟩
    rw [hok.mpr hlin] at hf
    cases hf
  · exact ⟨false, g, hg, fun h => absurd h (by simp), fun _ _ => hkill⟩

/-- Left alone, `checkSingle` never panics, comes to an end and decides whether the history is
    linearizable. -/
theorem checkSingle_decides (hes : WellFormed es) (hE : Congruent model) (computePartial : Bool) :
    ∃ N ok, (∀ k, N ≤ k → ∃ f,
        checkSingle model es computePartial (fun _ => false) k = some (.returned ok f)) ∧
      (ok = true ↔ Linearizable (opStep model es) (es.map Entry.mark) model.init) := by
  obtain ⟨N, hN⟩ := checkSingle_verdict hes hE computePartial
  obtain ⟨ok, f, hret, hok, hno⟩ := hN (fun _ => false) N le_rfl
  refine ⟨N, ok, fun k hk => ⟨f, checkSingle_of_le hk hret⟩, hok, fun hlin => ?_⟩
  by_contra hne
  obtain ⟨j, -, hkill⟩ := hno (by simpa using hne) hlin
  cases hkill

/-- Two appends and a get, all at the same time. -/
theorem checkSingle_decides_appends :
    let es : List (Entry KvInput KvOutput) :=
      [⟨.callEntry, .inl ⟨2, "x", "a"⟩, 0, 0, 0⟩, ⟨.callEntry, .inl ⟨2, "x", "b"⟩, 1, 1, 1⟩,
        ⟨.callEntry, .inl ⟨0, "x", ""⟩, 2, 2, 2⟩, ⟨.returnEntry, .inr ⟨"ba"⟩, 2, 3, 2⟩,
        ⟨.returnEntry, .inr ⟨""⟩, 0, 4, 0⟩, ⟨.returnEntry, .inr ⟨""⟩, 1, 5, 1⟩]
    WellFormed es ∧ ∃ N ok, (∀ k, N ≤ k → ∃ f,
        checkSingle (fillDefault kvModel) es false (fun _ => false) k = some (.returned ok f)) ∧
      (ok = true ↔ Linearizable (opStep (fillDefault kvModel) es) (es.map Entry.mark) "") :=
  ⟨by decide, checkSingle_decides (by decide) (congruent_fillDefault rfl) false⟩

/-- The table `longest`, when it is asked for: it holds partial linearizations, for each operation
    one with it, and there is none with it that is longer. -/
theorem checkSingle_longest (hes : WellFormed es) (hE : Congruent model) :
    ∃ N ok f, (∀ k, N ≤ k → checkSingle model es true (fun _ => false) k = some (.returned ok f)) ∧
      (∀ i seq, longestSeq f.seqs f.longest i = some seq →
        IsPartialLinearization (opStep model es) (es.map Entry.mark) model.init seq ∧
          (Mark.call i ∈ es.map Entry.mark → i ∈ seq)) ∧
      ∀ order, IsPartialLinearization (opStep model es) (es.map Entry.mark) model.init order →
        ∀ i ∈ order, ∃ seq, longestSeq f.seqs f.longest i = some seq ∧
          order.length ≤ seq.length := by
  obtain ⟨N, f, -, hN, hend⟩ := exists_verdict hes hE true
  rw [← hes.marks_world model hE true]
  rcases hend with hwon | hlost
  · have hret : checkSingle model es true (fun _ => false) (N + 1) =
        some (.returned true f.finish) := by
      rw [checkSingle, hN]
      exact hwon.iteration false
    refine ⟨N + 1, true, f.finish, fun k hk => checkSingle_of_le hk hret, ?_⟩
    obtain ⟨c, hat, hnil, hlong⟩ := hwon
    have hall : ∀ j, Mark.call j ∈ (hes.world model hE true).marks → j ∈ c := by
      intro j hj
      by_contra hno
      have : Mark.call j ∈ without c (hes.world model hE true).marks := mem_without.mpr ⟨hj, hno⟩
      rw [← World.map_left, hnil] at this
      exact List.not_mem_nil this
    have hpart := isPartialLinearization_of_steps (World.complete_marks _) hat.steps
    have hseq : ∀ i, i < f.longest.length →
        longestSeq f.finish.seqs f.finish.longest i = some c := by
      intro i hi
      simp [longestSeq, Frame.finish, hi, hat.callIds_eq]
    refine ⟨fun i seq hs => ?_, fun order horder i hi => ⟨c, hseq i ?_, ?_⟩⟩
    · have hi : i < f.longest.length := by
        obtain ⟨q, hq, -⟩ := exists_of_longestSeq hs
        have := (List.getElem?_eq_some_iff.mp hq).1
        simpa [Frame.finish] using this
      rw [hseq i hi, Option.some.injEq] at hs
      exact hs ▸ ⟨hpart, hall i⟩
    · rw [hlong.length_eq]
      exact hat.lt (hall i (horder.called i hi))
    · exact (List.subperm_of_subset horder.nodup
        fun j hj => hall j (horder.called j hj)).length_le
  · have hret : checkSingle model es true (fun _ => false) (N + 1) = some (.returned false f) := by
      rw [checkSingle, hN]
      exact hlost.iteration
    refine ⟨N + 1, false, f, fun k hk => checkSingle_of_le hk hret, ?_⟩
    have hstate := hlost.state_eq
    obtain ⟨-, pre, r, post, hcur, hr⟩ := hlost
    refine ⟨fun i seq hs => ?_, fun order horder i hmem => ?_⟩
    · obtain ⟨hi, hpart⟩ := hcur.longest.sound i seq hs
      exact ⟨hpart, fun _ => hi⟩
    obtain ⟨t, ht⟩ := steps_of_isPartialLinearization (World.complete_marks _) horder
    cases order with
    | nil => exact absurd hmem List.not_mem_nil
    | cons j order =>
      have hle := hcur.recorded hr rfl (by rw [without_nil, hstate]; exact ht) i (by simpa using hmem)
      cases hseq : longestSeq f.seqs f.longest i with
      | none => simp [Frame.longestLen, longestLen, hseq] at hle
      | some seq => exact ⟨seq, rfl, by simpa [Frame.longestLen, longestLen, hseq] using hle⟩

end CheckSingle

end GoServices.Porcupine
