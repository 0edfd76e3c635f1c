import GoServices.Raft.Server
import GoServices.Schemes.Runs

/-! `RaftLog` refines a log that never drops anything.

    The full log holds an entry for every index from 0 on and the point up to which it is compacted.
    The operations of `RaftLog` are plain list operations there, and compaction only moves the point.
    What an installed snapshot covers was never here; copies of the dummy entry stand in for it.

        index     0   1   ...   compacted   compacted+1   ...
        entries   e   e         e           e                      the full log
        tailLog                 dummy       e                      what is kept of it

    `Repr` counts entries from 1, because index 0 of a server's log is never written. Here index 0 is
    an index like the others, so `Refines` uses `Repr` one place further on (`RaftLog.raise`). -/

namespace GoServices.Consensus

open Runs

variable {C : Type}

namespace RaftLog

/-- What `persist` encodes; `labgob` decodes what it has encoded. -/
def persist (rl : RaftLog C) : ℕ × ℕ × List (LogEntry C) :=
  (rl.snapLastIdx, rl.snapLastTerm, rl.tailLog)

/-- The log as it was saved, with the present snapshot. -/
def readPersist (rl : RaftLog C) (d : ℕ × ℕ × List (LogEntry C)) : RaftLog C :=
  { rl with snapLastIdx := d.1, snapLastTerm := d.2.1, tailLog := d.2.2 }

end RaftLog

/-- A server decodes its log with `readPersist` and takes the snapshot from the persister. -/
theorem Raft.readPersist_log {n : ℕ} (rf : Raft n C) {st : RaftState n C}
    (h : rf.persister.raftstate = some st) : rf.readPersist.log =
      { rf.log.readPersist (st.snapLastIdx, st.snapLastTerm, st.tailLog) with
        snapshot := rf.persister.snapshot } := by
  simp only [Raft.readPersist, h]
  split_ifs <;> rfl

/-! ### The full log -/

/-- A log with all its entries, of which the first are compacted. -/
structure FullLog (C : Type) where
  entries : List (LogEntry C)
  compacted : ℕ
  lt : compacted < entries.length

namespace FullLog

/-- A log that begins with a snapshot. -/
def new (index term : ℕ) (entries : List (LogEntry C)) : FullLog C where
  entries := List.replicate (index + 1) (dummy term) ++ entries
  compacted := index
  lt := by simp; omega

/-- The number of entries, the dummy included. -/
def size (X : FullLog C) : ℕ := X.entries.length

/-- The term of entry `i`. -/
def term (X : FullLog C) (i : ℕ) : ℕ := ((X.entries[i]?).map LogEntry.term).getD 0

/-- The index and the term of the last entry. -/
def last (X : FullLog C) : ℕ × ℕ := (X.size - 1, X.term (X.size - 1))

/-- The index is one that has not been compacted away. -/
def InRange (X : FullLog C) (i : ℕ) : Prop := X.compacted ≤ i ∧ i < X.size

instance (X : FullLog C) (i : ℕ) : Decidable (X.InRange i) := inferInstanceAs (Decidable (_ ∧ _))

/-- One more entry. -/
def append (X : FullLog C) (e : LogEntry C) : FullLog C where
  entries := X.entries ++ [e]
  compacted := X.compacted
  lt := by have := X.lt; simp; omega

/-- The entries behind `prev` are replaced. -/
def appendFrom (X : FullLog C) (prev : ℕ) (es : List (LogEntry C)) (h : X.InRange prev) :
    FullLog C where
  entries := X.entries.take (prev + 1) ++ es
  compacted := X.compacted
  lt := by have := X.lt; have := h.1; simp; omega

/-- The entries up to `index` are compacted; none is lost. -/
def doSnapshot (X : FullLog C) (index : ℕ) (h : X.InRange index) : FullLog C :=
  { X with compacted := index, lt := h.2 }

/-- A snapshot is installed: what is behind it is lost, what is missing before it is unknown. -/
def installSnapshot (X : FullLog C) (index term : ℕ) : FullLog C where
  entries := (X.entries.take index).rightpad index (dummy term) ++ [dummy term]
  compacted := index
  lt := by simp; omega

end FullLog

/-! ### Operations, with a store -/

/-- What is done to a log. -/
inductive LogOp (C : Type) where
  | append (e : LogEntry C)
  | appendFrom (prev : ℕ) (entries : List (LogEntry C))
  | doSnapshot (index : ℕ) (snapshot : List UInt8)
  | installSnapshot (index term : ℕ) (snapshot : List UInt8)
  | persist
  | readPersist

/-- A log and what was last saved of it. -/
structure StoredLog (C : Type) where
  log : RaftLog C
  saved : Option (ℕ × ℕ × List (LogEntry C))

/-- One operation; `none` if it panics. -/
def StoredLog.step (s : StoredLog C) : LogOp C → Option (StoredLog C)
  | .append e => some { s with log := s.log.append e }
  | .appendFrom prev entries => (s.log.appendFrom prev entries).map fun log => { s with log }
  | .doSnapshot index snapshot => (s.log.doSnapshot index snapshot).map fun log => { s with log }
  | .installSnapshot index term snapshot =>
    some { s with log := s.log.installSnapshot index term snapshot }
  | .persist => some { s with saved := some s.log.persist }
  | .readPersist => s.saved.map fun d => { s with log := s.log.readPersist d }

/-- A full log and the one that was saved last. -/
structure StoredFullLog (C : Type) where
  log : FullLog C
  saved : Option (FullLog C)

/-- The same operations on the full log, as long as their indexes are in range. -/
def StoredFullLog.step (s : StoredFullLog C) : LogOp C → Option (StoredFullLog C)
  | .append e => some { s with log := s.log.append e }
  | .appendFrom prev entries =>
    if h : s.log.InRange prev then some { s with log := s.log.appendFrom prev entries h } else none
  | .doSnapshot index _ =>
    if h : s.log.InRange index then some { s with log := s.log.doSnapshot index h } else none
  | .installSnapshot index term _ => some { s with log := s.log.installSnapshot index term }
  | .persist => some { s with saved := some s.log }
  | .readPersist => s.saved.map fun log => { s with log }

/-! ### One place further on -/

namespace RaftLog

/-- The same log with every index one larger. -/
def raise (rl : RaftLog C) : RaftLog C := { rl with snapLastIdx := rl.snapLastIdx + 1 }

variable (rl : RaftLog C)

theorem size_raise : rl.raise.size = rl.size + 1 := by simp only [size, raise]; omega

theorem idx_raise (i : ℕ) : rl.raise.idx (i + 1) = rl.idx i := by
  rw [idx, idx, size_raise]
  simp [raise]

theorem entryAt_raise (i : ℕ) : rl.raise.entryAt (i + 1) = rl.entryAt i := by
  simp only [entryAt, idx_raise]
  rfl

theorem last_raise : rl.raise.last = rl.last.map fun x => (x.1 + 1, x.2) := by
  simp only [last, raise, Option.map_map]
  congr 1
  funext e
  simp only [Function.comp_apply, Prod.mk.injEq, and_true]
  omega

theorem tail_raise (i : ℕ) : rl.raise.tail (i + 1) = rl.tail i := by
  simp only [tail, idx_raise, size_raise, Nat.add_le_add_iff_right]
  rfl

theorem appendFrom_raise (prev : ℕ) (es : List (LogEntry C)) :
    rl.raise.appendFrom (prev + 1) es = (rl.appendFrom prev es).map raise := by
  simp only [appendFrom, idx_raise, Option.map_map]
  rfl

theorem doSnapshot_raise (index : ℕ) (bytes : List UInt8) :
    rl.raise.doSnapshot (index + 1) bytes = (rl.doSnapshot index bytes).map raise := by
  simp only [doSnapshot, idx_raise, Option.map_bind]
  congr 1
  funext i
  simp only [Function.comp_apply, Option.map_map]
  rfl

end RaftLog

/-! ### Refinement -/

/-- `rl` is what compaction leaves of `X`. -/
structure Refines (rl : RaftLog C) (X : FullLog C) : Prop where
  compacted : rl.snapLastIdx = X.compacted
  repr : Repr rl.raise X.entries

namespace Refines

variable {rl : RaftLog C} {X : FullLog C}

theorem new (index term : ℕ) (bytes : List UInt8) (es : List (LogEntry C)) :
    Refines (newLog index term bytes es) (FullLog.new index term es) := by
  refine ⟨rfl, ?_, ?_, ?_⟩
  · simp [newLog, FullLog.new, RaftLog.raise]
  · simp [newLog, FullLog.new, RaftLog.raise, termAt, List.getElem?_append, dummy]
  · simp [newLog, FullLog.new, RaftLog.raise]

theorem size (h : Refines rl X) : rl.size = X.size := by
  have := h.repr.size
  rw [RaftLog.size_raise] at this
  exact Nat.succ_injective this

theorem term (h : Refines rl X) : rl.snapLastTerm = X.term X.compacted := by
  have := h.repr.term
  simp only [RaftLog.raise, h.compacted] at this
  exact this

theorem tailLog (h : Refines rl X) :
    rl.tailLog = dummy rl.snapLastTerm :: X.entries.drop (X.compacted + 1) := by
  have := h.repr.tail
  simp only [RaftLog.raise, h.compacted] at this
  exact this

theorem entryAt (h : Refines rl X) {i : ℕ} (hi : X.compacted < i) : rl.entryAt i = X.entries[i]? := by
  rcases Nat.lt_or_ge i X.size with hlt | hge
  · rw [← RaftLog.entryAt_raise]
    refine h.repr.entryAt ?_ (Nat.succ_le_of_lt hlt)
    simp only [RaftLog.raise, h.compacted]
    omega
  · rw [List.getElem?_eq_none hge, RaftLog.entryAt, RaftLog.idx, if_pos (Or.inr (h.size ▸ hge))]
    rfl

theorem last (h : Refines rl X) : rl.last = some X.last := by
  have hlast := h.repr.last
  rw [RaftLog.last_raise] at hlast
  obtain ⟨x, hx, heq⟩ := Option.map_eq_some_iff.mp hlast
  obtain ⟨k, hk⟩ : ∃ k, X.entries.length = k + 1 := ⟨X.entries.length - 1, by have := X.lt; omega⟩
  rw [hk, Prod.mk.injEq] at heq
  rw [hx, FullLog.last, FullLog.size, hk, Nat.add_sub_cancel]
  exact congrArg some (Prod.ext (Nat.succ_injective heq.1) heq.2)

theorem tail (h : Refines rl X) {i : ℕ} (hi : X.compacted < i) :
    rl.tail i = some (X.entries.drop i) := by
  rw [← RaftLog.tail_raise, h.repr.tail_eq, Nat.add_sub_cancel]
  simp only [RaftLog.raise, h.compacted]
  omega

theorem append (h : Refines rl X) (e : LogEntry C) : Refines (rl.append e) (X.append e) :=
  ⟨h.compacted, h.repr.append e⟩

theorem appendFrom (h : Refines rl X) {prev : ℕ} (hprev : X.InRange prev)
    (es : List (LogEntry C)) :
    ∃ rl', rl.appendFrom prev es = some rl' ∧ Refines rl' (X.appendFrom prev es hprev) := by
  have hlo : rl.raise.snapLastIdx ≤ prev + 1 := Nat.succ_le_succ (h.compacted ▸ hprev.1)
  obtain ⟨rl₁, heq, hrepr, hsnap, -⟩ := h.repr.appendFrom hlo (Nat.succ_le_of_lt hprev.2) es
  rw [RaftLog.appendFrom_raise] at heq
  obtain ⟨rl', hrl, rfl⟩ := Option.map_eq_some_iff.mp heq
  exact ⟨rl', hrl, (Nat.succ_injective hsnap).trans h.compacted, hrepr⟩

theorem doSnapshot (h : Refines rl X) {index : ℕ} (hindex : X.InRange index) (bytes : List UInt8) :
    ∃ rl', rl.doSnapshot index bytes = some rl' ∧ Refines rl' (X.doSnapshot index hindex) := by
  have hlo : rl.raise.snapLastIdx ≤ index + 1 := Nat.succ_le_succ (h.compacted ▸ hindex.1)
  obtain ⟨rl₁, heq, hrepr, hsnap⟩ := h.repr.doSnapshot hlo (Nat.succ_le_of_lt hindex.2) bytes
  rw [RaftLog.doSnapshot_raise] at heq
  obtain ⟨rl', hrl, rfl⟩ := Option.map_eq_some_iff.mp heq
  exact ⟨rl', hrl, Nat.succ_injective hsnap, hrepr⟩

theorem installSnapshot (rl : RaftLog C) (X : FullLog C) (index term : ℕ) (bytes : List UInt8) :
    Refines (rl.installSnapshot index term bytes) (X.installSnapshot index term) := by
  have hlen : (X.installSnapshot index term).entries.length = index + 1 := by
    simp [FullLog.installSnapshot]
    omega
  have hterm : termAt (X.installSnapshot index term).entries (index + 1) = term := by
    simp [termAt, FullLog.installSnapshot, List.getElem?_append, dummy]
  have hrepr := Repr.installSnapshot rl.raise (le_of_eq hlen.symm) bytes
  rw [List.take_of_length_le (le_of_eq hlen), hterm] at hrepr
  exact ⟨rfl, hrepr⟩

/-- Reading back what was saved restores the log of that time, whatever is there now. -/
theorem readPersist (h : Refines rl X) (rl' : RaftLog C) : Refines (rl'.readPersist rl.persist) X :=
  ⟨h.compacted, h.repr.le, h.repr.term, h.repr.tail⟩

end Refines

/-- The logs correspond, and so do the saved ones. -/
structure StoredLog.Follows (s : StoredLog C) (X : StoredFullLog C) : Prop where
  log : Refines s.log X.log
  saved : ∀ Y, X.saved = some Y → ∃ rl : RaftLog C, s.saved = some rl.persist ∧ Refines rl Y

/-- Whatever the full log can do, `RaftLog` does without a panic. -/
theorem StoredLog.Follows.step {s : StoredLog C} {X X' : StoredFullLog C} (h : s.Follows X)
    {op : LogOp C} (hX : X.step op = some X') : ∃ s', s.step op = some s' ∧ s'.Follows X' := by
  cases op with
  | append e =>
    obtain rfl := Option.some.inj hX
    exact ⟨_, rfl, h.log.append e, h.saved⟩
  | appendFrom prev es =>
    simp only [StoredFullLog.step] at hX
    split_ifs at hX with hprev
    obtain rfl := Option.some.inj hX
    obtain ⟨rl, hrl, href⟩ := h.log.appendFrom hprev es
    exact ⟨{ s with log := rl }, by rw [StoredLog.step, hrl]; rfl, href, h.saved⟩
  | doSnapshot index bytes =>
    simp only [StoredFullLog.step] at hX
    split_ifs at hX with hindex
    obtain rfl := Option.some.inj hX
    obtain ⟨rl, hrl, href⟩ := h.log.doSnapshot hindex bytes
    exact ⟨{ s with log := rl }, by rw [StoredLog.step, hrl]; rfl, href, h.saved⟩
  | installSnapshot index term bytes =>
    obtain rfl := Option.some.inj hX
    exact ⟨_, rfl, Refines.installSnapshot s.log X.log index term bytes, h.saved⟩
  | persist =>
    obtain rfl := Option.some.inj hX
    refine ⟨_, rfl, h.log, ?_⟩
    rintro Y hY
    obtain rfl := Option.some.inj hY
    exact ⟨s.log, rfl, h.log⟩
  | readPersist =>
    obtain ⟨Y, hY, rfl⟩ := Option.map_eq_some_iff.mp hX
    obtain ⟨rl, hrl, href⟩ := h.saved Y hY
    exact ⟨{ s with log := s.log.readPersist rl.persist },
      by simp only [StoredLog.step, hrl, Option.map_some], href.readPersist s.log, h.saved⟩

/-- Compaction is not seen above the snapshot. -/
theorem Refines.doSnapshot_frame {rl rl' : RaftLog C} {X : FullLog C} (h : Refines rl X) {index : ℕ}
    {bytes : List UInt8} (hrl : rl.doSnapshot index bytes = some rl') :
    rl'.size = rl.size ∧ rl'.last = rl.last ∧ ∀ i, index < i → rl'.entryAt i = rl.entryAt i := by
  obtain ⟨k, hk, -⟩ := Option.bind_eq_some_iff.mp hrl
  have hindex : X.InRange index := by
    rw [RaftLog.idx, h.size, h.compacted] at hk
    split_ifs at hk with hout
    exact ⟨by omega, by omega⟩
  obtain ⟨rl₁, hrl₁, href⟩ := h.doSnapshot hindex bytes
  obtain rfl := Option.some.inj (hrl.symm.trans hrl₁)
  refine ⟨href.size.trans h.size.symm, href.last.trans h.last.symm, ?_⟩
  intro i hi
  exact (href.entryAt hi).trans (h.entryAt (lt_of_le_of_lt hindex.1 hi)).symm

/-- After any operations that stay in range, `RaftLog` has not panicked and shows, above its
    snapshot, exactly the full log; compacting it shows nowhere above the new snapshot. -/
theorem raftLog_refines_fullLog (index term : ℕ) (snapshot : List UInt8) (entries : List (LogEntry C))
    {ops : List (LogOp C)} {X : StoredFullLog C}
    (hX : Run StoredFullLog.step Any ⟨FullLog.new index term entries, none⟩ ops X) :
    ∃ s, Run StoredLog.step Any ⟨newLog index term snapshot entries, none⟩ ops s ∧
      s.log.tailLog.head?.map LogEntry.term = some s.log.snapLastTerm ∧
      s.log.snapLastIdx = X.log.compacted ∧ s.log.snapLastTerm = X.log.term X.log.compacted ∧
      s.log.size = X.log.size ∧ s.log.last = some X.log.last ∧
      (∀ i, s.log.snapLastIdx < i →
        s.log.entryAt i = X.log.entries[i]? ∧ s.log.tail i = some (X.log.entries.drop i)) ∧
      ∀ index bytes rl, s.log.doSnapshot index bytes = some rl →
        rl.size = s.log.size ∧ rl.last = s.log.last ∧
          ∀ i, index < i → rl.entryAt i = s.log.entryAt i := by
  obtain ⟨s, hs, hF⟩ := hX.follow (fun _ _ _ _ h hst => StoredLog.Follows.step h hst)
    (⟨Refines.new index term snapshot entries, fun Y hY => absurd hY (by simp)⟩ :
      StoredLog.Follows ⟨newLog index term snapshot entries, none⟩ _)
  have h := hF.log
  refine ⟨s, hs, by rw [h.tailLog]; rfl, h.compacted, h.term, h.size, h.last, ?_,
    fun _ _ _ hrl => h.doSnapshot_frame hrl⟩
  intro i hi
  rw [h.compacted] at hi
  exact ⟨h.entryAt hi, h.tail hi⟩

/-- Appends, a save, a compaction, a truncation, a reload and a compaction. -/
def reloaded : List (LogOp ℕ) :=
  [.append ⟨1, true, some 7⟩, .append ⟨1, true, some 8⟩, .append ⟨2, true, some 9⟩, .persist,
    .doSnapshot 1 [5], .appendFrom 1 [⟨3, true, some 6⟩], .readPersist, .doSnapshot 2 [5, 5]]

theorem raftLog_refines_reloaded : ∃ X s,
    Run StoredFullLog.step Any ⟨FullLog.new 0 0 [], none⟩ reloaded X ∧
    Run StoredLog.step Any ⟨newLog 0 0 [] [], none⟩ reloaded s ∧
    X.log.entries = [⟨0, false, none⟩, ⟨1, true, some 7⟩, ⟨1, true, some 8⟩, ⟨2, true, some 9⟩] ∧
    s.log.snapLastIdx = 2 ∧ s.log.entryAt 3 = some ⟨2, true, some 9⟩ := by
  obtain ⟨X, hX, hq⟩ := exists_run StoredFullLog.step Any ⟨FullLog.new 0 0 [], none⟩ reloaded
    (fun X => decide (X.log.entries =
      [⟨0, false, none⟩, ⟨1, true, some 7⟩, ⟨1, true, some 8⟩, ⟨2, true, some 9⟩] ∧
      X.log.compacted = 2)) (by decide +kernel)
  obtain ⟨hentries, hcompacted⟩ := of_decide_eq_true hq
  obtain ⟨s, hs, -, hsnap, -, -, -, hat, -⟩ := raftLog_refines_fullLog 0 0 [] [] hX
  rw [hcompacted] at hsnap
  refine ⟨X, s, hX, hs, hentries, hsnap, ?_⟩
  rw [(hat 3 (by omega)).1, hentries]
  rfl

end GoServices.Consensus
