import GoServices.Schemes.Handover
import GoServices.Shard.Steps

/-! At most one group is in charge of a shard.

    The protocol hands a shard from group to group in the sense of `Handover`, as long as it is not
    taken away from all groups in between: with gid 0 nobody waits for anybody. -/

namespace GoServices.ShardKv

open Handover Runs

/-- A shard that has been given to a group stays with the groups. -/
def History.Assigned (H : History) : Prop := ∀ n s, H.own n s ≠ 0 → H.own (n + 1) s ≠ 0

section Ownership

variable {H : History} {c : System}

theorem Sound.orderly (h : Sound H c) (hkeep : H.Assigned) (s : Fin nShards) :
    Orderly (fun g n => H.own n s = g.val) (fun g => (state g (c.log g)).num)
      (fun g n => Holds (state g (c.log g)) n s) := by
  refine ⟨fun ha hb => Subtype.ext (ha.symm.trans hb), fun {a n} ha => ?_, fun {a n} hh => ?_,
    fun hlt => Or.inl hlt, fun {a b n} ha hb hne hh => ?_⟩
  · exact ⟨⟨H.own (n + 1) s, hkeep n s (ha ▸ a.property)⟩, rfl⟩
  · exact hh.elim Nat.le_of_lt fun hx => le_of_eq hx.1.symm
  · exact h.taken (n + 1) a b s ⟨ha, hb⟩ hne hh

/-- A group that serves a shard owns and holds it. -/
theorem GroupOk.owns_of_serves {g : Gid} {kv : ShardKV} {s : Fin nShards} (h : GroupOk H g kv)
    (hs : kv.serves g s = true) : H.own kv.num s = g.val ∧ Holds kv kv.num s := by
  obtain ⟨hown, hst⟩ := ShardKV.serves_iff.mp hs
  rw [h.current] at hown
  refine ⟨hown, Or.inr ⟨rfl, ?_⟩⟩
  rcases hst with hst | hst <;> rw [hst] <;> decide

/-- In no reachable state do two groups accept keys of the same shard. -/
theorem single_owner (hkeep : H.Assigned) {acts : List Action}
    (hc : Run (System.step H) Any System.init acts c) {g g' : Gid} {order order' : ℕ → ShardOrder}
    {key key' : String} (hkey : key2shard key = key2shard key')
    (hg : (replay g order (c.log g)).matchGroup g key = true)
    (hg' : (replay g' order' (c.log g')).matchGroup g' key' = true) : g = g' := by
  have h := sound_run hc
  rw [(h.legal g).groupOk.2, ShardKV.matchGroup, hkey] at hg
  rw [(h.legal g').groupOk.2, ShardKV.matchGroup] at hg'
  obtain ⟨hown, hh⟩ := (h.legal g).groupOk.1.owns_of_serves hg
  obtain ⟨hown', hh'⟩ := (h.legal g').groupOk.1.owns_of_serves hg'
  exact (h.orderly hkeep _).eq_of_holds hown hh hown' hh'

end Ownership

/-! ### A handoff from beginning to end -/

/-- Group 1. -/
def gid1 : Gid := ⟨1, by decide⟩

/-- Group 2. -/
def gid2 : Gid := ⟨2, by decide⟩

/-- `Join` of group 1, then of group 2: half of the shards move. -/
def joined : History where
  config
    | 0 => defaultConfig
    | 1 => ⟨1, fun _ => 1⟩
    | n + 2 => ⟨n + 2, fun s => if s.val < 5 then 2 else 1⟩
  num := by rintro (_ | _ | n) <;> rfl
  zero := rfl

theorem joined_assigned : joined.Assigned := by
  rintro (_ | _ | n) s h
  · exact absurd rfl h
  · show (if s.val < 5 then (2 : ℤ) else 1) ≠ 0
    split_ifs <;> decide
  · show (if s.val < 5 then (2 : ℤ) else 1) ≠ 0
    split_ifs <;> decide

/-- A leader that has applied `n` commands. -/
def leader (n : ℕ) : Server := ⟨n, fun _ => ascending⟩

/-- Group 1 takes a write for shard 0; then the shard goes to group 2, which installs it, and both
    clean up. -/
def handedOff : List Action :=
  [.fetchConfig gid1 (leader 0) 1, .commit gid1 0,
    .putAppend gid1 (leader 1) ⟨"d", "x", "Put", 1, 0⟩, .commit gid1 1,
    .fetchConfig gid1 (leader 2) 2, .commit gid1 2,
    .fetchConfig gid2 (leader 0) 1, .commit gid2 0, .fetchConfig gid2 (leader 1) 2, .commit gid2 1,
    .requestShards gid2 (leader 2) ascending gid1, .deliver 0 (leader 3) .ok,
    .deliver 1 (leader 0) .ok, .commit gid2 2,
    .requestDelete gid2 (leader 3) ascending gid1, .deliver 2 (leader 3) .ok, .commit gid1 3,
    .deliver 3 (leader 0) .ok, .commit gid2 3]

theorem single_owner_handedOff : ∃ c, Run (System.step joined) Any System.init handedOff c ∧
    (state gid2 (c.log gid2)).matchGroup gid2 "d" = true ∧
    (state gid1 (c.log gid1)).matchGroup gid1 "d" = false := by
  obtain ⟨c, hc, hq⟩ := exists_run (System.step joined) Any System.init handedOff
    (fun c => (state gid2 (c.log gid2)).matchGroup gid2 "d") (by decide +kernel)
  refine ⟨c, hc, hq, Bool.eq_false_iff.mpr fun h1 => ?_⟩
  exact absurd (single_owner joined_assigned hc rfl h1 hq) (by decide)

end GoServices.ShardKv
