import DistributionSystem.Lib.Quorum
import DistributionSystem.Raft.Backup
import DistributionSystem.Raft.Election

/-! The commit loop of the leader. It finds the index that a majority of `matchIndex`
reaches, and raises the commit index to it as far as the log goes. -/

namespace DistributionSystem

open Quorum

variable {C D B : Type}

namespace Raft

/-! ## The commit loop -/

theorem matched_iff {matchIndex : List Int} {k : Nat} {m : Int}
    (h : kthLargest matchIndex k = some m) (i : Int) : matched matchIndex i > k ↔ i ≤ m :=
  (le_kthLargest_iff h i).symm

/-- The descending scan finds the smaller of its start and the majority's index. -/
theorem commitLoop_eq {matchIndex : List Int} {peers : Nat} {c m : Int}
    (h : kthLargest matchIndex (peers / 2) = some m) (k : Nat) :
    commitLoop matchIndex peers c k =
      if c < min (c + k) m then some (min (c + k) m) else none := by
  induction k with
  | zero => rw [if_neg (by omega)]; rfl
  | succ k ih =>
    have hiff := matched_iff h (c + (k + 1))
    simp only [commitLoop]
    by_cases hle : c + (k + 1) ≤ m
    · rw [if_pos (hiff.mpr hle), if_pos (by omega), Int.min_eq_left (by omega)]
      rfl
    · rw [if_neg (fun hc => hle (hiff.mp hc)), ih, Int.min_eq_right (by omega),
        Int.min_eq_right (by omega)]

theorem majorityIndex_eq {rf : Raft C D B} {m : Int}
    (h : kthLargest rf.matchIndex (rf.peers / 2) = some m) :
    rf.majorityIndex.getD rf.commitIndex = max rf.commitIndex (min rf.lastLogIndex m) := by
  unfold majorityIndex
  rw [commitLoop_eq h]
  split
  · rw [Option.getD_some]
    omega
  · rw [Option.getD_none]
    omega

/-- The commit loop computes the majority index: it leaves the commit index at the
`(n / 2 + 1)`-th largest value of `matchIndex`, or at the end of the log before it, and
never lowers it. The handler returns unless applied entries are missing below the snapshot. -/
theorem commit_loop_majority (gob : Labgob C B) (rf : Raft C D B) (server : Nat)
    (args : AppendEntriesArgs C) (reply : AppendEntriesReply) (hst : rf.state = .leader)
    (hs : reply.success = true) (hn : 1 ≤ rf.peers) (hlen : rf.matchIndex.length = rf.peers) :
    ∃ m, kthLargest (rf.recordSuccess server args).matchIndex (rf.peers / 2) = some m ∧
      (rf.recordSuccess server args).majorityIndex.getD rf.commitIndex =
        max rf.commitIndex (min rf.lastLogIndex m) ∧
      (∀ rf', rf.handleAppendReply gob server args reply = some rf' →
        rf'.commitIndex = max rf.commitIndex (min rf.lastLogIndex m)) ∧
      (rf.snapshottedIndex ≤ rf.lastApplied + 1 →
        ∃ rf', rf.handleAppendReply gob server args reply = some rf') := by
  obtain ⟨m, hm⟩ : ∃ m, kthLargest (rf.recordSuccess server args).matchIndex (rf.peers / 2) =
      some m := by
    apply kthLargest_of_lt
    show rf.peers / 2 < (rf.matchIndex.set server _).length
    rw [List.length_set]
    omega
  have hmajority : (rf.recordSuccess server args).majorityIndex.getD rf.commitIndex =
      max rf.commitIndex (min rf.lastLogIndex m) := majorityIndex_eq hm
  refine ⟨m, hm, hmajority, fun rf' h => ?_, fun happ => ?_⟩
  · unfold handleAppendReply at h
    rw [if_neg (not_not.mpr hst), if_pos hs] at h
    rw [← hmajority]
    cases hi : (rf.recordSuccess server args).majorityIndex with
    | none =>
      simp only [hi] at h
      cases h
      rfl
    | some i =>
      simp only [hi] at h
      rcases setCommitIndex_cases h with ⟨-, rfl⟩ | ⟨-, entries, -, rfl⟩ <;> rfl
  · obtain ⟨r, hr, -⟩ := handleAppendReply_success gob rf server args hst hs happ
    exact ⟨r, hr⟩

theorem commit_loop_majority_aheadLeader : ∃ rf',
    aheadLeader.handleAppendReply (Labgob.words Nat) 1
      ⟨3, 0, 0, 0, [⟨.client 10, 1⟩, ⟨.client 11, 3⟩], 0⟩ { success := true } = some rf' ∧
    rf'.commitIndex = 2 := by
  obtain ⟨m, hm, -, hcommit, hreturns⟩ := commit_loop_majority (Labgob.words Nat) aheadLeader 1
    ⟨3, 0, 0, 0, [⟨.client 10, 1⟩, ⟨.client 11, 3⟩], 0⟩ { success := true } rfl rfl
    (by decide) rfl
  have htwo : kthLargest (aheadLeader.matchIndex.set 1 2) 1 = some 2 := by decide
  obtain rfl : (2 : Int) = m := Option.some.inj (htwo.symm.trans hm)
  obtain ⟨rf', h⟩ := hreturns (by decide)
  exact ⟨rf', h, hcommit rf' h⟩

end Raft

end DistributionSystem
