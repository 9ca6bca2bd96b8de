import DistributionSystem.Lib.LeaderCommit
import DistributionSystem.Raft.Durable
import DistributionSystem.Raft.FullLog

/-! What ties a peer to the abstract history of leaders' logs (`LeaderLog`). `PeerOk`
says it of the peer's own fields and goroutines, `OutputOk` of each message it has
sent. Both only mention what the history records for good, so they survive the moves
of the other peers. The lemmas behind them take one function of the source each. -/

namespace DistributionSystem

open LeaderLog Quorum

variable {C B : Type} {n : Nat}

/-- The history of a cluster of `n` peers. -/
abbrev Ledger (n : Nat) (C : Type) := LeaderLog.State (Fin n) (LogEntry C)

/-- The entries are committed, and the first of them has this index. -/
def Handed (A : Ledger n C) (index : Int) (entries : List (LogEntry C)) : Prop :=
  0 < index ∧ ∃ t l, Com LogEntry.term A t l ∧ entries <+: l.drop (index - 1).toNat

structure Indices (full : List (LogEntry C)) (snap commit applied : Int)
    (guard : Option (LogEntry C)) (delivered : List Int) : Prop where
  snap_le : snap ≤ commit
  commit_le : commit ≤ full.length
  applied_nonneg : 0 ≤ applied
  snap_applied : snap ≤ applied + 1
  /-- Entries are handed out from the guard on only when it is a real entry. -/
  guard_real : snap = applied + 1 → ∃ e, guard = some e ∧ full[snap.toNat - 1]? = some e
  delivered_le : ∀ d ∈ delivered, d ≤ applied + 1 ∧ d ≤ commit

/-- A candidate has the log it stood with, unless someone else has won the term. A
leader has the leader's log of its term. -/
structure Role (A : Ledger n C) (i : Fin n) (state : NodeState) (t : Int)
    (full : List (LogEntry C)) : Prop where
  candidate : state = .candidate → (∀ l, ¬ A.elected t i l) ∧ (A.stood i t full ∨ A.Won t)
  leader : state = .leader → (∃ l, A.elected t i l) ∧ A.leaderLog t = full

/-- Beyond the commit index, `matchIndex` counts acknowledgements of the term. -/
def Matched (A : Ledger n C) (t commit : Int) (matchIndex : List Int) : Prop :=
  ∀ (j : Fin n) m, matchIndex[j.val]? = some m → m ≤ commit ∨ ∃ k : Nat, m = k ∧ A.ack j t k

def GoroutineOk (A : Ledger n C) (i : Fin n) (snap commit applied : Int) :
    Goroutine C (List (LogEntry C)) → Prop
  | .heartbeat server => server ≠ i
  | .syncSnapshotWith server => server ≠ i
  | .awaitSnapshot _ args => args.lastIncludedIndex ≤ snap
  | .apply index entries =>
    Handed A index entries ∧ index ≤ applied + 1 ∧ index + entries.length ≤ commit + 1
  | .applied index entries =>
    Handed A (index + 1) entries ∧ index ≤ applied + 1 ∧ index + 1 + entries.length ≤ commit + 1
  | .install msg => msg.commandValid = false
  | _ => True

structure PeerOk (A : Ledger n C) (i : Fin n) (rf : Raft C (List (LogEntry C)) B) : Prop where
  shape : Shape (covered rf.persister.snapshot) rf.snapshottedIndex rf.logs
  indices : Indices rf.fullLog rf.snapshottedIndex rf.commitIndex rf.lastApplied rf.logs.head?
    rf.delivered
  com : Com LogEntry.term A rf.currentTerm (rf.fullLog.take rf.commitIndex.toNat)
  role : Role A i rf.state rf.currentTerm rf.fullLog
  matched : rf.state = .leader → Matched A rf.currentTerm rf.commitIndex rf.matchIndex
  peers : rf.matchIndex.length = n
  goroutines : ∀ g ∈ rf.goroutines,
    GoroutineOk A i rf.snapshottedIndex rf.commitIndex rf.lastApplied g

/-- The sender led the term of the request, and sent the end of a prefix of its log. -/
structure AppendOk (A : Ledger n C) (i : Fin n) (args : AppendEntriesArgs C)
    (sent : List (LogEntry C)) : Prop where
  elected : ∃ l, A.elected args.term i l
  sent_le : sent <+: A.leaderLog args.term
  prev_nonneg : 0 ≤ args.prevLogIndex
  prev_le : args.prevLogIndex ≤ sent.length
  entries : args.logEntries = sent.drop args.prevLogIndex.toNat
  prevTerm : args.prevLogTerm = logTerm (sent.take args.prevLogIndex.toNat)
  commit_le : args.leaderCommit ≤ sent.length
  commit : Com LogEntry.term A args.term (sent.take args.leaderCommit.toNat)

/-- The sender led the term of the request, and its snapshot is of committed entries. -/
structure SnapshotOk (A : Ledger n C) (i : Fin n) (args : InstallSnapshotArgs (List (LogEntry C))) :
    Prop where
  elected : ∃ l, A.elected args.term i l
  sent_le : covered args.data <+: A.leaderLog args.term
  index : args.lastIncludedIndex = (covered args.data).length
  lastTerm : args.lastIncludedTerm = logTerm (covered args.data)
  commit : Com LogEntry.term A args.term (covered args.data)

def OutputOk (A : Ledger n C) (i : Fin n) : Output C (List (LogEntry C)) → Prop
  | .call _ (.requestVote args) => ∃ l, A.stood i args.term l ∧
    args.lastLogIndex = l.length ∧ args.lastLogTerm = logTerm l
  | .call server (.appendEntries args) => server ≠ i ∧ ∃ sent, AppendOk A i args sent
  | .call server (.installSnapshot args) => server ≠ i ∧ SnapshotOk A i args
  | .reply (.appendEntries args) (.appendEntries reply) => reply.success = true →
    ∃ k : Nat, args.prevLogIndex + args.logEntries.length = k ∧ A.ack i args.term k
  | .apply msg => msg.commandValid = true → ∃ e, Handed A msg.commandIndex [e] ∧
    msg.command = e.command
  | _ => True

/-! ## The history only grows -/

section

variable {A A' : Ledger n C} {i : Fin n}

theorem Handed.mono {index : Int} {entries : List (LogEntry C)} (h : Handed A index entries)
    (hx : Extends A A') : Handed A' index entries := by
  obtain ⟨hpos, t, l, hc, hp⟩ := h
  exact ⟨hpos, t, l, hc.mono hx, hp⟩

theorem Handed.head {index : Int} {e : LogEntry C} {entries : List (LogEntry C)}
    (h : Handed A index (e :: entries)) : Handed A index [e] := by
  obtain ⟨hpos, t, l, hc, hp⟩ := h
  exact ⟨hpos, t, l, hc, (show [e] <+: e :: entries by simp).trans hp⟩

theorem Handed.tail {index : Int} {e : LogEntry C} {entries : List (LogEntry C)}
    (h : Handed A index (e :: entries)) : Handed A (index + 1) entries := by
  obtain ⟨hpos, t, l, hc, r, hr⟩ := h
  refine ⟨by omega, t, l, hc, r, ?_⟩
  rw [show (index + 1 - 1).toNat = (index - 1).toNat + 1 by omega, ← List.drop_drop, ← hr]
  rfl

theorem GoroutineOk.mono {snap commit applied snap' commit' applied' : Int}
    {g : Goroutine C (List (LogEntry C))} (h : GoroutineOk A i snap commit applied g)
    (hx : Extends A A') (hs : snap ≤ snap') (hc : commit ≤ commit') (ha : applied ≤ applied') :
    GoroutineOk A' i snap' commit' applied' g := by
  cases g with
  | heartbeat | syncSnapshotWith => exact h
  | awaitSnapshot server args => exact Int.le_trans h hs
  | apply index entries =>
    obtain ⟨h1, h2, h3⟩ := h
    exact ⟨h1.mono hx, by omega, by omega⟩
  | applied index entries =>
    obtain ⟨h1, h2, h3⟩ := h
    exact ⟨h1.mono hx, by omega, by omega⟩
  | _ => trivial

theorem Matched.mono {t commit commit' : Int} {matchIndex : List Int}
    (h : Matched A t commit matchIndex) (hx : Extends A A') (hc : commit ≤ commit') :
    Matched A' t commit' matchIndex := by
  intro j m hm
  rcases h j m hm with hle | ⟨k, hk, ha⟩
  · exact Or.inl (Int.le_trans hle hc)
  · exact Or.inr ⟨k, hk, hx.ack _ _ _ ha⟩

/-- Nothing has happened to the elections of `i` and to the logs of its terms. -/
structure Aside (A A' : Ledger n C) (i : Fin n) : Prop where
  elected : ∀ t l, A'.elected t i l → A.elected t i l
  leaderLog : ∀ t l, A.elected t i l → A'.leaderLog t = A.leaderLog t

theorem Role.mono {state : NodeState} {t : Int} {full : List (LogEntry C)}
    (h : Role A i state t full) (hx : Extends A A') (ha : Aside A A' i) :
    Role A' i state t full := by
  refine ⟨fun hst => ⟨fun l hl => (h.candidate hst).1 l (ha.elected _ _ hl), ?_⟩, fun hst => ?_⟩
  · rcases (h.candidate hst).2 with hs | ⟨j, l, hw⟩
    · exact Or.inl (hx.stood _ _ _ hs)
    · exact Or.inr ⟨j, l, hx.elected _ _ _ hw⟩
  · obtain ⟨⟨l, hl⟩, hlog⟩ := h.leader hst
    exact ⟨⟨l, hx.elected _ _ _ hl⟩, (ha.leaderLog _ _ hl).trans hlog⟩

theorem PeerOk.mono {rf : Raft C (List (LogEntry C)) B} (h : PeerOk A i rf) (hx : Extends A A')
    (ha : Aside A A' i) : PeerOk A' i rf :=
  ⟨h.shape, h.indices, h.com.mono hx, h.role.mono hx ha,
    fun hst => (h.matched hst).mono hx (Int.le_refl _), h.peers,
    fun g hg => (h.goroutines g hg).mono hx (Int.le_refl _) (Int.le_refl _) (Int.le_refl _)⟩

theorem AppendOk.mono {args : AppendEntriesArgs C} {sent : List (LogEntry C)}
    (h : AppendOk A i args sent) (hx : Extends A A') : AppendOk A' i args sent := by
  obtain ⟨l, hl⟩ := h.elected
  exact { h with
    elected := ⟨l, hx.elected _ _ _ hl⟩
    sent_le := h.sent_le.trans (hx.leaderLog _)
    commit := h.commit.mono hx }

theorem SnapshotOk.mono {args : InstallSnapshotArgs (List (LogEntry C))}
    (h : SnapshotOk A i args) (hx : Extends A A') : SnapshotOk A' i args := by
  obtain ⟨l, hl⟩ := h.elected
  exact { h with
    elected := ⟨l, hx.elected _ _ _ hl⟩
    sent_le := h.sent_le.trans (hx.leaderLog _)
    commit := h.commit.mono hx }

theorem OutputOk.mono {o : Output C (List (LogEntry C))} (h : OutputOk A i o)
    (hx : Extends A A') : OutputOk A' i o := by
  cases o with
  | call server request =>
    cases request with
    | requestVote args =>
      obtain ⟨l, hs, hr⟩ := h
      exact ⟨l, hx.stood _ _ _ hs, hr⟩
    | appendEntries args =>
      obtain ⟨hne, sent, hs⟩ := h
      exact ⟨hne, sent, hs.mono hx⟩
    | installSnapshot args => exact ⟨h.1, h.2.mono hx⟩
  | reply request reply =>
    cases request with
    | appendEntries args =>
      cases reply with
      | appendEntries reply =>
        intro hs
        obtain ⟨k, hk, ha⟩ := h hs
        exact ⟨k, hk, hx.ack _ _ _ ha⟩
      | _ => trivial
    | _ => trivial
  | apply msg =>
    intro hv
    obtain ⟨e, he, hc⟩ := h hv
    exact ⟨e, he.mono hx, hc⟩
  | _ => trivial

end

/-! ## The functions of the source -/

namespace PeerOk

variable {A : Ledger n C} {i : Fin n} {rf : Raft C (List (LogEntry C)) B}

theorem persist (h : PeerOk A i rf) (gob : Labgob C B) : PeerOk A i (rf.persist gob) :=
  ⟨h.shape, h.indices, h.com, h.role, h.matched, h.peers, h.goroutines⟩

theorem voteFor (h : PeerOk A i rf) (candidateId : Int) : PeerOk A i (rf.voteFor candidateId) :=
  ⟨h.shape, h.indices, h.com, h.role, h.matched, h.peers, h.goroutines⟩

theorem countVote (h : PeerOk A i rf) (election : Nat) (e : Election) :
    PeerOk A i (rf.countVote election e) :=
  ⟨h.shape, h.indices, h.com, h.role, h.matched, h.peers, h.goroutines⟩

theorem setNext (h : PeerOk A i rf) (server : Nat) (index : Int) :
    PeerOk A i (rf.setNext server index) :=
  ⟨h.shape, h.indices, h.com, h.role, h.matched, h.peers, h.goroutines⟩

theorem leave [DecidableEq C] (h : PeerOk A i rf) (g : Goroutine C (List (LogEntry C))) :
    PeerOk A i (rf.leave g) :=
  ⟨h.shape, h.indices, h.com, h.role, h.matched, h.peers,
    fun g' hg' => h.goroutines g' (List.mem_of_mem_erase hg')⟩

theorem spawn (h : PeerOk A i rf) {gs : List (Goroutine C (List (LogEntry C)))}
    (hgs : ∀ g ∈ gs, GoroutineOk A i rf.snapshottedIndex rf.commitIndex rf.lastApplied g) :
    PeerOk A i (rf.spawn gs) := by
  refine ⟨h.shape, h.indices, h.com, h.role, h.matched, h.peers, ?_⟩
  intro g hg
  rcases List.mem_append.mp hg with hg | hg
  · exact h.goroutines g hg
  · exact hgs g hg

/-- A peer that turns follower of a later term. -/
theorem follow (h : PeerOk A i rf) {t v : Int} (ht : rf.currentTerm ≤ t) :
    PeerOk A i { rf with currentTerm := t, state := .follower, votedFor := v } :=
  ⟨h.shape, h.indices, h.com.shorten ht (List.prefix_refl _),
    ⟨fun hst => NodeState.noConfusion hst, fun hst => NodeState.noConfusion hst⟩,
    fun hst => NodeState.noConfusion hst, h.peers, h.goroutines⟩

theorem adoptTerm (h : PeerOk A i rf) (t : Int) : PeerOk A i (rf.adoptTerm t) := by
  by_cases hlt : rf.currentTerm < t
  · have hst := Raft.adoptTerm_of_lt hlt
    rw [Raft.adoptTerm_frame, hst]
    exact h.follow (by omega)
  · rw [Raft.adoptTerm_of_le (Int.not_lt.mp hlt)]
    exact h

theorem stepDown (h : PeerOk A i rf) (gob : Labgob C B) {t : Int} (ht : rf.currentTerm < t) :
    PeerOk A i (rf.stepDown gob t) := by
  rw [Raft.stepDown_frame]
  exact (h.follow (Int.le_of_lt ht)).persist gob

theorem setMatch (h : PeerOk A i rf) {server : Nat} {m : Int}
    (hm : rf.state = .leader → ∀ j : Fin n, j.val = server →
      m ≤ rf.commitIndex ∨ ∃ k : Nat, m = k ∧ A.ack j rf.currentTerm k) :
    PeerOk A i (rf.setMatch server m) := by
  refine ⟨h.shape, h.indices, h.com, h.role, ?_, ?_, h.goroutines⟩
  · intro hst j x hx
    by_cases hj : j.val = server
    · have hlt : j.val < rf.matchIndex.length := by rw [h.peers]; exact j.isLt
      have hx' : (rf.matchIndex.set server m)[j.val]? = some x := hx
      rw [← hj, List.getElem?_set_self hlt, Option.some.injEq] at hx'
      subst hx'
      exact hm hst j hj
    · have hx' : (rf.matchIndex.set server m)[j.val]? = some x := hx
      rw [List.getElem?_set_ne (Ne.symm hj)] at hx'
      exact h.matched hst j x hx'
  · show (rf.matchIndex.set server m).length = n
    rw [List.length_set]
    exact h.peers

theorem matchIndex_getD (h : PeerOk A i rf) (j : Fin n) :
    rf.matchIndex[j.val]? = some (rf.matchIndex.getD j 0) := by
  have hlt : j.val < rf.matchIndex.length := by
    rw [h.peers]
    exact j.isLt
  rw [List.getD_eq_getElem?_getD, List.getElem?_eq_getElem hlt, Option.getD_some]

/-- A peer that has answered a snapshot holds what the snapshot covers, and that is committed. -/
theorem recordSnapshot [DecidableEq C] (h : PeerOk A i rf)
    (g : Goroutine C (List (LogEntry C))) {index : Int} (hindex : index ≤ rf.snapshottedIndex)
    (server : Nat) :
    PeerOk A i ((rf.leave g).setMatch server (max (rf.matchIndex.getD server 0) index)) := by
  refine (h.leave g).setMatch fun hst j hj => ?_
  have hget := h.matchIndex_getD j
  rw [hj] at hget
  rcases Int.le_total (rf.matchIndex.getD server 0) index with hm | hm
  · rw [Int.max_eq_right hm]
    exact Or.inl (Int.le_trans hindex h.indices.snap_le)
  · rw [Int.max_eq_left hm]
    exact h.matched hst j _ (hj ▸ hget)

/-- A higher commit index, with a goroutine for the entries that became committed. -/
theorem setCommitIndex (h : PeerOk A i rf) {c : Int} {r : Raft C (List (LogEntry C)) B}
    (hr : rf.setCommitIndex c = some r) (hlt : rf.commitIndex ≤ c) (hle : c ≤ rf.fullLog.length)
    (hcom : Com LogEntry.term A rf.currentTerm (rf.fullLog.take c.toNat)) : PeerOk A i r := by
  have hidx := h.indices
  have hindices : Indices rf.fullLog rf.snapshottedIndex c rf.lastApplied rf.logs.head?
      rf.delivered := by
    refine ⟨Int.le_trans hidx.snap_le hlt, hle, hidx.applied_nonneg, hidx.snap_applied,
      hidx.guard_real, fun d hd => ?_⟩
    have := hidx.delivered_le d hd
    omega
  have hgs : ∀ g ∈ rf.goroutines, GoroutineOk A i rf.snapshottedIndex c rf.lastApplied g :=
    fun g hg => (h.goroutines g hg).mono (Extends.refl A) (Int.le_refl _) hlt (Int.le_refl _)
  have hmatched : rf.state = .leader → Matched A rf.currentTerm c rf.matchIndex :=
    fun hst => (h.matched hst).mono (Extends.refl A) hlt
  rcases Raft.setCommitIndex_cases hr with ⟨-, rfl⟩ | ⟨happ, entries, hslice, rfl⟩
  · exact ⟨h.shape, hindices, hcom, h.role, hmatched, h.peers, hgs⟩
  · refine ⟨h.shape, hindices, hcom, h.role, hmatched, h.peers, ?_⟩
    intro g hg
    rcases List.mem_append.mp hg with hg | hg
    · exact hgs g hg
    · rw [List.mem_singleton] at hg
      subst hg
      obtain ⟨hentries, -, -⟩ := slice_full h.shape hidx.applied_nonneg hidx.snap_applied
        hidx.guard_real hslice
      have hpos := hidx.applied_nonneg
      refine ⟨⟨by omega, rf.currentTerm, _, hcom, ?_⟩, Int.le_refl _, ?_⟩
      · rw [show (rf.lastApplied + 1 - 1).toNat = rf.lastApplied.toNat by omega, hentries]
        exact List.prefix_refl _
      · have hlen : entries.length = min c.toNat rf.fullLog.length - rf.lastApplied.toNat := by
          rw [hentries, List.length_drop, List.length_take]
          rfl
        show rf.lastApplied + 1 + (entries.length : Int) ≤ c + 1
        omega

/-- The commit loop finds an index that a majority has acknowledged. -/
theorem commit (h : PeerOk A i rf) (hsound : Sound LogEntry.term A) (hpeers : rf.peers = n)
    (hst : rf.state = .leader) {c : Int} {r : Raft C (List (LogEntry C)) B}
    (hi : rf.majorityIndex = some c)
    (hown : (CheckedSlice.get rf.logs (rf.getRelativeLogIndex c)).map LogEntry.term =
      some rf.currentTerm)
    (hr : rf.setCommitIndex c = some r) : PeerOk A i r := by
  obtain ⟨hlt, hle, hmaj⟩ := Raft.majorityIndex_spec hi
  obtain ⟨e, he, hterm⟩ := Option.map_eq_some_iff.mp hown
  obtain ⟨hsnap, hlen, -, hget⟩ := h.shape.get he
  have hpos := h.shape.index
  have hsnapc := h.indices.snap_le
  have hlog : A.leaderLog rf.currentTerm = rf.fullLog := (h.role.leader hst).2
  obtain ⟨S, hS, hacks⟩ := exists_majority_of_filter h.peers (fun m => decide (c ≤ m))
    (hpeers ▸ hmaj)
  refine h.setCommitIndex hr (Int.le_of_lt hlt) hlen ?_
  refine Or.inr ⟨rf.currentTerm, c.toNat, Int.le_refl _, ⟨⟨by omega, e, ?_, hterm⟩, S, hS, ?_⟩, ?_⟩
  · rw [hlog]
    exact hget (by omega)
  · intro j hj
    obtain ⟨m, hm, hcm⟩ := hacks j hj
    have hcm' : c ≤ m := of_decide_eq_true hcm
    rcases h.matched hst j m hm with hc | ⟨k, rfl, hack⟩
    · omega
    · exact hsound.acks.ack_down _ _ _ _ hack (by omega)
  · rw [hlog]

/-- A leader's log with one entry more, once the history has it as well. -/
theorem concat (h : PeerOk A i rf) (hst : rf.state = .leader) {A' : Ledger n C}
    (hx : Extends A A') {e : LogEntry C}
    (hlog : A'.leaderLog rf.currentTerm = rf.fullLog ++ [e]) :
    PeerOk A' i { rf with logs := rf.logs ++ [e] } ∧
      Raft.fullLog { rf with logs := rf.logs ++ [e] } = rf.fullLog ++ [e] := by
  obtain ⟨g, rest, hlogs, hg⟩ := h.shape.guard
  obtain ⟨⟨l, hl⟩, -⟩ := h.role.leader hst
  have hfull : Raft.fullLog { rf with logs := rf.logs ++ [e] } = rf.fullLog ++ [e] := by
    unfold Raft.fullLog
    simp [hlogs]
  have hidx := h.indices
  have hclen := hidx.commit_le
  refine ⟨⟨⟨h.shape.index, g, rest ++ [e], ?_, hg⟩, ?_, ?_, ⟨?_, ?_⟩, ?_, h.peers, ?_⟩, hfull⟩
  · show rf.logs ++ [e] = _
    rw [hlogs]; rfl
  · rw [hfull]
    refine ⟨hidx.snap_le, ?_, hidx.applied_nonneg, hidx.snap_applied, ?_, hidx.delivered_le⟩
    · show rf.commitIndex ≤ _
      rw [List.length_append, List.length_singleton]
      omega
    · intro heq
      obtain ⟨x, hx1, hx2⟩ := hidx.guard_real heq
      refine ⟨x, ?_, ?_⟩
      · show (rf.logs ++ [e]).head? = some x
        rw [hlogs] at hx1 ⊢
        exact hx1
      · show (rf.fullLog ++ [e])[rf.snapshottedIndex.toNat - 1]? = some x
        rw [List.getElem?_append_left (List.getElem?_eq_some_iff.mp hx2).1]
        exact hx2
  · rw [hfull]
    show Com LogEntry.term A' rf.currentTerm ((rf.fullLog ++ [e]).take rf.commitIndex.toNat)
    rw [List.take_append_of_le_length (by omega)]
    exact h.com.mono hx
  · intro hc
    exact NodeState.noConfusion (hst.symm.trans hc)
  · intro _
    rw [hfull]
    exact ⟨⟨l, hx.elected _ _ _ hl⟩, hlog⟩
  · exact fun _ => (h.matched hst).mono hx (Int.le_refl _)
  · exact fun g' hg' => (h.goroutines g' hg').mono hx (Int.le_refl _) (Int.le_refl _) (Int.le_refl _)

theorem broadcastHeartbeat (h : PeerOk A i rf) (hme : rf.me = i) :
    PeerOk A i rf.broadcastHeartbeat := by
  refine h.spawn ?_
  intro g hg
  obtain ⟨server, hs, rfl⟩ := List.mem_map.mp hg
  exact fun heq => Raft.ne_me_of_mem_others hs (heq.trans hme.symm)

/-- What the snapshot covers is committed. -/
theorem covered_com (h : PeerOk A i rf) :
    Com LogEntry.term A rf.currentTerm (covered rf.persister.snapshot) := by
  refine h.com.shorten (Int.le_refl _) (List.prefix_take_iff.mpr ⟨List.prefix_append _ _, ?_⟩)
  have hle := h.indices.snap_le
  have hidx := h.shape.index
  omega

/-! ### A log from the leader of the term -/

section

variable {sent full' : List (LogEntry C)}

/-- What is committed survives a synchronisation with the leader of the term. -/
theorem commit_kept (h : PeerOk A i rf) (hsound : Sound LogEntry.term A)
    (hw : A.Won rf.currentTerm) (hle : sent <+: A.leaderLog rf.currentTerm)
    (hs : Synced rf.fullLog sent full') :
    rf.fullLog.take rf.commitIndex.toNat <+: full' := by
  have hcom := h.com.leaderLog hsound hw (Int.le_refl _)
  rcases hs with ⟨-, rfl⟩ | ⟨hn, rfl⟩
  · exact List.take_prefix _ _
  · rcases List.prefix_or_prefix_of_prefix hcom hle with hp | hp
    · exact hp
    · exact absurd (hp.trans (List.take_prefix _ _)) hn

theorem take_commit (h : PeerOk A i rf)
    (hp : rf.fullLog.take rf.commitIndex.toNat <+: full') :
    full'.take rf.commitIndex.toNat = rf.fullLog.take rf.commitIndex.toNat ∧
      rf.commitIndex ≤ full'.length := by
  have hlen := hp.length_le
  have hle := h.indices.commit_le
  rw [List.length_take] at hlen
  refine ⟨?_, by omega⟩
  have heq := List.prefix_iff_eq_take.mp hp
  rw [List.length_take, Nat.min_eq_left (by omega)] at heq
  exact heq.symm

end

/-- `AppendEntries` changes the log behind the guard. -/
theorem syncLogs (h : PeerOk A i rf) (hsound : Sound LogEntry.term A)
    (hw : A.Won rf.currentTerm) (hne : ∀ l, ¬ A.elected rf.currentTerm i l)
    {sent logs' : List (LogEntry C)} (hle : sent <+: A.leaderLog rf.currentTerm)
    (hshape : Shape (covered rf.persister.snapshot) rf.snapshottedIndex logs')
    (hhead : logs'.head? = rf.logs.head?)
    (hs : Synced rf.fullLog sent (covered rf.persister.snapshot ++ logs'.tail)) :
    PeerOk A i { rf with logs := logs' } := by
  have hkept := h.commit_kept hsound hw hle hs
  obtain ⟨htake, hclen⟩ := h.take_commit hkept
  have hidx := h.indices
  have hsnap := h.shape.index
  refine ⟨hshape, ?_, ?_, ⟨fun _ => ⟨hne, Or.inr hw⟩, ?_⟩, ?_, h.peers, h.goroutines⟩
  · refine ⟨hidx.snap_le, hclen, hidx.applied_nonneg, hidx.snap_applied, ?_, hidx.delivered_le⟩
    intro heq
    obtain ⟨e, he, hget⟩ := hidx.guard_real heq
    refine ⟨e, hhead.trans he, ?_⟩
    -- the guard's index is committed
    have hk : rf.snapshottedIndex.toNat - 1 < rf.commitIndex.toNat := by
      have heq' : rf.snapshottedIndex = rf.lastApplied + 1 := heq
      have := hidx.snap_le
      have := hidx.applied_nonneg
      omega
    have hcongr := congrArg (fun l => l[rf.snapshottedIndex.toNat - 1]?) htake
    simp only [List.getElem?_take_of_lt hk] at hcongr
    exact hcongr.trans hget
  · show Com LogEntry.term A rf.currentTerm (List.take _ (covered _ ++ logs'.tail))
    rw [htake]
    exact h.com
  · intro hst
    obtain ⟨l, hl⟩ := (h.role.leader hst).1
    exact absurd hl (hne l)
  · intro hst
    obtain ⟨l, hl⟩ := (h.role.leader hst).1
    exact absurd hl (hne l)

theorem followCommit (h : PeerOk A i rf) {sent : List (LogEntry C)} {c : Int}
    {r : Raft C (List (LogEntry C)) B} (hr : rf.followCommit c = some r)
    (hsent : sent <+: rf.fullLog) (hc : c ≤ sent.length)
    (hcom : Com LogEntry.term A rf.currentTerm (sent.take c.toNat)) : PeerOk A i r := by
  rcases Raft.followCommit_cases hr with ⟨-, rfl⟩ | ⟨hlt, hr⟩
  · exact h
  · have hlen := hsent.length_le
    have hflen : (rf.fullLog.length : Int) = rf.lastLogIndex := by
      have := h.shape.length
      simp only [Raft.lastLogIndex, Raft.getAbsoluteLogIndex]
      show ((covered _ ++ rf.logs.tail).length : Int) = _
      omega
    rw [Int.min_eq_left (by omega)] at hr
    refine h.setCommitIndex hr (Int.le_of_lt hlt) (by omega) ?_
    have htake : rf.fullLog.take c.toNat = sent.take c.toNat := by
      obtain ⟨r', hr'⟩ := hsent
      rw [← hr', List.take_append_of_le_length (by omega)]
    rw [htake]
    exact hcom

/-- `InstallSnapshot` up to the save. -/
theorem acceptSnapshot (h : PeerOk A i rf) (hsound : Sound LogEntry.term A) (gob : Labgob C B)
    {args : InstallSnapshotArgs (List (LogEntry C))} {src : Fin n} (hargs : SnapshotOk A src args)
    (hterm : rf.currentTerm = args.term) (hne : ∀ l, ¬ A.elected rf.currentTerm i l)
    (hindex : rf.snapshottedIndex ≤ args.lastIncludedIndex)
    (hchain : Matching LogEntry.term rf.fullLog (covered args.data)) :
    PeerOk A i (rf.acceptSnapshot gob args) ∧
      Synced rf.fullLog (covered args.data) (rf.acceptSnapshot gob args).fullLog := by
  obtain ⟨l, hl⟩ := hargs.elected
  have hw : A.Won rf.currentTerm := ⟨src, l, hterm ▸ hl⟩
  have hle : covered args.data <+: A.leaderLog rf.currentTerm := hterm ▸ hargs.sent_le
  have hcom : Com LogEntry.term A rf.currentTerm (covered args.data) := hterm ▸ hargs.commit
  have hidx := h.indices
  have hsnap := h.shape.index
  have hdata := hargs.index
  -- two committed prefixes of one length are the same
  have hcov : ((covered args.data).length : Int) = rf.snapshottedIndex →
      covered args.data = covered rf.persister.snapshot := by
    intro heq
    have hlen : (covered args.data).length = (covered rf.persister.snapshot).length := by omega
    have hcovered := h.covered_com.leaderLog hsound hw (Int.le_refl _)
    exact (List.prefix_of_prefix_length_le hle hcovered (by omega)).eq_of_length hlen
  obtain ⟨hshape, hs⟩ := installed_synced h.shape hargs.index hargs.lastTerm (by omega) hcov hchain
    (rf.retainedLogs args) rfl
  refine ⟨?_, hs⟩
  have hkept := h.commit_kept hsound hw hle hs
  obtain ⟨htake, hclen⟩ := h.take_commit hkept
  have hsent := hs.holds
  refine ⟨?_, ?_, ?_, ⟨fun _ => ⟨hne, Or.inr hw⟩, ?_⟩, ?_, h.peers, ?_⟩
  · show Shape (covered args.data) args.lastIncludedIndex _
    rw [hdata]
    exact hshape
  · have hslen := hsent.length_le
    refine ⟨Int.le_max_right _ _, ?_, ?_, ?_, ?_, ?_⟩
    · show max rf.commitIndex args.lastIncludedIndex ≤
        ((covered args.data ++ (rf.retainedLogs args).tail).length : Int)
      omega
    · exact Int.le_trans hidx.applied_nonneg (Int.le_max_left _ _)
    · show args.lastIncludedIndex ≤ max rf.lastApplied args.lastIncludedIndex + 1
      omega
    · intro heq
      have heq' : args.lastIncludedIndex = max rf.lastApplied args.lastIncludedIndex + 1 := heq
      omega
    · intro d hd
      have := hidx.delivered_le d hd
      show d ≤ max rf.lastApplied args.lastIncludedIndex + 1 ∧
        d ≤ max rf.commitIndex args.lastIncludedIndex
      omega
  · show Com LogEntry.term A rf.currentTerm
      ((covered args.data ++ (rf.retainedLogs args).tail).take
        (max rf.commitIndex args.lastIncludedIndex).toNat)
    rcases Int.le_total args.lastIncludedIndex rf.commitIndex with hmax | hmax
    · rw [Int.max_eq_left hmax, htake]
      exact h.com
    · rw [Int.max_eq_right hmax, hdata, Int.toNat_natCast, List.take_left]
      exact hcom
  · intro hst
    obtain ⟨l', hl'⟩ := (h.role.leader hst).1
    exact absurd hl' (hne l')
  · intro hst
    obtain ⟨l', hl'⟩ := (h.role.leader hst).1
    exact absurd hl' (hne l')
  · intro g hg
    exact (h.goroutines g hg).mono (Extends.refl A) hindex (Int.le_max_left _ _)
      (Int.le_max_left _ _)

/-- `ReplaceLogWithSnapshot` at an index that the service has received. -/
theorem compact (h : PeerOk A i rf) (gob : Labgob C B) {index : Int} {logs : List (LogEntry C)}
    (hlt : rf.snapshottedIndex < index) (hd : index ∈ rf.delivered)
    (hlogs : CheckedSlice.drop rf.logs (rf.getRelativeLogIndex index) = some logs) :
    let rf' := Raft.saveStateAndSnapshot gob
      { rf with logs := logs, snapshottedIndex := index } (some (rf.snapshotAt index))
    PeerOk A i rf' ∧ rf'.fullLog = rf.fullLog := by
  intro rf'
  obtain ⟨-, -, rfl⟩ := CheckedSlice.drop_eq_some hlogs
  have hidx := h.indices
  obtain ⟨hda, hdc⟩ := hidx.delivered_le index hd
  obtain ⟨hshape, hfull, hguard⟩ :=
    compacted h.shape hlt (Int.le_trans hdc hidx.commit_le)
  have hfull' : rf'.fullLog = rf.fullLog := hfull
  refine ⟨⟨hshape, ?_, ?_, ?_, h.matched, h.peers, ?_⟩, hfull'⟩
  · rw [hfull']
    exact ⟨hdc, hidx.commit_le, hidx.applied_nonneg, hda, fun _ => hguard, hidx.delivered_le⟩
  · rw [hfull']; exact h.com
  · rw [hfull']; exact h.role
  · intro g hg
    exact (h.goroutines g hg).mono (Extends.refl A) (Int.le_of_lt hlt) (Int.le_refl _)
      (Int.le_refl _)

/-! ### Applying -/

/-- The service takes the next command from `applyCh`. -/
theorem deliver [DecidableEq C] (h : PeerOk A i rf) {index : Int} {e : LogEntry C}
    {entries : List (LogEntry C)} (hg : .apply index (e :: entries) ∈ rf.goroutines) :
    PeerOk A i { (rf.leave (.apply index (e :: entries))).spawn [.applied index entries] with
      delivered := index :: rf.delivered } := by
  obtain ⟨hhand, happ, hcommit⟩ := h.goroutines _ hg
  rw [List.length_cons] at hcommit
  have hidx := h.indices
  have hl : PeerOk A i ((rf.leave (.apply index (e :: entries))).spawn [.applied index entries]) := by
    refine (h.leave _).spawn ?_
    intro g hg
    rw [List.mem_singleton] at hg
    subst hg
    refine ⟨hhand.tail, happ, ?_⟩
    show index + 1 + (entries.length : Int) ≤ rf.commitIndex + 1
    omega
  refine ⟨hl.shape, ?_, hl.com, hl.role, hl.matched, hl.peers, hl.goroutines⟩
  refine ⟨hidx.snap_le, hidx.commit_le, hidx.applied_nonneg, hidx.snap_applied,
    hidx.guard_real, ?_⟩
  intro d hd
  rcases List.mem_cons.mp hd with rfl | hd
  · exact ⟨happ, by show d ≤ rf.commitIndex; omega⟩
  · exact hidx.delivered_le d hd

theorem recordApplied [DecidableEq C] (h : PeerOk A i rf) {index : Int}
    {entries : List (LogEntry C)} (hg : .applied index entries ∈ rf.goroutines) :
    PeerOk A i { (rf.leave (.applied index entries)).spawn [.apply (index + 1) entries] with
      lastApplied := max rf.lastApplied index } := by
  obtain ⟨hhand, happ, hcommit⟩ := h.goroutines _ hg
  have hidx := h.indices
  refine ⟨h.shape, ?_, h.com, h.role, h.matched, h.peers, ?_⟩
  · refine ⟨hidx.snap_le, hidx.commit_le, Int.le_trans hidx.applied_nonneg (Int.le_max_left _ _),
      ?_, ?_, ?_⟩
    · have := hidx.snap_applied
      show rf.snapshottedIndex ≤ max rf.lastApplied index + 1
      omega
    · intro heq
      have heq' : rf.snapshottedIndex = max rf.lastApplied index + 1 := heq
      have := hidx.snap_applied
      exact hidx.guard_real (by omega)
    · intro d hd
      have := hidx.delivered_le d hd
      show d ≤ max rf.lastApplied index + 1 ∧ d ≤ rf.commitIndex
      omega
  · intro g hg
    rcases List.mem_append.mp hg with hg | hg
    · exact (h.goroutines g (List.mem_of_mem_erase hg)).mono (Extends.refl A) (Int.le_refl _)
        (Int.le_refl _) (Int.le_max_left _ _)
    · rw [List.mem_singleton] at hg
      subst hg
      refine ⟨hhand, ?_, ?_⟩
      · show index + 1 ≤ max rf.lastApplied index + 1
        omega
      · show index + 1 + (entries.length : Int) ≤ rf.commitIndex + 1
        omega

/-- `Make` on the persister of a peer whose state it recovers. -/
theorem restart (h : PeerOk A i rf) {gob : Labgob C B} (hrec : rf.Recovers gob)
    (hpeers : rf.peers = n) : PeerOk A i (Raft.make gob rf.peers rf.me rf.persister) ∧
      (Raft.make gob rf.peers rf.me rf.persister : Raft C _ B).fullLog = rf.fullLog := by
  obtain ⟨hterm, -, hsnap, hlogs⟩ := hrec
  obtain ⟨hcommit, happlied⟩ := Raft.make_indices (C := C) gob rf.peers rf.me rf.persister
  have hfull : (Raft.make gob rf.peers rf.me rf.persister : Raft C _ B).fullLog = rf.fullLog := by
    unfold Raft.fullLog
    rw [Raft.make_persister, hlogs]
  have hstate : (Raft.make gob rf.peers rf.me rf.persister : Raft C _ B).state = .follower := by
    rw [Raft.make_frame]; rfl
  have hidx := h.indices
  have hpos := h.shape.index
  refine ⟨⟨?_, ?_, ?_, ?_, ?_, ?_, ?_⟩, hfull⟩
  · rw [Raft.make_persister, hsnap, hlogs]; exact h.shape
  · rw [hfull, hcommit, happlied, hsnap]
    refine ⟨Int.le_refl _, Int.le_trans hidx.snap_le hidx.commit_le, by omega, by omega,
      fun heq => by omega, ?_⟩
    rw [Raft.make_frame]
    simp [Raft.blank]
  · rw [hfull, hcommit, hsnap, hterm]
    refine h.com.shorten (Int.le_refl _) (List.take_prefix_take_left ?_)
    have := hidx.snap_le
    omega
  · rw [hstate]
    exact ⟨fun hst => NodeState.noConfusion hst, fun hst => NodeState.noConfusion hst⟩
  · rw [hstate]
    exact fun hst => NodeState.noConfusion hst
  · simp [Raft.make, hpeers]
  · rw [Raft.make_frame]
    simp [Raft.blank]

/-! ### What a leader sends -/

theorem appendArgs_ok (h : PeerOk A i rf) (hst : rf.state = .leader) {prevLogIndex : Int}
    {entries : List (LogEntry C)} {prev : LogEntry C} (hp : rf.snapshottedIndex ≤ prevLogIndex)
    (he : CheckedSlice.drop rf.logs (rf.getRelativeLogIndex (prevLogIndex + 1)) = some entries)
    (hprev : CheckedSlice.get rf.logs (rf.getRelativeLogIndex prevLogIndex) = some prev) :
    AppendOk A i (rf.appendArgs prevLogIndex prev entries) rf.fullLog := by
  obtain ⟨helected, hlog⟩ := h.role.leader hst
  obtain ⟨-, hle, hterm, -⟩ := h.shape.get hprev
  obtain ⟨-, -, rfl⟩ := CheckedSlice.drop_eq_some he
  have hsnap := h.shape.index
  refine ⟨helected, ?_, by show 0 ≤ prevLogIndex; omega, hle, ?_, hterm, h.indices.commit_le, h.com⟩
  · show rf.fullLog <+: A.leaderLog rf.currentTerm
    rw [hlog]
  · show rf.logs.drop _ = rf.fullLog.drop prevLogIndex.toNat
    simp only [Raft.getRelativeLogIndex]
    rw [h.shape.drop (by omega)]
    show rf.fullLog.drop _ = _
    congr 1
    omega

theorem snapshotArgs_ok (h : PeerOk A i rf) (hst : rf.state = .leader) {guard : LogEntry C}
    (hguard : rf.logs.head? = some guard) : SnapshotOk A i (rf.snapshotArgs guard) := by
  obtain ⟨helected, hlog⟩ := h.role.leader hst
  obtain ⟨g, rest, hlogs, hg⟩ := h.shape.guard
  have hsnap := h.shape.index
  refine ⟨helected, ?_, hsnap, ?_, h.covered_com⟩
  · show covered rf.persister.snapshot <+: A.leaderLog rf.currentTerm
    rw [hlog]
    exact List.prefix_append _ _
  · rw [hlogs, List.head?_cons, Option.some.injEq] at hguard
    subst hguard
    exact hg

end PeerOk

end DistributionSystem
