import DistributionSystem.Raft.Election
import DistributionSystem.Raft.Ledger

/-! The cluster refines the history of leaders' logs: each step of a peer is matched by
some steps of `LeaderLog` (`refines_step`), provided the step is careful. `Careful`
names the places where the code does less than the protocol asks of it:

* a reply to `AppendEntries` is used without a look at the term of its request;
* the commit loop takes an index whose entry may be of an earlier term;
* `Start` reads the term and appends the entry in two critical sections;
* `AppendEntries` with a `PrevLogIndex` that the snapshot covers drops the rest of the
  log, also where the sender agrees with it. -/

namespace DistributionSystem

open LeaderLog Quorum

variable {C D B : Type} {n : Nat}

namespace Raft

/-- The entries behind the snapshot in a request with a covered `PrevLogIndex`. -/
def uncovered (rf : Raft C D B) (args : AppendEntriesArgs C) : List (LogEntry C) :=
  args.logEntries.drop (rf.snapshottedIndex - args.prevLogIndex).toNat

def Careful (rf : Raft C D B) : Input C D → Prop
  | .appendReply server args reply => rf.state = .leader → reply.success = true →
    args.term = rf.currentTerm ∧ ∀ i ∈ (rf.recordSuccess server args).majorityIndex,
      (CheckedSlice.get rf.logs (rf.getRelativeLogIndex i)).map LogEntry.term = some rf.currentTerm
  | .resume (.start _ term) => rf.state = .leader ∧ rf.currentTerm = term
  | .appendEntries args => rf.currentTerm ≤ args.term → args.prevLogIndex ≤ rf.snapshottedIndex →
    rf.snapshottedIndex < args.prevLogIndex + args.logEntries.length →
      ¬ ((rf.uncovered args).map LogEntry.term <+: rf.logs.tail.map LogEntry.term ∧
        (rf.uncovered args).length < rf.logs.tail.length)
  | _ => True

instance (rf : Raft C D B) (input : Input C D) : Decidable (rf.Careful input) :=
  match input with
  | .appendReply .. => inferInstanceAs (Decidable (_ → _ → _ ∧ ∀ i ∈ majorityIndex _, _))
  | .resume (.start ..) => inferInstanceAs (Decidable (_ ∧ _))
  | .appendEntries _ => inferInstanceAs (Decidable (_ → _ → _ → ¬ (_ ∧ _)))
  | .resume (.heartbeat _) | .resume (.syncSnapshotWith _) | .resume (.awaitVote ..)
  | .resume (.awaitAppend ..) | .resume (.awaitSnapshot ..) | .resume (.apply ..)
  | .resume (.applied ..) | .resume (.install _) | .electionTimer | .heartbeatTimer
  | .requestVote _ | .installSnapshot _ | .voteReply .. | .snapshotReply .. | .start _
  | .replaceLogWithSnapshot .. | .restart => .isTrue trivial

end Raft

/-! ## Moves -/

/-- The abstract side of one step of the peer `d`. -/
structure Move (A A' : Ledger n C) (d : Fin n) (rf' : Raft C (List (LogEntry C)) B)
    (out : List (Output C (List (LogEntry C)))) : Prop where
  steps : Relation.ReflTransGen (LeaderLog.Step LogEntry.term) A A'
  now : A'.now = Function.update A.now d rf'.currentTerm
  log : A'.log = Function.update A.log d rf'.fullLog
  vote : ∀ v t c, A'.vote v t c ↔ A.vote v t c ∨ (v = d ∧ Ballot d out t (c : Nat))
  aside : ∀ j, j ≠ d → Aside A A' j
  peer : PeerOk A' d rf'
  sent : ∀ o ∈ out, OutputOk A' d o

structure Refines [DecidableEq C] (cl : Cluster n C B) (A : Ledger n C) : Prop where
  sound : Sound LogEntry.term A
  now : ∀ i, A.now i = (cl i).raft.currentTerm
  log : ∀ i, A.log i = (cl i).raft.fullLog
  vote : ∀ v t c, A.vote v t c ↔ cl.Votes v t c
  peer : ∀ i, PeerOk A i (cl i).raft
  sent : ∀ i, ∀ o ∈ (cl i).history, OutputOk A i o

variable [DecidableEq C]

section

variable {cl : Cluster n C B} {A A' : Ledger n C} {d : Fin n}
  {rf' : Raft C (List (LogEntry C)) B} {out : List (Output C (List (LogEntry C)))}

theorem Refines.move (h : Refines cl A) (hme : (cl d).raft.me = d) (hme' : rf'.me = d)
    (hm : Move A A' d rf' out) : Refines (cl.set d ⟨rf', (cl d).history ++ out⟩) A' := by
  have hx := extends_of_steps h.sound hm.steps
  refine ⟨h.sound.steps hm.steps, ?_, ?_, ?_, ?_, ?_⟩
  · intro i
    rw [hm.now]
    by_cases hi : i = d
    · subst hi
      rw [Function.update_self, Cluster.set_self]
    · rw [Function.update_of_ne hi, Cluster.set_of_ne hi]
      exact h.now i
  · intro i
    rw [hm.log]
    by_cases hi : i = d
    · subst hi
      rw [Function.update_self, Cluster.set_self]
    · rw [Function.update_of_ne hi, Cluster.set_of_ne hi]
      exact h.log i
  · intro v t c
    rw [hm.vote, h.vote]
    unfold Cluster.Votes Peer.Voted
    by_cases hv : v = d
    · subst hv
      rw [Cluster.set_self, ballot_append, hme, hme']
      simp
    · rw [Cluster.set_of_ne hv]
      simp [hv]
  · intro i
    by_cases hi : i = d
    · subst hi
      rw [Cluster.set_self]
      exact hm.peer
    · rw [Cluster.set_of_ne hi]
      exact (h.peer i).mono hx (hm.aside i hi)
  · intro i o ho
    by_cases hi : i = d
    · subst hi
      rw [Cluster.set_self] at ho
      rcases List.mem_append.mp ho with ho | ho
      · exact (h.sent i o ho).mono hx
      · exact hm.sent o ho
    · rw [Cluster.set_of_ne hi] at ho
      exact (h.sent i o ho).mono hx

/-- The steps that leave the log and show no ballot: at most the term is raised. -/
theorem Refines.raise (h : Refines cl A) (ht : (cl d).raft.currentTerm ≤ rf'.currentTerm)
    (hf : rf'.fullLog = (cl d).raft.fullLog) (hb : ∀ t c, ¬ Ballot d out t c)
    (hp : PeerOk A d rf') (ho : ∀ o ∈ out, OutputOk A d o) :
    ∃ A', Move A A' d rf' out := by
  have hstep : LeaderLog.Step LogEntry.term A (A.raise d rf'.currentTerm) :=
    .raise d _ (by rw [h.now]; exact ht)
  have hx := hstep.extends h.sound.logs
  have haside : ∀ j, Aside A (A.raise d rf'.currentTerm) j :=
    fun _ => ⟨fun _ _ he => he, fun _ _ _ => rfl⟩
  refine ⟨A.raise d rf'.currentTerm, .single hstep, rfl, ?_, ?_, fun j _ => haside j,
    hp.mono hx (haside d), fun o hm => (ho o hm).mono hx⟩
  · rw [hf, ← h.log, Function.update_eq_self]
    rfl
  · intro v t c
    constructor
    · exact Or.inl
    · rintro (hv | ⟨-, hv⟩)
      · exact hv
      · exact absurd hv (hb _ _)

/-- The steps that take over what the leader of the term has sent. -/
theorem Refines.sync (h : Refines cl A) (ht : (cl d).raft.currentTerm ≤ rf'.currentTerm)
    {sent : List (LogEntry C)} (hw : A.Won rf'.currentTerm)
    (hsent : sent <+: A.leaderLog rf'.currentTerm)
    (hs : Synced (cl d).raft.fullLog sent rf'.fullLog) (hb : ∀ t c, ¬ Ballot d out t c)
    (hp : PeerOk A d rf')
    (ho : ∀ A', Extends A A' → A'.ack d rf'.currentTerm sent.length → ∀ o ∈ out, OutputOk A' d o) :
    ∃ A', Move A A' d rf' out := by
  have hraise : LeaderLog.Step LogEntry.term A (A.raise d rf'.currentTerm) :=
    .raise d _ (by rw [h.now]; exact ht)
  have hnow : (A.raise d rf'.currentTerm).now d = rf'.currentTerm := Function.update_self ..
  -- first the log, if it changes at all
  obtain ⟨A₁, hsteps, hnow₁, hlog₁, hrest⟩ : ∃ A₁,
      Relation.ReflTransGen (LeaderLog.Step LogEntry.term) A A₁ ∧
        A₁.now = Function.update A.now d rf'.currentTerm ∧
        A₁.log = Function.update A.log d rf'.fullLog ∧ A₁.vote = A.vote ∧
        A₁.elected = A.elected ∧ A₁.leaderLog = A.leaderLog := by
    rcases hs with ⟨-, hfull⟩ | ⟨hn, hfull⟩
    · refine ⟨A.raise d rf'.currentTerm, .single hraise, rfl, ?_, rfl, rfl, rfl⟩
      rw [hfull, ← h.log, Function.update_eq_self]
      rfl
    · have hrepl : LeaderLog.Step LogEntry.term (A.raise d rf'.currentTerm)
          ((A.raise d rf'.currentTerm).replace d sent) :=
        .replace d sent (by rw [hnow]; exact hw) (by rw [hnow]; exact hsent)
          (by show ¬ sent <+: A.log d; rw [h.log]; exact hn)
      exact ⟨_, .tail (.single hraise) hrepl, rfl, by rw [hfull]; rfl, rfl, rfl, rfl⟩
  obtain ⟨hvote₁, helected₁, hleader₁⟩ := hrest
  have hnow₁' : A₁.now d = rf'.currentTerm := by rw [hnow₁, Function.update_self]
  have hack : LeaderLog.Step LogEntry.term A₁ (A₁.acknowledge d sent.length) := by
    refine .acknowledge d _ (by rw [hnow₁', hleader₁]; exact hsent.length_le) ?_
    rw [hnow₁', hleader₁, hlog₁, Function.update_self, ← List.prefix_iff_eq_take.mp hsent]
    exact hs.holds
  have hsteps' := hsteps.tail hack
  have hx := extends_of_steps h.sound hsteps'
  have haside : ∀ j, Aside A (A₁.acknowledge d sent.length) j :=
    fun _ => ⟨fun _ _ he => helected₁ ▸ he, fun t _ _ => congrFun hleader₁ t⟩
  refine ⟨_, hsteps', hnow₁, hlog₁, ?_, fun j _ => haside j, hp.mono hx (haside d),
    ho _ hx (Or.inr ⟨rfl, hnow₁'.symm, Nat.le_refl _⟩)⟩
  intro v t c
  show A₁.vote v t c ↔ _
  rw [hvote₁]
  constructor
  · exact Or.inl
  · rintro (hv | ⟨-, hv⟩)
    · exact hv
    · exact absurd hv (hb _ _)

end

/-! ## Elections -/

section

variable {cl : Cluster n C B} {A : Ledger n C} {d : Fin n}

theorem Refines.lastLog (h : Refines cl A) :
    (cl d).raft.lastLogIndex = ((cl d).raft.fullLog.length : Int) := by
  have hlen := (h.peer d).shape.length
  simp only [Raft.lastLogIndex, Raft.getAbsoluteLogIndex]
  show _ = ((covered _ ++ (cl d).raft.logs.tail).length : Int)
  omega

theorem Refines.stand (h : Refines cl A) (gob : Labgob C B) (hme : (cl d).raft.me = d)
    (hst : (cl d).raft.state ≠ .leader) {last : LogEntry C}
    (hlast : CheckedSlice.get (cl d).raft.logs ((cl d).raft.logs.length - 1) = some last) :
    ∃ A', Move A A' d
      (((cl d).raft.candidateState.stand ((cl d).raft.voteArgs last)).persist gob)
      (.stands ((cl d).raft.currentTerm + 1) ::
        (cl d).raft.others.map (.call · (.requestVote ((cl d).raft.voteArgs last)))) := by
  have hnot : (cl d).raft.candidateState.state ≠ .leader := by
    unfold Raft.candidateState
    split
    · exact fun hc => NodeState.noConfusion hc
    · exact hst
  have hstep : LeaderLog.Step LogEntry.term A (A.stand d ((cl d).raft.currentTerm + 1)) :=
    .stand d _ (by rw [h.now]; omega)
  have hx := hstep.extends h.sound.logs
  have hpeer := h.peer d
  have hstood : (A.stand d ((cl d).raft.currentTerm + 1)).stood d ((cl d).raft.currentTerm + 1)
      (cl d).raft.fullLog := Or.inr ⟨rfl, rfl, (h.log d).symm⟩
  refine ⟨A.stand d ((cl d).raft.currentTerm + 1), .single hstep, ?_, ?_, ?_,
    fun j _ => ⟨fun _ _ he => he, fun _ _ _ => rfl⟩, ?_, ?_⟩
  · rw [Raft.candidateState_frame]
    rfl
  · rw [Raft.candidateState_frame]
    exact ((congrArg _ (h.log d).symm).trans (Function.update_eq_self d A.log)).symm
  · intro v t c
    show A.vote v t c ∨ (v = d ∧ t = _ ∧ c = d) ↔ A.vote v t c ∨ (v = d ∧ _)
    refine or_congr Iff.rfl (and_congr Iff.rfl ?_)
    constructor
    · rintro ⟨rfl, rfl⟩
      exact Or.inl ⟨List.mem_cons_self .., rfl⟩
    · rintro (⟨hm, hc⟩ | ⟨args, reply, hm, -⟩)
      · simp only [List.mem_cons, Output.stands.injEq, List.mem_map, reduceCtorEq, and_false,
          exists_false, or_false] at hm
        exact ⟨hm, Fin.ext (by omega)⟩
      · simp at hm
  · rw [Raft.candidateState_frame]
    refine ⟨hpeer.shape, hpeer.indices, (hpeer.com.mono hx).shorten (by
      show (cl d).raft.currentTerm ≤ (cl d).raft.currentTerm + 1; omega) (List.prefix_refl _),
      ⟨fun _ => ⟨?_, Or.inl hstood⟩, fun hc => absurd hc hnot⟩, fun hc => absurd hc hnot,
      hpeer.peers, ?_⟩
    · intro l hl
      have hvote := h.sound.ballots.stood_vote _ _ _ (h.sound.logs.elected_stood _ _ _ hl)
      have hle := h.sound.ballots.vote_le _ _ _ hvote
      rw [h.now] at hle
      exact absurd hle (by show ¬ (cl d).raft.currentTerm + 1 ≤ (cl d).raft.currentTerm; omega)
    · intro g hg
      rcases List.mem_append.mp hg with hg | hg
      · exact (hpeer.goroutines g hg).mono hx (Int.le_refl _) (Int.le_refl _) (Int.le_refl _)
      · obtain ⟨_, -, rfl⟩ := List.mem_map.mp hg
        trivial
  · intro o ho
    rcases List.mem_cons.mp ho with rfl | ho
    · trivial
    · obtain ⟨server, -, rfl⟩ := List.mem_map.mp ho
      exact ⟨_, hstood, h.lastLog, hpeer.shape.last hlast⟩

theorem Refines.grant (h : Refines cl A) (gob : Labgob C B) {src : Fin n} {args : RequestVoteArgs}
    (hsent : OutputOk A src (.call d (.requestVote args))) (hid : args.candidateId = (src : Nat))
    (hterm : (cl d).raft.currentTerm ≤ args.term)
    (hvote : ∀ c, A.vote d args.term c → c = src) {last : LogEntry C}
    (hlast : CheckedSlice.get (cl d).raft.logs ((cl d).raft.logs.length - 1) = some last)
    (hlog : ¬ (cl d).raft.moreUpToDate last args) :
    ∃ A', Move A A' d
      ((((cl d).raft.adoptTerm args.term).voteFor args.candidateId).persist gob)
      [.reply (.requestVote args) (.requestVote ⟨args.term, true⟩)] := by
  obtain ⟨l, hstood, hindex, hlterm⟩ := hsent
  have hpeer := h.peer d
  have hraise : LeaderLog.Step LogEntry.term A (A.raise d args.term) :=
    .raise d _ (by rw [h.now]; exact hterm)
  have hnow : (A.raise d args.term).now d = args.term := Function.update_self ..
  have hup : UpToDate LogEntry.term l (A.log d) := by
    rw [h.log]
    have hlastt := hpeer.shape.last hlast
    unfold Raft.moreUpToDate at hlog
    rw [hlterm, hindex, h.lastLog, hlastt] at hlog
    intro hc
    refine hlog (hc.imp id fun hc => ⟨hc.1, ?_⟩)
    exact Int.ofNat_lt.mpr hc.2
  have hgrant : LeaderLog.Step LogEntry.term (A.raise d args.term)
      ((A.raise d args.term).grant d src) :=
    .grant d src l (by rw [hnow]; exact hstood) (by rw [hnow]; exact hvote) hup
  have hsteps := Relation.ReflTransGen.tail (.single hraise) hgrant
  have hx := extends_of_steps h.sound hsteps
  have ht : ((cl d).raft.adoptTerm args.term).currentTerm = args.term := by
    rw [Raft.adoptTerm_currentTerm]; omega
  refine ⟨_, hsteps, ?_, ?_, ?_, fun j _ => ⟨fun _ _ he => he, fun _ _ _ => rfl⟩, ?_, ?_⟩
  · show Function.update A.now d args.term =
      Function.update A.now d ((cl d).raft.adoptTerm args.term).currentTerm
    rw [ht]
  · have hfull : (((cl d).raft.adoptTerm args.term).voteFor args.candidateId).fullLog = A.log d := by
      rw [h.log, Raft.adoptTerm_frame]; rfl
    exact ((congrArg _ hfull).trans (Function.update_eq_self d A.log)).symm
  · intro v t c
    show A.vote v t c ∨ (v = d ∧ t = (A.raise d args.term).now d ∧ c = src) ↔ _
    rw [hnow]
    refine or_congr Iff.rfl (and_congr Iff.rfl ?_)
    constructor
    · rintro ⟨rfl, rfl⟩
      exact Or.inr ⟨args, _, List.mem_singleton_self _, rfl, rfl, hid⟩
    · rintro (⟨hm, -⟩ | ⟨args', reply, hm, -, rfl, hc⟩)
      · simp at hm
      · simp only [List.mem_singleton, Output.reply.injEq, Request.requestVote.injEq] at hm
        rw [hm.1] at hc ⊢
        exact ⟨rfl, Fin.ext (by omega)⟩
  · exact (((hpeer.adoptTerm args.term).voteFor args.candidateId).persist gob).mono hx
      ⟨fun _ _ he => he, fun _ _ _ => rfl⟩
  · intro o ho
    rw [List.mem_singleton] at ho
    subst ho
    trivial

/-- A candidate with the votes of a majority is the first to win its term. -/
theorem Refines.not_won (h : Refines cl A) (hst : (cl d).raft.state = .candidate)
    {S : Finset (Fin n)} (hS : Majority S)
    (hvote : ∀ v ∈ S, A.vote v (cl d).raft.currentTerm d) : ¬ A.Won (cl d).raft.currentTerm := by
  rintro ⟨j, l, hj⟩
  obtain ⟨Q, hQ, hvQ⟩ := h.sound.acks.elected_votes _ _ _ hj
  obtain ⟨v, hvS, hvQ'⟩ := hS.inter hQ
  obtain rfl := h.sound.ballots.vote_unique _ _ _ _ (hvote v hvS) (hvQ v hvQ').1
  exact ((h.peer d).role.candidate hst).1 l hj

theorem Refines.win (h : Refines cl A) (hme : (cl d).raft.me = d)
    (hst : (cl d).raft.state = .candidate) {S : Finset (Fin n)} (hS : Majority S)
    (hvote : ∀ v ∈ S, A.vote v (cl d).raft.currentTerm d)
    (g : Goroutine C (List (LogEntry C))) (election : Nat) (e : Election) :
    ∃ A', Move A A' d (((cl d).raft.leave g).countVote election e).convertToLeader
      [.leads (cl d).raft.currentTerm (cl d).raft.snapshottedIndex] := by
  have hpeer := h.peer d
  have hn := h.not_won hst hS hvote
  have hstood := ((hpeer.role.candidate hst).2).resolve_right hn
  have hstep : LeaderLog.Step LogEntry.term A (A.win d) :=
    .win d S hS (by rw [h.now]; exact hvote) (by rw [h.now, h.log]; exact hstood)
      (by rw [h.now]; exact hn)
  have hx := hstep.extends h.sound.logs
  refine ⟨A.win d, .single hstep, ?_, ?_, ?_, ?_, ?_, ?_⟩
  · exact ((congrArg _ (h.now d).symm).trans (Function.update_eq_self d A.now)).symm
  · exact ((congrArg _ (h.log d).symm).trans (Function.update_eq_self d A.log)).symm
  · intro v t c
    refine ⟨Or.inl, ?_⟩
    rintro (hv | ⟨-, hb⟩)
    · exact hv
    · exact absurd hb (Silent.no_ballot (by simp [Silent]) _ _ _)
  · intro j hj
    refine ⟨?_, ?_⟩
    · rintro t l (he | ⟨-, rfl, -⟩)
      · exact he
      · exact absurd rfl hj
    · intro t l he
      have hne : t ≠ A.now d := fun heq => hn ⟨j, l, by rw [← h.now, ← heq]; exact he⟩
      exact Function.update_of_ne hne _ _
  · have hl := hpeer.leave g
    refine ⟨hl.shape, hl.indices, hl.com.mono hx, ⟨fun hc => NodeState.noConfusion hc, ?_⟩, ?_, ?_, ?_⟩
    · intro _
      refine ⟨⟨A.log d, Or.inr ⟨(h.now d).symm, rfl, rfl⟩⟩, ?_⟩
      show Function.update A.leaderLog (A.now d) (A.log d) (cl d).raft.currentTerm =
        (cl d).raft.fullLog
      rw [← h.now, Function.update_self, h.log]
    · intro _ j m hm
      have hm' : ((cl d).raft.matchIndex.map fun _ => (cl d).raft.snapshottedIndex)[j.val]? =
        some m := hm
      rw [List.getElem?_map, Option.map_eq_some_iff] at hm'
      obtain ⟨_, -, rfl⟩ := hm'
      exact Or.inl hpeer.indices.snap_le
    · exact (List.length_map _).trans hpeer.peers
    · intro g' hg'
      rcases List.mem_append.mp hg' with hg' | hg'
      · exact (hl.goroutines g' hg').mono hx (Int.le_refl _) (Int.le_refl _) (Int.le_refl _)
      · obtain ⟨server, hs, rfl⟩ := List.mem_map.mp hg'
        exact fun heq => Raft.ne_me_of_mem_others hs (heq.trans hme.symm)
  · intro o ho
    rw [List.mem_singleton] at ho
    subst ho
    trivial

end

/-! ## Replication -/

section

variable {cl : Cluster n C B} {A : Ledger n C} {d : Fin n}

/-- `Start` appends an entry of the term that the peer leads. -/
theorem Refines.startAppend (h : Refines cl A) (gob : Labgob C B) (hme : (cl d).raft.me = d)
    (hst : (cl d).raft.state = .leader) (command : C) (g : Goroutine C (List (LogEntry C))) :
    ∃ A', Move A A' d (((cl d).raft.leave g).startAppend gob command (cl d).raft.currentTerm) [] := by
  have hpeer := h.peer d
  obtain ⟨⟨l, hl⟩, hlog⟩ := hpeer.role.leader hst
  have hnow := h.now d
  have hlogd := h.log d
  obtain ⟨e, he⟩ : ∃ e : LogEntry C, e = ⟨.client command, (cl d).raft.currentTerm⟩ := ⟨_, rfl⟩
  have hterm : e.term = (cl d).raft.currentTerm := by rw [he]
  have happend : LeaderLog.Step LogEntry.term A (A.append d e) :=
    .append d e l (by rw [hnow]; exact hl) (by rw [hnow, hlogd]; exact hlog)
      (by rw [hnow]; exact hterm)
  have hleader : (A.append d e).leaderLog (cl d).raft.currentTerm = (cl d).raft.fullLog ++ [e] := by
    show Function.update A.leaderLog (A.now d) (A.log d ++ [e]) (cl d).raft.currentTerm = _
    rw [← hnow, Function.update_self, hlogd]
  have hnow' : (A.append d e).now d = (cl d).raft.currentTerm := hnow
  have hack : LeaderLog.Step LogEntry.term (A.append d e)
      ((A.append d e).acknowledge d ((cl d).raft.fullLog.length + 1)) := by
    refine .acknowledge d _ ?_ ?_
    · rw [hnow', hleader, List.length_append, List.length_singleton]
    · rw [hnow', hleader, List.take_of_length_le (by simp)]
      show _ <+: Function.update A.log d (A.log d ++ [e]) d
      rw [Function.update_self, hlogd]
  have hsteps := Relation.ReflTransGen.tail (.single happend) hack
  have hx := extends_of_steps h.sound hsteps
  obtain ⟨A', hA'⟩ : ∃ A', A' = (A.append d e).acknowledge d ((cl d).raft.fullLog.length + 1) :=
    ⟨_, rfl⟩
  obtain ⟨hlonger, hfull⟩ := (hpeer.leave g).concat hst (hA' ▸ hx) (e := e)
    (by rw [hA']; exact hleader)
  have hindex : (cl d).raft.getAbsoluteLogIndex (cl d).raft.logs.length =
      (((cl d).raft.fullLog.length + 1 : Nat) : Int) := by
    have hlen := h.lastLog (d := d)
    simp only [Raft.lastLogIndex, Raft.getAbsoluteLogIndex] at hlen ⊢
    omega
  refine ⟨A', hA' ▸ hsteps, ?_, ?_, ?_, ?_, ?_, by simp⟩
  · rw [hA']
    exact ((congrArg _ hnow.symm).trans (Function.update_eq_self d A.now)).symm
  · rw [hA']
    have hfull' : (Raft.startAppend gob ((cl d).raft.leave g) command
        (cl d).raft.currentTerm).fullLog = (cl d).raft.fullLog ++ [e] := by
      rw [he] at hfull ⊢
      exact hfull
    rw [hfull']
    show Function.update A.log d (A.log d ++ [e]) = _
    rw [hlogd]
  · intro v t c
    rw [hA']
    refine ⟨Or.inl, ?_⟩
    rintro (hv | ⟨-, hb⟩)
    · exact hv
    · exact absurd hb (Silent.no_ballot silent_nil _ _ _)
  · intro j hj
    rw [hA']
    refine ⟨fun _ _ hel => hel, fun t l' hel => ?_⟩
    have hne : t ≠ A.now d := by
      intro heq
      rw [heq, hnow] at hel
      exact hj (h.sound.elected_unique hel hl).1
    exact Function.update_of_ne hne _ _
  · have hmatch : PeerOk A' d (Raft.setMatch { (cl d).raft.leave g with
        logs := (cl d).raft.logs ++ [e] } (cl d).raft.me
        ((cl d).raft.getAbsoluteLogIndex (cl d).raft.logs.length)) := by
      refine hlonger.setMatch fun _ j hj => Or.inr ⟨_, hindex, ?_⟩
      obtain rfl : j = d := Fin.ext (hj.trans hme)
      rw [hA']
      exact Or.inr ⟨rfl, hnow'.symm, Nat.le_refl _⟩
    rw [he] at hmatch
    exact (hmatch.persist gob).broadcastHeartbeat hme

/-- Nobody but the sender of a leader's message has won the term of the message. -/
theorem Refines.not_elected (h : Refines cl A) {src : Fin n} {t : Int} {l : List (LogEntry C)}
    (hel : A.elected t src l) (hne : d ≠ src) (l' : List (LogEntry C)) : ¬ A.elected t d l' :=
  fun hd => hne (h.sound.elected_unique hd hel).1

theorem Refines.append (h : Refines cl A) (gob : Labgob C B) {src : Fin n}
    {args : AppendEntriesArgs C} (hne : d ≠ src) {sent : List (LogEntry C)}
    (hargs : AppendOk A src args sent) (hterm : (cl d).raft.currentTerm ≤ args.term)
    (hcareful : (cl d).raft.Careful (.appendEntries args))
    {r : Raft C (List (LogEntry C)) B} {reply : AppendEntriesReply}
    (hstep : Raft.AppendStep ((cl d).raft.adoptTerm args.term) args r reply) :
    ∃ A', Move A A' d (r.persist gob) [.reply (.appendEntries args) (.appendEntries reply)] := by
  obtain ⟨rf, hrf⟩ : ∃ rf, rf = (cl d).raft.adoptTerm args.term := ⟨_, rfl⟩
  have ht : rf.currentTerm = args.term := by
    rw [hrf, Raft.adoptTerm_currentTerm]; omega
  have hsnap : rf.snapshottedIndex = (cl d).raft.snapshottedIndex := by
    rw [hrf, Raft.adoptTerm_snapshottedIndex]
  have hlogs : rf.logs = (cl d).raft.logs := by rw [hrf, Raft.adoptTerm_logs]
  have hfull : rf.fullLog = (cl d).raft.fullLog := by rw [hrf, Raft.adoptTerm_frame]; rfl
  have hpeer : PeerOk A d rf := hrf ▸ (h.peer d).adoptTerm args.term
  rw [← hrf] at hstep
  obtain ⟨l, hel⟩ := hargs.elected
  have hw : A.Won rf.currentTerm := ⟨src, l, ht ▸ hel⟩
  have hnot : ∀ l', ¬ A.elected rf.currentTerm d l' := ht ▸ h.not_elected hel hne
  have hsent : sent <+: A.leaderLog rf.currentTerm := ht ▸ hargs.sent_le
  have hlen : args.prevLogIndex + args.logEntries.length = sent.length := by
    have := hargs.prev_nonneg
    have := hargs.prev_le
    rw [hargs.entries, List.length_drop]
    omega
  have hcov := hpeer.covered_com.leaderLog h.sound hw (Int.le_refl _)
  have hmatch : Matching LogEntry.term rf.fullLog sent := by
    have hc := h.sound.logs.log_chain d
    rw [h.log, ← hfull] at hc
    exact hc.matching ((h.sound.logs.leaderLog_chain _).shorten hsent)
  -- a success tells the sender that its log has arrived
  have hsync : ∀ r' : Raft C (List (LogEntry C)) B, PeerOk A d r' → r'.currentTerm = args.term →
      Synced rf.fullLog sent r'.fullLog → ∃ A', Move A A' d (r'.persist gob)
        [.reply (.appendEntries args) (.appendEntries { success := true })] := by
    intro r' hr' ht' hs
    refine h.sync (ht'.symm ▸ hterm) (ht'.symm ▸ ⟨src, l, hel⟩) (ht'.symm ▸ hargs.sent_le)
      (hfull ▸ hs) (fun _ _ => Silent.no_ballot (by simp [Silent]) _ _ _) (hr'.persist gob) ?_
    intro A' _ hack o ho
    rw [List.mem_singleton] at ho
    subst ho
    exact fun _ => ⟨_, hlen, ht' ▸ hack⟩
  cases hstep with
  | covered hprev hle =>
    refine hsync r hpeer ht (Or.inl ⟨?_, rfl⟩)
    have hidx := hpeer.shape.index
    exact (List.prefix_of_prefix_length_le hsent hcov (by omega)).trans (List.prefix_append _ _)
  | @replaced g rest hprev hgt hcons =>
    have hkeep := hcareful hterm (by omega) (by omega)
    rw [← hlogs, hcons] at hkeep
    simp only [Raft.uncovered, ← hsnap, List.tail_cons] at hkeep
    have hfr : rf.fullLog = covered rf.persister.snapshot ++ rest := by
      unfold Raft.fullLog; rw [hcons]; rfl
    obtain ⟨hshape, hs⟩ := replaced_synced (hcons ▸ hpeer.shape) hprev hargs.prev_nonneg
      hargs.entries (by omega) hcov hsent hkeep
    rw [← hfr] at hs
    refine hsync _ (hpeer.syncLogs h.sound hw hnot hsent hshape ?_ hs) ht hs
    rw [hcons]; rfl
  | rejected hprev hs =>
    refine h.raise (by show _ ≤ r.currentTerm; omega) hfull
      (fun _ _ => Silent.no_ballot (by simp [Silent]) _ _ _) (hpeer.persist gob) ?_
    intro o ho
    rw [List.mem_singleton] at ho
    subst ho
    intro hc
    rw [hs] at hc
    exact absurd hc (by simp)
  | @merged prev logs' r hprev hlast hget hpt hmerge hcommit =>
    obtain ⟨hshape, hhead, hs⟩ := merged_synced hpeer.shape hprev hget (hpt.trans hargs.prevTerm)
      hargs.prev_le hargs.entries hmatch hmerge
    have hlogs' := hpeer.syncLogs h.sound hw hnot hsent hshape hhead hs
    have hr := hlogs'.followCommit hcommit hs.holds hargs.commit_le (ht.symm ▸ hargs.commit)
    have hframe := Raft.followCommit_frame hcommit
    refine hsync r hr ?_ ?_
    · rw [hframe]; exact ht
    · rw [hframe]; exact hs

theorem Refines.snapshot (h : Refines cl A) (gob : Labgob C B) {src : Fin n}
    {args : InstallSnapshotArgs (List (LogEntry C))} (hne : d ≠ src)
    (hargs : SnapshotOk A src args) (hterm : (cl d).raft.currentTerm ≤ args.term)
    (hindex : (cl d).raft.snapshottedIndex ≤ args.lastIncludedIndex)
    {gs : List (Goroutine C (List (LogEntry C)))} {t : Int}
    (hgs : gs = [] ∨ gs = [.install (Raft.installSnapshotMsg args.lastIncludedIndex args.data)]) :
    ∃ A', Move A A' d ((((cl d).raft.adoptTerm args.term).acceptSnapshot gob args).spawn gs)
      [.saved args.lastIncludedIndex args.data,
        .reply (.installSnapshot args) (.installSnapshot ⟨t⟩)] := by
  obtain ⟨rf, hrf⟩ : ∃ rf, rf = (cl d).raft.adoptTerm args.term := ⟨_, rfl⟩
  have ht : rf.currentTerm = args.term := by
    rw [hrf, Raft.adoptTerm_currentTerm]; omega
  have hsnap : rf.snapshottedIndex = (cl d).raft.snapshottedIndex := by
    rw [hrf, Raft.adoptTerm_snapshottedIndex]
  have hfull : rf.fullLog = (cl d).raft.fullLog := by rw [hrf, Raft.adoptTerm_frame]; rfl
  have hpeer : PeerOk A d rf := hrf ▸ (h.peer d).adoptTerm args.term
  rw [← hrf]
  obtain ⟨l, hel⟩ := hargs.elected
  have hmatch : Matching LogEntry.term rf.fullLog (covered args.data) := by
    have hc := h.sound.logs.log_chain d
    rw [h.log, ← hfull] at hc
    exact hc.matching ((h.sound.logs.leaderLog_chain _).shorten hargs.sent_le)
  obtain ⟨hp, hs⟩ := hpeer.acceptSnapshot h.sound gob hargs ht (ht ▸ h.not_elected hel hne)
    (by omega) hmatch
  have ht' : (rf.acceptSnapshot gob args).currentTerm = args.term := ht
  have hspawn : PeerOk A d ((rf.acceptSnapshot gob args).spawn gs) := by
    refine hp.spawn ?_
    intro g hg
    rcases hgs with rfl | rfl
    · simp at hg
    · rw [List.mem_singleton] at hg
      subst hg
      trivial
  refine h.sync (by show _ ≤ rf.currentTerm; omega) ⟨src, l, ht'.symm ▸ hel⟩
    (ht'.symm ▸ hargs.sent_le) (hfull ▸ hs)
    (fun _ _ => Silent.no_ballot (by simp [Silent]) _ _ _) hspawn ?_
  intro A' _ _ o ho
  simp only [List.mem_cons, List.not_mem_nil, or_false] at ho
  rcases ho with rfl | rfl <;> trivial

/-- A reply to a request of the present term is an acknowledgement. -/
theorem Refines.recordSuccess (h : Refines cl A) (g : Goroutine C (List (LogEntry C)))
    {src : Fin n} {args : AppendEntriesArgs C} {reply : AppendEntriesReply}
    (hreply : OutputOk A src (.reply (.appendEntries args) (.appendEntries reply)))
    (hs : reply.success = true) (hterm : args.term = (cl d).raft.currentTerm) :
    PeerOk A d (((cl d).raft.leave g).recordSuccess src args) := by
  obtain ⟨k, hk, hack⟩ := hreply hs
  refine ((h.peer d).leave g).setMatch fun _ j hj => ?_
  obtain rfl : j = src := Fin.ext hj
  exact Or.inr ⟨k, hk, hterm ▸ hack⟩

end

/-! ## All steps -/

/-- What the careful steps of a cluster keep to. -/
def Cluster.Safe (cl : Cluster n C B) (e : Event n C) : Prop :=
  (cl e.dst).raft.TimelyElection e.input ∧ (cl e.dst).raft.Careful e.input

instance (cl : Cluster n C B) (e : Event n C) : Decidable (cl.Safe e) :=
  inferInstanceAs (Decidable (_ ∧ _))

theorem refines_init (gob : Labgob C B) (n : Nat) :
    Refines (Cluster.init gob n : Cluster n C B) (LeaderLog.init (Fin n) (LogEntry C)) := by
  have hmake : ∀ i : Fin n, ((Cluster.init gob n : Cluster n C B) i).raft =
      { (Raft.blank n i makePersister : Raft C (List (LogEntry C)) B) with
        nextIndex := List.replicate n 1, matchIndex := List.replicate n 0 } := fun _ => rfl
  refine ⟨sound_init _, fun i => by rw [hmake]; rfl, fun i => by rw [hmake]; rfl, ?_, ?_, ?_⟩
  · intro v t c
    refine ⟨False.elim, fun hv => ?_⟩
    rcases hv with ⟨hm, -⟩ | ⟨_, _, hm, -⟩
    · exact absurd hm (by simp [Cluster.init, Peer.init])
    · exact absurd hm (by simp [Cluster.init, Peer.init])
  · intro i
    rw [hmake]
    refine ⟨⟨rfl, _, [], rfl, rfl⟩, ?_, Or.inl rfl,
      ⟨fun hc => NodeState.noConfusion hc, fun hc => NodeState.noConfusion hc⟩,
      fun hc => NodeState.noConfusion hc, List.length_replicate .., by simp [Raft.blank]⟩
    exact ⟨Int.le_refl _, Int.le_refl _, Int.le_refl _, by simp [Raft.blank], by simp [Raft.blank],
      by simp [Raft.blank]⟩
  · intro i o ho
    exact absurd ho (by simp [Cluster.init, Peer.init])

section

variable {cl : Cluster n C B} {A : Ledger n C} {d : Fin n} {rf' : Raft C (List (LogEntry C)) B}

/-- The steps that show nothing and change neither the term nor the log. -/
theorem Refines.quiet (h : Refines cl A) (ht : rf'.currentTerm = (cl d).raft.currentTerm)
    (hf : rf'.fullLog = (cl d).raft.fullLog) (hp : PeerOk A d rf') : ∃ A', Move A A' d rf' [] :=
  h.raise (Int.le_of_eq ht.symm) hf (fun _ _ => Silent.no_ballot silent_nil _ _ _) hp (by simp)

/-- The steps that show one thing, no vote, and change neither the term nor the log. -/
theorem Refines.say {o : Output C (List (LogEntry C))} (h : Refines cl A)
    (ht : rf'.currentTerm = (cl d).raft.currentTerm) (hf : rf'.fullLog = (cl d).raft.fullLog)
    (hp : PeerOk A d rf') (hs : Silent [o]) (ho : OutputOk A d o) :
    ∃ A', Move A A' d rf' [o] := by
  refine h.raise (Int.le_of_eq ht.symm) hf (fun _ _ => Silent.no_ballot hs _ _ _) hp ?_
  intro o' hm
  rw [List.mem_singleton] at hm
  exact hm ▸ ho

theorem Refines.stepDown (h : Refines cl A) (gob : Labgob C B)
    (g : Goroutine C (List (LogEntry C))) {t : Int} (ht : (cl d).raft.currentTerm < t) :
    ∃ A', Move A A' d (((cl d).raft.leave g).stepDown gob t) [] := by
  have hp := ((h.peer d).leave g).stepDown gob ht
  rw [Raft.stepDown_frame] at hp ⊢
  exact h.raise (Int.le_of_lt ht) rfl (fun _ _ => Silent.no_ballot silent_nil _ _ _) hp (by simp)

end

section

variable {gob : Labgob C B} {cl : Cluster n C B} {A : Ledger n C} {d : Fin n}
  {rf' : Raft C (List (LogEntry C)) B} {out : List (Output C (List (LogEntry C)))}

/-- A vote that a peer grants in a step is the only one it has given in that term. -/
theorem Refines.vote_unique (h : Refines cl A) (hme : (cl d).raft.me = d) (hme' : rf'.me = d)
    (hi' : (cl.set d ⟨rf', (cl d).history ++ out⟩).ElectionInv gob) {t : Int} {c src : Fin n}
    (hold : A.vote d t c) (hnew : Ballot d out t (src : Nat)) : c = src := by
  have hold' : (cl.set d ⟨rf', (cl d).history ++ out⟩ d).Voted t (c : Nat) := by
    have hv := (h.vote d t c).mp hold
    unfold Cluster.Votes Peer.Voted at hv
    unfold Peer.Voted
    rw [Cluster.set_self, ballot_append, hme']
    rw [hme] at hv
    exact Or.inl hv
  have hnew' : (cl.set d ⟨rf', (cl d).history ++ out⟩ d).Voted t (src : Nat) := by
    unfold Peer.Voted
    rw [Cluster.set_self, ballot_append, hme']
    exact Or.inr hnew
  have heq := (hi'.votes d).unique _ _ _ hold' hnew'
  exact Fin.ext (by omega)

/-- The votes that a new leader counts were given before. -/
theorem Refines.vote_of_silent (h : Refines cl A) (hs : Silent out) {v c : Fin n} {t : Int}
    (hv : (cl.set d ⟨rf', (cl d).history ++ out⟩).Votes v t c) (hme : (cl d).raft.me = d)
    (hme' : rf'.me = d) : A.vote v t c := by
  refine (h.vote _ _ _).mpr ?_
  unfold Cluster.Votes Peer.Voted at hv ⊢
  by_cases hvd : v = d
  · subst hvd
    rw [Cluster.set_self, ballot_append, hme'] at hv
    rw [hme]
    exact hv.resolve_right (Silent.no_ballot hs _ _ _)
  · rw [Cluster.set_of_ne hvd] at hv
    exact hv

end

/-- Each careful step of a peer is a move of the history. -/
theorem refines_move {gob : Labgob C B} {cl : Cluster n C B} {A : Ledger n C} {src d : Fin n}
    {input : Input C (List (LogEntry C))} {rf' : Raft C (List (LogEntry C)) B}
    {out : List (Output C (List (LogEntry C)))} (h : Refines cl A) (hi : cl.ElectionInv gob)
    (hi' : (cl.set d ⟨rf', (cl d).history ++ out⟩).ElectionInv gob)
    (ht : (cl d).raft.TimelyElection input) (hc : (cl d).raft.Careful input)
    (ha : cl.Allowed src d input) (hs : Raft.Step gob (cl d).raft input rf' out) :
    ∃ A', Move A A' d rf' out := by
  have hpeer := h.peer d
  obtain ⟨hme, hpeers⟩ := hi.config d
  have hme' : rf'.me = d := by
    have := (hi'.config d).1
    rwa [Cluster.set_self] at this
  have hout : ∀ (o : Output C (List (LogEntry C))) (_ : OutputOk A d o),
      ∀ o' ∈ [o], OutputOk A d o' := by
    intro o ho o' hm
    rw [List.mem_singleton] at hm
    exact hm ▸ ho
  cases hs with
  | electionTimer hlast => exact h.stand gob hme ht hlast
  | heartbeatTimer hgs =>
    refine h.quiet rfl rfl (hpeer.spawn fun g hg => ?_)
    obtain ⟨server, hmem, rfl⟩ := hgs g hg
    exact fun heq => Raft.ne_me_of_mem_others hmem (heq.trans hme.symm)
  | refuseTerm =>
    exact h.raise (Int.le_refl _) rfl (fun _ _ => no_ballot_refused _ _ _ _ _)
      (hpeer.persist gob) (hout _ trivial)
  | @refuseLog args hterm =>
    refine h.raise ?_ ?_ (fun _ _ => no_ballot_refused _ _ _ _ _)
      ((hpeer.adoptTerm args.term).persist gob) (hout _ trivial)
    · show _ ≤ ((cl d).raft.adoptTerm args.term).currentTerm
      rw [Raft.adoptTerm_currentTerm]; omega
    · rw [Raft.adoptTerm_frame]; rfl
  | @grant args last hterm hvote hlast hlog =>
    have hid := (hi.tally src).calls d args ha
    refine h.grant gob (h.sent src _ ha) hid hterm (fun c hc' => ?_) hlast hlog
    exact h.vote_unique hme hme' hi' hc'
      (Or.inr ⟨args, _, List.mem_singleton_self _, rfl, rfl, hid⟩)
  | appendOld =>
    refine h.say rfl rfl (hpeer.persist gob) (by simp [Silent]) ?_
    exact fun hs => absurd hs (by simp)
  | append hterm happ =>
    obtain ⟨hne, sent, hargs⟩ := h.sent src _ ha
    exact h.append gob (fun heq => hne (congrArg Fin.val heq)) hargs hterm hc happ
  | snapshotOld =>
    exact h.say rfl rfl hpeer (by simp [Silent]) trivial
  | snapshot hterm hindex hgs =>
    obtain ⟨hne, hargs⟩ := h.sent src _ ha
    exact h.snapshot gob (fun heq => hne (congrArg Fin.val heq)) hargs hterm hindex
      (hgs.imp_left And.left)
  | voteCounted => exact h.quiet rfl rfl ((hpeer.leave _).countVote _ _)
  | elected hg hgr hst =>
    obtain ⟨S, hS, hv⟩ := (hi'.tally d).leads (by rw [Cluster.set_self]; rfl)
    refine h.win hme hst hS (fun v hvS => ?_) _ _ _
    have hvote := hv v hvS
    rw [Cluster.set_self] at hvote
    exact h.vote_of_silent (by simp [Silent]) hvote hme hme'
  | voteStepDown _ hterm | appendStepDown _ hterm | snapshotStepDown _ hterm =>
    exact h.stepDown gob _ hterm
  | voteIgnored | appendIgnored | idle => exact h.quiet rfl rfl (hpeer.leave _)
  | appendSuccess _ hst hsucc =>
    obtain ⟨rfl, hans⟩ := ha
    exact h.quiet rfl rfl (h.recordSuccess _ (h.sent src _ hans) hsucc (hc hst hsucc).1)
  | @appendCommit server args reply i r hg hst hsucc hmaj hr =>
    obtain ⟨rfl, hans⟩ := ha
    obtain ⟨hterm, hown⟩ := hc hst hsucc
    have hp := h.recordSuccess (d := d) (.awaitAppend src args) (h.sent src _ hans) hsucc hterm
    have hframe := Raft.setCommitIndex_frame hr
    refine h.quiet (by rw [hframe]; rfl) (by rw [hframe]; rfl) ?_
    exact hp.commit h.sound hpeers hst hmaj (hown _ hmaj) hr
  | appendConflict => exact h.quiet rfl rfl ((hpeer.leave _).setNext _ _)
  | @snapshotRecorded server args reply hg =>
    exact h.quiet rfl rfl (hpeer.recordSnapshot _ (hpeer.goroutines _ hg) server)
  | startLeader => exact h.quiet rfl rfl (hpeer.spawn (by simp [GoroutineOk]))
  | startOther | replaceIgnored => exact h.quiet rfl rfl hpeer
  | heartbeatSync hg =>
    refine h.quiet rfl rfl ((hpeer.leave _).spawn ?_)
    have hne := hpeer.goroutines _ hg
    intro g hg'
    rw [List.mem_singleton] at hg'
    subst hg'
    exact hne
  | heartbeat hg hst hp he hprev =>
    refine h.say rfl rfl ((hpeer.leave _).spawn (by simp [GoroutineOk])) (by simp [Silent]) ?_
    exact ⟨hpeer.goroutines _ hg, _, hpeer.appendArgs_ok hst hp he hprev⟩
  | sync hg hst hguard =>
    refine h.say rfl rfl ((hpeer.leave _).spawn ?_) (by simp [Silent])
      ⟨hpeer.goroutines _ hg, hpeer.snapshotArgs_ok hst hguard⟩
    intro g hg'
    rw [List.mem_singleton] at hg'
    subst hg'
    exact Int.le_refl _
  | startAppend =>
    obtain ⟨hst, rfl⟩ := hc
    exact h.startAppend gob hme hst _ _
  | @apply index e entries hg =>
    refine h.say rfl rfl (hpeer.deliver hg) (by simp [Silent]) ?_
    exact fun _ => ⟨e, (hpeer.goroutines _ hg).1.head, rfl⟩
  | applied hg => exact h.quiet rfl rfl (hpeer.recordApplied hg)
  | install hg =>
    refine h.say rfl rfl (hpeer.leave _) (by simp [Silent]) ?_
    intro hv
    rw [show _ = false from hpeer.goroutines _ hg] at hv
    exact absurd hv (by simp)
  | replaced hindex hlogs =>
    obtain ⟨hd, rfl⟩ := ha
    obtain ⟨hp, hfull⟩ := hpeer.compact gob hindex hd hlogs
    refine h.say rfl hfull (hp.spawn ?_) (by simp [Silent]) trivial
    intro g hg
    obtain ⟨server, hmem, rfl⟩ := List.mem_map.mp hg
    exact fun heq => Raft.ne_me_of_mem_others hmem (heq.trans hme.symm)
  | restart =>
    have hrec := (hi.durable d).recovers
    obtain ⟨hp, hfull⟩ := hpeer.restart hrec hpeers
    exact h.quiet hrec.1 hfull hp

theorem refines_step {gob : Labgob C B} {cl cl' : Cluster n C B} {A : Ledger n C} {e : Event n C}
    (h : Refines cl A) (hi : cl.ElectionInv gob) (hi' : cl'.ElectionInv gob) (hsafe : cl.Safe e)
    (hs : cl.step gob e = some cl') :
    ∃ A', Relation.ReflTransGen (LeaderLog.Step LogEntry.term) A A' ∧ Refines cl' A' := by
  obtain ⟨ha, p, hp, rfl⟩ := Cluster.step_cases hs
  obtain ⟨⟨rf', out⟩, hr, rfl⟩ := Option.map_eq_some_iff.mp hp
  obtain ⟨A', hm⟩ := refines_move h hi hi' hsafe.1 hsafe.2 ha (Raft.step_cases hr)
  have hme := (hi.config e.dst).1
  refine ⟨A', hm.steps, h.move hme ?_ hm⟩
  have := (hi'.config e.dst).1
  rwa [Cluster.set_self] at this

end DistributionSystem
