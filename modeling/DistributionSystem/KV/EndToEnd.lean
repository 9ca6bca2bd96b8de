import DistributionSystem.KV.Agreed

/-! The service from end to end: the invariant of clerks, servers and Raft peers together,
its steps, and that the calls of the clerks are linearizable in every run of `Steady`
steps, with leaders that change, logs that are compacted, snapshots that are installed and
replicas that crash. -/

namespace DistributionSystem.Service

open LeaderLog
open scoped Cluster

variable {n : Nat} {W B : Type}

def peers (s : Service n W B) (i : Fin n) : Peer Op (List B) W := (s.replicas i).peer

/-- The invariant, over what the run has shown so far: a cluster with its history of
leaders that the peers mirror, the log that is agreed on, and the stamps of the calls. -/
structure Ok (rgob : Labgob Op W) (gob : KVGob B) (s : Service n W B) (cl : Cluster n Op W)
    (A : Ledger n Op) (log : List Op) (history : List Stamped) : Prop where
  peers : PeersOk rgob gob s.peers cl A history
  agreed : Agreed A log
  calls : s.calls = history.map Prod.snd
  ordered : Ordered log history
  clerks : ∀ c, ClerkOk s.rpcs history c (s.clerks c)
  rpcs : ∀ r ∈ s.rpcs, Issued history r.op
  replies : ∀ rpc reply, (rpc, reply) ∈ s.replies →
    ∃ op, Carries s.rpcs rpc op ∧ ReplyOk log op reply
  hosted : ∀ i, (s.replicas i).Hosted gob s.rpcs log

/-! ## Small facts about the updates -/

section

variable {s : Service n W B} {i : Fin n} {rep : Replica W B}

theorem peers_setReplica :
    (s.setReplica i rep).peers = Function.update s.peers i rep.peer := by
  funext j
  unfold peers setReplica
  by_cases hj : j = i
  · subst hj
    simp
  · simp [Function.update_of_ne hj]

theorem peers_setReplica_of_eq (h : rep.peer = (s.replicas i).peer) :
    (s.setReplica i rep).peers = s.peers := by
  rw [peers_setReplica, h]
  exact Function.update_eq_self i s.peers

theorem hosted_setReplica {gob : KVGob B} {rpcs : List RPC} {log : List Op}
    (h : ∀ j, (s.replicas j).Hosted gob rpcs log) (hi : rep.Hosted gob rpcs log) :
    ∀ j, ((s.setReplica i rep).replicas j).Hosted gob rpcs log :=
  (Function.forall_update_iff s.replicas fun _ r => r.Hosted gob rpcs log).mpr
    ⟨hi, fun j _ => h j⟩

end

variable {rgob : Labgob Op W} {gob : KVGob B} {s s' : Service n W B} {cl : Cluster n Op W}
  {A : Ledger n Op} {log : List Op} {history : List Stamped}

def Consistent (rgob : Labgob Op W) (gob : KVGob B) (s : Service n W B) : Prop :=
  ∃ cl A log history, s.Ok rgob gob cl A log history

theorem ok_init (rgob : Labgob Op W) (gob : KVGob B) (n : Nat) (handles : Int → Nat → Nat) :
    (init rgob gob n handles).Ok rgob gob (Cluster.init rgob n)
      (LeaderLog.init (Fin n) (LogEntry Op)) [] [] := by
  have hsys := System.ok_init gob n
  exact ⟨PeersOk.init rgob gob n, agreed_nil _, rfl, hsys.ordered, hsys.clerks, hsys.rpcs,
    hsys.replies, fun i => Replica.Hosted.init rgob gob n i⟩

namespace Ok

/-! ## Clerks -/

theorem setClerk (h : s.Ok rgob gob cl A log history) {client : Int} {ck : Clerk}
    (hck : ClerkOk s.rpcs history client ck) :
    (s.setClerk client ck).Ok rgob gob cl A log history :=
  { h with
    clerks := (Function.forall_update_iff _ fun c ck => ClerkOk s.rpcs history c ck).mpr
      ⟨hck, fun c _ => h.clerks c⟩ }

/-- The history grows by one call or return of a clerk. -/
theorem note (h : s.Ok rgob gob cl A log history) {client : Int} {ck : Clerk}
    {e : Linearizability.Event (Int × Int) KVCall (Option String)}
    (ho : Ordered log (history ++ [(log.length, e)]))
    (hck : ClerkOk s.rpcs (history ++ [(log.length, e)]) client ck)
    (hother : ∀ c, c ≠ client → ClerkOk s.rpcs (history ++ [(log.length, e)]) c (s.clerks c)) :
    ((s.setClerk client ck).note e).Ok rgob gob cl A log (history ++ [(log.length, e)]) := by
  refine ⟨h.peers.mono _, h.agreed, ?_, ho, ?_, fun r hr => (h.rpcs r hr).mono, h.replies, h.hosted⟩
  · show s.calls ++ [e] = _
    rw [h.calls, List.map_append]
    rfl
  · exact (Function.forall_update_iff _ fun c ck =>
      ClerkOk s.rpcs (history ++ [(log.length, e)]) c ck).mpr ⟨hck, hother⟩

theorem invoke (h : s.Ok rgob gob cl A log history) {client : Int} (call : KVCall)
    (hidle : (s.clerks client).current = none) :
    ((s.setClerk client { s.clerks client with current := some (call, none) }).note
      (.invoke (client, (s.clerks client).requestId) call)).Ok rgob gob cl A log
        (history ++ [(log.length, .invoke (client, (s.clerks client).requestId) call)]) := by
  have hck := h.clerks client
  have hnn := hck.nonneg
  have hreq : (s.clerks client).requestId = (s.clerks client).lastRequestId + 1 := rfl
  have hfresh : ∀ f call', (f, .invoke (client, (s.clerks client).requestId) call') ∉ history := by
    intro f call' hm
    rcases hck.invoked f _ call' hm with hle | hne
    · omega
    · exact hne hidle
  have ho := h.ordered.invoke call (show 0 < (s.clerks client).requestId by omega) hfresh
    fun r hr hlt => hck.returned r hr (by omega)
  exact h.note ho (hck.invoke _ _) fun c hne => (h.clerks c).other (by simp [hne]) (by simp)

theorem send (h : s.Ok rgob gob cl A log history) {client : Int} {call : KVCall}
    (hc : (s.clerks client).current = some (call, none)) (server : Nat) (requests : List Nat) :
    ({ s.setClerk client { s.clerks client with current := some (call, some s.rpcs.length) } with
      rpcs := s.rpcs ++ [⟨server, call.op client (s.clerks client).requestId⟩]
      requests := requests } : Service n W B).Ok rgob gob cl A log history := by
  have hck := h.clerks client
  obtain ⟨f, hf⟩ := hck.current call none hc
  refine ⟨h.peers, h.agreed, h.calls, h.ordered, ?_, fun r hr => ?_, fun rpc reply hm => ?_,
    fun i => (h.hosted i).append _⟩
  · exact (Function.forall_update_iff _ fun c ck => ClerkOk (s.rpcs ++
      [⟨server, call.op client (s.clerks client).requestId⟩])
        history c ck).mpr ⟨hck.send hc _, fun c _ => (h.clerks c).append _⟩
  · rcases List.mem_append.mp hr with hr | hr
    · exact h.rpcs r hr
    · obtain rfl := List.mem_singleton.mp hr
      refine ⟨f, ?_⟩
      rw [KVCall.id_op, KVCall.call_op]
      exact hf
  · obtain ⟨op, hcar, hok⟩ := h.replies rpc reply hm
    exact ⟨op, hcar.append _, hok⟩

/-- A reply that names no wrong leader answers the call. -/
theorem answerAt (h : s.Ok rgob gob cl A log history) {client : Int} {call : KVCall} {rpc : Nat}
    {reply : KVReply} (hc : (s.clerks client).current = some (call, some rpc))
    (hm : (rpc, reply) ∈ s.replies) (hw : reply.wrongLeader = false) :
    ∃ k ≤ log.length, AnswerAt log history (client, (s.clerks client).requestId)
      (call.result reply) call k := by
  obtain ⟨op, hcar, hok⟩ := h.replies rpc reply hm
  obtain ⟨k, hk, hocc, hval⟩ := hok hw
  obtain rfl := hcar.unique ((h.clerks client).waits call rpc hc)
  rw [KVCall.id_op] at hocc
  refine ⟨k, hk, (h.clerks client).current call _ hc, hocc, ?_⟩
  cases call with
  | get key => exact congrArg some (hval rfl)
  | put | append => rfl

theorem respond (h : s.Ok rgob gob cl A log history) {client : Int} {call : KVCall} {rpc : Nat}
    {reply : KVReply} (hc : (s.clerks client).current = some (call, some rpc))
    (hm : (rpc, reply) ∈ s.replies) (hw : reply.wrongLeader = false) :
    ((s.setClerk client (s.clerks client).done).note
      (.respond (client, (s.clerks client).requestId) (call.result reply))).Ok rgob gob cl A log
        (history ++ [(log.length, .respond (client, (s.clerks client).requestId)
          (call.result reply))]) := by
  have hck := h.clerks client
  obtain ⟨k, hk, hans⟩ := h.answerAt hc hm hw
  have hfresh : ∀ f res, (f, .respond (client, (s.clerks client).requestId) res) ∉ history := by
    intro f res hm
    have := hck.responded f _ res hm
    unfold Clerk.requestId at this
    omega
  exact h.note (h.ordered.respond hfresh hk hans) (hck.done _ _)
    fun c hne => (h.clerks c).other (by simp) (by simp [hne])

/-! ## Servers -/

/-- A server steps, on its own or by a request. -/
theorem kvStep (hg : gob.RoundTrip) (h : s.Ok rgob gob cl A log history) {i : Fin n}
    {input : KVInput B} (hin : ∀ msg, input ≠ .receive msg)
    (hreq : ∀ rpc op, input = .request rpc op → Carries s.rpcs rpc op)
    (hs : s.kvStep gob i input = some s') : s'.Ok rgob gob cl A log history := by
  obtain ⟨⟨kv, out⟩, hkv, rfl⟩ := Option.map_eq_some_iff.mp hs
  have hst := KVServer.step_cases hkv
  have hi := h.hosted i
  have hle := hi.le
  have hpeers : (s.setReplica i { s.replicas i with
      kv := kv, fed := (s.replicas i).fedAfter input }).peers = s.peers := peers_setReplica_of_eq rfl
  refine ⟨?_, h.agreed, h.calls, h.ordered, h.clerks, h.rpcs, fun rpc reply hm => ?_,
    hosted_setReplica h.hosted (hi.kvStep hg hin hreq hst)⟩
  · have hp := h.peers
    rw [← hpeers] at hp
    exact hp
  · rcases List.mem_append.mp hm with hm | hm
    · exact h.replies rpc reply hm
    · obtain ⟨o, ho, heq⟩ := List.mem_filterMap.mp hm
      cases o with
      | start => exact absurd heq (by simp)
      | reply rpc' reply' =>
        cases heq
        exact hi.answers.output (by omega) hi.store h.ordered h.rpcs hst ho

theorem issued_of_handler (h : s.Ok rgob gob cl A log history) {i : Fin n} {rpc : Nat} {op : Op}
    (hh : .start rpc op ∈ (s.replicas i).kv.handlers) : Issued history op :=
  Carries.issued h.rpcs ((h.hosted i).answers.handlers _ hh)

/-! ## Raft peers -/

/-- The op comes up in the log. -/
theorem grow (h : s.Ok rgob gob cl A log history) {op : Op} (hi : Issued history op)
    (ha : Agreed A (log ++ [op])) : s.Ok rgob gob cl A (log ++ [op]) history := by
  refine ⟨h.peers, ha, h.calls, h.ordered.deliver hi, h.clerks, h.rpcs, fun rpc reply hm => ?_,
    fun j => (h.hosted j).grow op⟩
  obtain ⟨op', hcar, hok⟩ := h.replies rpc reply hm
  exact ⟨op', hcar, hok.append op⟩

theorem receive (h : s.Ok rgob gob cl A log history) {i : Fin n} {msg : ApplyMsg Op (List B)}
    (hm : (s.replicas i).InHand gob log msg) :
    (s.setReplica i { s.replicas i with kv := { (s.replicas i).kv with received := some msg } }).Ok
      rgob gob cl A log history := by
  have hpeers : (s.setReplica i { s.replicas i with
      kv := { (s.replicas i).kv with received := some msg } }).peers = s.peers :=
    peers_setReplica_of_eq rfl
  refine ⟨?_, h.agreed, h.calls, h.ordered, h.clerks, h.rpcs, h.replies,
    hosted_setReplica h.hosted ((h.hosted i).receive hm)⟩
  rw [hpeers]
  exact h.peers

/-- A command that a peer has just sent is the next op of the log for its server, or one
before; the log may grow by it. -/
theorem inHand_command (h : s.Ok rgob gob cl A log history) {i : Fin n} {index : Int}
    {e : LogEntry Op} (hm : .apply (Raft.commandMsg index e) ∈ (s.replicas i).peer.history)
    (hd : index ∈ (s.replicas i).peer.raft.delivered) (hle : index ≤ (s.replicas i).fed + 1) :
    ∃ log', s.Ok rgob gob cl A log' history ∧
      (s.replicas i).InHand gob log' (Raft.commandMsg index e) := by
  obtain ⟨e', op, he, hop, hcmd, hi⟩ := h.peers.handed hm rfl
  have hpos : 0 < index := he.1
  have hlen := (h.hosted i).le
  have hfed : ∀ {l : List Op}, l[index.toNat - 1]? = some op →
      (s.replicas i).InHand gob l (Raft.commandMsg index e) := by
    intro l hl
    refine Or.inl ⟨⟨hpos, hle, ?_⟩, hd⟩
    show (l[index.toNat - 1]?).map (entryMsg index) = _
    have hcmd' : e.command = .client op := hcmd
    rw [hl, Option.map_some]
    unfold entryMsg Raft.commandMsg
    rw [hcmd']
  rcases h.agreed.entry h.peers.mirrors.refines.sound he hop
    (show index ≤ log.length + 1 by omega) with hl | ⟨-, hl, ha⟩
  · exact ⟨log, h, hfed hl⟩
  · exact ⟨log ++ [op], h.grow hi ha, hfed hl⟩

theorem mem_sentMsgs {out : List (Output Op (List B))} {msg : ApplyMsg Op (List B)}
    (h : msg ∈ Replica.sentMsgs out) : .apply msg ∈ out := by
  obtain ⟨o, ho, he⟩ := List.mem_filterMap.mp h
  cases o with
  | apply m => cases he; exact ho
  | _ => exact absurd he (by simp)

variable [DecidableEq B]

/-- A step of a Raft peer, before its server has received what it sends. -/
theorem peerStep (hr : rgob.RoundTrip) (h : s.Ok rgob gob cl A log history) {src dst : Fin n}
    {input : Input Op (List B)} {rf : Raft Op (List B) W} {out : List (Output Op (List B))}
    (hs : (s.replicas dst).peer.raft.step rgob input = some (rf, out)) (hne : input ≠ .restart)
    (ha : Mirrored (snapshotData gob) s.peers cl src dst input)
    (ht : (s.replicas dst).peer.raft.TimelyElection input)
    (hc : (s.replicas dst).peer.raft.Careful input)
    (hb : (s.replicas dst).peer.raft.Brings (Known history) input)
    (hq : (s.replicas dst).peer.raft.Takes (LogSnapshot gob log) input) :
    ∃ cl' A', (s.setReplica dst { s.replicas dst with
      peer := ⟨rf, (s.replicas dst).peer.history ++ out⟩ }).Ok rgob gob cl' A' log history := by
  obtain ⟨cl', A', hx, hp⟩ := h.peers.step hr hs ha ht hc hb
  refine ⟨cl', A', ?_, h.agreed.mono hx, h.calls, h.ordered, h.clerks, h.rpcs, h.replies, ?_⟩
  · rw [peers_setReplica]
    exact hp
  · exact hosted_setReplica h.hosted
      ((h.hosted dst).peer (h.peers.durable dst).recovers (Raft.step_cases hs) hne hq)

theorem raftStep (hr : rgob.RoundTrip) (h : s.Ok rgob gob cl A log history) {src dst : Fin n}
    {input : Input Op (List B)} (hne : input ≠ .restart)
    (ha : Mirrored (snapshotData gob) s.peers cl src dst input)
    (ht : (s.replicas dst).peer.raft.TimelyElection input)
    (hc : (s.replicas dst).peer.raft.Careful input) (ho : (s.replicas dst).InOrder (.raft input))
    (hb : (s.replicas dst).peer.raft.Brings (Known history) input)
    (hq : (s.replicas dst).peer.raft.Takes (LogSnapshot gob log) input)
    (hs : s.raftStep rgob gob dst input = some s') :
    ∃ cl' A' log', s'.Ok rgob gob cl' A' log' history := by
  obtain ⟨rep, hrep, rfl⟩ := Option.map_eq_some_iff.mp hs
  obtain ⟨rf, out, kv, hstep, hkv, rfl⟩ := Replica.raftStep_cases hrep
  have hst := Raft.step_cases hstep
  obtain ⟨cl', A', h'⟩ := h.peerStep hr hstep hne ha ht hc hb hq
  rcases Replica.receiveAll_cases hkv with ⟨-, rfl⟩ | ⟨msg, hmsg, -, rfl⟩
  · exact ⟨cl', A', log, h'⟩
  · have hout : .apply msg ∈ out := mem_sentMsgs (by rw [hmsg]; exact List.mem_singleton_self _)
    -- the replica behind the step of its peer, before its server receives the message
    obtain ⟨s₁, hs₁⟩ : ∃ s₁, s₁ = s.setReplica dst { s.replicas dst with
      peer := ⟨rf, (s.replicas dst).peer.history ++ out⟩ } := ⟨_, rfl⟩
    rw [← hs₁] at h'
    have hdst : s₁.replicas dst = { s.replicas dst with
        peer := ⟨rf, (s.replicas dst).peer.history ++ out⟩ } := by
      rw [hs₁]
      exact Function.update_self ..
    have hfinal : s₁.setReplica dst { s₁.replicas dst with
        kv := { (s₁.replicas dst).kv with received := some msg } } =
          s.setReplica dst { s.replicas dst with
            peer := ⟨rf, (s.replicas dst).peer.history ++ out⟩
            kv := { (s.replicas dst).kv with received := some msg } } := by
      rw [hdst, hs₁]
      unfold setReplica
      rw [Function.update_idem]
    rw [← hfinal]
    rcases Raft.step_applies hst hout with ⟨index, e, entries, rfl, rfl, hd⟩ | ⟨rfl, hgo⟩
    · have hm : .apply (Raft.commandMsg index e) ∈ (s₁.replicas dst).peer.history := by
        rw [hdst]
        exact List.mem_append_right _ hout
      obtain ⟨log', hok, hin⟩ := h'.inHand_command hm (by rw [hdst]; exact hd)
        (by rw [hdst]; exact ho)
      exact ⟨cl', A', log', hok.receive hin⟩
    · obtain ⟨hv, hsnap, hle⟩ := (h.hosted dst).stores.installs msg hgo
      have hsi := Raft.step_snapshottedIndex (h.peers.durable dst).recovers hst
      refine ⟨cl', A', log, h'.receive (Or.inr ⟨hv, hsnap, ?_, ?_⟩)⟩
      · rw [hdst]
        exact ho
      · rw [hdst]
        exact Int.le_trans hle hsi

/-- What arrives at a peer from another one, or what its goroutines do. -/
theorem raft (hr : rgob.RoundTrip) (h : s.Ok rgob gob cl A log history) {src dst : Fin n}
    {input : Input Op (List B)} (hapart : Apart input) (harr : s.replicas.Arrives src dst input)
    (hsteady : s.Steady (.raft src dst input)) (hs : s.raftStep rgob gob dst input = some s') :
    s'.Consistent rgob gob := by
  obtain ⟨ht, hc, ho⟩ := hsteady
  have hne : input ≠ .restart := by
    rintro rfl
    exact harr
  have ha : Mirrored (snapshotData gob) s.peers cl src dst input := by
    cases input with
    | replaceLogWithSnapshot => exact absurd harr id
    | requestVote | appendEntries | installSnapshot | voteReply | appendReply | snapshotReply =>
      exact harr
    | _ => trivial
  have hb : (s.replicas dst).peer.raft.Brings (Known history) input := by
    cases input with
    | appendEntries args => exact h.peers.shows src _ harr
    | start => exact absurd hapart id
    | replaceLogWithSnapshot => exact absurd harr id
    | _ => trivial
  have hq : (s.replicas dst).peer.raft.Takes (LogSnapshot gob log) input := by
    cases input with
    | installSnapshot args => exact (h.hosted src).sent _ _ harr
    | replaceLogWithSnapshot => exact absurd harr id
    | _ => trivial
  obtain ⟨cl', A', log', h'⟩ := h.raftStep hr hne ha ht hc ho hb hq hs
  exact ⟨cl', A', log', history, h'⟩

/-! ## `rf.Start` -/

omit [DecidableEq B] in
theorem setStarting (h : s.Ok rgob gob cl A log history) (i : Fin n) (l : List (Nat × Int)) :
    (s.setStarting i l).Ok rgob gob cl A log history :=
  ⟨h.peers, h.agreed, h.calls, h.ordered, h.clerks, h.rpcs, h.replies, h.hosted⟩

theorem startOp (hr : rgob.RoundTrip) (hg : gob.RoundTrip) (h : s.Ok rgob gob cl A log history)
    {i : Fin n} {rpc : Nat} {op : Op} (hs : s.startOp rgob gob i rpc op = some s') :
    s'.Consistent rgob gob := by
  simp only [Service.startOp] at hs
  split at hs
  · rename_i hstart
    split at hs
    · obtain ⟨s₁, hs₁, rfl⟩ := Option.map_eq_some_iff.mp hs
      have hb : (s.replicas i).peer.raft.Brings (Known history) (.start op) :=
        ⟨op, rfl, h.issued_of_handler hstart.1⟩
      have ha : Mirrored (snapshotData gob) s.peers cl i i (.start op) := trivial
      have hc : (s.replicas i).peer.raft.Careful (.start op) := trivial
      obtain ⟨cl', A', log', h'⟩ := h.raftStep hr (by simp) ha trivial hc trivial hb trivial hs₁
      exact ⟨cl', A', log', history, h'.setStarting i _⟩
    · exact ⟨cl, A, log, history, h.kvStep hg (by simp) (by simp) hs⟩
  · exact absurd hs (by simp)

theorem appendOp (hr : rgob.RoundTrip) (hg : gob.RoundTrip) (h : s.Ok rgob gob cl A log history)
    {i : Fin n} {rpc : Nat} {op : Op} {term : Int}
    (hc : (s.replicas i).peer.raft.Careful (.resume (.start op term)))
    (hs : s.appendOp rgob gob i rpc op term = some s') : s'.Consistent rgob gob := by
  simp only [Service.appendOp] at hs
  split at hs
  · obtain ⟨s₂, hboth, rfl⟩ := Option.map_eq_some_iff.mp hs
    obtain ⟨s₁, hs₁, hs₂⟩ := Option.bind_eq_some_iff.mp hboth
    have ha : Mirrored (snapshotData gob) s.peers cl i i (.resume (.start op term)) := trivial
    obtain ⟨cl', A', log', h'⟩ := h.raftStep hr (by simp) ha trivial hc trivial trivial trivial hs₁
    exact ⟨cl', A', log', history, (h'.kvStep hg (by simp) (by simp) hs₂).setStarting i _⟩
  · exact absurd hs (by simp)

/-! ## Compaction and crashes -/

omit [DecidableEq B] in
/-- A compaction with a snapshot that the server has made is one of the cluster. -/
theorem mirrored_replaceLog (h : s.Ok rgob gob cl A log history) {i : Fin n} {index : Int}
    {data : List B} (hmem : (index, data) ∈ (s.replicas i).kv.snapshots)
    (hlt : (s.replicas i).peer.raft.snapshottedIndex < index) :
    Mirrored (snapshotData gob) s.peers cl i i (.replaceLogWithSnapshot index (some data)) ∧
      (s.replicas i).peer.raft.Brings (Known history)
        (.replaceLogWithSnapshot index (some data)) ∧
      LogSnapshot gob log index (some data) := by
  obtain ⟨store, hdata, hl⟩ := (h.hosted i).pending _ hmem
  obtain ⟨hdel, hle, rfl⟩ := hl hlt
  have hdata' : data = (Store.replay (log.take index.toNat)).encode gob := hdata
  obtain ⟨hcl, hsnap⟩ := h.peers.mirrored_snapshot h.agreed hdel hle
  have hnn := (h.hosted i).stores.saved.1
  refine ⟨⟨hcl, ?_⟩, h.peers.delivered_le hdel, by omega, hle, Or.inr (congrArg some hdata')⟩
  rw [hdata', hsnap]

theorem replaceLog (hr : rgob.RoundTrip) (h : s.Ok rgob gob cl A log history) {i : Fin n}
    {index : Int} {data : List B} {rep : Replica W B}
    (hs : (s.replicas i).step rgob gob (.replaceLog index data) = some rep) :
    (s.setReplica i rep).Consistent rgob gob := by
  simp only [Replica.step] at hs
  split at hs
  · rename_i hmem
    -- the replica without the snapshot in its list
    obtain ⟨s₁, hs₁⟩ : ∃ s₁, s₁ = s.setReplica i { s.replicas i with
      kv := { (s.replicas i).kv with
        snapshots := (s.replicas i).kv.snapshots.erase (index, data) } } := ⟨_, rfl⟩
    have hi : s₁.replicas i = { s.replicas i with
        kv := { (s.replicas i).kv with
          snapshots := (s.replicas i).kv.snapshots.erase (index, data) } } := by
      rw [hs₁]
      exact Function.update_self ..
    have hpeers : s₁.peers = s.peers := by
      rw [hs₁]
      exact peers_setReplica_of_eq rfl
    have h₁ : s₁.Ok rgob gob cl A log history := by
      rw [hs₁]
      refine ⟨?_, h.agreed, h.calls, h.ordered, h.clerks, h.rpcs, h.replies,
        hosted_setReplica h.hosted ((h.hosted i).dropSnapshot _)⟩
      rw [← hs₁, hpeers]
      exact h.peers
    have hfinal : s₁.setReplica i rep = s.setReplica i rep := by
      rw [hs₁]
      unfold setReplica
      rw [Function.update_idem]
    rw [← hi] at hs
    obtain ⟨rf, out, kv, hstep, hkv, hrep⟩ := Replica.raftStep_cases hs
    by_cases hlt : (s.replicas i).peer.raft.snapshottedIndex < index
    · obtain ⟨ha, hb, hq⟩ := h.mirrored_replaceLog hmem hlt
      rw [← hpeers] at ha
      have hraft : s₁.raftStep rgob gob i (.replaceLogWithSnapshot index (some data)) =
          some (s.setReplica i rep) := by
        unfold Service.raftStep
        rw [hs, ← hfinal]
        rfl
      obtain ⟨cl', A', log', h'⟩ := h₁.raftStep hr (by simp) ha trivial trivial trivial
        (by rw [hi]; exact hb) (fun _ => hq) hraft
      exact ⟨cl', A', log', history, h'⟩
    · -- Raft knows a later snapshot, and ignores this one
      rw [hi] at hstep
      cases Raft.step_cases hstep with
      | replaceIgnored =>
        rcases Replica.receiveAll_cases hkv with ⟨-, rfl⟩ | ⟨msg, hmsg, -, -⟩
        · refine ⟨cl, A, log, history, ?_⟩
          rw [← hfinal]
          have hsame : rep = s₁.replicas i := by
            rw [hrep, hi, List.append_nil]
          rw [hsame]
          unfold setReplica
          rw [Function.update_eq_self]
          exact h₁
        · exact absurd hmsg (by simp [Replica.sentMsgs])
      | replaced hindex => exact absurd hindex hlt
  · exact absurd hs (by simp)

theorem crash (hr : rgob.RoundTrip) (hg : gob.RoundTrip) (h : s.Ok rgob gob cl A log history)
    {i : Fin n} {rep : Replica W B} (hs : (s.replicas i).step rgob gob .restart = some rep) :
    (s.setReplica i rep).Consistent rgob gob := by
  have hhosted := (h.hosted i).restart hg (h.peers.durable i).recovers hs
  simp only [Replica.step] at hs
  obtain ⟨p, hp, rfl⟩ := Option.map_eq_some_iff.mp hs
  obtain ⟨⟨rf, out⟩, hstep, rfl⟩ := Option.map_eq_some_iff.mp hp
  have ha : Mirrored (snapshotData gob) s.peers cl i i .restart := trivial
  obtain ⟨cl', A', hx, hp'⟩ := h.peers.step hr hstep ha trivial trivial trivial
  refine ⟨cl', A', log, history, ?_, h.agreed.mono hx, h.calls, h.ordered, h.clerks, h.rpcs,
    h.replies, hosted_setReplica h.hosted hhosted⟩
  rw [peers_setReplica]
  exact hp'

/-! ## All steps -/

theorem step (hr : rgob.RoundTrip) (hg : gob.RoundTrip) (h : s.Ok rgob gob cl A log history)
    {e : ServiceEvent n B} (hsteady : s.Steady e) (hs : s.step rgob gob e = some s') :
    s'.Consistent rgob gob := by
  cases e with
  | invoke client call =>
    simp only [Service.step] at hs
    split at hs
    · rename_i hidle
      cases hs
      exact ⟨cl, A, log, _, h.invoke call hidle⟩
    · exact absurd hs (by simp)
  | send client =>
    simp only [Service.step] at hs
    split at hs
    · rename_i call hc
      cases hs
      exact ⟨cl, A, log, history, h.send hc _ _⟩
    · exact absurd hs (by simp)
  | fail client =>
    simp only [Service.step] at hs
    split at hs
    · rename_i hc
      cases hs
      exact ⟨cl, A, log, history, h.setClerk ((h.clerks client).retry hc n)⟩
    · exact absurd hs (by simp)
  | reply client reply =>
    simp only [Service.step] at hs
    split at hs
    · rename_i call rpc hc
      split at hs
      · rename_i hm
        split at hs
        · cases hs
          exact ⟨cl, A, log, history, h.setClerk ((h.clerks client).retry hc n)⟩
        · rename_i hw
          cases hs
          exact ⟨cl, A, log, _, h.respond hc (List.contains_iff_mem.mp hm) (by simpa using hw)⟩
      · exact absurd hs (by simp)
    · exact absurd hs (by simp)
  | request i rpc =>
    simp only [Service.step] at hs
    split at hs
    · rename_i r hrpc
      split at hs
      · obtain ⟨s₁, hs₁, rfl⟩ := Option.map_eq_some_iff.mp hs
        have hcar : Carries s.rpcs rpc r.op := by
          unfold Carries
          rw [hrpc]
          rfl
        have h₁ := h.kvStep hg (by simp) (fun _ _ he => by cases he; exact hcar) hs₁
        exact ⟨cl, A, log, history, h₁.peers, h₁.agreed, h₁.calls, h₁.ordered, h₁.clerks, h₁.rpcs,
          h₁.replies, h₁.hosted⟩
      · exact absurd hs (by simp)
    · exact absurd hs (by simp)
  | start i rpc op => exact h.startOp hr hg hs
  | append i rpc op term => exact h.appendOp hr hg hsteady hs
  | kv i input =>
    simp only [Service.step] at hs
    split at hs
    · rename_i hin
      refine ⟨cl, A, log, history, h.kvStep hg ?_ ?_ hs⟩
      · rintro msg rfl
        exact hin
      · rintro rpc op rfl
        exact absurd hin id
    · exact absurd hs (by simp)
  | raft src dst input =>
    simp only [Service.step] at hs
    split at hs
    · rename_i harr
      exact h.raft hr harr.1 harr.2 hsteady hs
    · exact absurd hs (by simp)
  | replaceLog i index data =>
    simp only [Service.step] at hs
    obtain ⟨rep, hrep, rfl⟩ := Option.map_eq_some_iff.mp hs
    exact h.replaceLog hr hrep
  | crash i =>
    simp only [Service.step] at hs
    obtain ⟨rep, hrep, rfl⟩ := Option.map_eq_some_iff.mp hs
    obtain ⟨cl', A', log', history', h'⟩ := h.crash hr hg hrep
    exact ⟨cl', A', log', history', h'.setStarting i []⟩

end Ok

variable [DecidableEq B]

theorem consistent_of_run (hr : rgob.RoundTrip) (hg : gob.RoundTrip) {handles : Int → Nat → Nat}
    {es : List (ServiceEvent n B)}
    (h : Runs.Run (step rgob gob) Steady (init rgob gob n handles) es s) : s.Consistent rgob gob := by
  refine h.invariant (Consistent rgob gob) ⟨_, _, _, _, ok_init rgob gob n handles⟩ ?_
  rintro s e s' ⟨cl, A, log, history, hok⟩ hsteady hs
  exact hok.step hr hg hsteady hs

/-- In every state of every run of steady steps, with leaders that change, logs that are
compacted, snapshots that are installed and replicas that crash, the calls of the clerks are
linearizable. -/
theorem service_linearizable (hr : rgob.RoundTrip) (hg : gob.RoundTrip) {handles : Int → Nat → Nat}
    {es : List (ServiceEvent n B)}
    (h : Runs.Run (step rgob gob) Steady (init rgob gob n handles) es s) :
    Linearizability.Linearizable mapSpec (fun _ => "") s.calls := by
  obtain ⟨cl, A, log, history, hok⟩ := consistent_of_run hr hg h
  rw [hok.calls]
  exact hok.ordered.linearizable

/-- Replica 0 leads and answers a `Put`; its server compacts the log, and replica 2 installs
the snapshot. -/
def putAndCompact : List (ServiceEvent 3 KVWord) :=
  let put : Op := ⟨"x", "a", .put, 7, 1⟩
  let args : AppendEntriesArgs Op := ⟨1, 0, 0, 0, [⟨.client put, 1⟩], 0⟩
  let data := (Store.replay [put]).encode KVGob.words
  [.raft 0 0 .electionTimer, .raft 0 1 (.requestVote ⟨1, 0, 0, 0⟩),
    .raft 1 0 (.voteReply 1 0 ⟨1, 0, 0, 0⟩ ⟨1, true⟩),
    .invoke 7 (.put "x" "a"), .send 7, .request 0 0, .start 0 0 put, .append 0 0 put 1,
    .kv 0 (.resume (.register 0 put 1)), .raft 0 0 (.resume (.heartbeat 1)),
    .raft 0 1 (.appendEntries args), .raft 1 0 (.appendReply 1 args { success := true }),
    .raft 0 0 (.resume (.apply 1 [⟨.client put, 1⟩])), .kv 0 .apply,
    .raft 0 0 (.resume (.applied 1 [])), .kv 0 (.resume (.select 0 put 1 0)),
    .kv 0 (.resume (.finish 0 put 1 false)), .reply 7 ⟨false, .blank, ""⟩,
    .kv 0 .takeSnapshot, .replaceLog 0 1 data, .raft 0 0 (.resume (.syncSnapshotWith 2)),
    .raft 0 2 (.installSnapshot ⟨1, 0, 1, 1, some data⟩),
    .raft 2 2 (.resume (.install (Raft.installSnapshotMsg 1 (some data)))), .kv 2 .apply]

/-- Replica 0 crashes and replica 2 leads; a `Get` is sent to all three, and answered by
replica 2, which has the key from the snapshot. -/
def crashAndGet : List (ServiceEvent 3 KVWord) :=
  let get : Op := ⟨"x", "", .get, 8, 1⟩
  let args : AppendEntriesArgs Op := ⟨2, 2, 1, 1, [⟨.client get, 2⟩], 1⟩
  [.crash 0, .raft 2 2 .electionTimer, .raft 2 1 (.requestVote ⟨2, 2, 1, 1⟩),
    .raft 1 2 (.voteReply 1 0 ⟨2, 2, 1, 1⟩ ⟨2, true⟩),
    .invoke 8 (.get "x"), .send 8, .request 0 1, .start 0 1 get, .reply 8 ⟨true, .blank, ""⟩,
    .send 8, .fail 8, .send 8, .request 2 3, .start 2 3 get, .append 2 3 get 2,
    .kv 2 (.resume (.register 3 get 2)), .raft 2 2 (.resume (.heartbeat 1)),
    .raft 2 1 (.appendEntries args), .raft 1 2 (.appendReply 1 args { success := true }),
    .raft 2 2 (.resume (.apply 2 [⟨.client get, 2⟩])), .kv 2 .apply,
    .kv 2 (.resume (.select 3 get 2 0)), .kv 2 (.resume (.finish 3 get 2 false)),
    .kv 2 (.resume (.read 3 get)), .reply 8 ⟨false, .blank, "a"⟩]

/-- Behind the crash replica 0 has its snapshot, replica 1 has applied nothing, and replica 2
is one op ahead of the snapshot. -/
theorem run_crashAndGet :
    ∃ s : Service 3 (Word Op) KVWord,
      Runs.Run (step (Labgob.words Op) KVGob.words) Steady
        (init (Labgob.words Op) KVGob.words 3 fun _ h => h) (putAndCompact ++ crashAndGet) s ∧
      s.calls = [.invoke (7, 1) (.put "x" "a"), .respond (7, 1) none,
        .invoke (8, 1) (.get "x"), .respond (8, 1) (some "a")] ∧
      (s.replicas 0).fed = 1 ∧ (s.replicas 1).fed = 0 ∧ (s.replicas 2).fed = 2 ∧
      (s.replicas 2).peer.raft.snapshottedIndex = 1 := by
  have hexec : (Runs.exec (step (Labgob.words Op) KVGob.words) Steady
      (init (Labgob.words Op) KVGob.words 3 fun _ h => h) (putAndCompact ++ crashAndGet)).map (fun s =>
        (s.calls, (s.replicas 0).fed, (s.replicas 1).fed, (s.replicas 2).fed,
          (s.replicas 2).peer.raft.snapshottedIndex)) =
        some ([.invoke (7, 1) (.put "x" "a"), .respond (7, 1) none,
          .invoke (8, 1) (.get "x"), .respond (8, 1) (some "a")], 1, 0, 2, 1) := by
    decide +kernel
  obtain ⟨s, hrun, hst⟩ := Runs.run_of_exec_map _ hexec
  simp only [Prod.mk.injEq] at hst
  exact ⟨s, hrun, hst.1, hst.2.1, hst.2.2.1, hst.2.2.2.1, hst.2.2.2.2⟩

theorem service_linearizable_crashAndGet :
    ∃ s : Service 3 (Word Op) KVWord,
      s.calls = [.invoke (7, 1) (.put "x" "a"), .respond (7, 1) none,
        .invoke (8, 1) (.get "x"), .respond (8, 1) (some "a")] ∧
      Linearizability.Linearizable mapSpec (fun _ => "") s.calls := by
  obtain ⟨s, hrun, hcalls, -⟩ := run_crashAndGet
  exact ⟨s, hcalls, service_linearizable (Labgob.words_roundTrip Op) KVGob.words_roundTrip hrun⟩

/-- The replicas agree: there is one log of calls that clerks have made, the maps of each
server are those behind a prefix of it, and each saved snapshot is the state of it at the
index that Raft has saved with it. -/
theorem replicas_agree (hr : rgob.RoundTrip) (hg : gob.RoundTrip) {handles : Int → Nat → Nat}
    {es : List (ServiceEvent n B)}
    (h : Runs.Run (step rgob gob) Steady (init rgob gob n handles) es s) :
    ∃ log : List Op, (∀ op ∈ log, .invoke op.id op.call ∈ s.calls) ∧ ∀ i,
      (s.replicas i).fed ≤ log.length ∧
      (s.replicas i).kv.toStore = Store.replay (log.take (s.replicas i).fed.toNat) ∧
      LogSnapshot gob log (s.replicas i).peer.raft.snapshottedIndex
        (s.replicas i).peer.raft.persister.snapshot := by
  obtain ⟨cl, A, log, history, hok⟩ := consistent_of_run hr hg h
  refine ⟨log, fun op hop => ?_, fun i => ?_⟩
  · obtain ⟨f, hf⟩ := hok.ordered.issued op hop
    rw [hok.calls]
    exact List.mem_map.mpr ⟨_, hf, rfl⟩
  · have hi := hok.hosted i
    exact ⟨hi.le, hi.store, hi.stores.saved⟩

theorem replicas_agree_crashAndGet :
    ∃ s : Service 3 (Word Op) KVWord, (s.replicas 0).fed = 1 ∧ (s.replicas 1).fed = 0 ∧
      (s.replicas 2).fed = 2 ∧ (s.replicas 2).peer.raft.snapshottedIndex = 1 ∧
      ∃ log : List Op, (∀ op ∈ log, .invoke op.id op.call ∈ s.calls) ∧ ∀ i,
        (s.replicas i).fed ≤ log.length ∧
        (s.replicas i).kv.toStore = Store.replay (log.take (s.replicas i).fed.toNat) ∧
        LogSnapshot KVGob.words log (s.replicas i).peer.raft.snapshottedIndex
          (s.replicas i).peer.raft.persister.snapshot := by
  obtain ⟨s, hrun, -, h₀, h₁, h₂, hindex⟩ := run_crashAndGet
  exact ⟨s, h₀, h₁, h₂, hindex,
    replicas_agree (Labgob.words_roundTrip Op) KVGob.words_roundTrip hrun⟩

end DistributionSystem.Service
