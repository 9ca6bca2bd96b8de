import DistributionSystem.KV.EndToEnd
import DistributionSystem.KV.Follows

/-! The test bed refines `Service`: each step of it is a step of the service, or one that the
service does not see, such as those of the network and of the instances that were shut down. So
what the clerks of the test bed get is linearizable. -/

namespace DistributionSystem.Config

open Labrpc

variable {n : Nat} {W B P : Type} {wgob : WireGob B P} {cfg cfg' : Config n W B P}
  {s s' : Service n W B} {rgob : Labgob Op W} {gob : KVGob B}

namespace Matches

/-! ### The functions of `config` -/

/-- The same instances stand for the servers, and the clerks and the calls are as they were. -/
structure Still (rgob : Labgob Op W) (gob : KVGob B) (cfg cfg' : Config n W B P) : Prop where
  standing : ∀ i, cfg'.standing rgob gob i = cfg.standing rgob gob i
  instances : cfg'.instances = cfg.instances
  calls : cfg'.net.calls = cfg.net.calls
  clerks : cfg'.clerks = cfg.clerks
  handles : cfg'.handles = cfg.handles
  waiting : cfg'.waiting = cfg.waiting
  rpcs : cfg'.rpcs = cfg.rpcs
  noted : cfg'.calls = cfg.calls

theorem still (h : Matches rgob gob wgob cfg s) (hst : Still rgob gob cfg cfg')
    (hiso : cfg'.Isolated) : Matches rgob gob wgob cfg' s where
  isolated := hiso
  clerks := h.clerks.trans hst.clerks.symm
  handles := h.handles.trans hst.handles.symm
  calls := h.calls.trans hst.noted.symm
  stands i := by
    rw [hst.standing i]
    exact h.stands i
  config := h.config
  shown := by
    rw [hst.instances]
    exact h.shown
  callsOk := by
    refine h.callsOk.grow ⟨fun a inst ha => ⟨inst, ?_, .refl inst⟩, fun _ _ ho => ho,
      fun _ ho => ho, rfl, rfl⟩ hst.calls hst.rpcs fun _ hw => hst.waiting ▸ hw
    rw [hst.instances]
    exact ha

theorem standing_setSlot_ne {i j : Fin n} (hne : j ≠ i) (slot : Slot W B) :
    (cfg.setSlot i slot).standing rgob gob j = cfg.standing rgob gob j := by
  simp only [standing, setSlot, Function.update_of_ne hne]

theorem still_setSlot {i : Fin n} {slot : Slot W B}
    (h : (cfg.setSlot i slot).standing rgob gob i = cfg.standing rgob gob i) :
    Still rgob gob cfg (cfg.setSlot i slot) := by
  refine ⟨fun j => ?_, rfl, rfl, rfl, rfl, rfl, rfl, rfl⟩
  by_cases hj : j = i
  · subst hj
    exact h
  · exact standing_setSlot_ne hj slot

theorem standing_down (i : Fin n) (saved : Option (Persister (List B) W)) :
    (cfg.setSlot i (.down saved)).standing rgob gob i =
      some (Instance.boot rgob gob i 0 (saved.getD makePersister)) := by
  simp only [standing, setSlot, Function.update_self]

theorem standing_prepared (i : Fin n) (saved : Persister (List B) W) :
    (cfg.setSlot i (.prepared saved)).standing rgob gob i =
      some (Instance.boot rgob gob i 0 saved) := by
  simp only [standing, setSlot, Function.update_self]

theorem enter (h : Matches rgob gob wgob cfg s) {call : ConfigCall n} {ops : List (Operation n)}
    (hiso : ({ cfg.named call with doing := ops } : Config n W B P).Isolated) :
    Matches rgob gob wgob { cfg.named call with doing := ops } s := by
  refine h.still ?_ hiso
  cases call <;> exact ⟨fun _ => rfl, rfl, rfl, rfl, rfl, rfl, rfl, rfl⟩

/-- The operations that only touch the network. -/
theorem operateNet (h : Matches rgob gob wgob cfg s) {e : NetEvent (EndName n) (Fin n) P}
    {cfg₁ : Config n W B P} {rest : List (Operation n)} (hn : cfg.netStep e = some cfg₁)
    (hact : ∀ i a, e ≠ .act i a) (hcall : ∀ m s b, e ≠ .call m s b)
    (hiso : ({ cfg₁ with doing := rest } : Config n W B P).Isolated) :
    Matches rgob gob wgob { cfg₁ with doing := rest } s := by
  obtain ⟨net, hnet, rfl⟩ := netStep_eq_some hn
  exact h.still ⟨fun _ => rfl, rfl, net_calls_same hnet hact hcall, rfl, rfl, rfl, rfl, rfl⟩ hiso

/-- `StartServer` has the persister that the next instance was to have. -/
theorem operatePrepare (h : Matches rgob gob wgob cfg s) {i : Fin n} {rest : List (Operation n)}
    (hd : cfg.doing = .prepare i :: rest)
    (hiso : ({ cfg.setSlot i (.prepared ((cfg.saved i).getD makePersister)) with
      doing := rest } : Config n W B P).Isolated) :
    Matches rgob gob wgob { cfg.setSlot i (.prepared ((cfg.saved i).getD makePersister)) with
      doing := rest } s := by
  obtain ⟨-, hdown, -⟩ := h.isolated.prepares [] i rest hd
  refine h.still ?_ hiso
  have hst : Still rgob gob cfg
      (cfg.setSlot i (.prepared ((cfg.saved i).getD makePersister))) := by
    apply still_setSlot
    rw [standing_prepared]
    unfold saved standing
    cases hs : cfg.slots i with
    | down saved => rfl
    | prepared => rw [hs] at hdown; exact absurd hdown (by simp [Slot.alive])
    | running => rw [hs] at hdown; exact absurd hdown (by simp [Slot.alive])
  exact ⟨hst.standing, rfl, rfl, rfl, rfl, rfl, rfl, rfl⟩

theorem makeClerk (h : Matches rgob gob wgob cfg s) {client : Int} {rest : List (Operation n)}
    (hiso : ({ cfg with made := cfg.made ++ [client], doing := rest } : Config n W B P).Isolated) :
    Matches rgob gob wgob { cfg with made := cfg.made ++ [client], doing := rest } s :=
  h.still ⟨fun _ => rfl, rfl, rfl, rfl, rfl, rfl, rfl, rfl⟩ hiso

theorem addServer (h : Matches rgob gob wgob cfg s) {i : Fin n} {a : Nat}
    {net : Network (EndName n) (Fin n) P} (hs : cfg.slots i = .running a false)
    (hn : cfg.net.step (.addServer i a) = some net)
    (hiso : (({ cfg with net := net } : Config n W B P).setSlot i (.running a true)).Isolated) :
    Matches rgob gob wgob (({ cfg with net := net } : Config n W B P).setSlot i (.running a true))
      s := by
  refine h.still ⟨fun j => ?_, rfl, net_calls_same hn (by simp) (by simp), rfl, rfl, rfl, rfl, rfl⟩
    hiso
  by_cases hj : j = i
  · subst hj
    simp only [standing, setSlot, Function.update_self, hs]
  · simp only [standing, setSlot, Function.update_of_ne hj]

/-- `StartKVServer` makes the instance that was to come. -/
theorem bootStep (h : Matches rgob gob wgob cfg s) {i : Fin n} {persister : Persister (List B) W}
    {net : Network (EndName n) (Fin n) P} (hs : cfg.slots i = .prepared persister)
    (hcalls : net.calls = cfg.net.calls)
    (hcfg : cfg' = { cfg.setSlot i (.running cfg.instances.length false) with
      net := net
      instances := cfg.instances ++ [Instance.boot rgob gob i (cfg.starts i) persister] })
    (hiso : cfg'.Isolated) : Matches rgob gob wgob cfg' s := by
  subst hcfg
  have hold : ∀ (a : Nat) (inst : Instance n W B), cfg.instances[a]? = some inst →
      (cfg.instances ++ [Instance.boot rgob gob i (cfg.starts i) persister])[a]? = some inst :=
    fun _ _ ha => concat_old ha
  refine { h with isolated := hiso, stands := fun j => ?_, shown := ?_, callsOk := ?_ }
  · obtain ⟨inst, hst, hm⟩ := h.stands j
    by_cases hj : j = i
    · subst hj
      simp only [standing, hs, Option.some.injEq] at hst
      subst hst
      refine ⟨Instance.boot rgob gob j (cfg.starts j) persister, ?_, hm.same, hm.starting,
        hm.replied⟩
      simp only [standing, setSlot, Function.update_self]
      exact List.getElem?_concat_length
    · refine ⟨inst, ?_, hm⟩
      simp only [standing, setSlot, Function.update_of_ne hj] at hst ⊢
      split at hst
      · exact hst
      · exact hst
      · exact hold _ _ hst
  · intro inst hinst
    rcases List.mem_append.mp hinst with hinst | hinst
    · exact h.shown inst hinst
    · obtain rfl := List.mem_singleton.mp hinst
      exact Instance.shown_boot rgob gob i _ persister
  · exact h.callsOk.grow ⟨fun a inst ha => ⟨inst, hold a inst ha, .refl inst⟩, fun _ _ ho => ho,
      fun _ ho => ho, rfl, rfl⟩ hcalls rfl fun _ hw => hw

theorem init (rgob : Labgob Op W) (gob : KVGob B) (wgob : WireGob B P)
    (handles : Int → Nat → Nat) :
    Matches rgob gob wgob (Config.init n handles) (Service.init rgob gob n handles) where
  isolated := isolated_init n handles
  clerks := rfl
  handles := rfl
  calls := rfl
  stands i := ⟨_, rfl, ⟨rfl, rfl, rfl, fun _ ho => absurd ho List.not_mem_nil⟩, rfl,
    fun _ hp => absurd hp List.not_mem_nil⟩
  config i := ⟨Raft.make_me .., Raft.make_peers ..⟩
  shown _ hi := absurd hi List.not_mem_nil
  callsOk := by
    refine ⟨?_, ?_, rfl, ?_, ?_, ?_⟩ <;> simp [Config.init, Network.makeNetwork]

variable [DecidableEq B]

/-- The replica restarts as the next instance does. -/
theorem restart (h : Matches rgob gob wgob cfg s) (i : Fin n) :
    ∃ rep, (s.replicas i).step rgob gob .restart = some rep ∧
      (Instance.boot rgob gob i 0 (s.replicas i).peer.raft.persister).replica.Same rep ∧
      (s.replicas i).peer.history ⊆ rep.peer.history ∧ rep.peer.raft.me = i ∧
      rep.peer.raft.peers = n := by
  obtain ⟨hme, hpeers⟩ := h.config i
  refine ⟨⟨⟨Raft.make rgob n i (s.replicas i).peer.raft.persister, (s.replicas i).peer.history⟩,
    KVServer.startKVServer gob (s.replicas i).peer.raft.persister.snapshot,
    (Raft.make rgob n i (s.replicas i).peer.raft.persister :
      Raft Op (List B) W).snapshottedIndex⟩, ?_,
    ⟨rfl, rfl, rfl, fun _ ho => absurd ho List.not_mem_nil⟩, fun _ ho => ho, Raft.make_me ..,
    Raft.make_peers ..⟩
  simp only [Replica.step, Peer.step, Raft.step, hme, hpeers, Option.map_some,
    Raft.make_persister, List.append_nil]

theorem crash (h : Matches rgob gob wgob cfg s) (i : Fin n) :
    ∃ s', s.step rgob gob (.crash i) = some s' ∧ Service.Moves i s s' ∧
      (Instance.boot rgob gob i 0 (s.replicas i).peer.raft.persister).Mirrors s' i := by
  obtain ⟨rep, hrep, hsame, hh, hme, hpeers⟩ := h.restart i
  obtain ⟨hme₀, hpeers₀⟩ := h.config i
  refine ⟨(s.setReplica i rep).setStarting i [], ?_, ?_, ?_⟩
  · simp only [Service.step, hrep, Option.map_some]
  · refine (Service.moves_setReplica hh ?_).setStarting []
    rw [hme, hpeers, hme₀, hpeers₀]
    exact ⟨rfl, rfl⟩
  · refine ⟨?_, Function.update_self .., fun _ hp => absurd hp List.not_mem_nil⟩
    have hi : ((s.setReplica i rep).setStarting i []).replicas i = rep :=
      Service.setReplica_self s i rep
    rw [hi]
    exact hsame

/-- `ShutdownServer` puts a copy of the persister in the place of the server. The service
crashes, if the server ran. -/
theorem operateCopy (h : Matches rgob gob wgob cfg s) {i : Fin n} {rest : List (Operation n)}
    (hiso : ({ cfg.setSlot i (.down (cfg.saved i)) with doing := rest } :
      Config n W B P).Isolated) :
    Next rgob gob wgob s { cfg.setSlot i (.down (cfg.saved i)) with doing := rest } := by
  have hstill : (∀ a added, cfg.slots i ≠ .running a added) →
      Still rgob gob cfg (cfg.setSlot i (.down (cfg.saved i))) := by
    intro hno
    apply still_setSlot
    rw [standing_down]
    unfold saved standing
    cases hs : cfg.slots i with
    | down saved => rfl
    | prepared saved => rfl
    | running a added => exact absurd hs (hno a added)
  by_cases hrun : ∃ a added, cfg.slots i = .running a added
  · obtain ⟨a, added, hslot⟩ := hrun
    obtain ⟨inst, ha, -⟩ := h.isolated.runs i a added hslot
    have hm := h.mirrors hslot ha
    obtain ⟨s', hs, hmv, hboot⟩ := h.crash i
    have hsaved : cfg.saved i = some (s.replicas i).peer.raft.persister := by
      simp only [saved, hslot, ha, Option.map_some, hm.same.raft]
    refine Or.inr ⟨.crash i, s', trivial, hs, ?_⟩
    exact {
      isolated := hiso
      clerks := hmv.clerks.trans h.clerks
      handles := hmv.handles.trans h.handles
      calls := hmv.calls.trans h.calls
      stands := fun j => by
        by_cases hj : j = i
        · subst hj
          refine ⟨_, ?_, hboot⟩
          rw [hsaved]
          exact standing_down j _
        · obtain ⟨inst, hst, hm⟩ := h.stands j
          exact ⟨inst, (standing_setSlot_ne hj _).trans hst, mirrors_moved hm hmv hj⟩
      config := h.config_moves hmv
      shown := h.shown
      callsOk := by
        refine h.callsOk.grow ⟨fun _ inst ha => ⟨inst, ha, .refl inst⟩, fun j => ?_, hmv.replies,
          hmv.rpcs, hmv.requests⟩ rfl rfl fun _ hw => hw
        by_cases hj : j = i
        · subst hj
          exact hmv.history
        · rw [hmv.replicas j hj]
          exact fun _ ho => ho }
  · have hst := hstill fun a added hslot => hrun ⟨a, added, hslot⟩
    exact Or.inl (h.still ⟨hst.standing, rfl, rfl, rfl, rfl, rfl, rfl, rfl⟩ hiso)

theorem operate (h : Matches rgob gob wgob cfg s) {op : Operation n} {rest : List (Operation n)}
    {cfg₁ : Config n W B P} (hd : cfg.doing = op :: rest) (ho : cfg.operation op = some cfg₁)
    (hiso : ({ cfg₁ with doing := rest } : Config n W B P).Isolated) :
    Next rgob gob wgob s { cfg₁ with doing := rest } := by
  cases op with
  | makeEnd | connect | enable | deleteServer =>
    exact Or.inl (h.operateNet ho (by simp) (by simp) hiso)
  | copy i =>
    cases ho
    exact h.operateCopy hiso
  | prepare i =>
    cases ho
    exact Or.inl (h.operatePrepare hd hiso)
  | makeClerk client =>
    cases ho
    exact Or.inl (h.makeClerk hiso)

/-! ## Runs -/

theorem step (hw : wgob.RoundTrip) (h : Matches rgob gob wgob cfg s) {e : ConfigEvent n B P}
    (horder : cfg.Orderly e) (hst : cfg.Steady wgob e)
    (hstep : cfg.step rgob gob wgob e = some cfg') : Next rgob gob wgob s cfg' := by
  have hcases := step_cases hstep
  have hiso := h.isolated.step horder hcases
  cases hcases with
  | enter => exact Or.inl (h.enter hiso)
  | operate hd ho => exact h.operate hd ho hiso
  | boot hs _ hcalls => exact Or.inl (h.bootStep hs hcalls rfl hiso)
  | addServer hs hn => exact Or.inl (h.addServer hs hn hiso)
  | net hf hn => exact Or.inl (h.netFree hf hn hiso)
  | inst ha hs => exact h.instStep hst ha hs hiso
  | call ha hu hn => exact Or.inl (h.callStep hw ha hu hn rfl rfl hiso)
  | dispatch _ hn => exact Or.inl (h.netAct hn (by simp) hiso)
  | serve hc hh hb ha hs hl hn => exact h.serve hst hc hh hb ha hs hl hn hiso
  | answer hmem hi ha hs => exact h.answer hw hst hmem hi ha hs hiso
  | requestFatal _ hn => exact Or.inl (h.netAct hn (by simp) hiso)
  | request hr hn hc hh hb ha hs => exact h.request hr hn hc hh hb ha hs hiso
  | finish hr hc hh hb hm hn => exact Or.inl (h.finish hr hc hh hb hm hn hiso)
  | invoke hidle => exact h.invoke hidle hiso
  | send hc hd hn => exact h.send hw hc hd hn rfl hiso
  | receiveFail hc => exact h.receiveFail hc hiso
  | receive hc hr hk hp hdec => exact h.receive hw hc hr hk hp hdec rfl hiso

end Matches

variable [DecidableEq B]

theorem refines_service (hw : wgob.RoundTrip) {handles : Int → Nat → Nat}
    {es : List (ConfigEvent n B P)}
    (h : Runs.Run (step rgob gob wgob) (fun cfg e => cfg.Orderly e ∧ cfg.Steady wgob e)
      (init n handles) es cfg) :
    ∃ es' s, Runs.Run (Service.step rgob gob) Service.Steady (Service.init rgob gob n handles) es' s ∧
      Matches rgob gob wgob cfg s :=
  h.simulated (Matches rgob gob wgob) (.init rgob gob wgob handles)
    fun _ _ _ _ hm hok hs => hm.step hw hok.1 hok.2 hs

/-- What the clerks of the test bed see is linearizable, in every orderly use of it whose servers
are steady: calls that the network loses, delays and reorders, partitions, and servers that are
shut down and started again, while their old instances go on. -/
theorem test_linearizable (hr : rgob.RoundTrip) (hg : gob.RoundTrip) (hw : wgob.RoundTrip)
    {handles : Int → Nat → Nat} {es : List (ConfigEvent n B P)}
    (h : Runs.Run (step rgob gob wgob) (fun cfg e => cfg.Orderly e ∧ cfg.Steady wgob e)
      (init n handles) es cfg) :
    Linearizability.Linearizable mapSpec (fun _ => "") cfg.calls := by
  obtain ⟨es', s, hrun, hm⟩ := refines_service hw h
  obtain ⟨cl, A, log, history, hok⟩ := Service.consistent_of_run hr hg hrun
  rw [← hm.calls, hok.calls]
  exact hok.ordered.linearizable

/-! ### A run -/

/-- The run below is of two servers, written as numerals. -/
scoped instance neZeroTwo : @NeZero Nat Zero.ofOfNat0 2 := ⟨Nat.succ_ne_zero 1⟩

abbrev TestEvent := ConfigEvent 2 KVWord (Wire KVWord)

def startServer (i : Fin 2) : List TestEvent :=
  .enter (.startServer i) :: List.replicate 5 .operate ++ [.boot i, .addServer i]

/-- The way of a request to its handler, and of the reply back. -/
def there (call : Nat) : List TestEvent :=
  [.net (.act call .accept), .net (.act call .process), .net (.act call .execute)]

def back (call : Nat) : List TestEvent :=
  [.net (.act call .receive), .net (.act call .check), .net (.act call .send),
    .net (.act call .deliver)]

/-- An RPC of a Raft peer. -/
def exchange (call a : Nat) (server : Fin 2) (request : Request Op (List KVWord)) :
    List TestEvent :=
  .call a server request :: there call ++ [.dispatch call, .serve call] ++ back call ++
    [.answer ⟨call, a, server, request⟩ 0]

def putX : Op := ⟨"x", "a", .put, 7, 1⟩

def getX : Op := ⟨"x", "", .get, 8, 1⟩

/-- `make_config` for two servers, and two clerks. -/
def makeConfig : List TestEvent :=
  startServer 0 ++ startServer 1 ++ .enter .connectAll :: List.replicate 8 .operate ++
    .enter (.makeClient 7 [0, 1]) :: List.replicate 7 .operate ++
    .enter (.makeClient 8 [0, 1]) :: List.replicate 7 .operate

/-- Server 0 leads and answers a `Put`. -/
def put : List TestEvent :=
  .inst 0 (.raft .electionTimer) :: exchange 0 0 1 (.requestVote ⟨1, 0, 0, 0⟩) ++
  [.invoke 7 (.put "x" "a"), .send 7] ++ there 1 ++
  [.request 0, .inst 0 (.start 0 putX), .inst 0 (.append 0 putX 1),
    .inst 0 (.kv (.resume (.register 0 putX 1))), .inst 0 (.raft (.resume (.heartbeat 1)))] ++
  exchange 2 0 1 (.appendEntries ⟨1, 0, 0, 0, [⟨.client putX, 1⟩], 0⟩) ++
  [.inst 0 (.raft (.resume (.apply 1 [⟨.client putX, 1⟩]))), .inst 0 (.kv .apply),
    .inst 0 (.raft (.resume (.applied 1 []))), .inst 0 (.kv (.resume (.select 0 putX 1 0))),
    .inst 0 (.kv (.resume (.finish 0 putX 1 false))), .finish 0 ⟨false, .blank, ""⟩] ++
  back 1 ++ [.receive 7]

def shutdownLeader : List TestEvent :=
  .enter (.shutdownServer 0) :: List.replicate 6 .operate

/-- It sends its heartbeat nevertheless, which gets nowhere; then it is started again. -/
def restartLeader : List TestEvent :=
  [.inst 0 (.raft .heartbeatTimer), .inst 0 (.raft (.resume (.heartbeat 1))),
    .call 0 1 (.appendEntries ⟨1, 0, 1, 1, [], 1⟩), .net (.act 3 .accept), .net (.act 3 .process),
    .net (.act 3 .deliver)] ++
  startServer 0 ++ .enter (.connect 0 [0, 1]) :: List.replicate 4 .operate

/-- Server 1 leads and answers a `Get`; the vote is that of the new instance. -/
def get : List TestEvent :=
  .inst 1 (.raft .electionTimer) :: exchange 4 1 0 (.requestVote ⟨2, 1, 1, 1⟩) ++
  [.invoke 8 (.get "x"), .send 8] ++ there 5 ++
  [.request 1, .inst 1 (.start 1 getX), .inst 1 (.append 1 getX 2),
    .inst 1 (.kv (.resume (.register 1 getX 2))), .inst 1 (.raft (.resume (.heartbeat 0)))] ++
  exchange 6 1 0 (.appendEntries ⟨2, 1, 1, 1, [⟨.client getX, 2⟩], 0⟩) ++
  [.inst 1 (.raft (.resume (.apply 1 [⟨.client putX, 1⟩, ⟨.client getX, 2⟩]))),
    .inst 1 (.kv .apply), .inst 1 (.raft (.resume (.applied 1 [⟨.client getX, 2⟩]))),
    .inst 1 (.raft (.resume (.apply 2 [⟨.client getX, 2⟩]))), .inst 1 (.kv .apply),
    .inst 1 (.kv (.resume (.select 1 getX 2 0))), .inst 1 (.kv (.resume (.finish 1 getX 2 false))),
    .inst 1 (.kv (.resume (.read 1 getX))), .finish 1 ⟨false, .blank, "a"⟩] ++
  back 5 ++ [.receive 8]

/-- Clerk 8 has its handles in the other order. -/
def shuffled (client : Int) (handle : Nat) : Nat := if client = 8 then 1 - handle else handle

theorem test_linearizable_restart :
    ∃ cfg : Config 2 (Word Op) KVWord (Wire KVWord),
      cfg.calls = [.invoke (7, 1) (.put "x" "a"), .respond (7, 1) none,
        .invoke (8, 1) (.get "x"), .respond (8, 1) (some "a")] ∧ cfg.instances.length = 3 ∧
      Linearizability.Linearizable mapSpec (fun _ => "") cfg.calls := by
  have hexec : (Runs.exec (step (Labgob.words Op) KVGob.words (WireGob.words KVWord))
      (fun cfg e => cfg.Orderly e ∧ cfg.Steady (WireGob.words KVWord) e) (init 2 shuffled)
      (makeConfig ++ put ++ shutdownLeader ++ restartLeader ++ get)).map
        (fun cfg => (cfg.calls, cfg.instances.length)) =
      some ([.invoke (7, 1) (.put "x" "a"), .respond (7, 1) none,
        .invoke (8, 1) (.get "x"), .respond (8, 1) (some "a")], 3) := by
    decide +kernel
  obtain ⟨cfg, hrun, hst⟩ := Runs.run_of_exec_map _ hexec
  simp only [Prod.mk.injEq] at hst
  exact ⟨cfg, hst.1, hst.2, test_linearizable (Labgob.words_roundTrip Op) KVGob.words_roundTrip
    (WireGob.words_roundTrip KVWord) hrun⟩

end DistributionSystem.Config
