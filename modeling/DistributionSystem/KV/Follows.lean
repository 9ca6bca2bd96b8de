import DistributionSystem.KV.Matches

/-! The service follows the network, the instances and the clerks of the test bed. -/

namespace DistributionSystem.Config

open Labrpc

variable {n : Nat} {W B P : Type} {wgob : WireGob B P} {cfg cfg' : Config n W B P}
  {s s' : Service n W B} {rgob : Labgob Op W} {gob : KVGob B} {a : Nat} {inst inst' : Instance n W B}

namespace Matches

theorem steady_input {e : ConfigEvent n B P} (h : cfg.Steady wgob e) {input : Input Op (List B)}
    (hin : cfg.input? wgob e = some (a, input)) (ha : cfg.instances[a]? = some inst) {added : Bool}
    (hslot : cfg.slots inst.number = .running a added) :
    inst.replica.peer.raft.TimelyElection input ∧ inst.replica.peer.raft.Careful input ∧
      inst.replica.InOrder (.raft input) := by
  refine h (a, input) hin inst ha ?_
  rw [hslot]
  exact beq_self_eq_true a

theorem input_arrives {request : Request Op (List B)} {src dst : Fin n}
    (h : .call dst request ∈ (s.replicas src).peer.history) :
    Service.Apart request.input ∧ s.replicas.Arrives src dst request.input := by
  cases request <;> exact ⟨trivial, h⟩

theorem wire_request {kind : Kind B} {request : Request Op (List B)}
    (h : some kind.wire = some (.request request)) : kind = .peer request := by
  cases kind with
  | peer => cases h; rfl
  | kv => cases h

theorem wire_kvArgs {kind : Kind B} {op : Op} (h : some kind.wire = some (.kvArgs op)) :
    ∃ rpc, kind = .kv rpc op := by
  cases kind with
  | peer => cases h
  | kv rpc => cases h; exact ⟨rpc, rfl⟩

theorem answered_arrives {request : Request Op (List B)} {src dst : Fin n} {election : Nat}
    {reply : Reply} {input : Input Op (List B)}
    (ha : request.answered src election reply = some input)
    (h : .reply request reply ∈ (s.replicas src).peer.history) :
    Service.Apart input ∧ s.replicas.Arrives src dst input := by
  cases request <;> cases reply <;> cases ha <;> exact ⟨trivial, rfl, h⟩

/-- What a call that has returned true carries is known to the service. -/
theorem seen_of_returned (h : Matches rgob gob wgob cfg s) {k : Nat}
    {c : Labrpc.Call (EndName n) (Fin n) P} {bytes : List P} (hc : cfg.net.calls[k]? = some c)
    (hp : c.phase = .returned ⟨true, bytes⟩) :
    ∃ kind : Kind B, wgob.decode c.args = some kind.wire ∧ kind.Issued cfg s k c.endname ∧
      kind.Seen wgob s c.endname.dst bytes := by
  obtain ⟨kind, hdec, hi, ht⟩ := h.callsOk.calls k c hc
  have hphase := ht.phase
  simp only [hp] at hphase
  exact ⟨kind, hdec, hi, hphase trivial⟩

/-- The RPC of a clerk and its call. -/
theorem rpc_call (h : Matches rgob gob wgob cfg s) {rpc k : Nat} (hr : cfg.rpcs[rpc]? = some k)
    {c : Labrpc.Call (EndName n) (Fin n) P} (hc : cfg.net.calls[k]? = some c) {kind : Kind B}
    (hdec : wgob.decode c.args = some kind.wire) (hi : kind.Issued cfg s k c.endname) :
    ∃ op, kind = .kv rpc op ∧ s.rpcs[rpc]? = some ⟨c.endname.dst, op⟩ := by
  obtain ⟨c', op, hc', hargs⟩ := h.callsOk.kv rpc k hr
  obtain rfl := Option.some.inj (hc.symm.trans hc')
  obtain ⟨rpc', rfl⟩ := wire_kvArgs (hdec.symm.trans hargs)
  obtain rfl := h.callsOk.inj rpc rpc' k hr hi.1
  exact ⟨op, rfl, hi.2⟩

theorem grown_net (cfg : Config n W B P) (s : Service n W B)
    (net : Network (EndName n) (Fin n) P) : Grown cfg { cfg with net := net } s s :=
  ⟨fun _ i hi => ⟨i, hi, .refl i⟩, fun _ _ ho => ho, fun _ ho => ho, rfl, rfl⟩

theorem finish (h : Matches rgob gob wgob cfg s) {rpc k b : Nat} {reply : KVReply}
    {c : Labrpc.Call (EndName n) (Fin n) P} {net : Network (EndName n) (Fin n) P}
    (hr : cfg.rpcs[rpc]? = some k) (hc : cfg.net.calls[k]? = some c) (hh : c.handler = .running b)
    (hb : cfg.instances[b]? = some inst) (hm : (rpc, reply) ∈ inst.replied)
    (hn : cfg.net.step (.act k (.handled (wgob.encode (.kvReply reply)))) = some net)
    (hiso : ({ cfg with net := net } : Config n W B P).Isolated) :
    Matches rgob gob wgob { cfg with net := net } s := by
  refine { h with isolated := hiso, callsOk := ?_ }
  refine h.callsOk_act (grown_net cfg s net) hn rfl rfl (fun _ hw => hw) (by simp) ?_
  intro c' b' bytes kind hc' hrun he hdec hi
  cases he
  obtain rfl := Option.some.inj (hc.symm.trans hc')
  obtain ⟨op, rfl, -⟩ := h.rpc_call hr hc hdec hi
  cases hh.symm.trans hrun
  exact ⟨inst, hb, reply, rfl, hm⟩

/-- The handler of the RPC has been called. -/
theorem read (h : Matches rgob gob wgob cfg s) {rpc k : Nat} (hr : cfg.rpcs[rpc]? = some k)
    {c : Labrpc.Call (EndName n) (Fin n) P} (hc : cfg.net.calls[k]? = some c)
    (hf : ¬ fresh c.handler) :
    Matches rgob gob wgob cfg { s with requests := s.requests.erase rpc } := by
  refine { h with stands := fun i => ?_, callsOk := { h.callsOk with unread := ?_ } }
  · obtain ⟨inst, hst, hm⟩ := h.stands i
    exact ⟨inst, hst, hm.same, hm.starting, hm.replied⟩
  · intro rpc' k' c' hr' hc' hf'
    have hne : rpc' ≠ rpc := by
      rintro rfl
      obtain rfl := Option.some.inj (hr.symm.trans hr')
      obtain rfl := Option.some.inj (hc.symm.trans hc')
      exact hf hf'
    exact (List.mem_erase_of_ne hne).mpr (h.callsOk.unread rpc' k' c' hr' hc' hf')

/-! ### The network -/

theorem netAct (h : Matches rgob gob wgob cfg s) {k : Nat} {a : Action P}
    {net : Network (EndName n) (Fin n) P} (hn : cfg.net.step (.act k a) = some net)
    (ha : ∀ bytes, a ≠ .handled bytes)
    (hiso : ({ cfg with net := net } : Config n W B P).Isolated) :
    Matches rgob gob wgob { cfg with net := net } s :=
  { h with
    isolated := hiso
    callsOk := h.callsOk_act (grown_net cfg s net) hn rfl rfl (fun _ hw => hw) (fun _ => rfl)
      fun _ _ bytes _ _ _ he _ _ => absurd he (ha bytes) }

theorem netFree (h : Matches rgob gob wgob cfg s) {e : NetEvent (EndName n) (Fin n) P}
    {net : Network (EndName n) (Fin n) P} (hf : Free e) (hn : cfg.net.step e = some net)
    (hiso : ({ cfg with net := net } : Config n W B P).Isolated) :
    Matches rgob gob wgob { cfg with net := net } s := by
  cases e with
  | act k a =>
    refine h.netAct hn ?_ hiso
    rintro bytes rfl
    exact hf
  | setReliable | cleanup | quit =>
    have hcalls : net.calls = cfg.net.calls := by
      cases Network.step_calls hn with
      | same _ hcalls => exact hcalls
      | new _ _ _ he => exact absurd he (by simp)
      | act _ _ _ _ he => exact absurd he (by simp)
    exact { h with
      isolated := hiso
      callsOk := h.callsOk.grow (grown_net cfg s net) hcalls rfl fun _ hw => hw }
  | _ => exact absurd hf id

theorem net_call {rn rn' : Network (EndName n) (Fin n) P} {endname : EndName n} {svcMeth : String}
    {args : List P} (h : rn.step (.call endname svcMeth args) = some rn') :
    rn'.calls = rn.calls ++ [⟨endname, svcMeth, args, .sending, .idle, false⟩] := by
  cases Network.step_calls h with
  | same _ hcalls =>
    have hnext := (Network.step_next h).2
    simp only [Network.next] at hnext
    split at hnext
    · cases hnext
      rfl
    · exact absurd hnext (by simp)
  | new _ _ _ he hcalls =>
    cases he
    exact hcalls
  | act _ _ _ _ he => exact absurd he (by simp)

/-! ### Clerks -/

/-- A clerk goes on; the servers and the network stay as they are. -/
theorem clerkStep (h : Matches rgob gob wgob cfg s) {client : Int} {ck : Clerk}
    {calls : List (Linearizability.Event (Int × Int) KVCall (Option String))}
    (hiso : ({ cfg.setClerk client ck with calls := cfg.calls ++ calls } :
      Config n W B P).Isolated) :
    Matches rgob gob wgob { cfg.setClerk client ck with calls := cfg.calls ++ calls }
      { s.setClerk client ck with calls := s.calls ++ calls } where
  isolated := hiso
  clerks := by
    show Function.update s.clerks client ck = _
    rw [h.clerks]
    rfl
  handles := h.handles
  calls := by
    show s.calls ++ calls = _
    rw [h.calls]
  stands i := by
    obtain ⟨inst, hst, hm⟩ := h.stands i
    exact ⟨inst, hst, hm.same, hm.starting, hm.replied⟩
  config := h.config
  shown := h.shown
  callsOk := h.callsOk.grow ⟨fun _ i hi => ⟨i, hi, .refl i⟩, fun _ _ ho => ho, fun _ ho => ho,
    rfl, rfl⟩ rfl rfl fun _ hw => hw

theorem clerkStep_silent (h : Matches rgob gob wgob cfg s) {client : Int} {ck : Clerk}
    (hiso : (cfg.setClerk client ck).Isolated) :
    Matches rgob gob wgob (cfg.setClerk client ck) (s.setClerk client ck) := by
  have hcfg : ({ cfg.setClerk client ck with calls := cfg.calls ++ [] } : Config n W B P) =
      cfg.setClerk client ck := by rw [List.append_nil]; rfl
  have hs : ({ s.setClerk client ck with calls := s.calls ++ [] } : Service n W B) =
      s.setClerk client ck := by rw [List.append_nil]; rfl
  rw [← hcfg, ← hs]
  exact h.clerkStep (hcfg.symm ▸ hiso)

/-- A reply that a clerk gets is one that the service has on its way. -/
theorem reply_mem (hw : wgob.RoundTrip) (h : Matches rgob gob wgob cfg s) {rpc k : Nat}
    {c : Labrpc.Call (EndName n) (Fin n) P} {bytes : List P} {reply : KVReply}
    (hr : cfg.rpcs[rpc]? = some k) (hk : cfg.net.calls[k]? = some c)
    (hp : c.phase = .returned ⟨true, bytes⟩) (hdec : wgob.decode bytes = some (.kvReply reply)) :
    (rpc, reply) ∈ s.replies := by
  obtain ⟨kind, hkind, hi, hseen⟩ := h.seen_of_returned hk hp
  obtain ⟨op, rfl, -⟩ := h.rpc_call hr hk hkind hi
  obtain ⟨reply', hbytes, hmem⟩ := hseen
  rw [hbytes, hw] at hdec
  cases hdec
  exact hmem

variable [DecidableEq B]

/-- The service follows by one step, or need not. -/
def Next (rgob : Labgob Op W) (gob : KVGob B) (wgob : WireGob B P) (s : Service n W B)
    (cfg : Config n W B P) : Prop :=
  Matches rgob gob wgob cfg s ∨
    ∃ e s', s.Steady e ∧ s.step rgob gob e = some s' ∧ Matches rgob gob wgob cfg s'

/-- The service follows a step of an instance that runs; an old one it does not see. -/
theorem follow (h : Matches rgob gob wgob cfg s) (ha : cfg.instances[a]? = some inst)
    (hg : inst.Grows inst' ∧ (inst.Shown → inst'.Shown)) (hslots : cfg'.slots = cfg.slots)
    (hinst : cfg'.instances = cfg.instances.set a inst') (hiso : cfg'.Isolated)
    (hclerks : cfg'.clerks = cfg.clerks) (hhandles : cfg'.handles = cfg.handles)
    (hcalls : cfg'.calls = cfg.calls)
    (hruns : ∀ added, cfg.slots inst.number = .running a added → inst.Mirrors s inst.number →
      ∃ e s', s.Steady e ∧ s.step rgob gob e = some s' ∧ inst'.Mirrors s' inst.number ∧
        Service.Moves inst.number s s')
    (hok : ∀ s', Grown cfg cfg' s s' → CallsOk wgob cfg' s') : Next rgob gob wgob s cfg' := by
  by_cases hcur : ∃ added, cfg.slots inst.number = .running a added
  · obtain ⟨added, hslot⟩ := hcur
    obtain ⟨e, s', hst, hs, hm, hmv⟩ := hruns added hslot (h.mirrors hslot ha)
    have hadv : Advanced cfg cfg' s s' a inst inst' :=
      ⟨ha, hg.1, hg.2, hslots, hinst, hmv, fun _ _ => hm, fun hno => absurd hslot (hno added)⟩
    exact Or.inr ⟨e, s', hst, hs,
      h.advance hadv hiso hclerks hhandles hcalls (hok s' hadv.grown)⟩
  · have hadv : Advanced cfg cfg' s s a inst inst' :=
      ⟨ha, hg.1, hg.2, hslots, hinst, .refl _ s, fun added hslot => absurd ⟨added, hslot⟩ hcur,
        fun _ => rfl⟩
    exact Or.inl (h.advance hadv hiso hclerks hhandles hcalls (hok s hadv.grown))

theorem instStep (h : Matches rgob gob wgob cfg s) {e : InstanceEvent B}
    (hst : cfg.Steady wgob (.inst a e)) (ha : cfg.instances[a]? = some inst)
    (hs : inst.step rgob gob e = some inst') (hiso : (cfg.setInstance a inst').Isolated) :
    Next rgob gob wgob s (cfg.setInstance a inst') := by
  refine h.follow ha (Instance.step_grows hs) rfl rfl hiso rfl rfl rfl (fun added hslot hm => ?_)
    fun s' hg => h.callsOk.grow hg rfl rfl fun _ hw => hw
  obtain ⟨s', hstep, hm', hmv⟩ := hm.step hs
  refine ⟨e.atReplica inst.number, s', ?_, hstep, hm', hmv⟩
  cases e with
  | raft input => exact hm.same.steady (steady_input hst rfl ha hslot)
  | append rpc op term => exact (hm.same.steady (steady_input hst rfl ha hslot)).2.1
  | _ => trivial

/-! ### Handlers of Raft -/

/-- A handler shows its reply last. -/
theorem step_reply {rf rf' : Raft Op (List B) W} {request : Request Op (List B)}
    {out : List (Output Op (List B))} (h : rf.step rgob request.input = some (rf', out)) :
    ∃ shown reply, out = shown ++ [.reply request reply] := by
  cases request with
  | requestVote args | appendEntries args =>
    obtain ⟨r, -, he⟩ := Option.map_eq_some_iff.mp h
    cases he
    exact ⟨[], _, rfl⟩
  | installSnapshot args =>
    cases h
    exact ⟨_, _, rfl⟩

theorem reply_shown {request request' : Request Op (List B)} {reply : Reply}
    (hs : inst.raftStep rgob gob request.input = some inst')
    (hl : inst'.replica.peer.history.getLast? = some (.reply request' reply)) :
    .reply request reply ∈ inst'.replica.peer.history := by
  have hmem := List.mem_of_getLast? hl
  obtain ⟨rep, hrep, rfl⟩ := Option.map_eq_some_iff.mp hs
  obtain ⟨rf, out, kv, hstep, -, rfl⟩ := Replica.raftStep_cases hrep
  obtain ⟨shown, reply', rfl⟩ := step_reply hstep
  have hl' : (inst.replica.peer.history ++ (shown ++ [Output.reply request reply'])).getLast? =
      some (Output.reply request' reply) := hl
  rw [← List.append_assoc, List.getLast?_concat] at hl'
  cases hl'
  exact hmem

/-- A peer takes a message that the service has on its way. -/
theorem raft_step {i src : Fin n} {input : Input Op (List B)} (hm : inst.Mirrors s i)
    (harr : Service.Apart input ∧ s.replicas.Arrives src i input)
    (hsteady : inst.replica.peer.raft.TimelyElection input ∧
      inst.replica.peer.raft.Careful input ∧ inst.replica.InOrder (.raft input))
    (hs : inst.raftStep rgob gob input = some inst') :
    ∃ e s', s.Steady e ∧ s.step rgob gob e = some s' ∧ inst'.Mirrors s' i ∧
      Service.Moves i s s' := by
  obtain ⟨s', hstep, hm', hmv⟩ := hm.raftStep hs
  refine ⟨.raft src i input, s', hm.same.steady hsteady, ?_, hm', hmv⟩
  simp only [Service.step]
  rw [if_pos harr]
  exact hstep

theorem serve (h : Matches rgob gob wgob cfg s) {call b : Nat}
    {c : Labrpc.Call (EndName n) (Fin n) P} {request request' : Request Op (List B)}
    {reply : Reply} {net : Network (EndName n) (Fin n) P} (hst : cfg.Steady wgob (.serve call))
    (hc : cfg.net.calls[call]? = some c) (hh : c.handler = .running b)
    (hb : cfg.instances[b]? = some inst) (ha : wgob.decode c.args = some (.request request))
    (hs : inst.raftStep rgob gob request.input = some inst')
    (hl : inst'.replica.peer.history.getLast? = some (.reply request' reply))
    (hn : cfg.net.step (.act call (.handled (wgob.encode (.reply reply)))) = some net)
    (hiso : ({ cfg.setInstance b inst' with net := net } : Config n W B P).Isolated) :
    Next rgob gob wgob s { cfg.setInstance b inst' with net := net } := by
  obtain ⟨kind, hdec, hi, ht⟩ := h.callsOk.calls call c hc
  obtain rfl := wire_request (hdec.symm.trans ha)
  have hsent := ht.handler
  simp only [hh] at hsent
  obtain ⟨⟨inst₀, hb₀, hnum⟩, src, hsrc⟩ := hsent
  obtain rfl := Option.some.inj (hb.symm.trans hb₀)
  have hlt : b < cfg.instances.length := (List.getElem?_eq_some_iff.mp hb).1
  refine h.follow hb (Instance.raftStep_grows hs) rfl rfl hiso rfl rfl rfl
    (fun added hslot hm => ?_) fun s' hg => ?_
  · have hin : cfg.input? wgob (.serve call) = some (b, request.input) := by
      simp only [input?, running, hc, hh, hb, Option.bind_some, Option.map_some,
        Option.bind_eq_bind, ha]
    rw [← hnum] at hsrc
    exact raft_step hm (input_arrives hsrc) (steady_input hst hin hb hslot) hs
  · refine h.callsOk_act hg hn rfl rfl (fun _ hw => hw) (by simp) ?_
    intro c' b' bytes kind' hc' hrun he hdec' hi'
    cases he
    obtain rfl := Option.some.inj (hc.symm.trans hc')
    obtain rfl := wire_request (hdec'.symm.trans ha)
    cases hh.symm.trans hrun
    exact ⟨inst', List.getElem?_set_self hlt, reply, rfl, reply_shown hs hl⟩

theorem answer (hw : wgob.RoundTrip) (h : Matches rgob gob wgob cfg s) {w : Waiting n B}
    {election : Nat} {input : Input Op (List B)} (hst : cfg.Steady wgob (.answer w election))
    (hmem : w ∈ cfg.waiting) (hi : cfg.answerInput wgob w election = some input)
    (ha : cfg.instances[w.inst]? = some inst) (hs : inst.raftStep rgob gob input = some inst')
    (hiso : ({ cfg.setInstance w.inst inst' with waiting := cfg.waiting.erase w } :
      Config n W B P).Isolated) :
    Next rgob gob wgob s { cfg.setInstance w.inst inst' with waiting := cfg.waiting.erase w } := by
  refine h.follow ha (Instance.raftStep_grows hs) rfl rfl hiso rfl rfl rfl
    (fun added hslot hm => ?_)
    fun s' hg => h.callsOk.grow hg rfl rfl fun _ hw => List.mem_of_mem_erase hw
  have hin : cfg.input? wgob (.answer w election) = some (w.inst, input) := by
    simp only [input?, hi, Option.map_some]
  have hsteady := steady_input hst hin ha hslot
  obtain ⟨msg, hret, hi⟩ := Option.bind_eq_some_iff.mp hi
  split at hi
  · rename_i hokay
    obtain ⟨v, hdec, hi⟩ := Option.bind_eq_some_iff.mp hi
    split at hi
    · rename_i reply
      obtain ⟨c, hc, hp⟩ := returned_eq_some hret
      obtain ⟨c', hc', hargs, hdst⟩ := h.callsOk.waiting w hmem
      obtain rfl := Option.some.inj (hc.symm.trans hc')
      have hp' : c.phase = .returned ⟨true, msg.reply⟩ := by rw [hp, ← hokay]
      obtain ⟨kind, hkind, -, hseen⟩ := h.seen_of_returned hc hp'
      obtain rfl := wire_request (hkind.symm.trans hargs)
      obtain ⟨reply', hbytes, hshown⟩ := hseen
      rw [hbytes, hw] at hdec
      cases hdec
      rw [hdst] at hshown
      exact raft_step hm (answered_arrives hi hshown) hsteady hs
    · exact absurd hi (by simp)
  · exact absurd hi (by simp)

/-! ### Handlers of the key/value server -/

theorem request (h : Matches rgob gob wgob cfg s) {rpc k b : Nat}
    {c : Labrpc.Call (EndName n) (Fin n) P} {op : Op} {net : Network (EndName n) (Fin n) P}
    (hr : cfg.rpcs[rpc]? = some k) (hn : cfg.net.step (.act k .dispatch) = some net)
    (hc : net.calls[k]? = some c) (hh : c.handler = .running b)
    (hb : cfg.instances[b]? = some inst) (ha : wgob.decode c.args = some (.kvArgs op))
    (hs : inst.kvStep gob (.request rpc op) = some inst')
    (hiso : (({ cfg with net := net } : Config n W B P).setInstance b inst').Isolated) :
    Next rgob gob wgob s (({ cfg with net := net } : Config n W B P).setInstance b inst') := by
  -- the call before its handler is called
  obtain ⟨c₀, hc₀, hst, hargs, hend⟩ : ∃ c₀, cfg.net.calls[k]? = some c₀ ∧
      c₀.handler = .started b ∧ c.args = c₀.args ∧ c.endname = c₀.endname := by
    cases Network.step_call_inv hn hc with
    | new _ _ _ he => exact absurd he (by simp)
    | kept _ he => exact absurd rfl (he .dispatch)
    | moved a c₀ he hc₀ hs =>
      cases he
      cases hs with
      | dispatch hst =>
        cases hh
        exact ⟨c₀, hc₀, hst, rfl, rfl⟩
  obtain ⟨kind, hdec, hi, ht⟩ := h.callsOk.calls k c₀ hc₀
  obtain ⟨op', rfl, hrpc⟩ := h.rpc_call hr hc₀ hdec hi
  rw [hargs] at ha
  cases hdec.symm.trans ha
  have hsent := ht.handler
  simp only [hst] at hsent
  obtain ⟨⟨inst₀, hb₀, hnum⟩, -⟩ := hsent
  obtain rfl := Option.some.inj (hb.symm.trans hb₀)
  have hreq : rpc ∈ s.requests := h.callsOk.unread rpc k c₀ hr hc₀ (by rw [hst]; trivial)
  have hok : ∀ s', Grown cfg (({ cfg with net := net } : Config n W B P).setInstance b inst') s s' →
      CallsOk wgob (({ cfg with net := net } : Config n W B P).setInstance b inst') s' :=
    fun s' hg => h.callsOk_act hg hn rfl rfl (fun _ hw => hw) (by simp) (by simp)
  have hg := Instance.kvStep_grows hs
  by_cases hcur : ∃ added, cfg.slots inst.number = .running b added
  · obtain ⟨added, hslot⟩ := hcur
    obtain ⟨s₁, hstep, hm, hmv⟩ := (h.mirrors hslot hb).kvStep hs
    have hadv : Advanced cfg (({ cfg with net := net } : Config n W B P).setInstance b inst') s s₁ b
        inst inst' :=
      ⟨hb, hg.1, hg.2, rfl, rfl, hmv, fun _ _ => hm, fun hno => absurd hslot (hno added)⟩
    have h₁ := h.advance hadv hiso rfl rfl rfl (hok s₁ hadv.grown)
    refine Or.inr ⟨.request inst.number rpc, { s₁ with requests := s.requests.erase rpc }, trivial,
      ?_, ?_⟩
    · simp only [Service.step, hrpc, hnum]
      rw [if_pos ⟨hreq, trivial⟩, ← hnum, hstep]
      rfl
    · rw [← hmv.requests]
      exact h₁.read hr hc (by rw [hh]; exact id)
  · have hadv : Advanced cfg (({ cfg with net := net } : Config n W B P).setInstance b inst') s s b
        inst inst' :=
      ⟨hb, hg.1, hg.2, rfl, rfl, .refl _ s, fun added hslot => absurd ⟨added, hslot⟩ hcur,
        fun _ => rfl⟩
    exact Or.inl (h.advance hadv hiso rfl rfl rfl (hok s hadv.grown))

/-! ### Calls of Raft peers -/

theorem callStep (hw : wgob.RoundTrip) (h : Matches rgob gob wgob cfg s) {server : Fin n}
    {request : Request Op (List B)} {net : Network (EndName n) (Fin n) P}
    (ha : cfg.instances[a]? = some inst) (hu : (server.val, request) ∈ inst.unsent)
    (hn : cfg.net.step (.call (inst.endname server) request.svcMeth
      (wgob.encode (.request request))) = some net)
    (hinst : inst' = { inst with unsent := inst.unsent.erase (server.val, request) })
    (hcfg : cfg' = { cfg.setInstance a inst' with
      net := net
      waiting := cfg.waiting ++ [⟨cfg.net.calls.length, a, server, request⟩] })
    (hiso : cfg'.Isolated) : Matches rgob gob wgob cfg' s := by
  have hlt : a < cfg.instances.length := (List.getElem?_eq_some_iff.mp ha).1
  have hshown := h.shown inst (List.mem_of_getElem? ha) _ hu
  have hcalls := net_call hn
  have hadv : Advanced cfg cfg' s s a inst inst' := by
    subst hinst hcfg
    refine ⟨ha, ⟨rfl, fun _ ho => ho, fun _ ho => ho⟩,
      fun hs p hp => hs p (List.mem_of_mem_erase hp), rfl, rfl, .refl _ s, fun added hslot => ?_,
      fun _ => rfl⟩
    have hm := h.mirrors hslot ha
    exact ⟨hm.same, hm.starting, hm.replied⟩
  have hend : inst.endname server = inst'.endname server := by rw [hinst]; rfl
  have hhistory : inst.replica = inst'.replica := by rw [hinst]
  rw [hend] at hcalls
  rw [hhistory] at hshown
  subst hcfg
  exact h.advance hadv hiso rfl rfl rfl (h.callsOk.newPeer hw hadv.grown hcalls rfl rfl
    (List.getElem?_set_self hlt) hshown)

/-! ### Clerks -/

theorem invoke (h : Matches rgob gob wgob cfg s) {client : Int} {call : KVCall}
    (hidle : (cfg.clerks client).current = none)
    (hiso : ((cfg.setClerk client { cfg.clerks client with current := some (call, none) }).note
      (.invoke (client, (cfg.clerks client).requestId) call)).Isolated) :
    Next rgob gob wgob s
      ((cfg.setClerk client { cfg.clerks client with current := some (call, none) }).note
        (.invoke (client, (cfg.clerks client).requestId) call)) := by
  refine Or.inr ⟨.invoke client call, _, trivial, ?_, h.clerkStep hiso⟩
  simp only [Service.step, h.clerks, hidle]
  rfl

theorem receiveFail (h : Matches rgob gob wgob cfg s) {client : Int} {call : KVCall} {rpc : Nat}
    (hc : (cfg.clerks client).current = some (call, some rpc))
    (hiso : (cfg.setClerk client ((cfg.clerks client).retry n call)).Isolated) :
    Next rgob gob wgob s (cfg.setClerk client ((cfg.clerks client).retry n call)) := by
  refine Or.inr ⟨.fail client, _, trivial, ?_, h.clerkStep_silent hiso⟩
  simp only [Service.step, h.clerks, hc]

theorem receive (hw : wgob.RoundTrip) (h : Matches rgob gob wgob cfg s) {client : Int}
    {call : KVCall} {rpc k : Nat} {c : Labrpc.Call (EndName n) (Fin n) P} {bytes : List P}
    {reply : KVReply} (hc : (cfg.clerks client).current = some (call, some rpc))
    (hr : cfg.rpcs[rpc]? = some k) (hk : cfg.net.calls[k]? = some c)
    (hp : c.phase = .returned ⟨true, bytes⟩) (hdec : wgob.decode bytes = some (.kvReply reply))
    (hcfg : cfg' = if reply.wrongLeader = true then
        cfg.setClerk client ((cfg.clerks client).retry n call)
      else (cfg.setClerk client (cfg.clerks client).done).note
        (.respond (client, (cfg.clerks client).requestId) (call.result reply)))
    (hiso : cfg'.Isolated) : Next rgob gob wgob s cfg' := by
  have hmem := List.contains_iff_mem.mpr (h.reply_mem hw hr hk hp hdec)
  by_cases hwrong : reply.wrongLeader = true
  · rw [if_pos hwrong] at hcfg
    subst hcfg
    refine Or.inr ⟨.reply client reply, _, trivial, ?_, h.clerkStep_silent hiso⟩
    simp only [Service.step, h.clerks, hc, if_pos hmem, if_pos hwrong]
  · rw [if_neg hwrong] at hcfg
    subst hcfg
    refine Or.inr ⟨.reply client reply, _, trivial, ?_, h.clerkStep hiso⟩
    simp only [Service.step, h.clerks, hc, if_pos hmem, if_neg hwrong]
    rfl

theorem send (hw : wgob.RoundTrip) (h : Matches rgob gob wgob cfg s) {client : Int}
    {call : KVCall} {dst : Fin n} {net : Network (EndName n) (Fin n) P}
    (hc : (cfg.clerks client).current = some (call, none))
    (hd : cfg.handles client (cfg.clerks client).leaderId = dst)
    (hn : cfg.net.step (.call (.clerk client dst)
      (call.op client (cfg.clerks client).requestId).svcMeth
      (wgob.encode (.kvArgs (call.op client (cfg.clerks client).requestId)))) = some net)
    (hcfg : cfg' = { cfg.setClerk client
        { cfg.clerks client with current := some (call, some cfg.rpcs.length) } with
      net := net
      rpcs := cfg.rpcs ++ [cfg.net.calls.length] })
    (hiso : cfg'.Isolated) : Next rgob gob wgob s cfg' := by
  subst hcfg
  refine Or.inr ⟨.send client, { s.setClerk client
        { cfg.clerks client with current := some (call, some cfg.rpcs.length) } with
      rpcs := s.rpcs ++ [⟨dst, call.op client (cfg.clerks client).requestId⟩]
      requests := s.requests ++ [s.rpcs.length] }, trivial, ?_, ?_⟩
  · simp only [Service.step, h.clerks, hc, h.handles, hd, h.callsOk.length]
  · exact {
      isolated := hiso
      clerks := by
        show Function.update s.clerks client _ = _
        rw [h.clerks]
        rfl
      handles := h.handles
      calls := h.calls
      stands := fun i => by
        obtain ⟨inst, hst, hm⟩ := h.stands i
        exact ⟨inst, hst, hm.same, hm.starting, hm.replied⟩
      config := h.config
      shown := h.shown
      callsOk := h.callsOk.newClerk hw ⟨fun _ i hi => ⟨i, hi, .refl i⟩, fun _ _ ho => ho,
        fun _ ho => ho, rfl, rfl⟩ (net_call hn) rfl rfl rfl rfl }

end Matches

end DistributionSystem.Config
