import DistributionSystem.KV.Config
import DistributionSystem.Rpc.Calls

/-! What a step of the test bed can do, said once: `Step` lists the outcomes of `step`, and
`step_cases` derives them from the functions. An instance only ever shows more. -/

namespace DistributionSystem

/-! ## Instances -/

namespace Instance

variable {n : Nat} {W B : Type}

/-- The instance goes on: what it has shown and replied stays. -/
structure Grows (inst inst' : Instance n W B) : Prop where
  place : inst'.place = inst.place
  history : inst.replica.peer.history ⊆ inst'.replica.peer.history
  replied : inst.replied ⊆ inst'.replied

theorem Grows.refl (inst : Instance n W B) : inst.Grows inst := ⟨rfl, fun _ h => h, fun _ h => h⟩

theorem Grows.trans {inst₁ inst₂ inst₃ : Instance n W B} (h : inst₁.Grows inst₂)
    (h' : inst₂.Grows inst₃) : inst₁.Grows inst₃ :=
  ⟨h'.place.trans h.place, fun _ ho => h'.history (h.history ho),
    fun _ ho => h'.replied (h.replied ho)⟩

/-- What it is about to send it has shown. -/
def Shown (inst : Instance n W B) : Prop :=
  ∀ p ∈ inst.unsent, .call p.1 p.2 ∈ inst.replica.peer.history

theorem shown_boot (rgob : Labgob Op W) (gob : KVGob B) (number : Fin n) (start : Nat)
    (persister : Persister (List B) W) : (boot rgob gob number start persister).Shown :=
  fun _ hp => absurd hp List.not_mem_nil

variable {rgob : Labgob Op W} {gob : KVGob B} {inst inst' : Instance n W B}

theorem setReplica_grows {rep : Replica W B}
    (h : inst.replica.peer.history ⊆ rep.peer.history) : inst.Grows (inst.setReplica rep) :=
  ⟨rfl, h, fun _ ho => ho⟩

theorem Shown.setReplica (h : inst.Shown) {rep : Replica W B}
    (hh : inst.replica.peer.history ⊆ rep.peer.history) : (inst.setReplica rep).Shown := by
  intro p hp
  rcases List.mem_append.mp hp with hp | hp
  · exact hh (h p hp)
  · obtain ⟨o, ho, he⟩ := List.mem_filterMap.mp hp
    split at he
    · cases he
      exact List.mem_of_mem_drop ho
    · exact absurd he (by simp)

theorem kvStep_grows {input : KVInput B} (h : inst.kvStep gob input = some inst') :
    inst.Grows inst' ∧ (inst.Shown → inst'.Shown) := by
  obtain ⟨r, -, rfl⟩ := Option.map_eq_some_iff.mp h
  exact ⟨⟨rfl, fun _ ho => ho, fun _ ho => List.mem_append_left _ ho⟩, fun hs => hs⟩

variable [DecidableEq B]

theorem raftStep_history {s s' : Replica W B} {input : Input Op (List B)}
    (h : s.raftStep rgob gob input = some s') : s.peer.history ⊆ s'.peer.history := by
  obtain ⟨rf, out, kv, -, -, rfl⟩ := Replica.raftStep_cases h
  exact fun _ ho => List.mem_append_left _ ho

theorem raftStep_grows {input : Input Op (List B)}
    (h : inst.raftStep rgob gob input = some inst') :
    inst.Grows inst' ∧ (inst.Shown → inst'.Shown) := by
  obtain ⟨rep, hrep, rfl⟩ := Option.map_eq_some_iff.mp h
  have hh := raftStep_history hrep
  exact ⟨setReplica_grows hh, fun hs => hs.setReplica hh⟩

theorem step_grows {e : InstanceEvent B} (h : inst.step rgob gob e = some inst') :
    inst.Grows inst' ∧ (inst.Shown → inst'.Shown) := by
  cases e with
  | raft input =>
    simp only [step] at h
    split at h
    · exact raftStep_grows h
    · exact absurd h (by simp)
  | start rpc op =>
    simp only [step, startOp] at h
    split at h
    · split at h
      · obtain ⟨inst₁, h₁, rfl⟩ := Option.map_eq_some_iff.mp h
        obtain ⟨hg, hs⟩ := raftStep_grows h₁
        exact ⟨⟨hg.place, hg.history, hg.replied⟩, hs⟩
      · exact kvStep_grows h
    · exact absurd h (by simp)
  | append rpc op term =>
    simp only [step, appendOp] at h
    split at h
    · obtain ⟨inst₂, h₂, rfl⟩ := Option.map_eq_some_iff.mp h
      obtain ⟨inst₁, h₁, h₂⟩ := Option.bind_eq_some_iff.mp h₂
      obtain ⟨hg, hs⟩ := raftStep_grows h₁
      obtain ⟨hg', hs'⟩ := kvStep_grows h₂
      have hgg := hg.trans hg'
      exact ⟨⟨hgg.place, hgg.history, hgg.replied⟩, fun h => hs' (hs h)⟩
    · exact absurd h (by simp)
  | kv input =>
    simp only [step] at h
    split at h
    · exact kvStep_grows h
    · exact absurd h (by simp)
  | replaceLog index data =>
    obtain ⟨rep, hrep, rfl⟩ := Option.map_eq_some_iff.mp h
    simp only [Replica.step] at hrep
    split at hrep
    · have hh := raftStep_history hrep
      exact ⟨setReplica_grows hh, fun hs => hs.setReplica hh⟩
    · exact absurd hrep (by simp)

end Instance

namespace Config

variable {n : Nat} {W B P : Type} [DecidableEq B] {rgob : Labgob Op W} {gob : KVGob B}
  {wgob : WireGob B P} {cfg cfg' : Config n W B P}

/-! ## Steps -/

/-- The steps of the test bed, one by one. -/
inductive Step (rgob : Labgob Op W) (gob : KVGob B) (wgob : WireGob B P) (cfg : Config n W B P) :
    ConfigEvent n B P → Config n W B P → Prop
  | enter {call : ConfigCall n} {ops : List (Operation n)} (hd : cfg.doing = [])
    (hb : (cfg.named call).body call = some ops) :
    Step rgob gob wgob cfg (.enter call) { cfg.named call with doing := ops }
  | operate {op : Operation n} {rest : List (Operation n)} {cfg₁ : Config n W B P}
    (hd : cfg.doing = op :: rest) (ho : cfg.operation op = some cfg₁) :
    Step rgob gob wgob cfg .operate { cfg₁ with doing := rest }
  | boot {i : Fin n} {persister : Persister (List B) W}
    {net : Labrpc.Network (EndName n) (Fin n) P} (hs : cfg.slots i = .prepared persister)
    (hsetup : net.toSetup = cfg.net.toSetup) (hcalls : net.calls = cfg.net.calls) :
    Step rgob gob wgob cfg (.boot i) { cfg.setSlot i (.running cfg.instances.length false) with
      net := net
      instances := cfg.instances ++ [Instance.boot rgob gob i (cfg.starts i) persister] }
  | addServer {i : Fin n} {a : Nat} {net : Labrpc.Network (EndName n) (Fin n) P}
    (hs : cfg.slots i = .running a false) (hn : cfg.net.step (.addServer i a) = some net) :
    Step rgob gob wgob cfg (.addServer i)
      (({ cfg with net := net } : Config n W B P).setSlot i (.running a true))
  | net {e : Labrpc.NetEvent (EndName n) (Fin n) P} {net : Labrpc.Network (EndName n) (Fin n) P}
    (hf : Free e) (hn : cfg.net.step e = some net) :
    Step rgob gob wgob cfg (.net e) { cfg with net := net }
  | inst {a : Nat} {e : InstanceEvent B} {inst inst' : Instance n W B}
    (ha : cfg.instances[a]? = some inst) (hs : inst.step rgob gob e = some inst') :
    Step rgob gob wgob cfg (.inst a e) (cfg.setInstance a inst')
  | call {a : Nat} {server : Fin n} {request : Request Op (List B)} {inst : Instance n W B}
    {net : Labrpc.Network (EndName n) (Fin n) P} (ha : cfg.instances[a]? = some inst)
    (hu : (server.val, request) ∈ inst.unsent)
    (hn : cfg.net.step (.call (inst.endname server) request.svcMeth
      (wgob.encode (.request request))) = some net) :
    Step rgob gob wgob cfg (.call a server request)
      { cfg.setInstance a { inst with unsent := inst.unsent.erase (server.val, request) } with
        net := net
        waiting := cfg.waiting ++ [⟨cfg.net.calls.length, a, server, request⟩] }
  | dispatch {call : Nat} {net : Labrpc.Network (EndName n) (Fin n) P} (hc : call ∉ cfg.rpcs)
    (hn : cfg.net.step (.act call .dispatch) = some net) :
    Step rgob gob wgob cfg (.dispatch call) { cfg with net := net }
  | serve {call b : Nat} {c : Labrpc.Call (EndName n) (Fin n) P} {inst inst' : Instance n W B}
    {request request' : Request Op (List B)} {reply : Reply}
    {net : Labrpc.Network (EndName n) (Fin n) P} (hc : cfg.net.calls[call]? = some c)
    (hh : c.handler = .running b) (hb : cfg.instances[b]? = some inst)
    (ha : wgob.decode c.args = some (.request request))
    (hs : inst.raftStep rgob gob request.input = some inst')
    (hl : inst'.replica.peer.history.getLast? = some (.reply request' reply))
    (hn : cfg.net.step (.act call (.handled (wgob.encode (.reply reply)))) = some net) :
    Step rgob gob wgob cfg (.serve call) { cfg.setInstance b inst' with net := net }
  | answer {w : Waiting n B} {election : Nat} {input : Input Op (List B)}
    {inst inst' : Instance n W B} (hw : w ∈ cfg.waiting)
    (hi : cfg.answerInput wgob w election = some input) (ha : cfg.instances[w.inst]? = some inst)
    (hs : inst.raftStep rgob gob input = some inst') :
    Step rgob gob wgob cfg (.answer w election)
      { cfg.setInstance w.inst inst' with waiting := cfg.waiting.erase w }
  | requestFatal {rpc call : Nat} {net : Labrpc.Network (EndName n) (Fin n) P}
    (hr : cfg.rpcs[rpc]? = some call) (hn : cfg.net.step (.act call .dispatch) = some net) :
    Step rgob gob wgob cfg (.request rpc) { cfg with net := net }
  | request {rpc call b : Nat} {c : Labrpc.Call (EndName n) (Fin n) P}
    {inst inst' : Instance n W B} {op : Op} {net : Labrpc.Network (EndName n) (Fin n) P}
    (hr : cfg.rpcs[rpc]? = some call) (hn : cfg.net.step (.act call .dispatch) = some net)
    (hc : net.calls[call]? = some c) (hh : c.handler = .running b)
    (hb : cfg.instances[b]? = some inst) (ha : wgob.decode c.args = some (.kvArgs op))
    (hs : inst.kvStep gob (.request rpc op) = some inst') :
    Step rgob gob wgob cfg (.request rpc)
      (({ cfg with net := net } : Config n W B P).setInstance b inst')
  | finish {rpc call b : Nat} {reply : KVReply} {c : Labrpc.Call (EndName n) (Fin n) P}
    {inst : Instance n W B} {net : Labrpc.Network (EndName n) (Fin n) P}
    (hr : cfg.rpcs[rpc]? = some call) (hc : cfg.net.calls[call]? = some c)
    (hh : c.handler = .running b) (hb : cfg.instances[b]? = some inst)
    (hm : (rpc, reply) ∈ inst.replied)
    (hn : cfg.net.step (.act call (.handled (wgob.encode (.kvReply reply)))) = some net) :
    Step rgob gob wgob cfg (.finish rpc reply) { cfg with net := net }
  | invoke {client : Int} {call : KVCall} (hidle : (cfg.clerks client).current = none) :
    Step rgob gob wgob cfg (.invoke client call)
      ((cfg.setClerk client { cfg.clerks client with current := some (call, none) }).note
        (.invoke (client, (cfg.clerks client).requestId) call))
  | send {client : Int} {call : KVCall} {dst : Fin n}
    {net : Labrpc.Network (EndName n) (Fin n) P}
    (hc : (cfg.clerks client).current = some (call, none))
    (hd : cfg.handles client (cfg.clerks client).leaderId = dst)
    (hn : cfg.net.step (.call (.clerk client dst)
      (call.op client (cfg.clerks client).requestId).svcMeth
      (wgob.encode (.kvArgs (call.op client (cfg.clerks client).requestId)))) = some net) :
    Step rgob gob wgob cfg (.send client)
      { cfg.setClerk client
          { cfg.clerks client with current := some (call, some cfg.rpcs.length) } with
        net := net
        rpcs := cfg.rpcs ++ [cfg.net.calls.length] }
  | receiveFail {client : Int} {call : KVCall} {rpc : Nat}
    (hc : (cfg.clerks client).current = some (call, some rpc)) :
    Step rgob gob wgob cfg (.receive client)
      (cfg.setClerk client ((cfg.clerks client).retry n call))
  | receive {client : Int} {call : KVCall} {rpc k : Nat}
    {c : Labrpc.Call (EndName n) (Fin n) P} {bytes : List P} {reply : KVReply}
    (hc : (cfg.clerks client).current = some (call, some rpc)) (hr : cfg.rpcs[rpc]? = some k)
    (hk : cfg.net.calls[k]? = some c) (hp : c.phase = .returned ⟨true, bytes⟩)
    (hdec : wgob.decode bytes = some (.kvReply reply)) :
    Step rgob gob wgob cfg (.receive client)
      (if reply.wrongLeader = true then cfg.setClerk client ((cfg.clerks client).retry n call)
        else (cfg.setClerk client (cfg.clerks client).done).note
          (.respond (client, (cfg.clerks client).requestId) (call.result reply)))

omit [DecidableEq B] in
theorem running_eq_some {call b : Nat} {c : Labrpc.Call (EndName n) (Fin n) P}
    {inst : Instance n W B} (h : cfg.running call = some (c, b, inst)) :
    cfg.net.calls[call]? = some c ∧ c.handler = .running b ∧ cfg.instances[b]? = some inst := by
  obtain ⟨d, hd, h⟩ := Option.bind_eq_some_iff.mp h
  split at h
  · rename_i hh
    obtain ⟨i, hi, he⟩ := Option.map_eq_some_iff.mp h
    cases he
    exact ⟨hd, hh, hi⟩
  · exact absurd h (by simp)

omit [DecidableEq B] in
theorem returned_eq_some {call : Nat} {reply : Labrpc.ReplyMsg P}
    (h : cfg.returned call = some reply) :
    ∃ c, cfg.net.calls[call]? = some c ∧ c.phase = .returned reply := by
  obtain ⟨c, hc, h⟩ := Option.bind_eq_some_iff.mp h
  split at h
  · rename_i hp
    cases h
    exact ⟨c, hc, hp⟩
  · exact absurd h (by simp)

omit [DecidableEq B] in
theorem netStep_eq_some {e : Labrpc.NetEvent (EndName n) (Fin n) P}
    (h : cfg.netStep e = some cfg') :
    ∃ net, cfg.net.step e = some net ∧ cfg' = { cfg with net := net } := by
  obtain ⟨net, hn, rfl⟩ := Option.map_eq_some_iff.mp h
  exact ⟨net, hn, rfl⟩

omit [DecidableEq B] in
/-- The network makes no call and none of its calls goes on. -/
theorem net_calls_same {e : Labrpc.NetEvent (EndName n) (Fin n) P}
    {rn rn' : Labrpc.Network (EndName n) (Fin n) P} (h : rn.step e = some rn')
    (hact : ∀ i a, e ≠ .act i a) (hcall : ∀ m s b, e ≠ .call m s b) : rn'.calls = rn.calls := by
  cases Labrpc.Network.step_calls h with
  | same _ hc => exact hc
  | new m s b he => exact absurd he (hcall m s b)
  | act i a _ _ he => exact absurd he (hact i a)

theorem boot_cases {i : Fin n} (h : cfg.boot rgob gob i = some cfg') :
    Step rgob gob wgob cfg (.boot i) cfg' := by
  unfold boot at h
  split at h
  · rename_i persister hs
    obtain ⟨net₁, h₁, h⟩ := Option.bind_eq_some_iff.mp h
    obtain ⟨net₂, h₂, h⟩ := Option.bind_eq_some_iff.mp h
    obtain ⟨net₃, h₃, h⟩ := Option.bind_eq_some_iff.mp h
    cases h
    refine Step.boot hs ?_ ?_
    · rw [Labrpc.Network.step_setup h₃, Labrpc.Network.step_setup h₂,
        Labrpc.Network.step_setup h₁]
      rfl
    · rw [net_calls_same h₃ (by simp) (by simp), net_calls_same h₂ (by simp) (by simp),
        net_calls_same h₁ (by simp) (by simp)]
  · exact absurd h (by simp)

theorem serve_cases {call : Nat} (h : cfg.serve rgob gob wgob call = some cfg') :
    Step rgob gob wgob cfg (.serve call) cfg' := by
  obtain ⟨⟨c, b, inst⟩, hrun, h⟩ := Option.bind_eq_some_iff.mp h
  obtain ⟨hc, hh, hb⟩ := running_eq_some hrun
  obtain ⟨w, hw, h⟩ := Option.bind_eq_some_iff.mp h
  split at h
  · obtain ⟨inst', hs, h⟩ := Option.bind_eq_some_iff.mp h
    obtain ⟨o, hl, h⟩ := Option.bind_eq_some_iff.mp h
    split at h
    · obtain ⟨net, hn, rfl⟩ := netStep_eq_some h
      exact Step.serve hc hh hb hw hs hl hn
    · exact absurd h (by simp)
  · exact absurd h (by simp)

theorem answer_cases {w : Waiting n B} {election : Nat}
    (h : cfg.answer rgob gob wgob w election = some cfg') :
    Step rgob gob wgob cfg (.answer w election) cfg' := by
  unfold answer at h
  split at h
  · rename_i hw
    obtain ⟨input, hi, h⟩ := Option.bind_eq_some_iff.mp h
    obtain ⟨inst, ha, h⟩ := Option.bind_eq_some_iff.mp h
    obtain ⟨inst', hs, h⟩ := Option.bind_eq_some_iff.mp h
    cases h
    exact Step.answer hw hi ha hs
  · exact absurd h (by simp)

theorem request_cases {rpc : Nat} (h : cfg.request gob wgob rpc = some cfg') :
    Step rgob gob wgob cfg (.request rpc) cfg' := by
  obtain ⟨call, hr, h⟩ := Option.bind_eq_some_iff.mp h
  obtain ⟨cfg₁, hcfg, h⟩ := Option.bind_eq_some_iff.mp h
  obtain ⟨net, hn, rfl⟩ := netStep_eq_some hcfg
  split at h
  · cases h
    exact Step.requestFatal hr hn
  · obtain ⟨⟨c, b, inst⟩, hrun, h⟩ := Option.bind_eq_some_iff.mp h
    obtain ⟨hc, hh, hb⟩ := running_eq_some hrun
    obtain ⟨w, hw, h⟩ := Option.bind_eq_some_iff.mp h
    split at h
    · obtain ⟨inst', hs, h⟩ := Option.bind_eq_some_iff.mp h
      cases h
      exact Step.request hr hn hc hh hb hw hs
    · exact absurd h (by simp)

theorem finish_cases {rpc : Nat} {reply : KVReply} (h : cfg.finish wgob rpc reply = some cfg') :
    Step rgob gob wgob cfg (.finish rpc reply) cfg' := by
  obtain ⟨call, hr, h⟩ := Option.bind_eq_some_iff.mp h
  obtain ⟨⟨c, b, inst⟩, hrun, h⟩ := Option.bind_eq_some_iff.mp h
  obtain ⟨hc, hh, hb⟩ := running_eq_some hrun
  simp only at h
  split at h
  · rename_i hm
    obtain ⟨net, hn, rfl⟩ := netStep_eq_some h
    exact Step.finish hr hc hh hb (List.contains_iff_mem.mp hm) hn
  · exact absurd h (by simp)

theorem receive_cases {client : Int} (h : cfg.receive wgob client = some cfg') :
    Step rgob gob wgob cfg (.receive client) cfg' := by
  simp only [receive] at h
  split at h
  · rename_i call rpc hc
    obtain ⟨reply, hreply, h⟩ := Option.bind_eq_some_iff.mp h
    obtain ⟨k, hr, hret⟩ := Option.bind_eq_some_iff.mp hreply
    obtain ⟨c, hk, hp⟩ := returned_eq_some hret
    split at h
    · rename_i hok
      obtain ⟨w, hw, h⟩ := Option.bind_eq_some_iff.mp h
      split at h
      · rename_i kvr
        have hp' : c.phase = .returned ⟨true, reply.reply⟩ := by rw [hp, ← hok]
        have hstep : Step rgob gob wgob cfg (.receive client) _ := Step.receive hc hr hk hp' hw
        split at h
        · rename_i hwrong
          cases h
          rwa [if_pos hwrong] at hstep
        · rename_i hwrong
          cases h
          rwa [if_neg hwrong] at hstep
      · exact absurd h (by simp)
    · cases h
      exact Step.receiveFail hc
  · exact absurd h (by simp)

theorem step_cases {e : ConfigEvent n B P} (h : cfg.step rgob gob wgob e = some cfg') :
    Step rgob gob wgob cfg e cfg' := by
  have h : cfg.next rgob gob wgob e = some cfg' := by
    unfold step at h
    split at h
    · exact absurd h (by simp)
    · exact h
  cases e with
  | enter call =>
    simp only [next] at h
    split at h
    · rename_i hd
      obtain ⟨ops, hb, rfl⟩ := Option.map_eq_some_iff.mp h
      exact Step.enter hd hb
    · exact absurd h (by simp)
  | operate =>
    simp only [next] at h
    split at h
    · rename_i op rest hd
      obtain ⟨cfg₁, ho, rfl⟩ := Option.map_eq_some_iff.mp h
      exact Step.operate hd ho
    · exact absurd h (by simp)
  | boot i => exact boot_cases h
  | addServer i =>
    simp only [next, addServer] at h
    split at h
    · rename_i a hs
      obtain ⟨cfg₁, hcfg, rfl⟩ := Option.map_eq_some_iff.mp h
      obtain ⟨net, hn, rfl⟩ := netStep_eq_some hcfg
      exact Step.addServer hs hn
    · exact absurd h (by simp)
  | net e =>
    simp only [next] at h
    split at h
    · rename_i hf
      obtain ⟨net, hn, rfl⟩ := netStep_eq_some h
      exact Step.net hf hn
    · exact absurd h (by simp)
  | inst a e =>
    obtain ⟨inst, ha, h⟩ := Option.bind_eq_some_iff.mp h
    obtain ⟨inst', hs, rfl⟩ := Option.map_eq_some_iff.mp h
    exact Step.inst ha hs
  | call a server request =>
    simp only [next, call] at h
    split at h
    · rename_i inst ha
      split at h
      · rename_i hu
        obtain ⟨cfg₁, hcfg, rfl⟩ := Option.map_eq_some_iff.mp h
        obtain ⟨net, hn, rfl⟩ := netStep_eq_some hcfg
        exact Step.call ha hu hn
      · exact absurd h (by simp)
    · exact absurd h (by simp)
  | dispatch call =>
    simp only [next] at h
    split at h
    · exact absurd h (by simp)
    · rename_i hc
      obtain ⟨net, hn, rfl⟩ := netStep_eq_some h
      exact Step.dispatch hc hn
  | serve call => exact serve_cases h
  | answer w election => exact answer_cases h
  | request rpc => exact request_cases h
  | finish rpc reply => exact finish_cases h
  | invoke client call =>
    simp only [next] at h
    split at h
    · rename_i hidle
      cases h
      exact Step.invoke (Option.isNone_iff_eq_none.mp hidle.1)
    · exact absurd h (by simp)
  | send client =>
    simp only [next, send] at h
    split at h
    · rename_i call hc
      split at h
      · rename_i hlt
        obtain ⟨cfg₁, hcfg, rfl⟩ := Option.map_eq_some_iff.mp h
        obtain ⟨net, hn, rfl⟩ := netStep_eq_some hcfg
        exact Step.send hc rfl hn
      · exact absurd h (by simp)
    · exact absurd h (by simp)
  | receive client => exact receive_cases h

end Config

end DistributionSystem
