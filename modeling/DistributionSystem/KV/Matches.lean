import DistributionSystem.KV.Instances
import DistributionSystem.KV.Isolation
import DistributionSystem.Rpc.Traced

/-! How a state of the test bed stands for one of `Service`: the instance that runs in a slot for
the replica, and each call of the network for messages that the service has on their way. -/

namespace DistributionSystem.Config

open Labrpc

variable {n : Nat} {W B P : Type} {wgob : WireGob B P} {cfg cfg' : Config n W B P}
  {s s' : Service n W B}

/-! ## Calls -/

/-- What a call carries: the request of a Raft peer, or RPC number `rpc` of the clerks. -/
inductive Kind (B : Type) where
  | peer (request : Request Op (List B))
  | kv (rpc : Nat) (op : Op)

namespace Kind

def wire : Kind B → Wire B
  | .peer request => .request request
  | .kv _ op => .kvArgs op

/-- The bytes are a reply to the call among those that were shown. -/
def Answer (wgob : WireGob B P) (history : List (Output Op (List B)))
    (replies : List (Nat × KVReply)) (bytes : List P) : Kind B → Prop
  | .peer request => ∃ reply, bytes = wgob.encode (.reply reply) ∧ .reply request reply ∈ history
  | .kv rpc _ => ∃ reply, bytes = wgob.encode (.kvReply reply) ∧ (rpc, reply) ∈ replies

theorem Answer.mono {history history' : List (Output Op (List B))}
    {replies replies' : List (Nat × KVReply)} {bytes : List P} {kind : Kind B}
    (h : kind.Answer wgob history replies bytes) (hh : history ⊆ history')
    (hr : replies ⊆ replies') : kind.Answer wgob history' replies' bytes := by
  cases kind with
  | peer request =>
    obtain ⟨reply, rfl, hm⟩ := h
    exact ⟨reply, rfl, hh hm⟩
  | kv rpc op =>
    obtain ⟨reply, rfl, hm⟩ := h
    exact ⟨reply, rfl, hr hm⟩

/-- Where the call comes from. -/
def Issued (cfg : Config n W B P) (s : Service n W B) (k : Nat) (endname : EndName n) :
    Kind B → Prop
  | .peer request => ∃ (a : Nat) (inst : Instance n W B), cfg.instances[a]? = some inst ∧
    endname = inst.endname endname.dst ∧ .call endname.dst request ∈ inst.replica.peer.history
  | .kv rpc op => cfg.rpcs[rpc]? = some k ∧ s.rpcs[rpc]? = some ⟨endname.dst, op⟩

/-- The request may get to instance `b`: the service has sent it to this server. -/
def Sent (cfg : Config n W B P) (s : Service n W B) (dst : Fin n) (kind : Kind B) (b : Nat) : Prop :=
  (∃ inst : Instance n W B, cfg.instances[b]? = some inst ∧ inst.number = dst) ∧
    match kind with
    | .peer request => ∃ src, .call dst request ∈ (s.replicas src).peer.history
    | .kv .. => True

/-- Instance `b` makes the reply. -/
def Made (wgob : WireGob B P) (cfg : Config n W B P) (kind : Kind B) (b : Nat)
    (bytes : List P) : Prop :=
  ∃ inst : Instance n W B, cfg.instances[b]? = some inst ∧
    kind.Answer wgob inst.replica.peer.history inst.replied bytes

/-- The service has the reply. -/
def Seen (wgob : WireGob B P) (s : Service n W B) (dst : Fin n) (kind : Kind B) (bytes : List P) :
    Prop :=
  kind.Answer wgob (s.replicas dst).peer.history s.replies bytes

end Kind

/-- The handler has not been called. -/
def fresh : Labrpc.Handler P → Prop
  | .idle | .started _ => True
  | _ => False

/-- Each call of the network is one that the service knows. -/
structure CallsOk (wgob : WireGob B P) (cfg : Config n W B P) (s : Service n W B) : Prop where
  calls : ∀ (k : Nat) c, cfg.net.calls[k]? = some c → ∃ kind : Kind B,
    wgob.decode c.args = some kind.wire ∧ kind.Issued cfg s k c.endname ∧
      Traced c.endname.dst (kind.Sent cfg s c.endname.dst) (kind.Made wgob cfg)
        (kind.Seen wgob s c.endname.dst) c
  unread : ∀ (rpc k : Nat) c, cfg.rpcs[rpc]? = some k → cfg.net.calls[k]? = some c →
    fresh c.handler → rpc ∈ s.requests
  length : cfg.rpcs.length = s.rpcs.length
  inj : ∀ rpc rpc' k : Nat, cfg.rpcs[rpc]? = some k → cfg.rpcs[rpc']? = some k → rpc = rpc'
  kv : ∀ rpc k : Nat, cfg.rpcs[rpc]? = some k → ∃ c op, cfg.net.calls[k]? = some c ∧
    wgob.decode c.args = some (.kvArgs op)
  waiting : ∀ w ∈ cfg.waiting, ∃ c, cfg.net.calls[w.call]? = some c ∧
    wgob.decode c.args = some (.request w.request) ∧ c.endname.dst = w.server

/-- Nothing that was shown is lost. -/
structure Grown (cfg cfg' : Config n W B P) (s s' : Service n W B) : Prop where
  instances : ∀ (b : Nat) (inst : Instance n W B), cfg.instances[b]? = some inst →
    ∃ inst', cfg'.instances[b]? = some inst' ∧ inst.Grows inst'
  histories : ∀ i, (s.replicas i).peer.history ⊆ (s'.replicas i).peer.history
  replies : s.replies ⊆ s'.replies
  rpcs : s'.rpcs = s.rpcs
  requests : s'.requests = s.requests

theorem Grown.sent (h : Grown cfg cfg' s s') {dst : Fin n} {kind : Kind B} {b : Nat}
    (hs : kind.Sent cfg s dst b) : kind.Sent cfg' s' dst b := by
  obtain ⟨⟨inst, hb, hnum⟩, hk⟩ := hs
  obtain ⟨inst', hb', hg⟩ := h.instances b inst hb
  refine ⟨⟨inst', hb', (congrArg Prod.fst hg.place).trans hnum⟩, ?_⟩
  cases kind with
  | peer request =>
    obtain ⟨src, hsrc⟩ := hk
    exact ⟨src, h.histories src hsrc⟩
  | kv => trivial

theorem Grown.traced (h : Grown cfg cfg' s s') {dst : Fin n} {kind : Kind B}
    {c : Labrpc.Call (EndName n) (Fin n) P}
    (ht : Traced dst (kind.Sent cfg s dst) (kind.Made wgob cfg) (kind.Seen wgob s dst) c) :
    Traced dst (kind.Sent cfg' s' dst) (kind.Made wgob cfg') (kind.Seen wgob s' dst) c := by
  refine ht.mono (fun b => h.sent) ?_ ?_
  · rintro b bytes ⟨inst, hb, ha⟩
    obtain ⟨inst', hb', hg⟩ := h.instances b inst hb
    exact ⟨inst', hb', ha.mono hg.history hg.replied⟩
  · intro bytes ha
    exact Kind.Answer.mono ha (h.histories dst) h.replies

theorem Grown.issued_peer (h : Grown cfg cfg' s s') {k : Nat} {endname : EndName n}
    {request : Request Op (List B)} (hi : (Kind.peer request).Issued cfg s k endname) :
    (Kind.peer request).Issued cfg' s' k endname := by
  obtain ⟨a, inst, ha, he, hm⟩ := hi
  obtain ⟨inst', ha', hg⟩ := h.instances a inst ha
  have hnum : inst'.number = inst.number := congrArg Prod.fst hg.place
  have hst : inst'.start = inst.start := congrArg Prod.snd hg.place
  refine ⟨a, inst', ha', ?_, hg.history hm⟩
  rw [he]
  unfold Instance.endname
  rw [hnum, hst]
  rfl

theorem Grown.issued (h : Grown cfg cfg' s s') (hr : cfg'.rpcs = cfg.rpcs) {k : Nat}
    {endname : EndName n} {kind : Kind B} (hi : kind.Issued cfg s k endname) :
    kind.Issued cfg' s' k endname := by
  cases kind with
  | peer request => exact h.issued_peer hi
  | kv rpc op =>
    obtain ⟨hk, hop⟩ := hi
    exact ⟨hr.symm ▸ hk, h.rpcs.symm ▸ hop⟩

/-- The network stays as it is. -/
theorem CallsOk.grow (h : CallsOk wgob cfg s) (hg : Grown cfg cfg' s s')
    (hcalls : cfg'.net.calls = cfg.net.calls) (hr : cfg'.rpcs = cfg.rpcs)
    (hw : ∀ w ∈ cfg'.waiting, w ∈ cfg.waiting) : CallsOk wgob cfg' s' := by
  refine ⟨fun k c hc => ?_, ?_, ?_, ?_, ?_, fun w hmem => ?_⟩
  · rw [hcalls] at hc
    obtain ⟨kind, hdec, hi, ht⟩ := h.calls k c hc
    exact ⟨kind, hdec, hg.issued hr hi, hg.traced ht⟩
  · rw [hr, hcalls, hg.requests]
    exact h.unread
  · rw [hr, hg.rpcs]
    exact h.length
  · rw [hr]
    exact h.inj
  · rw [hr, hcalls]
    exact h.kv
  · rw [hcalls]
    exact h.waiting w (hw w hmem)

/-! ### New calls -/

/-- A goroutine of a Raft peer makes a call. -/
theorem CallsOk.newPeer (hw : wgob.RoundTrip) (h : CallsOk wgob cfg s) (hg : Grown cfg cfg' s s)
    {a : Nat} {inst : Instance n W B} {server : Fin n} {request : Request Op (List B)}
    {svcMeth : String}
    (hcalls : cfg'.net.calls = cfg.net.calls ++ [⟨inst.endname server, svcMeth,
      wgob.encode (.request request), .sending, .idle, false⟩])
    (hr : cfg'.rpcs = cfg.rpcs)
    (hwait : cfg'.waiting = cfg.waiting ++ [⟨cfg.net.calls.length, a, server, request⟩])
    (ha : cfg'.instances[a]? = some inst)
    (hm : .call server request ∈ inst.replica.peer.history) : CallsOk wgob cfg' s := by
  refine ⟨fun j c hc => ?_, fun rpc k c hk hc hf => ?_, by rw [hr]; exact h.length,
    by rw [hr]; exact h.inj, fun rpc k hk => ?_, fun w hmem => ?_⟩
  · rw [hcalls] at hc
    rcases concat_cases hc with hc | ⟨-, rfl⟩
    · obtain ⟨kind, hdec, hi, ht⟩ := h.calls j c hc
      exact ⟨kind, hdec, hg.issued hr hi, hg.traced ht⟩
    · exact ⟨.peer request, hw _, ⟨a, inst, ha, rfl, hm⟩, .new ..⟩
  · rw [hr] at hk
    obtain ⟨c₀, -, hc₀, -⟩ := h.kv rpc k hk
    rw [hcalls, concat_old hc₀] at hc
    exact h.unread rpc k c hk (hc₀.trans hc) hf
  · rw [hr] at hk
    obtain ⟨c, op, hc, hdec⟩ := h.kv rpc k hk
    exact ⟨c, op, by rw [hcalls]; exact concat_old hc, hdec⟩
  · rw [hwait] at hmem
    rcases List.mem_append.mp hmem with hmem | hmem
    · obtain ⟨c, hc, hx⟩ := h.waiting w hmem
      exact ⟨c, by rw [hcalls]; exact concat_old hc, hx⟩
    · obtain rfl := List.mem_singleton.mp hmem
      exact ⟨_, by rw [hcalls]; exact List.getElem?_concat_length, hw _, rfl⟩

/-- A clerk makes a call. -/
theorem CallsOk.newClerk (hw : wgob.RoundTrip) (h : CallsOk wgob cfg s)
    (hg : Grown cfg cfg' s { s' with rpcs := s.rpcs, requests := s.requests }) {client : Int}
    {dst : Fin n} {op : Op} {svcMeth : String}
    (hcalls : cfg'.net.calls = cfg.net.calls ++ [⟨.clerk client dst, svcMeth,
      wgob.encode (.kvArgs op), .sending, .idle, false⟩])
    (hr : cfg'.rpcs = cfg.rpcs ++ [cfg.net.calls.length]) (hwait : cfg'.waiting = cfg.waiting)
    (hrpcs : s'.rpcs = s.rpcs ++ [⟨dst, op⟩])
    (hreq : s'.requests = s.requests ++ [s.rpcs.length]) : CallsOk wgob cfg' s' := by
  have hlt : ∀ {rpc k : Nat}, cfg.rpcs[rpc]? = some k → k ≠ cfg.net.calls.length := by
    intro rpc k hk
    obtain ⟨c, -, hc, -⟩ := h.kv rpc k hk
    exact Nat.ne_of_lt (List.getElem?_eq_some_iff.mp hc).1
  refine ⟨fun j c hc => ?_, fun rpc k c hk hc hf => ?_, ?_, fun rpc rpc' k hk hk' => ?_,
    fun rpc k hk => ?_, fun w hmem => ?_⟩
  · rw [hcalls] at hc
    rcases concat_cases hc with hc | ⟨rfl, rfl⟩
    · obtain ⟨kind, hdec, hi, ht⟩ := h.calls j c hc
      refine ⟨kind, hdec, ?_, hg.traced ht⟩
      cases kind with
      | peer request => exact hg.issued_peer hi
      | kv rpc op' =>
        refine ⟨?_, ?_⟩
        · rw [hr]
          exact concat_old hi.1
        · rw [hrpcs]
          exact concat_old hi.2
    · refine ⟨.kv s.rpcs.length op, hw _, ⟨?_, ?_⟩, .new ..⟩
      · rw [hr, ← h.length]
        exact List.getElem?_concat_length
      · rw [hrpcs]
        exact List.getElem?_concat_length
  · rw [hr] at hk
    rw [hreq]
    rcases concat_cases hk with hk | ⟨rfl, rfl⟩
    · obtain ⟨c₀, -, hc₀, -⟩ := h.kv rpc k hk
      rw [hcalls, concat_old hc₀] at hc
      exact List.mem_append_left _ (h.unread rpc k c hk (hc₀.trans hc) hf)
    · rw [h.length]
      simp
  · rw [hr, hrpcs]
    simp [h.length]
  · rw [hr] at hk hk'
    rcases concat_cases hk with hk | ⟨rfl, rfl⟩ <;> rcases concat_cases hk' with hk' | ⟨rfl, hkk⟩
    · exact h.inj rpc rpc' k hk hk'
    · exact absurd hkk (hlt hk)
    · exact absurd rfl (hlt hk')
    · rfl
  · rw [hr] at hk
    rw [hcalls]
    rcases concat_cases hk with hk | ⟨rfl, rfl⟩
    · obtain ⟨c, op, hc, hdec⟩ := h.kv rpc k hk
      exact ⟨c, op, concat_old hc, hdec⟩
    · exact ⟨_, op, List.getElem?_concat_length, hw _⟩
  · rw [hwait] at hmem
    obtain ⟨c, hc, hx⟩ := h.waiting w hmem
    exact ⟨c, by rw [hcalls]; exact concat_old hc, hx⟩

/-! ## The relation -/

/-- The instance that stands for server `i`; for one that is down, the next one. -/
def standing (rgob : Labgob Op W) (gob : KVGob B) (cfg : Config n W B P) (i : Fin n) :
    Option (Instance n W B) :=
  match cfg.slots i with
  | .down saved => some (Instance.boot rgob gob i 0 (saved.getD makePersister))
  | .prepared saved => some (Instance.boot rgob gob i 0 saved)
  | .running a _ => cfg.instances[a]?

structure Matches (rgob : Labgob Op W) (gob : KVGob B) (wgob : WireGob B P) (cfg : Config n W B P)
    (s : Service n W B) : Prop where
  isolated : cfg.Isolated
  clerks : s.clerks = cfg.clerks
  handles : s.handles = cfg.handles
  calls : s.calls = cfg.calls
  stands : ∀ i, ∃ inst, cfg.standing rgob gob i = some inst ∧ inst.Mirrors s i
  config : ∀ i, (s.replicas i).peer.raft.me = i ∧ (s.replicas i).peer.raft.peers = n
  shown : ∀ inst ∈ cfg.instances, inst.Shown
  callsOk : CallsOk wgob cfg s

namespace Matches

variable {rgob : Labgob Op W} {gob : KVGob B}

/-- A server that runs. -/
theorem mirrors (h : Matches rgob gob wgob cfg s) {i : Fin n} {a : Nat} {added : Bool}
    (hs : cfg.slots i = .running a added) {inst : Instance n W B}
    (ha : cfg.instances[a]? = some inst) : inst.Mirrors s i := by
  obtain ⟨inst', hst, hm⟩ := h.stands i
  unfold standing at hst
  rw [hs] at hst
  obtain rfl := Option.some.inj (ha.symm.trans hst)
  exact hm

/-- The network leads to the instance that runs. -/
theorem sent_of_route (h : Matches rgob gob wgob cfg s) {k : Nat} {endname : EndName n}
    {kind : Kind B} (hi : kind.Issued cfg s k endname) {r : Route (Fin n)}
    (hr : cfg.net.readEndnameInfo endname = some r) :
    r.servername = endname.dst ∧ kind.Sent cfg s endname.dst r.server := by
  unfold Setup.readEndnameInfo at hr
  split at hr
  · rename_i hen
    split at hr
    · exact absurd hr (by simp)
    · rename_i name hconn
      obtain ⟨b, hb, rfl⟩ := Option.map_eq_some_iff.mp hr
      obtain rfl : name = endname.dst := h.isolated.connections _ _ hconn
      obtain ⟨inst, hinst, hnum, -⟩ := h.isolated.runs _ b true (h.isolated.servers _ b hb)
      refine ⟨rfl, ⟨inst, hinst, hnum⟩, ?_⟩
      cases kind with
      | kv => trivial
      | peer request =>
        -- an end that is enabled is one of an instance that runs
        obtain ⟨a, src, ha, he, hm⟩ := hi
        rw [he] at hen
        obtain ⟨added, hslot⟩ := (h.isolated.last a src ha).2 (h.isolated.enabled _ _ _ hen)
        exact ⟨src.number, (h.mirrors hslot ha).same.history hm⟩
  · exact absurd hr (by simp)

/-- A reply that passes the last look of `ProcessReq` is one of the instance that runs. -/
theorem seen_of_alive (h : Matches rgob gob wgob cfg s) {endname : EndName n} {kind : Kind B}
    {r : Route (Fin n)} {bytes : List P} (halive : cfg.net.isServerDead endname r = false)
    (hd : r.servername = endname.dst) (hm : kind.Made wgob cfg r.server bytes) :
    kind.Seen wgob s endname.dst bytes := by
  have hserver : cfg.net.servers endname.dst = some r.server := by
    simp only [Setup.isServerDead, Bool.or_eq_false_iff, decide_eq_false_iff_not] at halive
    rw [← hd]
    exact Decidable.not_not.mp halive.2
  obtain ⟨inst, hb, ha⟩ := hm
  have hmir := h.mirrors (h.isolated.servers _ _ hserver) hb
  exact ha.mono hmir.same.history hmir.replied

end Matches

/-! ## Steps of the network -/

/-- The handler of a call is called once. -/
theorem fresh_of_step {dst : Fin n} {sent : Nat → Prop} {made : Nat → List P → Prop}
    {seen : List P → Prop} {c c' : Labrpc.Call (EndName n) (Fin n) P} {rn : Setup (EndName n) (Fin n)}
    {a : Action P} (ht : Traced dst sent made seen c) (hs : Labrpc.Call.Step rn c a c')
    (hf : fresh c'.handler) : fresh c.handler := by
  cases hs with
  | execute hp =>
    have hphase := ht.phase
    simp only [hp] at hphase
    rw [hphase.1]
    trivial
  | receive | dispatch | handled | drain => exact absurd hf id
  | _ => exact hf

/-- A call stays what it is. -/
theorem call_stays {rn rn' : Network (EndName n) (Fin n) P} {e : NetEvent (EndName n) (Fin n) P}
    (h : rn.step e = some rn') {k : Nat} {c : Labrpc.Call (EndName n) (Fin n) P}
    (hc : rn.calls[k]? = some c) :
    ∃ c', rn'.calls[k]? = some c' ∧ c'.args = c.args ∧ c'.endname = c.endname := by
  rcases Network.step_call h hc with ⟨hc', -⟩ | ⟨a, c', -, hs, hc'⟩
  · exact ⟨c, hc', rfl, rfl⟩
  · exact ⟨c', hc', hs.args, hs.endname⟩

namespace Matches

variable {rgob : Labgob Op W} {gob : KVGob B}

/-- A step of one of the goroutines of a call. -/
theorem callsOk_act (h : Matches rgob gob wgob cfg s) (hg : Grown cfg cfg' s s') {k : Nat}
    {a : Action P} {net : Network (EndName n) (Fin n) P} (hn : cfg.net.step (.act k a) = some net)
    (hcalls : cfg'.net.calls = net.calls) (hr : cfg'.rpcs = cfg.rpcs)
    (hw : ∀ w ∈ cfg'.waiting, w ∈ cfg.waiting)
    (hcheck : a = .check → cfg'.instances = cfg.instances)
    (hmade : ∀ c b bytes (kind : Kind B), cfg.net.calls[k]? = some c → c.handler = .running b →
      a = .handled bytes → wgob.decode c.args = some kind.wire → kind.Issued cfg s k c.endname →
        kind.Made wgob cfg' b bytes) : CallsOk wgob cfg' s' := by
  have hok := h.callsOk
  refine ⟨fun j c' hc' => ?_, fun rpc j c' hj hc' hf => ?_, ?_, ?_, fun rpc j hj => ?_,
    fun w hmem => ?_⟩
  · rw [hcalls] at hc'
    cases Network.step_call_inv hn hc' with
    | new _ _ _ he => exact absurd he (by simp)
    | kept hc =>
      obtain ⟨kind, hdec, hi, ht⟩ := hok.calls j c' hc
      exact ⟨kind, hdec, hg.issued hr hi, hg.traced ht⟩
    | moved a' c he hc hs =>
      cases he
      obtain ⟨kind, hdec, hi, ht⟩ := hok.calls k c hc
      rw [hs.args, hs.endname]
      refine ⟨kind, hdec, hg.issued hr hi, (hg.traced ht).step hs (fun r hroute => ?_)
        (fun b bytes ha hrun => hmade c b bytes kind hc hrun ha hdec hi)
        (fun r bytes ha halive hdst hm => ?_)⟩
      · obtain ⟨hdst, hsent⟩ := h.sent_of_route hi hroute
        exact ⟨hdst, hg.sent hsent⟩
      · unfold Kind.Made at hm
        rw [hcheck ha] at hm
        exact Kind.Answer.mono (h.seen_of_alive halive hdst hm) (hg.histories _) hg.replies
  · rw [hr] at hj
    rw [hcalls] at hc'
    rw [hg.requests]
    cases Network.step_call_inv hn hc' with
    | new _ _ _ he => exact absurd he (by simp)
    | kept hc => exact hok.unread rpc j c' hj hc hf
    | moved a' c he hc hs =>
      obtain ⟨kind, -, -, ht⟩ := hok.calls j c hc
      exact hok.unread rpc j c hj hc (fresh_of_step ht hs hf)
  · rw [hr, hg.rpcs]
    exact hok.length
  · rw [hr]
    exact hok.inj
  · rw [hr] at hj
    obtain ⟨c, op, hc, hdec⟩ := hok.kv rpc j hj
    obtain ⟨c', hc', hargs, -⟩ := call_stays hn hc
    rw [hcalls]
    exact ⟨c', op, hc', by rw [hargs]; exact hdec⟩
  · obtain ⟨c, hc, hdec, hdst⟩ := hok.waiting w (hw w hmem)
    obtain ⟨c', hc', hargs, hend⟩ := call_stays hn hc
    rw [hcalls]
    exact ⟨c', hc', by rw [hargs]; exact hdec, by rw [hend]; exact hdst⟩

/-! ## Steps of the instances -/

/-- One instance has changed, and the service has followed if it is one that runs. -/
structure Advanced (cfg cfg' : Config n W B P) (s s' : Service n W B) (a : Nat)
    (inst inst' : Instance n W B) : Prop where
  here : cfg.instances[a]? = some inst
  grows : inst.Grows inst'
  shown : inst.Shown → inst'.Shown
  slots : cfg'.slots = cfg.slots
  instances : cfg'.instances = cfg.instances.set a inst'
  moves : Service.Moves inst.number s s'
  runs : ∀ added, cfg.slots inst.number = .running a added → inst'.Mirrors s' inst.number
  old : (∀ added, cfg.slots inst.number ≠ .running a added) → s' = s

theorem mirrors_moved {inst : Instance n W B} {i j : Fin n}
    (h : inst.Mirrors s i) (hm : Service.Moves j s s') (hne : i ≠ j) : inst.Mirrors s' i := by
  refine ⟨?_, ?_, fun _ hp => hm.replies (h.replied hp)⟩
  · rw [hm.replicas i hne]
    exact h.same
  · rw [hm.starting i hne]
    exact h.starting

variable {a : Nat} {inst inst' : Instance n W B}

theorem Advanced.grown (hadv : Advanced cfg cfg' s s' a inst inst') : Grown cfg cfg' s s' := by
  refine ⟨fun b i hb => ?_, fun i => ?_, hadv.moves.replies, hadv.moves.rpcs, hadv.moves.requests⟩
  · rw [hadv.instances]
    by_cases hab : a = b
    · subst hab
      obtain ⟨hlt, -⟩ := List.getElem?_eq_some_iff.mp hb
      obtain rfl := Option.some.inj (hadv.here.symm.trans hb)
      exact ⟨inst', List.getElem?_set_self hlt, hadv.grows⟩
    · exact ⟨i, by rw [List.getElem?_set_ne hab]; exact hb, .refl i⟩
  · by_cases hi : i = inst.number
    · subst hi
      exact hadv.moves.history
    · rw [hadv.moves.replicas i hi]
      exact fun _ h => h

theorem Advanced.stands (h : Matches rgob gob wgob cfg s)
    (hadv : Advanced cfg cfg' s s' a inst inst') (i : Fin n) :
    ∃ inst₁, cfg'.standing rgob gob i = some inst₁ ∧ inst₁.Mirrors s' i := by
  have hlt : a < cfg.instances.length := (List.getElem?_eq_some_iff.mp hadv.here).1
  by_cases hcur : ∃ added, cfg.slots i = .running a added
  · obtain ⟨added, hslot⟩ := hcur
    obtain ⟨inst₀, ha, rfl, -⟩ := h.isolated.runs i a added hslot
    obtain rfl := Option.some.inj (hadv.here.symm.trans ha)
    refine ⟨inst', ?_, hadv.runs added hslot⟩
    unfold standing
    rw [hadv.slots, hslot, hadv.instances]
    exact List.getElem?_set_self hlt
  · obtain ⟨inst₁, hst, hm⟩ := h.stands i
    refine ⟨inst₁, ?_, ?_⟩
    · unfold standing at hst ⊢
      rw [hadv.slots]
      split at hst
      · exact hst
      · exact hst
      · rename_i b added hslot
        have hab : a ≠ b := by
          rintro rfl
          exact hcur ⟨added, hslot⟩
        rw [hadv.instances]
        exact (List.getElem?_set_ne hab).trans hst
    · by_cases hi : i = inst.number
      · subst hi
        rw [hadv.old fun added hslot => hcur ⟨added, hslot⟩]
        exact hm
      · exact mirrors_moved hm hadv.moves hi

theorem config_moves (h : Matches rgob gob wgob cfg s) {j : Fin n} (hm : Service.Moves j s s')
    (i : Fin n) :
    (s'.replicas i).peer.raft.me = i ∧ (s'.replicas i).peer.raft.peers = n := by
  by_cases hi : i = j
  · subst hi
    rw [hm.config.1, hm.config.2]
    exact h.config i
  · rw [hm.replicas i hi]
    exact h.config i

theorem Advanced.shownAll (h : Matches rgob gob wgob cfg s)
    (hadv : Advanced cfg cfg' s s' a inst inst') : ∀ i ∈ cfg'.instances, i.Shown := by
  intro i hi
  rw [hadv.instances] at hi
  rcases List.mem_or_eq_of_mem_set hi with hi | rfl
  · exact h.shown i hi
  · exact hadv.shown (h.shown inst (List.mem_of_getElem? hadv.here))

/-- The rest of the relation. -/
theorem advance (h : Matches rgob gob wgob cfg s) (hadv : Advanced cfg cfg' s s' a inst inst')
    (hiso : cfg'.Isolated) (hclerks : cfg'.clerks = cfg.clerks)
    (hhandles : cfg'.handles = cfg.handles) (hcalls : cfg'.calls = cfg.calls)
    (hok : CallsOk wgob cfg' s') : Matches rgob gob wgob cfg' s' where
  isolated := hiso
  clerks := by rw [hclerks, hadv.moves.clerks, h.clerks]
  handles := by rw [hhandles, hadv.moves.handles, h.handles]
  calls := by rw [hcalls, hadv.moves.calls, h.calls]
  stands := hadv.stands h
  config := h.config_moves hadv.moves
  shown := hadv.shownAll h
  callsOk := hok

end Matches

end DistributionSystem.Config
