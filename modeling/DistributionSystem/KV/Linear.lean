import DistributionSystem.KV.Points

/-! The key/value service is linearizable over an ordered log: the invariant of the
system, its steps, and the result. -/

namespace DistributionSystem

open Linearizability

/-! ## The invariant -/

/-- The RPC with this number carries the op. -/
def Carries (rpcs : List RPC) (rpc : Nat) (op : Op) : Prop := (rpcs[rpc]?).map RPC.op = some op

def HandlerOk (rpcs : List RPC) (kv : Store) : Handler → Prop
  | .start rpc op | .register rpc op _ | .select rpc op _ _ => Carries rpcs rpc op
  | .finish rpc op _ wrongLeader => Carries rpcs rpc op ∧
    (wrongLeader = false → kv.isDuplicateRequest op.clientId op.requestId = true)
  | .read rpc op => Carries rpcs rpc op ∧
    kv.isDuplicateRequest op.clientId op.requestId = true

/-- A reply that names no wrong leader: the op is in the log, and a value is the one behind
some prefix with it. -/
def ReplyOk (log : List Op) (op : Op) (reply : KVReply) : Prop :=
  reply.wrongLeader = false → ∃ k ≤ log.length, OccursBefore log op.id k ∧
    (op.name = .get → reply.value = mapAt log k op.key)

/-- The server has applied the log up to what was delivered to it, or up to the op in its
hands. -/
structure ServerOk {B : Type} (rpcs : List RPC) (log : List Op) (delivered : Nat)
    (kv : KVServer B) : Prop where
  state : ∃ a ≤ log.length, kv.toStore = Store.replay (log.take a) ∧
    (kv.received = none → a = delivered) ∧
    ∀ msg, kv.received = some msg → a + 1 = delivered ∧
      ∃ op, log[a]? = some op ∧ msg = entryMsg delivered op
  notified : ∀ n, some n ∈ kv.channels →
    kv.isDuplicateRequest n.clientId n.requestId = true
  handlers : ∀ h ∈ kv.handlers, HandlerOk rpcs kv.toStore h

structure ClerkOk (rpcs : List RPC) (history : List Stamped) (c : Int) (ck : Clerk) : Prop where
  nonneg : 0 ≤ ck.lastRequestId
  returned : ∀ r, 0 < r → r ≤ ck.lastRequestId → ∃ f res, (f, .respond (c, r) res) ∈ history
  responded : ∀ f r res, (f, .respond (c, r) res) ∈ history → r ≤ ck.lastRequestId
  invoked : ∀ f r call, (f, .invoke (c, r) call) ∈ history →
    r ≤ ck.lastRequestId ∨ ck.current ≠ none
  bound : ∀ f r call, (f, .invoke (c, r) call) ∈ history → r ≤ ck.requestId
  current : ∀ call w, ck.current = some (call, w) →
    ∃ f, (f, .invoke (c, ck.requestId) call) ∈ history
  waits : ∀ call rpc, ck.current = some (call, some rpc) →
    Carries rpcs rpc (call.op c ck.requestId)

structure System.Ok {n : Nat} {B : Type} (sys : System n B) : Prop where
  ordered : Ordered sys.log sys.history
  clerks : ∀ c, ClerkOk sys.rpcs sys.history c (sys.clerks c)
  rpcs : ∀ r ∈ sys.rpcs, Issued sys.history r.op
  started : ∀ op ∈ sys.started, Issued sys.history op
  replies : ∀ rpc reply, (rpc, reply) ∈ sys.replies →
    ∃ op, Carries sys.rpcs rpc op ∧ ReplyOk sys.log op reply
  servers : ∀ i, ServerOk sys.rpcs sys.log (sys.delivered i) (sys.servers i)

/-! ## Servers -/

section

variable {B : Type} {gob : KVGob B} {rpcs : List RPC} {log : List Op} {d : Nat}
  {kv kv' : KVServer B}

theorem Carries.append {rpc : Nat} {op : Op} (h : Carries rpcs rpc op) (r : RPC) :
    Carries (rpcs ++ [r]) rpc op := by
  obtain ⟨x, hx, hop⟩ := Option.map_eq_some_iff.mp h
  unfold Carries
  rw [List.getElem?_append_left (List.getElem?_eq_some_iff.mp hx).1, hx]
  exact congrArg some hop

theorem Carries.issued {history : List Stamped} (h : ∀ r ∈ rpcs, Issued history r.op) {rpc : Nat}
    {op : Op} (hc : Carries rpcs rpc op) : Issued history op := by
  obtain ⟨r, hr, rfl⟩ := Option.map_eq_some_iff.mp hc
  exact h r (List.mem_of_getElem? hr)

theorem Carries.unique {rpc : Nat} {op op' : Op} (h : Carries rpcs rpc op)
    (h' : Carries rpcs rpc op') : op = op' :=
  Option.some.inj (h.symm.trans h')

theorem HandlerOk.append {kv : Store} {h : Handler} (hh : HandlerOk rpcs kv h) (r : RPC) :
    HandlerOk (rpcs ++ [r]) kv h := by
  cases h with
  | start | register | select => exact Carries.append hh r
  | finish => exact ⟨hh.1.append r, hh.2⟩
  | read => exact ⟨hh.1.append r, hh.2⟩

theorem HandlerOk.covers {new old : Store} {h : Handler} (hh : HandlerOk rpcs old h)
    (hc : Store.Covers new old) : HandlerOk rpcs new h := by
  cases h with
  | start | register | select => exact hh
  | finish => exact ⟨hh.1, fun hw => hc.duplicate _ _ (hh.2 hw)⟩
  | read => exact ⟨hh.1, hc.duplicate _ _ hh.2⟩

theorem ReplyOk.append {op : Op} {reply : KVReply} (h : ReplyOk log op reply) (op' : Op) :
    ReplyOk (log ++ [op']) op reply := by
  intro hw
  obtain ⟨k, hk, ho, hv⟩ := h hw
  refine ⟨k, by rw [List.length_append]; omega, ho.append op', fun hget => ?_⟩
  rw [mapAt_append hk]
  exact hv hget

/-- One handler has gone on and is now `g`. -/
theorem handlers_move {store : Store} {hs : List Handler} {h g : Handler}
    (hok : ∀ x ∈ hs, HandlerOk rpcs store x) (hg : HandlerOk rpcs store g) :
    ∀ x ∈ hs.erase h ++ [g], HandlerOk rpcs store x := by
  intro x hx
  rcases List.mem_append.mp hx with hx | hx
  · exact hok x (List.mem_of_mem_erase hx)
  · exact List.mem_singleton.mp hx ▸ hg

namespace ServerOk

theorem append (h : ServerOk rpcs log d kv) (r : RPC) : ServerOk (rpcs ++ [r]) log d kv :=
  ⟨h.state, h.notified, fun x hx => (h.handlers x hx).append r⟩

theorem grow (h : ServerOk rpcs log d kv) (op : Op) : ServerOk rpcs (log ++ [op]) d kv := by
  obtain ⟨a, ha, hstore, hnone, hsome⟩ := h.state
  refine ⟨⟨a, by rw [List.length_append]; omega, ?_, hnone, fun msg hm => ?_⟩, h.notified, h.handlers⟩
  · rw [List.take_append_of_le_length ha]
    exact hstore
  · obtain ⟨hd, op', hop', hmsg⟩ := hsome msg hm
    exact ⟨hd, op', getElem?_append_of_some hop' op, hmsg⟩

/-- The apply loop is done with the op in its hands. -/
theorem applied (h : ServerOk rpcs log d kv) {msg : ApplyMsg Op (List B)} {op : Op}
    (hr : kv.received = some msg) (hc : msg.command = .client op)
    (hstore : kv'.toStore = kv.toStore.apply op) (hrecv : kv'.received = none)
    (hch : ∀ n, some n ∈ kv'.channels → some n ∈ kv.channels ∨ n = ⟨op.clientId, op.requestId⟩)
    (hh : kv'.handlers = kv.handlers) : ServerOk rpcs log d kv' := by
  obtain ⟨a, ha, hst, -, hsome⟩ := h.state
  obtain ⟨hd, op', hop, hmsg⟩ := hsome msg hr
  obtain rfl : op' = op := by
    rw [hmsg] at hc
    cases hc
    rfl
  have hlt := (List.getElem?_eq_some_iff.mp hop).1
  have hcov : Store.Covers kv'.toStore kv.toStore := hstore ▸ Store.covers_apply _ _
  refine ⟨⟨a + 1, by omega, ?_, fun _ => hd, fun m hm => ?_⟩, fun n hn => ?_, fun x hx => ?_⟩
  · rw [hstore, hst, Store.replay_take_succ hop]
  · exact absurd (hrecv.symm.trans hm) (by simp)
  · rcases hch n hn with hn | rfl
    · exact hcov.duplicate _ _ (h.notified n hn)
    · rw [hstore]
      exact Store.duplicate_apply _ _
  · rw [hh] at hx
    exact (h.handlers x hx).covers hcov

theorem step (h : ServerOk rpcs log d kv) {input : KVInput B} {out : List KVOutput}
    (hin : System.Inner input) (hs : KVServer.Step gob kv input kv' out) :
    ServerOk rpcs log d kv' := by
  have hmove : ∀ {x g : Handler}, HandlerOk rpcs kv.toStore g →
      ∀ y ∈ kv.handlers.erase x ++ [g], HandlerOk rpcs kv.toStore y :=
    fun hg => handlers_move h.handlers hg
  have hleave : ∀ {x : Handler}, ∀ y ∈ kv.handlers.erase x, HandlerOk rpcs kv.toStore y :=
    fun y hy => h.handlers y (List.mem_of_mem_erase hy)
  cases hs with
  | request | receive => exact absurd hin id
  | takeSnapshot => exact ⟨h.state, h.notified, h.handlers⟩
  | refused | finished | read => exact ⟨h.state, h.notified, hleave⟩
  | started hh =>
    have hc := h.handlers _ hh
    refine ⟨h.state, h.notified, hmove ?_⟩
    exact hc
  | timeout hh =>
    refine ⟨h.state, h.notified, hmove ⟨h.handlers _ hh, fun hw => ?_⟩⟩
    simpa using hw
  | register hh hch =>
    have hc := h.handlers _ hh
    refine ⟨h.state, fun n hn => h.notified n (hch n hn), hmove ?_⟩
    exact hc
  | notified hh hn =>
    refine ⟨h.state, fun n hn => ?_, hmove ⟨h.handlers _ hh, fun hw => ?_⟩⟩
    · rcases List.mem_or_eq_of_mem_set hn with hn | hn
      · exact h.notified n hn
      · exact absurd hn (by simp)
    · -- the notification is for this very request
      have hdup := h.notified _ hn
      simp only [decide_eq_false_iff_not, not_or, Decidable.not_not] at hw
      rw [hw.1, hw.2] at hdup
      exact hdup
  | finishedGet hh _ =>
    exact ⟨h.state, h.notified, hmove ⟨(h.handlers _ hh).1, (h.handlers _ hh).2 rfl⟩⟩
  | duplicate hr _ hc hd =>
    exact h.applied hr hc (Store.apply_of_duplicate hd).symm rfl (fun _ hn => Or.inl hn) rfl
  | applied hr _ hc hd hch =>
    refine h.applied hr hc ?_ rfl hch rfl
    unfold Store.apply
    rw [if_neg hd]
  | installed hr hv =>
    obtain ⟨a, -, -, -, hsome⟩ := h.state
    obtain ⟨-, op, -, hmsg⟩ := hsome _ hr
    rw [hmsg] at hv
    exact absurd hv (by simp [entryMsg])

/-- What a server puts out: only ops that were issued are started, and a reply is right. -/
theorem output (h : ServerOk rpcs log d kv) {history : List Stamped} (ho : Ordered log history)
    (hrpcs : ∀ r ∈ rpcs, Issued history r.op) {input : KVInput B} {out : List KVOutput}
    (hs : KVServer.Step gob kv input kv' out) :
    (∀ op, .start op ∈ out → Issued history op) ∧
      ∀ rpc reply, .reply rpc reply ∈ out → ∃ op, Carries rpcs rpc op ∧ ReplyOk log op reply := by
  obtain ⟨a, ha, hst, -, -⟩ := h.state
  -- a duplicate of the server's state is in its part of the log
  have hocc : ∀ {op : Op} {rpc : Nat}, Carries rpcs rpc op →
      kv.isDuplicateRequest op.clientId op.requestId = true → OccursBefore log op.id a := by
    intro op rpc hc hd
    obtain ⟨f, hf⟩ := hc.issued hrpcs
    rw [hst] at hd
    exact ho.occurs_of_duplicate (ho.positive f _ _ _ hf) hd
  cases hs with
  | @started call op index hh =>
    refine ⟨fun op' hm => ?_, by simp⟩
    obtain rfl : op' = op := by simpa using hm
    exact Carries.issued hrpcs (h.handlers _ hh)
  | @refused call op index hh =>
    refine ⟨by simp, fun rpc reply hm => ?_⟩
    obtain ⟨rfl, rfl⟩ : rpc = call ∧ reply = ⟨true, .blank, ""⟩ := by simpa using hm
    exact ⟨op, h.handlers _ hh, fun hw => absurd hw (by simp)⟩
  | @finished call op index wrongLeader hh hw =>
    refine ⟨by simp, fun rpc reply hm => ?_⟩
    obtain ⟨rfl, rfl⟩ : rpc = call ∧ reply = ⟨wrongLeader, .blank, ""⟩ := by simpa using hm
    refine ⟨op, (h.handlers _ hh).1, fun hw' => ⟨a, ha, ?_, fun hget => absurd ⟨hget, hw'⟩ hw⟩⟩
    exact hocc (h.handlers _ hh).1 ((h.handlers _ hh).2 hw')
  | @read call op hh =>
    refine ⟨by simp, fun rpc reply hm => ?_⟩
    obtain ⟨rfl, rfl⟩ : rpc = call ∧ reply = kv.readReply op.key := by simpa using hm
    refine ⟨op, (h.handlers _ hh).1, fun _ => ⟨a, ha, hocc (h.handlers _ hh).1 (h.handlers _ hh).2,
      fun _ => ?_⟩⟩
    unfold KVServer.readReply mapAt Store.view
    rw [← hst]
    cases kv.db.lookup op.key <;> rfl
  | _ => exact ⟨by simp, by simp⟩

end ServerOk

end

/-! ## Clerks -/

section

variable {rpcs : List RPC} {history : List Stamped} {c : Int} {ck : Clerk}

namespace ClerkOk

theorem append (h : ClerkOk rpcs history c ck) (r : RPC) : ClerkOk (rpcs ++ [r]) history c ck :=
  ⟨h.nonneg, h.returned, h.responded, h.invoked, h.bound, h.current,
    fun call rpc hc => (h.waits call rpc hc).append r⟩

/-- What another clerk does is of no concern. -/
theorem other (h : ClerkOk rpcs history c ck) {x : Stamped}
    (hi : ∀ f r call, (f, .invoke (c, r) call) ≠ x) (hr : ∀ f r res, (f, .respond (c, r) res) ≠ x) :
    ClerkOk rpcs (history ++ [x]) c ck := by
  have hcall : ∀ {f r call}, (f, .invoke (c, r) call) ∈ history ++ [x] →
      (f, .invoke (c, r) call) ∈ history := by
    intro f r call hm
    rcases List.mem_append.mp hm with hm | hm
    · exact hm
    · exact absurd (List.mem_singleton.mp hm) (hi f r call)
  refine ⟨h.nonneg, fun r hpos hle => ?_, fun f r res hm => ?_,
    fun f r call hm => h.invoked f r call (hcall hm),
    fun f r call hm => h.bound f r call (hcall hm), fun call w hw => ?_, h.waits⟩
  · obtain ⟨f, res, hm⟩ := h.returned r hpos hle
    exact ⟨f, res, List.mem_append_left _ hm⟩
  · rcases List.mem_append.mp hm with hm | hm
    · exact h.responded f r res hm
    · exact absurd (List.mem_singleton.mp hm) (hr f r res)
  · obtain ⟨f, hm⟩ := h.current call w hw
    exact ⟨f, List.mem_append_left _ hm⟩

/-- The clerk makes a call. -/
theorem invoke (h : ClerkOk rpcs history c ck) (f : Nat) (call : KVCall) :
    ClerkOk rpcs (history ++ [(f, .invoke (c, ck.requestId) call)]) c
      { ck with current := some (call, none) } := by
  refine ⟨h.nonneg, fun r hpos hle => ?_, fun f' r res hm => ?_, fun _ _ _ _ => Or.inr (by simp),
    fun f' r call' hm => ?_, fun call' w hw => ?_, fun call' rpc hw => absurd hw (by simp)⟩
  · obtain ⟨f', res, hm⟩ := h.returned r hpos hle
    exact ⟨f', res, List.mem_append_left _ hm⟩
  · rcases mem_note.mp hm with hm | ⟨-, he⟩
    · exact h.responded f' r res hm
    · exact absurd he (by simp)
  · rcases mem_note.mp hm with hm | ⟨-, he⟩
    · exact h.bound f' r call' hm
    · cases he
      exact Int.le_refl _
  · cases hw
    exact ⟨f, mem_note.mpr (Or.inr ⟨rfl, rfl⟩)⟩

theorem retry (h : ClerkOk rpcs history c ck) {call : KVCall} {w : Option Nat}
    (hc : ck.current = some (call, w)) (n : Nat) : ClerkOk rpcs history c (ck.retry n call) := by
  refine ⟨h.nonneg, h.returned, h.responded, fun _ _ _ _ => Or.inr (by simp [Clerk.retry]), h.bound,
    fun call' w' hw => ?_, fun call' rpc hw => absurd hw (by simp [Clerk.retry])⟩
  cases hw
  exact h.current call w hc

/-- The clerk waits for the RPC it has just made. -/
theorem send (h : ClerkOk rpcs history c ck) {call : KVCall} {w : Option Nat}
    (hc : ck.current = some (call, w)) (server : Nat) :
    ClerkOk (rpcs ++ [⟨server, call.op c ck.requestId⟩]) history c
      { ck with current := some (call, some rpcs.length) } := by
  refine ⟨h.nonneg, h.returned, h.responded, fun _ _ _ _ => Or.inr (by simp), h.bound,
    fun call' w' hw => ?_, fun call' rpc hw => ?_⟩
  · cases hw
    exact h.current call w hc
  · cases hw
    show (_ : Option RPC).map RPC.op = _
    rw [List.getElem?_concat_length]
    rfl

/-- The call of the clerk returns. -/
theorem done (h : ClerkOk rpcs history c ck) (f : Nat) (res : Option String) :
    ClerkOk rpcs (history ++ [(f, .respond (c, ck.requestId) res)]) c ck.done := by
  have hlast : ck.done.lastRequestId = ck.lastRequestId + 1 := rfl
  have hnn := h.nonneg
  refine ⟨by omega, fun r hpos hle => ?_, fun f' r res' hm => ?_, fun f' r call hm => Or.inl ?_,
    fun f' r call hm => ?_, fun _ _ hw => absurd hw (by simp [Clerk.done]),
    fun _ _ hw => absurd hw (by simp [Clerk.done])⟩
  · by_cases heq : r = ck.requestId
    · subst heq
      exact ⟨f, res, mem_note.mpr (Or.inr ⟨rfl, rfl⟩)⟩
    · have hr : ck.requestId = ck.lastRequestId + 1 := rfl
      obtain ⟨f', res', hm⟩ := h.returned r hpos (by omega)
      exact ⟨f', res', List.mem_append_left _ hm⟩
  · rcases mem_note.mp hm with hm | ⟨-, he⟩
    · have := h.responded f' r res' hm
      omega
    · cases he
      exact Int.le_refl _
  · rcases mem_note.mp hm with hm | ⟨-, he⟩
    · exact h.bound f' r call hm
    · exact absurd he (by simp)
  · rcases mem_note.mp hm with hm | ⟨-, he⟩
    · have hb : r ≤ ck.lastRequestId + 1 := h.bound f' r call hm
      show r ≤ ck.done.lastRequestId + 1
      omega
    · exact absurd he (by simp)

end ClerkOk

end

/-! ## The system -/

namespace System

variable {n : Nat} {B : Type} {gob : KVGob B} {sys sys' : System n B}

theorem ok_init (gob : KVGob B) (n : Nat) : (init gob n).Ok := by
  refine ⟨⟨List.Pairwise.nil, ?_, ?_, ?_, ?_, ?_, ?_, ?_, List.nodup_nil⟩, fun c => ?_, ?_, ?_, ?_,
    fun i => ?_⟩
  · exact fun _ hm => absurd hm (by simp [init])
  · exact fun _ _ _ _ _ hm => absurd hm (by simp [init])
  · exact fun _ _ _ _ hm => absurd hm (by simp [init])
  · exact fun _ _ _ _ hm => absurd hm (by simp [init])
  · exact fun _ _ _ hm => absurd hm (by simp [init])
  · exact fun _ hm => absurd hm (by simp [init])
  · exact fun _ _ _ hm => absurd hm (by simp [init])
  · refine ⟨Int.le_refl 0, fun r hpos hle => ?_, ?_, ?_, ?_, ?_, ?_⟩
    · have : r ≤ 0 := hle
      omega
    · exact fun _ _ _ hm => absurd hm (by simp [init])
    · exact fun _ _ _ hm => absurd hm (by simp [init])
    · exact fun _ _ _ hm => absurd hm (by simp [init])
    · exact fun _ _ hw => absurd hw (by simp [init, makeClerk])
    · exact fun _ _ hw => absurd hw (by simp [init, makeClerk])
  · exact fun _ hm => absurd hm (by simp [init])
  · exact fun _ hm => absurd hm (by simp [init])
  · exact fun _ _ hm => absurd hm (by simp [init])
  · refine ⟨⟨0, Nat.zero_le _, rfl, fun _ => rfl, ?_⟩, ?_, ?_⟩
    · exact fun _ hm => absurd hm (by simp [init, KVServer.startKVServer,
        KVServer.installSnapshot, KVServer.blank])
    · exact fun _ hm => absurd hm (by simp [init, KVServer.startKVServer,
        KVServer.installSnapshot, KVServer.blank])
    · exact fun _ hm => absurd hm (by simp [init, KVServer.startKVServer,
        KVServer.installSnapshot, KVServer.blank])

namespace Ok

theorem invoke (h : sys.Ok) {client : Int} {call : KVCall}
    (hs : sys.step gob (.invoke client call) = some sys') : sys'.Ok := by
  simp only [step] at hs
  split at hs
  · rename_i hidle
    cases hs
    have hck := h.clerks client
    have hfresh : ∀ f call', (f, .invoke (client, (sys.clerks client).requestId) call') ∉
        sys.history := by
      intro f call' hm
      rcases hck.invoked f _ call' hm with hle | hne
      · exact absurd hle (by unfold Clerk.requestId; omega)
      · exact hne hidle
    have hpos : 0 < (sys.clerks client).requestId := by
      have := hck.nonneg
      unfold Clerk.requestId
      omega
    have ho := h.ordered.invoke call hpos hfresh fun r hr hlt =>
      hck.returned r hr (by unfold Clerk.requestId at hlt; omega)
    refine ⟨ho, ?_, fun r hr => (h.rpcs r hr).mono, fun op hop => (h.started op hop).mono, h.replies,
      h.servers⟩
    exact (Function.forall_update_iff _ fun c ck => ClerkOk sys.rpcs (sys.history ++
      [(sys.log.length, .invoke (client, (sys.clerks client).requestId) call)]) c ck).mpr
        ⟨hck.invoke _ _, fun c hne => (h.clerks c).other (by simp [hne]) (by simp)⟩
  · exact absurd hs (by simp)

theorem send (h : sys.Ok) {client : Int} (hs : sys.step gob (.send client) = some sys') :
    sys'.Ok := by
  simp only [step] at hs
  split at hs
  · rename_i call hc
    cases hs
    have hck := h.clerks client
    obtain ⟨f, hf⟩ := hck.current call none hc
    refine ⟨h.ordered, ?_, fun r hr => ?_, h.started, fun rpc reply hm => ?_,
      fun i => (h.servers i).append _⟩
    · exact (Function.forall_update_iff _ fun c ck => ClerkOk (sys.rpcs ++
        [⟨(sys.clerks client).leaderId, call.op client (sys.clerks client).requestId⟩])
          sys.history c ck).mpr ⟨hck.send hc _, fun c _ => (h.clerks c).append _⟩
    · rcases List.mem_append.mp hr with hr | hr
      · exact h.rpcs r hr
      · obtain rfl := List.mem_singleton.mp hr
        refine ⟨f, ?_⟩
        show (f, Event.invoke (call.op _ _).id (call.op _ _).call) ∈ sys.history
        rw [KVCall.id_op, KVCall.call_op]
        exact hf
    · obtain ⟨op, hcar, hok⟩ := h.replies rpc reply hm
      exact ⟨op, hcar.append _, hok⟩
  · exact absurd hs (by simp)

theorem setClerk (h : sys.Ok) {client : Int} {ck : Clerk}
    (hck : ClerkOk sys.rpcs sys.history client ck) : (sys.setClerk client ck).Ok :=
  ⟨h.ordered, (Function.forall_update_iff _ fun c ck => ClerkOk sys.rpcs sys.history c ck).mpr
    ⟨hck, fun c _ => h.clerks c⟩, h.rpcs, h.started, h.replies, h.servers⟩

theorem fail (h : sys.Ok) {client : Int} (hs : sys.step gob (.fail client) = some sys') :
    sys'.Ok := by
  simp only [step] at hs
  split at hs
  · rename_i hc
    cases hs
    exact h.setClerk ((h.clerks client).retry hc n)
  · exact absurd hs (by simp)

/-- A reply that names no wrong leader answers the call. -/
theorem answerAt (h : sys.Ok) {client : Int} {call : KVCall} {rpc : Nat} {reply : KVReply}
    (hc : (sys.clerks client).current = some (call, some rpc)) (hm : (rpc, reply) ∈ sys.replies)
    (hw : reply.wrongLeader = false) :
    ∃ k ≤ sys.log.length, AnswerAt sys.log sys.history
      (client, (sys.clerks client).requestId) (call.result reply) call k := by
  obtain ⟨op, hcar, hok⟩ := h.replies rpc reply hm
  obtain ⟨k, hk, hocc, hval⟩ := hok hw
  obtain rfl := hcar.unique ((h.clerks client).waits call rpc hc)
  rw [KVCall.id_op] at hocc
  refine ⟨k, hk, (h.clerks client).current call _ hc, hocc, ?_⟩
  cases call with
  | get key => exact congrArg some (hval rfl)
  | put | append => rfl

theorem reply (h : sys.Ok) {client : Int} {reply : KVReply}
    (hs : sys.step gob (.reply client reply) = some sys') : sys'.Ok := by
  simp only [step] at hs
  split at hs
  · rename_i call rpc hc
    split at hs
    · rename_i hm
      split at hs
      · cases hs
        exact h.setClerk ((h.clerks client).retry hc n)
      · rename_i hw
        cases hs
        have hck := h.clerks client
        obtain ⟨k, hk, hans⟩ := h.answerAt hc hm (by simpa using hw)
        have hfresh : ∀ f res, (f, .respond (client, (sys.clerks client).requestId) res) ∉
            sys.history := by
          intro f res hm
          have := hck.responded f _ res hm
          unfold Clerk.requestId at this
          omega
        refine ⟨h.ordered.respond hfresh hk hans, ?_, fun r hr => (h.rpcs r hr).mono,
          fun op hop => (h.started op hop).mono, h.replies, h.servers⟩
        exact (Function.forall_update_iff _ fun c ck => ClerkOk sys.rpcs (sys.history ++
          [(sys.log.length, .respond (client, (sys.clerks client).requestId)
            (call.result reply))]) c ck).mpr
              ⟨hck.done _ _, fun c hne => (h.clerks c).other (by simp) (by simp [hne])⟩
    · exact absurd hs (by simp)
  · exact absurd hs (by simp)

theorem setServer (h : sys.Ok) {i : Fin n} {kv : KVServer B}
    (hkv : ServerOk sys.rpcs sys.log (sys.delivered i) kv) : (sys.setServer i kv).Ok :=
  ⟨h.ordered, h.clerks, h.rpcs, h.started, h.replies,
    (Function.forall_update_iff _ fun j kv =>
      ServerOk sys.rpcs sys.log (sys.delivered j) kv).mpr ⟨hkv, fun j _ => h.servers j⟩⟩

theorem request (h : sys.Ok) {i : Fin n} {rpc : Nat}
    (hs : sys.step gob (.request i rpc) = some sys') : sys'.Ok := by
  simp only [step] at hs
  split at hs
  · rename_i r hr
    split at hs
    · cases hs
      have hcar : Carries sys.rpcs rpc r.op := by
        unfold Carries
        rw [hr]
        rfl
      have hi := h.servers i
      have hkv : ServerOk sys.rpcs sys.log (sys.delivered i)
          ((sys.servers i).addHandler (.start rpc r.op)) := by
        refine ⟨hi.state, hi.notified, fun x hx => ?_⟩
        rcases List.mem_append.mp hx with hx | hx
        · exact hi.handlers x hx
        · rw [List.mem_singleton] at hx
          subst hx
          exact hcar
      have h' := h.setServer hkv
      exact ⟨h'.ordered, h'.clerks, h'.rpcs, h'.started, h'.replies, h'.servers⟩
    · exact absurd hs (by simp)
  · exact absurd hs (by simp)

theorem emit (h : sys.Ok) {out : List KVOutput}
    (hstart : ∀ op, .start op ∈ out → Issued sys.history op)
    (hreply : ∀ rpc reply, .reply rpc reply ∈ out →
      ∃ op, Carries sys.rpcs rpc op ∧ ReplyOk sys.log op reply) : (sys.emit out).Ok := by
  refine ⟨h.ordered, h.clerks, h.rpcs, fun op hop => ?_, fun rpc reply hm => ?_, h.servers⟩
  · rcases List.mem_append.mp hop with hop | hop
    · exact h.started op hop
    · obtain ⟨o, ho, heq⟩ := List.mem_filterMap.mp hop
      cases o with
      | start op' =>
        cases heq
        exact hstart op ho
      | reply => exact absurd heq (by simp)
  · rcases List.mem_append.mp hm with hm | hm
    · exact h.replies rpc reply hm
    · obtain ⟨o, ho, heq⟩ := List.mem_filterMap.mp hm
      cases o with
      | start => exact absurd heq (by simp)
      | reply rpc' reply' =>
        cases heq
        exact hreply rpc reply ho

theorem server (h : sys.Ok) {i : Fin n} {input : KVInput B}
    (hs : sys.step gob (.server i input) = some sys') : sys'.Ok := by
  simp only [step] at hs
  split at hs
  · rename_i hin
    obtain ⟨⟨kv, out⟩, hkv, rfl⟩ := Option.map_eq_some_iff.mp hs
    have hst := KVServer.step_cases hkv
    obtain ⟨hstart, hreply⟩ := (h.servers i).output h.ordered h.rpcs hst
    exact (h.setServer ((h.servers i).step hin hst)).emit hstart hreply
  · exact absurd hs (by simp)

/-- The log may have grown by the op that is delivered. -/
theorem nextLog (h : sys.Ok) {i : Fin n} {op : Op} {log started : List Op}
    (hn : sys.nextLog i op = some (log, started)) (hd : sys.delivered i ≤ sys.log.length) :
    ({ sys with log := log, started := started } : System n B).Ok ∧
      log[sys.delivered i]? = some op := by
  unfold System.nextLog at hn
  split at hn
  · rename_i op' hop
    split at hn
    · rename_i heq
      cases hn
      exact ⟨h, heq ▸ hop⟩
    · exact absurd hn (by simp)
  · rename_i hnone
    split at hn
    · rename_i hmem
      cases hn
      have hlen : sys.delivered i = sys.log.length :=
        Nat.le_antisymm hd (List.getElem?_eq_none_iff.mp hnone)
      refine ⟨⟨h.ordered.deliver (h.started op hmem), h.clerks, h.rpcs,
        fun a ha => h.started a (List.mem_of_mem_erase ha), fun rpc reply hm => ?_,
        fun j => (h.servers j).grow op⟩, ?_⟩
      · obtain ⟨a, hcar, hok⟩ := h.replies rpc reply hm
        exact ⟨a, hcar, hok.append op⟩
      · rw [hlen, List.getElem?_concat_length]
    · exact absurd hn (by simp)

theorem deliver (h : sys.Ok) {i : Fin n} {op : Op}
    (hs : sys.step gob (.deliver i op) = some sys') : sys'.Ok := by
  simp only [step] at hs
  obtain ⟨⟨log, started⟩, hn, hs⟩ := Option.bind_eq_some_iff.mp hs
  obtain ⟨⟨kv, out⟩, hkv, rfl⟩ := Option.map_eq_some_iff.mp hs
  cases KVServer.step_cases hkv with
  | receive hr =>
    obtain ⟨a, ha, -, hnone, -⟩ := (h.servers i).state
    obtain rfl := hnone hr
    obtain ⟨h', hop⟩ := h.nextLog hn ha
    obtain ⟨b, hb, hstore, hbd, -⟩ := (h'.servers i).state
    obtain rfl := hbd hr
    refine ⟨h'.ordered, h'.clerks, h'.rpcs, h'.started, h'.replies, fun j => ?_⟩
    by_cases hj : j = i
    · subst hj
      show ServerOk sys.rpcs log (Function.update sys.delivered j _ j)
        (Function.update sys.servers j _ j)
      rw [Function.update_self, Function.update_self]
      refine ⟨⟨_, hb, hstore, fun hc => absurd hc (by simp), fun msg hm => ⟨rfl, op, hop, ?_⟩⟩,
        (h'.servers j).notified, (h'.servers j).handlers⟩
      cases hm
      rfl
    · show ServerOk sys.rpcs log (Function.update sys.delivered i _ j)
        (Function.update sys.servers i _ j)
      rw [Function.update_of_ne hj, Function.update_of_ne hj]
      exact h'.servers j

theorem step (h : sys.Ok) {e : SystemEvent n B} (hs : sys.step gob e = some sys') : sys'.Ok := by
  cases e with
  | invoke => exact h.invoke hs
  | send => exact h.send hs
  | fail => exact h.fail hs
  | reply => exact h.reply hs
  | request => exact h.request hs
  | server => exact h.server hs
  | deliver => exact h.deliver hs

end Ok

/-- In every state of every run the calls of the clerks are linearizable. -/
theorem calls_linearizable {es : List (SystemEvent n B)}
    (h : Runs.Run (step gob) (fun _ _ => True) (init gob n) es sys) :
    Linearizable mapSpec (fun _ => "") sys.calls := by
  have hok := h.invariant Ok (ok_init gob n) fun _ _ _ hs _ hst => hs.step hst
  exact hok.ordered.linearizable

/-- A `Put` whose first reply is lost is in the log twice and is answered by the timeout;
then another clerk reads at a server that has applied nothing when it is asked. -/
def putAndGet : List (SystemEvent 2 KVWord) :=
  let put : Op := ⟨"x", "a", .put, 7, 1⟩
  let get : Op := ⟨"x", "", .get, 8, 1⟩
  [.invoke 7 (.put "x" "a"), .send 7, .request 0 0, .server 0 (.started 0 put 1 true), .fail 7,
    .send 7, .request 1 1, .server 1 (.started 1 put 2 true), .server 1 (.resume (.register 1 put 2)),
    .deliver 1 put, .server 1 .apply, .deliver 1 put, .server 1 .apply,
    .server 1 (.timeout 1 put 2 0), .server 1 (.resume (.finish 1 put 2 false)),
    .reply 7 ⟨false, .blank, ""⟩,
    .invoke 8 (.get "x"), .send 8, .request 0 2, .server 0 (.started 2 get 3 true),
    .server 0 (.resume (.register 2 get 3)), .deliver 0 put, .server 0 .apply, .deliver 0 put,
    .server 0 .apply, .deliver 0 get, .server 0 .apply, .server 0 (.resume (.select 2 get 3 0)),
    .server 0 (.resume (.finish 2 get 3 false)), .server 0 (.resume (.read 2 get)),
    .reply 8 ⟨false, .blank, "a"⟩]

theorem calls_linearizable_putAndGet :
    ∃ sys : System 2 KVWord, sys.log.length = 3 ∧
      sys.calls = [.invoke (7, 1) (.put "x" "a"), .respond (7, 1) none,
        .invoke (8, 1) (.get "x"), .respond (8, 1) (some "a")] ∧
      Linearizable mapSpec (fun _ => "") sys.calls := by
  have hexec : (Runs.exec (step KVGob.words) (fun _ _ => True) (init KVGob.words 2)
      putAndGet).map (fun sys => (sys.log.length, sys.calls)) =
        some (3, [.invoke (7, 1) (.put "x" "a"), .respond (7, 1) none,
          .invoke (8, 1) (.get "x"), .respond (8, 1) (some "a")]) := by decide +kernel
  obtain ⟨sys, hrun, hst⟩ := Runs.run_of_exec_map _ hexec
  simp only [Prod.mk.injEq] at hst
  exact ⟨sys, hst.1, hst.2, calls_linearizable hrun⟩

end System

end DistributionSystem
