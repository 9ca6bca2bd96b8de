import DistributionSystem.Checker.KvVerdict
import DistributionSystem.KV.EndToEnd

/-! The linearizability test of the service: its clients record their calls with the times
before and after them, and the checker looks at the record. In every steady run whose calls
have all returned, the checker accepts the record. -/

namespace DistributionSystem

/-- A call of a clerk or its return. -/
abbrev KVEvent := Linearizability.Event (Int × Int) KVCall (Option String)

/-- What a client records as the input of a call. -/
def KVCall.input : KVCall → Checker.KvInput
  | .get key => ⟨0, key, ""⟩
  | .put key value => ⟨1, key, value⟩
  | .append key value => ⟨2, key, value⟩

/-- The variables of the clients and the list that they share. -/
structure Recorder where
  /-- `inp` and `start` of the call that a client makes. -/
  pending : Int → Option (Checker.KvInput × Int)
  operations : List Checker.KvOperation

namespace Recorder

variable (before after : Nat → Int)

def init : Recorder := ⟨fun _ => none, []⟩

/-- The clock is read before a call and after its return; `before` and `after` have the
readings by the place of the call or the return in the history. -/
def event (rec : Recorder) (place : Nat) : KVEvent → Recorder
  | .invoke (client, _) call =>
    { rec with pending := Function.update rec.pending client (some (call.input, before place)) }
  | .respond (client, _) res =>
    match rec.pending client with
    | some (inp, start) =>
      ⟨Function.update rec.pending client none,
        rec.operations ++ [⟨inp, start, ⟨res.getD ""⟩, after place⟩]⟩
    | none => rec

def watch (calls : List KVEvent) : Recorder :=
  calls.zipIdx.foldl (fun rec x => rec.event before after x.2 x.1) init

variable {before after} {calls : List KVEvent}

theorem watch_concat (e : KVEvent) :
    watch before after (calls ++ [e]) =
      (watch before after calls).event before after calls.length e := by
  simp [watch, List.zipIdx_append]

end Recorder

/-! ## What is recorded -/

section record

variable {before after : Nat → Int} {calls : List KVEvent}

/-- `op` is a record of the call `id`. -/
def RecordOf (before after : Nat → Int) (calls : List KVEvent)
    (id : Int × Int) (op : Checker.KvOperation) : Prop :=
  ∃ i j call res, i < j ∧ calls[i]? = some (.invoke id call) ∧
    calls[j]? = some (.respond id res) ∧ op = ⟨call.input, before i, ⟨res.getD ""⟩, after j⟩

/-- The calls that have returned. -/
def returned (calls : List KVEvent) : List (Int × Int) :=
  calls.filterMap fun
    | .respond id _ => some id
    | .invoke .. => none

theorem returned_invoke (id : Int × Int) (call : KVCall) :
    returned (calls ++ [.invoke id call]) = returned calls := by
  simp [returned]

theorem returned_respond (id : Int × Int) (res : Option String) :
    returned (calls ++ [.respond id res]) = returned calls ++ [id] := by
  simp [returned]

theorem mem_returned {id : Int × Int} : id ∈ returned calls ↔ ∃ res, .respond id res ∈ calls := by
  unfold returned
  rw [List.mem_filterMap]
  constructor
  · rintro ⟨e, he, heq⟩
    cases e with
    | invoke => exact absurd heq (by simp)
    | respond id' res =>
      cases heq
      exact ⟨res, he⟩
  · rintro ⟨res, hm⟩
    exact ⟨_, hm, rfl⟩

theorem returned_stamped (history : List Stamped) :
    returned (history.map Prod.snd) = (responses history).map fun x => x.2.1 := by
  unfold returned responses
  rw [List.filterMap_map, List.map_filterMap]
  apply List.filterMap_congr
  rintro ⟨f, e⟩ -
  cases e <;> rfl

theorem RecordOf.grow {id : Int × Int} {op : Checker.KvOperation}
    (h : RecordOf before after calls id op) (more : List KVEvent) :
    RecordOf before after (calls ++ more) id op := by
  obtain ⟨i, j, call, res, hlt, hi, hj, heq⟩ := h
  obtain ⟨hil, -⟩ := List.getElem?_eq_some_iff.mp hi
  obtain ⟨hjl, -⟩ := List.getElem?_eq_some_iff.mp hj
  exact ⟨i, j, call, res, hlt, by rwa [List.getElem?_append_left hil],
    by rwa [List.getElem?_append_left hjl], heq⟩

/-- Times that do not separate two calls leave their order open. -/
theorem RecordOf.precedes (hclock : ∀ i j, i < j → before i < after j) {a b : Int × Int}
    {v w : Checker.KvOperation} (ha : RecordOf before after calls a v)
    (hb : RecordOf before after calls b w) (h : v.BeforeOrAt w) :
    Linearizability.Precedes calls a b := by
  obtain ⟨_, j, _, res, -, -, hj, rfl⟩ := ha
  obtain ⟨i, _, call, _, -, hi, -, rfl⟩ := hb
  have hle : after j ≤ before i := h
  have hji : j < i := by
    rcases Nat.lt_trichotomy i j with hlt | rfl | hlt
    · have := hclock i j hlt
      omega
    · exact absurd (hi.symm.trans hj) (by simp)
    · exact hlt
  refine ⟨calls.take i, calls.drop i, res, call, (List.take_append_drop i calls).symm, ?_, ?_⟩
  · exact List.mem_of_getElem? (by rwa [List.getElem?_take_of_lt hji])
  · have hfirst : (calls.drop i)[0]? = some (.invoke b call) := by rwa [List.getElem?_drop]
    exact List.mem_of_getElem? hfirst

/-- The checker's map answers as that of the service. -/
theorem mapStep_input {σ : String → String} {call : KVCall} {res : Option String}
    (h : (mapSpec σ call).2 = res) :
    Checker.KvModel.mapStep σ call.input ⟨res.getD ""⟩ = (true, (mapSpec σ call).1) := by
  subst h
  cases call <;> simp [Checker.KvModel.mapStep, KVCall.input, mapSpec]

variable {cs : List (Linearizability.Call (Int × Int) KVCall (Option String))}
  {ops : List Checker.KvOperation}

/-- A call of a sequential history and the record of it. -/
def Recorded (before after : Nat → Int) (calls : List KVEvent)
    (c : Linearizability.Call (Int × Int) KVCall (Option String)) (v : Checker.KvOperation) : Prop :=
  RecordOf before after calls c.id v ∧ v.input = c.op.input ∧ v.output = ⟨c.res.getD ""⟩

theorem exists_related {A V : Type} {R : A → V → Prop} {as : List A} {vs : List V}
    (h : List.Forall₂ R as vs) {v : V} (hv : v ∈ vs) : ∃ a ∈ as, R a v := by
  induction h with
  | nil => exact absurd hv (by simp)
  | @cons a w as vs ha _ ih =>
    rcases List.mem_cons.mp hv with rfl | hv
    · exact ⟨a, List.mem_cons_self, ha⟩
    · obtain ⟨b, hb, hbv⟩ := ih hv
      exact ⟨b, List.mem_cons_of_mem _ hb, hbv⟩

theorem accepts_recorded {σ : String → String}
    (h : List.Forall₂ (Recorded before after calls) cs ops)
    (hlegal : Linearizability.Legal mapSpec σ cs) :
    Serial.Accepts (fun σ v => Checker.KvModel.mapStep σ v.input v.output) σ ops := by
  induction h generalizing σ with
  | nil => trivial
  | cons hc _ ih =>
    obtain ⟨hres, hrest⟩ := hlegal
    simp only [Serial.Accepts, hc.2.1, hc.2.2, mapStep_input hres]
    exact ⟨trivial, ih hrest⟩

theorem pairwise_recorded (hclock : ∀ i j, i < j → before i < after j)
    (h : List.Forall₂ (Recorded before after calls) cs ops)
    (horder : cs.Pairwise fun a b => ¬ Linearizability.Precedes calls b.id a.id) :
    ops.Pairwise fun v w => ¬ w.BeforeOrAt v := by
  induction h with
  | nil => exact List.Pairwise.nil
  | cons hc hrest ih =>
    obtain ⟨hhead, htail⟩ := List.pairwise_cons.mp horder
    refine List.pairwise_cons.mpr ⟨fun w hw hat => ?_, ih htail⟩
    obtain ⟨d, hd, hdw⟩ := exists_related hrest hw
    exact hhead d hd (hdw.1.precedes hclock hc.1 hat)

/-- A sequential history of calls that have all returned is an order of what is recorded. -/
theorem serializable_recorded (hclock : ∀ i j, i < j → before i < after j)
    (hlin : Linearizability.Linearizes mapSpec (fun _ => "") calls cs)
    (hunique : ∀ id call call', .invoke id call ∈ calls → .invoke id call' ∈ calls → call = call')
    (hids : (cs.map Linearizability.Call.id).Perm (returned calls))
    (h : List.Forall₂ (RecordOf before after calls) (returned calls) ops) :
    Serial.Serializable (fun σ v => Checker.KvModel.mapStep σ v.input v.output)
      Checker.Operation.BeforeOrAt (fun _ => "") ops := by
  obtain ⟨order, hrec, hperm⟩ := List.perm_comp_forall₂ hids h
  have hmem : List.Forall₂ (fun c v => c ∈ cs ∧ RecordOf before after calls c.id v) cs order :=
    (List.forall₂_and_left cs order).mpr ⟨fun _ hc => hc, List.forall₂_map_left_iff.mp hrec⟩
  have hrecorded : List.Forall₂ (Recorded before after calls) cs order := by
    refine hmem.imp fun c v hcv => ⟨hcv.2, ?_⟩
    obtain ⟨hc, i, j, call, res, -, hi, hj, rfl⟩ := hcv
    obtain rfl := hunique _ _ _ (List.mem_of_getElem? hi) (hlin.invoked c hc)
    obtain ⟨d, hd, hid, rfl⟩ := hlin.answered _ _ (List.mem_of_getElem? hj)
    obtain rfl : d = c := List.inj_on_of_nodup_map hlin.nodup hd hc hid
    exact ⟨rfl, rfl⟩
  exact ⟨order, hperm, accepts_recorded hrecorded hlin.legal,
    pairwise_recorded hclock hrecorded hlin.order⟩

end record

/-! ## The record of a run -/

namespace Service

variable {n : Nat} {W B : Type} {rgob : Labgob Op W} {gob : KVGob B} {s s' : Service n W B}

/-- What a step does to the calls of the clerks. -/
inductive CallStep (s s' : Service n W B) : Prop
  | same (hcalls : s'.calls = s.calls)
    (hclerks : ∀ c, (s'.clerks c).requestId = (s.clerks c).requestId ∧
      (s'.clerks c).current.map Prod.fst = (s.clerks c).current.map Prod.fst)
  | invoke (client : Int) (call : KVCall)
    (hcalls : s'.calls = s.calls ++ [.invoke (client, (s.clerks client).requestId) call])
    (hclerks : s'.clerks = Function.update s.clerks client
      { s.clerks client with current := some (call, none) })
  | respond (client : Int) (call : KVCall) (res : Option String)
    (hcurrent : (s.clerks client).current.map Prod.fst = some call)
    (hcalls : s'.calls = s.calls ++ [.respond (client, (s.clerks client).requestId) res])
    (hclerks : s'.clerks = Function.update s.clerks client (s.clerks client).done)

theorem CallStep.of_frame (hcalls : s'.calls = s.calls) (hclerks : s'.clerks = s.clerks) :
    CallStep s s' :=
  .same hcalls fun c => by rw [hclerks]; exact ⟨rfl, rfl⟩

theorem CallStep.of_setClerk {client : Int} {ck : Clerk} {rpcs : List RPC} {requests : List Nat}
    (hid : ck.requestId = (s.clerks client).requestId)
    (hcur : ck.current.map Prod.fst = (s.clerks client).current.map Prod.fst) :
    CallStep s { s.setClerk client ck with rpcs := rpcs, requests := requests } := by
  refine .same rfl fun c => ?_
  by_cases hc : c = client
  · subst hc
    simp [setClerk, hid, hcur]
  · simp [setClerk, Function.update_of_ne hc]

theorem kvStep_frame {i : Fin n} {input : KVInput B} (hs : s.kvStep gob i input = some s') :
    s'.calls = s.calls ∧ s'.clerks = s.clerks := by
  obtain ⟨r, -, rfl⟩ := Option.map_eq_some_iff.mp hs
  exact ⟨rfl, rfl⟩

variable [DecidableEq B]

theorem raftStep_frame {i : Fin n} {input : Input Op (List B)}
    (hs : s.raftStep rgob gob i input = some s') :
    s'.calls = s.calls ∧ s'.clerks = s.clerks := by
  obtain ⟨r, -, rfl⟩ := Option.map_eq_some_iff.mp hs
  exact ⟨rfl, rfl⟩

theorem step_calls {e : ServiceEvent n B} (hs : s.step rgob gob e = some s') : CallStep s s' := by
  cases e with
  | invoke client call =>
    simp only [Service.step] at hs
    split at hs
    · cases hs
      exact .invoke client call rfl rfl
    · exact absurd hs (by simp)
  | send client =>
    simp only [Service.step] at hs
    split at hs
    · rename_i call hc
      cases hs
      exact .of_setClerk rfl (by rw [hc]; rfl)
    · exact absurd hs (by simp)
  | fail client =>
    simp only [Service.step] at hs
    split at hs
    · rename_i call _ hc
      cases hs
      exact .of_setClerk rfl (by rw [hc]; rfl)
    · exact absurd hs (by simp)
  | reply client reply =>
    simp only [Service.step] at hs
    split at hs
    · rename_i call rpc hc
      split at hs
      · split at hs
        · cases hs
          exact .of_setClerk rfl (by rw [hc]; rfl)
        · cases hs
          exact .respond client call _ (by rw [hc]; rfl) rfl rfl
      · exact absurd hs (by simp)
    · exact absurd hs (by simp)
  | request i rpc =>
    simp only [Service.step] at hs
    split at hs
    · split at hs
      · obtain ⟨s₁, hs₁, rfl⟩ := Option.map_eq_some_iff.mp hs
        obtain ⟨hcalls, hclerks⟩ := kvStep_frame hs₁
        exact .of_frame hcalls hclerks
      · exact absurd hs (by simp)
    · exact absurd hs (by simp)
  | start i rpc op =>
    simp only [Service.step, startOp] at hs
    split at hs
    · split at hs
      · obtain ⟨s₁, hs₁, rfl⟩ := Option.map_eq_some_iff.mp hs
        obtain ⟨hcalls, hclerks⟩ := raftStep_frame hs₁
        exact .of_frame hcalls hclerks
      · obtain ⟨hcalls, hclerks⟩ := kvStep_frame hs
        exact .of_frame hcalls hclerks
    · exact absurd hs (by simp)
  | append i rpc op term =>
    simp only [Service.step, appendOp] at hs
    split at hs
    · obtain ⟨s₂, hs₂, rfl⟩ := Option.map_eq_some_iff.mp hs
      obtain ⟨s₁, hs₁, hs₂⟩ := Option.bind_eq_some_iff.mp hs₂
      obtain ⟨hcalls₁, hclerks₁⟩ := raftStep_frame hs₁
      obtain ⟨hcalls₂, hclerks₂⟩ := kvStep_frame hs₂
      exact .of_frame (hcalls₂.trans hcalls₁) (hclerks₂.trans hclerks₁)
    · exact absurd hs (by simp)
  | kv i input =>
    simp only [Service.step] at hs
    split at hs
    · obtain ⟨hcalls, hclerks⟩ := kvStep_frame hs
      exact .of_frame hcalls hclerks
    · exact absurd hs (by simp)
  | raft src dst input =>
    simp only [Service.step] at hs
    split at hs
    · obtain ⟨hcalls, hclerks⟩ := raftStep_frame hs
      exact .of_frame hcalls hclerks
    · exact absurd hs (by simp)
  | replaceLog i index data =>
    simp only [Service.step] at hs
    obtain ⟨rep, -, rfl⟩ := Option.map_eq_some_iff.mp hs
    exact .of_frame rfl rfl
  | crash i =>
    simp only [Service.step] at hs
    obtain ⟨rep, -, rfl⟩ := Option.map_eq_some_iff.mp hs
    exact .of_frame rfl rfl

variable {before after : Nat → Int}

/-- A client that waits has noted its call, and what the clients have recorded are the calls
that have returned. -/
structure Watched (before after : Nat → Int) (s : Service n W B) : Prop where
  current : ∀ c call, (s.clerks c).current.map Prod.fst = some call →
    ∃ i, (Recorder.watch before after s.calls).pending c = some (call.input, before i) ∧
      s.calls[i]? = some (.invoke (c, (s.clerks c).requestId) call)
  recorded : List.Forall₂ (RecordOf before after s.calls) (returned s.calls)
    (Recorder.watch before after s.calls).operations

omit [DecidableEq B] in
theorem Watched.recorded_grow (h : s.Watched before after) (e : KVEvent) :
    List.Forall₂ (RecordOf before after (s.calls ++ [e])) (returned s.calls)
      (Recorder.watch before after s.calls).operations :=
  h.recorded.imp fun _ _ hop => hop.grow [e]

theorem Watched.step (h : s.Watched before after) {e : ServiceEvent n B}
    (hs : s.step rgob gob e = some s') : s'.Watched before after := by
  cases step_calls hs with
  | same hcalls hclerks =>
    refine ⟨fun c call hc => ?_, by rw [hcalls]; exact h.recorded⟩
    rw [hcalls, (hclerks c).1]
    exact h.current c call ((hclerks c).2 ▸ hc)
  | invoke client call hcalls hclerks =>
    refine ⟨fun c call' hc => ?_, ?_⟩
    · rw [hclerks] at hc ⊢
      rw [hcalls, Recorder.watch_concat]
      by_cases hcl : c = client
      · subst hcl
        simp only [Function.update_self, Option.map_some, Option.some.injEq] at hc ⊢
        subst hc
        exact ⟨s.calls.length, by simp [Recorder.event], by simp [Clerk.requestId]⟩
      · rw [Function.update_of_ne hcl] at hc ⊢
        obtain ⟨i, hp, hi⟩ := h.current c call' hc
        obtain ⟨hlt, -⟩ := List.getElem?_eq_some_iff.mp hi
        refine ⟨i, ?_, by rwa [List.getElem?_append_left hlt]⟩
        simp [Recorder.event, Function.update_of_ne hcl, hp]
    · rw [hcalls, Recorder.watch_concat, returned_invoke]
      exact h.recorded_grow _
  | respond client call res hcurrent hcalls hclerks =>
    obtain ⟨i, hp, hi⟩ := h.current client call hcurrent
    obtain ⟨hlt, -⟩ := List.getElem?_eq_some_iff.mp hi
    refine ⟨fun c call' hc => ?_, ?_⟩
    · rw [hclerks] at hc ⊢
      rw [hcalls, Recorder.watch_concat]
      by_cases hcl : c = client
      · subst hcl
        simp [Clerk.done] at hc
      · rw [Function.update_of_ne hcl] at hc ⊢
        obtain ⟨j, hpj, hj⟩ := h.current c call' hc
        obtain ⟨hjlt, -⟩ := List.getElem?_eq_some_iff.mp hj
        refine ⟨j, ?_, by rwa [List.getElem?_append_left hjlt]⟩
        simp [Recorder.event, hp, Function.update_of_ne hcl, hpj]
    · rw [hcalls, Recorder.watch_concat, returned_respond]
      simp only [Recorder.event, hp]
      refine List.rel_append (h.recorded_grow _) (.cons ?_ .nil)
      refine ⟨i, s.calls.length, call, res, hlt, ?_, List.getElem?_concat_length .., rfl⟩
      rwa [List.getElem?_append_left hlt]

theorem watched_of_run {handles : Int → Nat → Nat} {es : List (ServiceEvent n B)}
    (h : Runs.Run (step rgob gob) Steady (init rgob gob n handles) es s) : s.Watched before after :=
  h.invariant (Watched before after) ⟨fun _ _ hc => absurd hc (by simp [init, makeClerk]), .nil⟩
    fun _ _ _ hw _ hs => hw.step hs

/-- The checker accepts what the test records. In every steady run after which all calls have
returned, for every clock that goes on between a call and each later return, every order in
which the clients append their operations and every schedule of the checker's goroutines, the
checker says yes; with a timeout it at least never says no. -/
theorem record_accepted (hr : rgob.RoundTrip) (hg : gob.RoundTrip) {handles : Int → Nat → Nat}
    {es : List (ServiceEvent n B)}
    (h : Runs.Run (step rgob gob) Steady (init rgob gob n handles) es s)
    (hreturned : ∀ id call, .invoke id call ∈ s.calls → ∃ res, .respond id res ∈ s.calls)
    (hclock : ∀ i j, i < j → before i < after j) {operations : List Checker.KvOperation}
    (hne : operations ≠ [])
    (hops : operations.Perm (Recorder.watch before after s.calls).operations)
    {sort : List (Checker.Entry (Checker.KvInput ⊕ Checker.KvOutput)) →
      List (Checker.Entry (Checker.KvInput ⊕ Checker.KvOutput))}
    (hs : Checker.SortsByTime sort) :
    ∃ c, Checker.checkOperationsTimeout sort Checker.KvModel.model operations = some c ∧
      Checker.Gives (Checker.fillDefault Checker.KvModel.model).search 0 c true ∧
      ∀ timeout as c', Checker.CollectRun (Checker.fillDefault Checker.KvModel.model).search
        timeout c as c' → c'.returned ≠ some false := by
  have hrec := (watched_of_run h : s.Watched before after).recorded
  obtain ⟨cl, A, log, history, hok⟩ := consistent_of_run hr hg h
  obtain ⟨cs, hlin⟩ := hok.ordered.linearizable
  rw [← hok.calls] at hlin
  have hunique : ∀ id call call', .invoke id call ∈ s.calls → .invoke id call' ∈ s.calls →
      call = call' := by
    intro id call call' hc hc'
    rw [hok.calls] at hc hc'
    obtain ⟨⟨f, -⟩, hf, rfl⟩ := List.mem_map.mp hc
    obtain ⟨⟨f', -⟩, hf', rfl⟩ := List.mem_map.mp hc'
    exact hok.ordered.unique f f' id call call' hf hf'
  have hnodup : (returned s.calls).Nodup := by
    rw [hok.calls, returned_stamped]
    exact hok.ordered.once
  -- the calls of the sequential history are those that have returned
  have hids : (cs.map Linearizability.Call.id).Perm (returned s.calls) := by
    refine (List.perm_ext_iff_of_nodup hlin.nodup hnodup).mpr fun id => ?_
    rw [mem_returned, List.mem_map]
    constructor
    · rintro ⟨c, hc, rfl⟩
      exact hreturned c.id c.op (hlin.invoked c hc)
    · rintro ⟨res, hres⟩
      obtain ⟨c, hc, hid, -⟩ := hlin.answered id res hres
      exact ⟨c, hc, hid⟩
  have hser := (serializable_recorded hclock hlin hunique hids hrec).perm hops.symm
  have hlt : ∀ v ∈ operations, v.call < v.ret := by
    intro v hv
    obtain ⟨id, -, hid⟩ := exists_related hrec (hops.mem_iff.mp hv)
    obtain ⟨i, j, call, res, hij, -, -, rfl⟩ := hid
    exact hclock i j hij
  obtain ⟨c, verdict, hstart, hgives, -, hyes, hno⟩ :=
    Checker.KvModel.checkOperationsTimeout_between hs hne hlt
  obtain rfl := hyes hser
  exact ⟨c, hstart, hgives, fun timeout as c' hrun hfalse =>
    absurd (hno timeout as c' hrun hfalse) (by simp)⟩

theorem record_accepted_crashAndGet :
    ∃ s : Service 3 (Word Op) KVWord,
      (Recorder.watch (fun i => i) (fun j => j) s.calls).operations =
        [⟨⟨1, "x", "a"⟩, 0, ⟨""⟩, 1⟩, ⟨⟨0, "x", ""⟩, 2, ⟨"a"⟩, 3⟩] ∧
      ∃ c, Checker.checkOperationsTimeout (Checker.sortBy Checker.Entry.time)
          Checker.KvModel.model (Recorder.watch (fun i => i) (fun j => j) s.calls).operations =
            some c ∧
        Checker.Gives (Checker.fillDefault Checker.KvModel.model).search 0 c true := by
  obtain ⟨s, hrun, hcalls, -⟩ := run_crashAndGet
  have hops : (Recorder.watch (fun i => i) (fun j => j) s.calls).operations =
      [⟨⟨1, "x", "a"⟩, 0, ⟨""⟩, 1⟩, ⟨⟨0, "x", ""⟩, 2, ⟨"a"⟩, 3⟩] := by
    rw [hcalls]
    rfl
  have hreturned : ∀ id call, .invoke id call ∈ s.calls → ∃ res, .respond id res ∈ s.calls := by
    intro id call hc
    rw [hcalls] at hc ⊢
    simp only [List.mem_cons, Linearizability.Event.invoke.injEq, reduceCtorEq, List.not_mem_nil,
      or_false, false_or] at hc
    rcases hc with ⟨rfl, -⟩ | ⟨rfl, -⟩
    · exact ⟨none, by simp⟩
    · exact ⟨some "a", by simp⟩
  obtain ⟨c, hstart, hgives, -⟩ := record_accepted (Labgob.words_roundTrip Op)
    KVGob.words_roundTrip hrun hreturned (fun i j hij => Int.ofNat_lt.mpr hij)
    (by rw [hops]; simp) (List.Perm.refl _) (Checker.sortsByTime_sortBy fun _ _ h => h)
  exact ⟨s, hops, c, hstart, hgives⟩

end Service

end DistributionSystem
