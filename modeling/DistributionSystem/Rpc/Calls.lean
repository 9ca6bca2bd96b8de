import DistributionSystem.Rpc.Network

/-! What a call over the network can rely on (the comment at the head of `labrpc.go`): a call
that returns true has been executed once, by the server that its end led to and that was still
there when the handler had returned; a call returns, unless its handler does not; and over a
reliable network to a server that stays up it returns true. -/

namespace DistributionSystem.Labrpc

open Runs

variable {E S B : Type}

/-! ## Steps -/

/-- The steps of a call, one by one. -/
inductive Call.Step (rn : Setup E S) (c : Call E S B) : Action B → Call E S B → Prop
  | accept (hp : c.phase = .sending) (ha : rn.accepting = true) :
    Step rn c .accept (c.goTo .accepted)
  | abandon (hp : c.phase = .sending) (hd : rn.done = true) :
    Step rn c .abandon (c.goTo (.returned noReply))
  | route {r : Route S} (hp : c.phase = .accepted) (hr : rn.readEndnameInfo c.endname = some r) :
    Step rn c .process (c.goTo (.routed r))
  | noRoute (hp : c.phase = .accepted) (hr : rn.readEndnameInfo c.endname = none) :
    Step rn c .process (c.goTo (.replying noReply))
  | dropRequest {r : Route S} (hp : c.phase = .routed r) (hu : r.reliable = false) :
    Step rn c .dropRequest (c.goTo (.replying noReply))
  | execute {r : Route S} (hp : c.phase = .routed r) :
    Step rn c .execute { c.goTo (.waiting r) with handler := .started r.server }
  | receive {r : Route S} {reply : ReplyMsg B} (hp : c.phase = .waiting r)
    (hh : c.handler = .finished reply) :
    Step rn c .receive { c.goTo (.got r reply) with handler := .gone }
  | pollDead {r : Route S} (hp : c.phase = .waiting r)
    (hd : rn.isServerDead c.endname r = true) :
    Step rn c .poll { c.goTo (.gaveUp r) with draining := true }
  | pollAlive {r : Route S} (hp : c.phase = .waiting r)
    (hd : rn.isServerDead c.endname r = false) : Step rn c .poll c
  | checkDead {r : Route S} {reply : ReplyMsg B} (hp : c.phase = .got r reply)
    (hd : rn.isServerDead c.endname r = true) : Step rn c .check (c.goTo (.replying noReply))
  | checkAlive {r : Route S} {reply : ReplyMsg B} (hp : c.phase = .got r reply)
    (hd : rn.isServerDead c.endname r = false) : Step rn c .check (c.goTo (.checked r reply))
  | checkGaveUp {r : Route S} (hp : c.phase = .gaveUp r) :
    Step rn c .check (c.goTo (.replying noReply))
  | dropReply {r : Route S} {reply : ReplyMsg B} (hp : c.phase = .checked r reply)
    (hu : r.reliable = false) : Step rn c .dropReply (c.goTo (.replying noReply))
  | send {r : Route S} {reply : ReplyMsg B} (hp : c.phase = .checked r reply) :
    Step rn c .send (c.goTo (.replying reply))
  | deliver {reply : ReplyMsg B} (hp : c.phase = .replying reply) :
    Step rn c .deliver (c.goTo (.returned reply))
  | dispatch {server : Nat} (hh : c.handler = .started server) :
    Step rn c .dispatch { c with handler := .running server }
  | handled {server : Nat} (reply : List B) (hh : c.handler = .running server) :
    Step rn c (.handled reply) { c with handler := .finished ⟨true, reply⟩ }
  | drain {reply : ReplyMsg B} (hh : c.handler = .finished reply) (hd : c.draining = true) :
    Step rn c .drain { c with handler := .gone, draining := false }

theorem Call.step_cases {rn : Setup E S} {c c' : Call E S B} {a : Action B}
    (h : c.step rn a = some c') : Call.Step rn c a c' := by
  unfold Call.step at h
  split at h
  · split at h
    · cases h
      exact .accept ‹_› ‹_›
    · exact absurd h (by simp)
  · split at h
    · cases h
      exact .abandon ‹_› ‹_›
    · exact absurd h (by simp)
  · split at h
    · cases h
      exact .route ‹_› ‹_›
    · cases h
      exact .noRoute ‹_› ‹_›
  · split at h
    · cases h
      exact .dropRequest ‹_› ‹_›
    · exact absurd h (by simp)
  · cases h
    exact .execute ‹_›
  · split at h
    · cases h
      exact .receive ‹_› ‹_›
    · exact absurd h (by simp)
  · split at h
    · cases h
      exact .pollDead ‹_› ‹_›
    · rename_i hd
      cases h
      exact .pollAlive ‹_› (by simpa using hd)
  · split at h
    · cases h
      exact .checkDead ‹_› ‹_›
    · rename_i hd
      cases h
      exact .checkAlive ‹_› (by simpa using hd)
  · cases h
    exact .checkGaveUp ‹_›
  · split at h
    · cases h
      exact .dropReply ‹_› ‹_›
    · exact absurd h (by simp)
  · cases h
    exact .send ‹_›
  · cases h
    exact .deliver ‹_›
  · split at h
    · cases h
      exact .dispatch ‹_›
    · exact absurd h (by simp)
  · split at h
    · cases h
      exact .handled _ ‹_›
    · exact absurd h (by simp)
  · split at h
    · split at h
      · cases h
        exact .drain ‹_› ‹_›
      · exact absurd h (by simp)
    · exact absurd h (by simp)
  · exact absurd h (by simp)

theorem Call.Step.endname {rn : Setup E S} {c c' : Call E S B} {a : Action B}
    (h : Call.Step rn c a c') : c'.endname = c.endname := by
  cases h <;> rfl

theorem Call.Step.args {rn : Setup E S} {c c' : Call E S B} {a : Action B}
    (h : Call.Step rn c a c') : c'.args = c.args := by
  cases h <;> rfl

/-- What an event does to the calls. -/
inductive CallsStep (rn : Network E S B) (e : NetEvent E S B) (rn' : Network E S B) : Prop
  | same (he : ∀ i a, e ≠ .act i a) (hcalls : rn'.calls = rn.calls)
  | new (endname : E) (svcMeth : String) (args : List B) (he : e = .call endname svcMeth args)
    (hcalls : rn'.calls = rn.calls ++ [⟨endname, svcMeth, args, .sending, .idle, false⟩])
  | act (i : Nat) (a : Action B) (c c' : Call E S B) (he : e = .act i a)
    (hc : rn.calls[i]? = some c) (hs : Call.Step rn.toSetup c a c') (hcalls : rn'.calls = rn.calls.set i c')

theorem Network.around_frame (rn : Network E S B) (c : Call E S B) (a : Action B) :
    (rn.around c a).calls = rn.calls ∧ (rn.around c a).toSetup = rn.toSetup := by
  unfold around
  split
  · exact ⟨rfl, rfl⟩
  · split
    · split <;> exact ⟨rfl, rfl⟩
    · exact ⟨rfl, rfl⟩
  · exact ⟨rfl, rfl⟩

variable [DecidableEq E] [DecidableEq S] {rn rn' : Network E S B} {e : NetEvent E S B}

theorem Network.step_next (h : rn.step e = some rn') : rn.fatal = none ∧ rn.next e = some rn' := by
  unfold step at h
  split at h
  · exact absurd h (by simp)
  · rename_i hf
    exact ⟨by simpa using hf, h⟩

theorem Network.step_act {i : Nat} {a : Action B} (h : rn.step (.act i a) = some rn') :
    ∃ c c', rn.calls[i]? = some c ∧ c.step rn.toSetup a = some c' ∧
      rn' = (rn.around c a).setCall i c' := by
  have h := (step_next h).2
  simp only [next] at h
  split at h
  · exact absurd h (by simp)
  · obtain ⟨c', hs, rfl⟩ := Option.map_eq_some_iff.mp h
    exact ⟨_, c', ‹_›, hs, rfl⟩

theorem Network.step_calls (h : rn.step e = some rn') : CallsStep rn e rn' := by
  cases e with
  | act i a =>
    obtain ⟨c, c', hc, hs, rfl⟩ := step_act h
    refine .act i a c c' rfl hc (Call.step_cases hs) ?_
    simp only [setCall, (around_frame rn c a).1]
  | call endname svcMeth args =>
    have h := (step_next h).2
    simp only [next] at h
    split at h
    · cases h
      exact .new endname svcMeth args rfl rfl
    · exact absurd h (by simp)
  | makeServer | deleteServer | connect | enable | setReliable =>
    cases (step_next h).2
    exact .same (by simp) rfl
  | makeEnd | cleanup =>
    have h := (step_next h).2
    simp only [next] at h
    split at h <;> cases h <;> exact .same (by simp) rfl
  | addService | addServer | quit =>
    have h := (step_next h).2
    simp only [next] at h
    split at h
    · cases h
      exact .same (by simp) rfl
    · exact absurd h (by simp)

/-- How a call has become what it is. -/
inductive CallAt (rn : Network E S B) (e : NetEvent E S B) (i : Nat) (c' : Call E S B) : Prop
  | new (endname : E) (svcMeth : String) (args : List B) (he : e = .call endname svcMeth args)
    (hi : i = rn.calls.length) (hc' : c' = ⟨endname, svcMeth, args, .sending, .idle, false⟩)
  | kept (hc : rn.calls[i]? = some c') (he : ∀ a, e ≠ .act i a)
  | moved (a : Action B) (c : Call E S B) (he : e = .act i a) (hc : rn.calls[i]? = some c)
    (hs : Call.Step rn.toSetup c a c')

theorem Network.step_call_inv (h : rn.step e = some rn') {i : Nat} {c' : Call E S B}
    (hc' : rn'.calls[i]? = some c') : CallAt rn e i c' := by
  cases step_calls h with
  | same he hcalls => exact .kept (hcalls ▸ hc') fun a => he i a
  | new endname svcMeth args he hcalls =>
    rw [hcalls] at hc'
    rcases Nat.lt_trichotomy i rn.calls.length with hlt | rfl | hgt
    · rw [List.getElem?_append_left hlt] at hc'
      exact .kept hc' fun a => by simp [he]
    · rw [List.getElem?_concat_length] at hc'
      exact .new endname svcMeth args he rfl (Option.some.inj hc').symm
    · rw [List.getElem?_eq_none (by simp; omega)] at hc'
      exact absurd hc' (by simp)
  | act j a c d he hc hs hcalls =>
    obtain ⟨hj, -⟩ := List.getElem?_eq_some_iff.mp hc
    rw [hcalls] at hc'
    by_cases hij : j = i
    · subst hij
      rw [List.getElem?_set_self hj] at hc'
      cases hc'
      exact .moved a c he hc hs
    · rw [List.getElem?_set_ne hij] at hc'
      exact .kept hc' fun b => by simp [he, hij]

/-- A call is still there behind a step. -/
theorem Network.step_call (h : rn.step e = some rn') {i : Nat} {c : Call E S B}
    (hc : rn.calls[i]? = some c) :
    (rn'.calls[i]? = some c ∧ ∀ a, e ≠ .act i a) ∨
      ∃ a c', e = .act i a ∧ Call.Step rn.toSetup c a c' ∧ rn'.calls[i]? = some c' := by
  obtain ⟨hlt, -⟩ := List.getElem?_eq_some_iff.mp hc
  have hlen : rn.calls.length ≤ rn'.calls.length := by
    cases step_calls h with
    | same _ hcalls => exact Nat.le_of_eq (by rw [hcalls])
    | new _ _ _ _ hcalls => simp [hcalls]
    | act _ _ _ _ _ _ _ hcalls => simp [hcalls]
  obtain ⟨c', hc'⟩ : ∃ c', rn'.calls[i]? = some c' :=
    ⟨_, List.getElem?_eq_getElem (Nat.lt_of_lt_of_le hlt hlen)⟩
  cases step_call_inv h hc' with
  | new _ _ _ _ hi _ => exact absurd hi (Nat.ne_of_lt hlt)
  | kept hc₀ he =>
    obtain rfl := Option.some.inj (hc.symm.trans hc₀)
    exact Or.inl ⟨hc', he⟩
  | moved a c₀ he hc₀ hs =>
    obtain rfl := Option.some.inj (hc.symm.trans hc₀)
    exact Or.inr ⟨a, c', he, hs, hc'⟩

/-- What an event does to the setup. -/
def Setup.after (rn : Setup E S) : NetEvent E S B → Setup E S
  | .makeEnd endname => if endname ∈ rn.ends then rn else rn.makeEnd endname
  | .addServer servername server => rn.addServer servername server
  | .deleteServer servername => rn.deleteServer servername
  | .connect endname servername => rn.connect endname servername
  | .enable endname enabled => rn.enable endname enabled
  | .setReliable yes => rn.setReliable yes
  | .cleanup => { rn with done := true }
  | .quit => { rn with accepting := false }
  | .makeServer | .addService .. | .call .. | .act .. => rn

theorem Network.step_setup (h : rn.step e = some rn') : rn'.toSetup = rn.toSetup.after e := by
  have hnext := (step_next h).2
  cases e with
  | act i a =>
    obtain ⟨c, c', -, -, rfl⟩ := step_act h
    exact (around_frame rn c a).2
  | makeServer | deleteServer | connect | enable | setReliable =>
    cases hnext
    rfl
  | makeEnd endname =>
    simp only [next] at hnext
    split at hnext <;> cases hnext <;> simp [Setup.after, *]
  | cleanup =>
    simp only [next] at hnext
    split at hnext
    · rename_i hd
      cases hnext
      simp only [Setup.after, ← hd]
    · cases hnext
      rfl
  | addService | addServer | quit | call =>
    simp only [next] at hnext
    split at hnext
    · cases hnext
      rfl
    · exact absurd hnext (by simp)

/-! ## A call that returns true -/

/-- Any step of the network is allowed. -/
abbrev NetRun (rn : Network E S B) := Run Network.step (fun _ _ => True) rn

def NetEvent.dispatches (i : Nat) : NetEvent E S B → Bool
  | .act j .dispatch => j = i
  | _ => false

section told

variable {es : List (NetEvent E S B)} {i : Nat} {c : Call E S B}

/-- `ReadEndnameInfo` has found the route `r`. -/
def Routed (es : List (NetEvent E S B)) (i : Nat) (endname : E) (r : Route S) : Prop :=
  Took Network.step (fun _ _ => True) .makeNetwork es (.act i .process)
    fun _ rn => rn.readEndnameInfo endname = some r

/-- The method has run for the call at the server and has returned `reply`. -/
def Ran (es : List (NetEvent E S B)) (i server : Nat) (reply : List B) : Prop :=
  Took Network.step (fun _ _ => True) .makeNetwork es (.act i (.handled reply))
    fun _ rn => (rn.calls[i]?).map Call.handler = some (.running server)

/-- Behind the method the server was still there. -/
def Confirmed (es : List (NetEvent E S B)) (i : Nat) (endname : E) (r : Route S)
    (reply : List B) : Prop :=
  Took Network.step (fun _ _ => True) .makeNetwork es (.act i .check) fun es rn =>
    rn.isServerDead endname r = false ∧ Ran es i r.server reply

/-- The reply is no reply, or what a method has returned. -/
def Truthful (es : List (NetEvent E S B)) (i : Nat) (endname : E) (reply : ReplyMsg B) : Prop :=
  reply = noReply ∨ reply.ok = true ∧ ∃ r, Routed es i endname r ∧
    Confirmed es i endname r reply.reply

/-- How often the method has been called. -/
def Handler.calls : Handler B → Nat
  | .idle | .started _ => 0
  | .running _ | .finished _ | .gone => 1

/-- The handler that the loop waits for is one at `server`. -/
def HandlerAt (es : List (NetEvent E S B)) (i server : Nat) : Handler B → Prop
  | .started o | .running o => o = server
  | .finished reply => reply.ok = true ∧ Ran es i server reply.reply
  | .idle | .gone => False

def PhaseTold (es : List (NetEvent E S B)) (i : Nat) (c : Call E S B) : Prop :=
  match c.phase with
  | .sending | .accepted => c.handler = .idle
  | .routed r => c.handler = .idle ∧ Routed es i c.endname r
  | .waiting r => Routed es i c.endname r ∧ HandlerAt es i r.server c.handler
  | .got r reply => Routed es i c.endname r ∧ reply.ok = true ∧ Ran es i r.server reply.reply
  | .gaveUp _ => True
  | .checked r reply => Routed es i c.endname r ∧ reply.ok = true ∧
    Confirmed es i c.endname r reply.reply
  | .replying reply | .returned reply => Truthful es i c.endname reply

/-- The call will get no reply of its handler, or has one. -/
def Phase.over : Phase S B → Bool
  | .gaveUp _ | .replying _ | .returned _ => true
  | _ => false

/-- What the events tell of a call. -/
structure Told (es : List (NetEvent E S B)) (i : Nat) (c : Call E S B) : Prop where
  once : es.countP (NetEvent.dispatches i) = c.handler.calls
  phase : PhaseTold es i c
  /-- `ech` is drained only behind the loop. -/
  drains : c.draining = true → c.phase.over = true

theorem Truthful.snoc {endname : E} {reply : ReplyMsg B} (h : Truthful es i endname reply)
    (e : NetEvent E S B) : Truthful (es ++ [e]) i endname reply := by
  rcases h with rfl | ⟨hok, r, hr, hc⟩
  · exact Or.inl rfl
  · exact Or.inr ⟨hok, r, hr.snoc e, hc.snoc e⟩

theorem HandlerAt.snoc {server : Nat} {h : Handler B} (hat : HandlerAt es i server h)
    (e : NetEvent E S B) : HandlerAt (es ++ [e]) i server h := by
  cases h with
  | finished reply => exact ⟨hat.1, hat.2.snoc e⟩
  | started | running => exact hat
  | idle | gone => exact absurd hat id

theorem PhaseTold.snoc (h : PhaseTold es i c) (e : NetEvent E S B) :
    PhaseTold (es ++ [e]) i c := by
  unfold PhaseTold at h ⊢
  split at h
  · exact h
  · exact h
  · exact ⟨h.1, h.2.snoc e⟩
  · exact ⟨h.1.snoc e, h.2.snoc e⟩
  · exact ⟨h.1.snoc e, h.2.1, h.2.2.snoc e⟩
  · trivial
  · exact ⟨h.1.snoc e, h.2.1, h.2.2.snoc e⟩
  · exact h.snoc e
  · exact h.snoc e

/-- The events of other calls tell nothing new. -/
theorem Told.snoc (h : Told es i c) {e : NetEvent E S B} (he : e.dispatches i = false) :
    Told (es ++ [e]) i c where
  once := by simp [List.countP_append, he, h.once]
  phase := h.phase.snoc e
  drains := h.drains

/-- A step of the handler's goroutine: only the loop waits for it. -/
theorem PhaseTold.setHandler (h : PhaseTold es i c) (hne : c.handler ≠ .idle) {handler : Handler B}
    {draining : Bool} (hw : ∀ r, c.phase = .waiting r → HandlerAt es i r.server handler) :
    PhaseTold es i { c with handler := handler, draining := draining } := by
  unfold PhaseTold at h ⊢
  cases hp : c.phase with
  | sending | accepted =>
    simp only [hp] at h
    exact absurd h hne
  | routed r =>
    simp only [hp] at h
    exact absurd h.1 hne
  | waiting r =>
    simp only [hp] at h ⊢
    exact ⟨h.1, hw r hp⟩
  | gaveUp => trivial
  | _ =>
    simp only [hp] at h ⊢
    exact h

/-- A step of the call that leaves the number of its method calls alone. -/
theorem Told.next (h : Told es i c) {a : Action B} (ha : a ≠ .dispatch) {c' : Call E S B}
    (hcalls : c'.handler.calls = c.handler.calls) (hp : PhaseTold (es ++ [.act i a]) i c')
    (hd : c'.draining = true → c'.phase.over = true) :
    Told (es ++ [.act i a]) i c' where
  once := by
    have hno : NetEvent.dispatches i (.act i a : NetEvent E S B) = false := by
      cases a with
      | dispatch => exact absurd rfl ha
      | _ => rfl
    simp [List.countP_append, hno, h.once, hcalls]
  phase := hp
  drains := hd

theorem Told.step (h : Told es i c) (hr : NetRun .makeNetwork es rn)
    (hc : rn.calls[i]? = some c) {a : Action B} {c' : Call E S B} (hs : Call.Step rn.toSetup c a c') :
    Told (es ++ [.act i a]) i c' := by
  have hphase := h.phase
  have hlast := h.phase.snoc (.act i a)
  have hbehind := hlast
  unfold PhaseTold at hphase hlast
  cases hs with
  | accept hp _ =>
    simp only [hp] at hphase
    exact h.next (by simp) rfl hphase fun hd => absurd (h.drains hd) (by simp [hp, Phase.over])
  | abandon => exact h.next (by simp) rfl (Or.inl rfl) fun _ => rfl
  | route hp hroute =>
    simp only [hp] at hphase
    exact h.next (by simp) rfl ⟨hphase, hr.took hroute⟩ fun hd =>
      absurd (h.drains hd) (by simp [hp, Phase.over])
  | noRoute | dropRequest | checkDead | checkGaveUp | dropReply =>
    exact h.next (by simp) rfl (Or.inl rfl) fun _ => rfl
  | execute hp =>
    simp only [hp] at hphase hlast
    refine h.next (by simp) ?_ ⟨hlast.2, rfl⟩ fun hd => ?_
    · rw [hphase.1]
      rfl
    · exact absurd (h.drains hd) (by simp [hp, Phase.over])
  | receive hp hh =>
    simp only [hp, hh] at hlast
    refine h.next (by simp) ?_ ⟨hlast.1, hlast.2⟩ fun hd => ?_
    · rw [hh]
      rfl
    · exact absurd (h.drains hd) (by simp [hp, Phase.over])
  | pollDead => exact h.next (by simp) rfl trivial fun _ => rfl
  | pollAlive => exact h.next (by simp) rfl hbehind h.drains
  | checkAlive hp hd =>
    simp only [hp] at hphase hlast
    refine h.next (by simp) rfl ?_ fun hd => absurd (h.drains hd) (by simp [hp, Phase.over])
    exact ⟨hlast.1, hlast.2.1, hr.took ⟨hd, hphase.2.2⟩⟩
  | send hp =>
    simp only [hp] at hlast
    refine h.next (by simp) rfl ?_ fun _ => rfl
    exact Or.inr ⟨hlast.2.1, _, hlast.1, hlast.2.2⟩
  | deliver hp =>
    simp only [hp] at hlast
    exact h.next (by simp) rfl hlast fun _ => rfl
  | @dispatch server hh =>
    refine ⟨?_, hbehind.setHandler (by simp [hh]) fun r hp => ?_, h.drains⟩
    · simp [List.countP_append, NetEvent.dispatches, h.once, hh, Handler.calls]
    · simp only [hp, hh] at hphase
      exact hphase.2
  | @handled server reply hh =>
    refine h.next (by simp) (by rw [hh]; rfl)
      (hbehind.setHandler (by simp [hh]) fun r hp => ?_) h.drains
    simp only [hp, hh] at hphase
    obtain rfl : server = r.server := hphase.2
    exact ⟨rfl, hr.took (by rw [hc, Option.map_some, hh])⟩
  | drain hh hd =>
    refine h.next (by simp) (by rw [hh]; rfl)
      (hbehind.setHandler (by simp [hh]) fun r hp => ?_) (by simp)
    exact absurd (h.drains hd) (by simp [hp, Phase.over])

/-- What the events tell of all calls. -/
structure AllTold (es : List (NetEvent E S B)) (rn : Network E S B) : Prop where
  told : ∀ i c, rn.calls[i]? = some c → Told es i c
  fresh : ∀ i, rn.calls.length ≤ i → es.countP (NetEvent.dispatches i) = 0

omit [DecidableEq E] [DecidableEq S] in
theorem dispatches_eq_false {e : NetEvent E S B} (he : ∀ a, e ≠ .act i a) :
    e.dispatches i = false := by
  unfold NetEvent.dispatches
  split
  · rename_i j
    refine decide_eq_false ?_
    rintro rfl
    exact he _ rfl
  · rfl

theorem allTold_of_run (h : NetRun .makeNetwork es rn) : AllTold es rn := by
  refine h.invariant_events AllTold ⟨by simp [Network.makeNetwork], by simp⟩ ?_
  intro es rn e rn' hr hinv _ hs
  refine ⟨fun i c hc => ?_, fun i hi => ?_⟩
  · cases Network.step_call_inv hs hc with
    | new endname svcMeth args he hi hc' =>
      subst he hi hc'
      have hnone := hinv.fresh _ (Nat.le_refl _)
      exact ⟨by simp [List.countP_append, hnone, NetEvent.dispatches, Handler.calls], rfl, by simp⟩
    | kept hc₀ he => exact (hinv.told i c hc₀).snoc (dispatches_eq_false he)
    | moved a c₀ he hc₀ hstep =>
      subst he
      exact (hinv.told i c₀ hc₀).step hr hc₀ hstep
  · -- nothing is done for a call that has not been made
    have hle : rn.calls.length ≤ i := by
      by_contra hlt
      obtain ⟨c, hc⟩ : ∃ c, rn.calls[i]? = some c :=
        ⟨_, List.getElem?_eq_getElem (Nat.lt_of_not_le hlt)⟩
      rcases Network.step_call hs hc with ⟨hc', -⟩ | ⟨a, c', -, -, hc'⟩
      · rw [List.getElem?_eq_none hi] at hc'
        exact absurd hc' (by simp)
      · rw [List.getElem?_eq_none hi] at hc'
        exact absurd hc' (by simp)
    have hno : e.dispatches i = false := by
      apply dispatches_eq_false
      rintro a rfl
      obtain ⟨c, -, hc, -⟩ := Network.step_act hs
      rw [List.getElem?_eq_none hle] at hc
      exact absurd hc (by simp)
    simp [List.countP_append, hno, hinv.fresh i hle]

end told

/-- A call is executed at most once. One that returns true has been executed once, and returns
what the method has returned: at the server to which its end led when `ProcessReq` looked, and
which was still there, with the end enabled, behind the method. -/
theorem call_truthful {es : List (NetEvent E S B)} (h : NetRun .makeNetwork es rn) {i : Nat}
    {c : Call E S B} (hc : rn.calls[i]? = some c) :
    es.countP (NetEvent.dispatches i) ≤ 1 ∧
      ∀ reply, c.phase = .returned ⟨true, reply⟩ →
        es.countP (NetEvent.dispatches i) = 1 ∧
        ∃ r, Routed es i c.endname r ∧ Confirmed es i c.endname r reply := by
  have htold := (allTold_of_run h).told i c hc
  have hle : es.countP (NetEvent.dispatches i) ≤ 1 := by
    rw [htold.once]
    cases c.handler <;> simp [Handler.calls]
  refine ⟨hle, fun reply hp => ?_⟩
  have hphase := htold.phase
  simp only [PhaseTold, hp] at hphase
  rcases hphase with hno | ⟨-, r, hroute, hconf⟩
  · exact absurd hno (by simp [noReply])
  · refine ⟨?_, r, hroute, hconf⟩
    -- when the method returned it had been called
    obtain ⟨pre, post, t, rfl, -, -, pre', post', t', rfl, hr', hrun⟩ := hconf
    obtain ⟨d, hd, hh⟩ := Option.map_eq_some_iff.mp hrun
    have hone := ((allTold_of_run hr').told i d hd).once
    rw [hh, Handler.calls] at hone
    have hge : 1 ≤ ((pre' ++ .act i (.handled reply) :: post') ++ .act i .check :: post).countP
        (NetEvent.dispatches i) := by
      rw [List.append_assoc, List.countP_append, hone]
      omega
    exact Nat.le_antisymm hle hge

/-- A server with the handlers of Raft, an end that leads to it, and a call of its method. -/
def callVote : List (NetEvent Nat Nat Nat) :=
  [.makeEnd 7, .makeServer,
    .addService 0 (makeService "Raft"
      [⟨"RequestVote", true, 3, true, 0⟩, ⟨"GetState", true, 1, false, 2⟩]),
    .addServer 1 0, .connect 7 1, .enable 7 true, .call 7 "Raft.RequestVote" [5], .act 0 .accept,
    .act 0 .process, .act 0 .execute, .act 0 .dispatch]

def replyVote : List (NetEvent Nat Nat Nat) :=
  [.act 0 (.handled [9]), .act 0 .receive, .act 0 .check, .act 0 .send, .act 0 .deliver]

omit [DecidableEq E] [DecidableEq S] in
theorem exists_call {p : Phase S B} (h : rn.calls.map Call.phase = [p]) :
    ∃ c, rn.calls[0]? = some c ∧ c.phase = p := by
  have h₀ := congrArg (·[0]?) h
  simpa using h₀

theorem call_truthful_vote :
    ∃ rn c, NetRun .makeNetwork (callVote ++ replyVote) rn ∧ rn.calls[0]? = some c ∧
      c.phase = .returned ⟨true, [9]⟩ ∧
      (callVote ++ replyVote).countP (NetEvent.dispatches 0) = 1 ∧
      ∃ r, Routed (callVote ++ replyVote) 0 c.endname r ∧
        Confirmed (callVote ++ replyVote) 0 c.endname r [9] := by
  have hexec : (exec Network.step (fun _ _ => True) .makeNetwork (callVote ++ replyVote)).map
      (fun rn => rn.calls.map Call.phase) = some [.returned ⟨true, [9]⟩] := by decide +kernel
  obtain ⟨rn, hrun, hcalls⟩ := run_of_exec_map _ hexec
  obtain ⟨c, hc, hp⟩ := exists_call hcalls
  obtain ⟨hone, hr⟩ := (call_truthful hrun hc).2 [9] hp
  exact ⟨rn, c, hrun, hc, hp, hone, hr⟩

end DistributionSystem.Labrpc
