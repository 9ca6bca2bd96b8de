import DistributionSystem.Rpc.Calls

/-! How calls end: those to a server that is deleted fail, every call returns unless its
handler does not, and over a reliable network to a server that stays up no call fails. -/

namespace DistributionSystem.Labrpc

open Runs

variable {E S B : Type} [DecidableEq E] [DecidableEq S] {rn rn' : Network E S B}
  {e : NetEvent E S B}

/-! ## A server that is deleted -/

/-- Where the call goes, before the last look at the server. -/
def Phase.route? : Phase S B → Option (Route S)
  | .routed r | .waiting r | .got r _ | .gaveUp r => some r
  | .sending | .accepted | .checked .. | .replying _ | .returned _ => none

/-- Only `AddServer` brings a server to a name. -/
theorem Setup.after_servers {rn : Setup E S} {servername : S} {server : Nat}
    (he : e ≠ .addServer servername server) (hno : rn.servers servername ≠ some server) :
    (rn.after e).servers servername ≠ some server := by
  cases e with
  | addServer name o =>
    intro hsome
    simp only [after, addServer] at hsome
    by_cases hname : servername = name
    · subst hname
      rw [Function.update_self] at hsome
      exact he (by rw [Option.some.inj hsome])
    · rw [Function.update_of_ne hname] at hsome
      exact hno hsome
  | deleteServer name =>
    simp only [after, deleteServer]
    by_cases hname : servername = name
    · subst hname
      rw [Function.update_self]
      simp
    · rwa [Function.update_of_ne hname]
  | makeEnd endname =>
    simp only [after]
    split <;> exact hno
  | _ => exact hno

/-- The call is on its way to a server that is gone, or has failed. -/
def Doomed (r : Route S) (endname : E) (c : Call E S B) : Prop :=
  c.endname = endname ∧ (c.phase.route? = some r ∨ c.phase = .replying noReply ∨
    c.phase = .returned noReply)

omit [DecidableEq E] [DecidableEq S] in
theorem Doomed.step {rn : Setup E S} {r : Route S} {endname : E} {c c' : Call E S B} {a : Action B}
    (h : Doomed r endname c) (hgone : rn.servers r.servername ≠ some r.server)
    (hs : Call.Step rn c a c') : Doomed r endname c' := by
  obtain ⟨hend, hphase⟩ := h
  have hdead : ∀ n, rn.isServerDead n r = true := by
    intro n
    simp [Setup.isServerDead, hgone]
  cases hs with
  | accept hp | abandon hp | route hp | noRoute hp | send hp | dropReply hp =>
    rw [hp] at hphase
    simp [Phase.route?] at hphase
  | dropRequest | checkDead | checkGaveUp => exact ⟨hend, Or.inr (Or.inl rfl)⟩
  | execute hp | pollDead hp | receive hp =>
    rw [hp] at hphase
    simp only [Phase.route?, reduceCtorEq, or_self, or_false] at hphase
    exact ⟨hend, Or.inl hphase⟩
  | pollAlive hp hd | checkAlive hp hd =>
    rw [hp] at hphase
    simp only [Phase.route?, reduceCtorEq, or_self, or_false, Option.some.injEq] at hphase
    rw [hphase, hdead] at hd
    exact absurd hd (by simp)
  | deliver hp =>
    rw [hp] at hphase
    simp only [Phase.route?, reduceCtorEq, or_false, false_or, Phase.replying.injEq] at hphase
    exact ⟨hend, Or.inr (Or.inr (by rw [hphase]; rfl))⟩
  | dispatch | handled | drain => exact ⟨hend, hphase⟩

/-- Once a server is deleted, or another one has its name, no call that was on its way to it
returns true any more, whatever its handler does: nobody sees a reply to what the handler may
have stored where the next server does not look. -/
theorem no_reply_from_deleted {i : Nat} {c : Call E S B} {r : Route S}
    (hc : rn.calls[i]? = some c) (hr : c.phase.route? = some r)
    (hgone : rn.servers r.servername ≠ some r.server) {es : List (NetEvent E S B)}
    (h : Run Network.step (fun _ e => e ≠ .addServer r.servername r.server) rn es rn')
    {c' : Call E S B} (hc' : rn'.calls[i]? = some c') (reply : List B) :
    c'.phase ≠ .returned ⟨true, reply⟩ := by
  have hinv := h.invariant
    (fun rn => rn.servers r.servername ≠ some r.server ∧
      ∃ d, rn.calls[i]? = some d ∧ Doomed r c.endname d)
    ⟨hgone, c, hc, rfl, Or.inl hr⟩ (by
      rintro rn e rn' ⟨hno, d, hd, hdoom⟩ hne hs
      have hno' : rn'.servers r.servername ≠ some r.server := by
        rw [Network.step_setup hs]
        exact Setup.after_servers hne hno
      refine ⟨hno', ?_⟩
      rcases Network.step_call hs hd with ⟨hd', -⟩ | ⟨a, d', -, hstep, hd'⟩
      · exact ⟨d, hd', hdoom⟩
      · exact ⟨d', hd', hdoom.step hno hstep⟩)
  obtain ⟨-, d, hd, -, hphase⟩ := hinv
  obtain rfl := Option.some.inj (hd.symm.trans hc')
  intro hp
  rw [hp] at hphase
  simp [Phase.route?, noReply] at hphase

/-- The server is deleted while the method runs. -/
def lateVote : List (NetEvent Nat Nat Nat) :=
  [.act 0 (.handled [9]), .act 0 .receive, .act 0 .check, .act 0 .deliver]

theorem no_reply_from_deleted_vote :
    ∃ rn rn' c, NetRun .makeNetwork (callVote ++ [.deleteServer 1]) rn ∧
      Run Network.step (fun _ e => e ≠ .addServer 1 0) rn lateVote rn' ∧
      rn'.calls[0]? = some c ∧ c.phase = .returned ⟨false, []⟩ ∧
      ∀ reply, c.phase ≠ .returned ⟨true, reply⟩ := by
  have hexec : (exec Network.step (fun _ _ => True) .makeNetwork
      (callVote ++ [.deleteServer 1])).map (fun rn => (rn.calls.map Call.phase, rn.servers 1)) =
        some ([.waiting ⟨1, 0, true⟩], none) := by decide +kernel
  have hexec' : (exec Network.step (fun _ _ => True) .makeNetwork
      ((callVote ++ [.deleteServer 1]) ++ lateVote)).map (fun rn => rn.calls.map Call.phase) =
        some [.returned ⟨false, []⟩] := by decide +kernel
  obtain ⟨rn, hrun, hst⟩ := run_of_exec_map _ hexec
  obtain ⟨rn', hrun', hcalls'⟩ := run_of_exec_map _ hexec'
  obtain ⟨hcalls, hgone⟩ := Prod.mk.inj hst
  obtain ⟨c, hc, hp⟩ := exists_call hcalls
  obtain ⟨c', hc', hp'⟩ := exists_call hcalls'
  have hlate : Run Network.step (fun _ e => e ≠ .addServer 1 0) rn lateVote rn' := by
    refine (hrun.rest hrun').mono fun _ e he _ => ?_
    rintro rfl
    exact absurd he (by decide)
  refine ⟨rn, rn', c', hrun, hlate, hc', hp', ?_⟩
  exact no_reply_from_deleted hc (by rw [hp]; rfl) (by rw [hgone]; simp) hlate hc'

/-! ## A call returns -/

def Phase.rank : Phase S B → Nat
  | .sending => 7
  | .accepted => 6
  | .routed _ => 5
  | .waiting _ => 4
  | .got .. | .gaveUp _ => 3
  | .checked .. => 2
  | .replying _ => 1
  | .returned _ => 0

def Handler.rank : Handler B → Nat
  | .idle => 4
  | .started _ => 3
  | .running _ => 2
  | .finished _ => 1
  | .gone => 0

/-- A bound on the steps that are left. -/
def Call.rank (c : Call E S B) : Nat := c.phase.rank + c.handler.rank

omit [DecidableEq E] [DecidableEq S] in
/-- Each step but the rounds of the loop lowers the rank, if the handler starts behind the
route. -/
theorem Call.Step.rank_lt {rn : Setup E S} {c c' : Call E S B} {a : Action B}
    (hs : Call.Step rn c a c') (hidle : ∀ r, c.phase = .routed r → c.handler = .idle) :
    c'.rank < c.rank ∨ a = .poll ∧ c'.rank ≤ c.rank := by
  unfold rank
  cases hs with
  | pollAlive => exact Or.inr ⟨rfl, Nat.le_refl _⟩
  | execute hp =>
    rw [hidle _ hp]
    simp [hp, goTo, Phase.rank, Handler.rank]
  | dispatch hh | handled _ hh | drain hh => simp [hh, Handler.rank]
  | receive hp hh => simp [hp, hh, goTo, Phase.rank, Handler.rank]
  | accept hp | abandon hp | route hp | noRoute hp | dropRequest hp | pollDead hp | checkDead hp
  | checkAlive hp | checkGaveUp hp | dropReply hp | send hp | deliver hp =>
    simp [hp, goTo, Phase.rank]

/-- A step of the call other than a round of its loop. -/
def NetEvent.own (i : Nat) : NetEvent E S B → Bool
  | .act _ .poll => false
  | .act j _ => j = i
  | _ => false

omit [DecidableEq E] [DecidableEq S] in
theorem own_eq_false {i : Nat} (he : ∀ a, e ≠ .act i a) : e.own i = false := by
  unfold NetEvent.own
  split
  · rfl
  · refine decide_eq_false ?_
    rintro rfl
    exact he _ rfl
  · rfl

theorem Told.idle {es : List (NetEvent E S B)} {i : Nat} {c : Call E S B} (h : Told es i c)
    (r : Route S) (hp : c.phase = .routed r) : c.handler = .idle := by
  have hphase := h.phase
  simp only [PhaseTold, hp] at hphase
  exact hphase.1

theorem Network.step_of_call {i : Nat} {c c' : Call E S B} {a : Action B} (hf : rn.fatal = none)
    (hc : rn.calls[i]? = some c) (hs : c.step rn.toSetup a = some c') :
    ∃ rn', rn.step (.act i a) = some rn' ∧ rn'.calls[i]? = some c' := by
  obtain ⟨hlt, -⟩ := List.getElem?_eq_some_iff.mp hc
  refine ⟨(rn.around c a).setCall i c', ?_, ?_⟩
  · simp [step, next, hf, hc, hs]
  · rw [setCall, (around_frame rn c a).1]
    exact List.getElem?_set_self hlt

/-- The goroutine of the network goes away only when the network is cleaned up. -/
theorem accepting_or_done {es : List (NetEvent E S B)} (h : NetRun .makeNetwork es rn) :
    rn.accepting = true ∨ rn.done = true := by
  refine h.invariant (fun rn => rn.accepting = true ∨ rn.done = true) (Or.inl rfl) ?_
  intro rn e rn' hinv _ hs
  cases e with
  | quit =>
    have hnext := (Network.step_next hs).2
    simp only [Network.next] at hnext
    split at hnext
    · rename_i hd
      cases hnext
      exact Or.inr hd.1
    · exact absurd hnext (by simp)
  | cleanup =>
    rw [Network.step_setup hs]
    exact Or.inr rfl
  | makeEnd =>
    rw [Network.step_setup hs]
    simp only [Setup.after]
    split <;> exact hinv
  | _ =>
    rw [Network.step_setup hs]
    exact hinv

theorem own_steps_le {es : List (NetEvent E S B)} (h : NetRun .makeNetwork es rn) {i : Nat}
    {c : Call E S B} (hc : rn.calls[i]? = some c) {es' : List (NetEvent E S B)}
    (h' : NetRun rn es' rn') : es'.countP (NetEvent.own i) ≤ c.rank := by
  have hinv := h'.invariant_events
    (fun es' rn' => (∃ es, NetRun .makeNetwork es rn') ∧
      ∃ d, rn'.calls[i]? = some d ∧ es'.countP (NetEvent.own i) + d.rank ≤ c.rank)
    ⟨⟨es, h⟩, c, hc, by simp⟩ (by
      rintro fs rn e rn' - ⟨⟨es, hr⟩, d, hd, hle⟩ _ hs
      refine ⟨⟨_, hr.snoc trivial hs⟩, ?_⟩
      rcases Network.step_call hs hd with ⟨hd', he⟩ | ⟨a, d', rfl, hstep, hd'⟩
      · refine ⟨d, hd', ?_⟩
        simpa [List.countP_append, own_eq_false he] using hle
      · refine ⟨d', hd', ?_⟩
        have hone : [NetEvent.act i a].countP (NetEvent.own i : NetEvent E S B → Bool) ≤ 1 :=
          List.countP_le_length
        rw [List.countP_append]
        rcases hstep.rank_lt (((allTold_of_run hr).told i d hd).idle) with hlt | ⟨rfl, hle'⟩
        · omega
        · have hpoll : [NetEvent.act i .poll].countP
              (NetEvent.own i : NetEvent E S B → Bool) = 0 := rfl
          omega)
  obtain ⟨-, d, -, hle⟩ := hinv
  omega

/-- The step that the phase of a call asks for. -/
theorem next_step {es : List (NetEvent E S B)} {i : Nat} {c : Call E S B} (h : Told es i c)
    {rn : Setup E S} (hacc : rn.accepting = true ∨ rn.done = true) :
    (∃ reply, c.phase = .returned reply) ∨
      (∃ r, c.phase = .waiting r ∧ c.handler = .running r.server ∧
        rn.isServerDead c.endname r = false) ∨
      ∃ a c', c.step rn a = some c' ∧ c'.rank < c.rank := by
  have hgo : ∀ a, a ≠ .poll → (c.step rn a).isSome = true →
      ∃ a c', c.step rn a = some c' ∧ c'.rank < c.rank := by
    intro a ha hsome
    obtain ⟨c', hs⟩ := Option.isSome_iff_exists.mp hsome
    rcases (Call.step_cases hs).rank_lt h.idle with hlt | ⟨hpoll, -⟩
    · exact ⟨a, c', hs, hlt⟩
    · exact absurd hpoll ha
  cases hp : c.phase with
  | returned reply => exact Or.inl ⟨reply, rfl⟩
  | sending =>
    refine Or.inr (Or.inr ?_)
    rcases hacc with hacc | hdone
    · exact hgo .accept (by simp) (by simp [Call.step, hp, hacc])
    · exact hgo .abandon (by simp) (by simp [Call.step, hp, hdone])
  | accepted =>
    refine Or.inr (Or.inr (hgo .process (by simp) ?_))
    simp only [Call.step, hp]
    split <;> rfl
  | routed r => exact Or.inr (Or.inr (hgo .execute (by simp) (by simp [Call.step, hp])))
  | got r reply =>
    refine Or.inr (Or.inr (hgo .check (by simp) ?_))
    simp only [Call.step, hp]
    split <;> rfl
  | gaveUp r => exact Or.inr (Or.inr (hgo .check (by simp) (by simp [Call.step, hp])))
  | checked r reply => exact Or.inr (Or.inr (hgo .send (by simp) (by simp [Call.step, hp])))
  | replying reply => exact Or.inr (Or.inr (hgo .deliver (by simp) (by simp [Call.step, hp])))
  | waiting r =>
    have hphase := h.phase
    simp only [PhaseTold, hp] at hphase
    cases hh : c.handler with
    | idle | gone =>
      rw [hh] at hphase
      exact absurd hphase.2 id
    | started server =>
      exact Or.inr (Or.inr (hgo .dispatch (by simp) (by simp [Call.step, hh])))
    | finished reply =>
      exact Or.inr (Or.inr (hgo .receive (by simp) (by simp [Call.step, hp, hh])))
    | running server =>
      rw [hh] at hphase
      obtain rfl : server = r.server := hphase.2
      cases hd : rn.isServerDead c.endname r with
      | false => exact Or.inr (Or.inl ⟨r, rfl, rfl, hd⟩)
      | true =>
        -- the round of the loop that sees the dead server is the last one
        refine Or.inr (Or.inr ⟨.poll, { c.goTo (.gaveUp r) with draining := true }, ?_, ?_⟩)
        · simp [Call.step, hp, hd]
        · simp [Call.rank, Call.goTo, hp, Phase.rank]

/-- `Call` returns, except if the handler does not: from every state on, a call takes at most
eleven steps but the rounds of its loop; and unless it has returned, or waits for a handler that
runs at a server that is up, there is a step that gets it on. -/
theorem call_returns {es : List (NetEvent E S B)} (h : NetRun .makeNetwork es rn)
    (hf : rn.fatal = none) {i : Nat} {c : Call E S B} (hc : rn.calls[i]? = some c) :
    (∀ es' rn', NetRun rn es' rn' → es'.countP (NetEvent.own i) ≤ 11) ∧
      ((∃ reply, c.phase = .returned reply) ∨
        (∃ r, c.phase = .waiting r ∧ c.handler = .running r.server ∧
          rn.isServerDead c.endname r = false) ∨
        ∃ a rn' c', rn.step (.act i a) = some rn' ∧ rn'.calls[i]? = some c' ∧ c'.rank < c.rank) := by
  have htold := (allTold_of_run h).told i c hc
  constructor
  · intro es' rn' h'
    have hle := own_steps_le h hc h'
    have hrank : c.rank ≤ 11 := by
      unfold Call.rank Phase.rank Handler.rank
      split <;> split <;> omega
    omega
  · rcases next_step htold (accepting_or_done h) with hret | hwait | ⟨a, c', hs, hlt⟩
    · exact Or.inl hret
    · exact Or.inr (Or.inl hwait)
    · obtain ⟨rn', hstep, hc'⟩ := Network.step_of_call hf hc hs
      exact Or.inr (Or.inr ⟨a, rn', c', hstep, hc', hlt⟩)

theorem call_returns_vote :
    ∃ rn c, NetRun .makeNetwork (callVote ++ [.deleteServer 1]) rn ∧ rn.fatal = none ∧
      rn.calls[0]? = some c ∧ (∀ reply, c.phase ≠ .returned reply) ∧
      rn.isServerDead c.endname ⟨1, 0, true⟩ = true ∧
      ∀ es' rn', NetRun rn es' rn' → es'.countP (NetEvent.own 0) ≤ 11 := by
  have hexec : (exec Network.step (fun _ _ => True) .makeNetwork
      (callVote ++ [.deleteServer 1])).map
        (fun rn => (rn.calls.map Call.phase, rn.servers 1, rn.fatal)) =
          some ([.waiting ⟨1, 0, true⟩], none, none) := by decide +kernel
  obtain ⟨rn, hrun, hst⟩ := run_of_exec_map _ hexec
  simp only [Prod.mk.injEq] at hst
  obtain ⟨c, hc, hp⟩ := exists_call hst.1
  refine ⟨rn, c, hrun, hst.2.2, hc, by simp [hp], ?_, (call_returns hrun hst.2.2 hc).1⟩
  simp [Setup.isServerDead, hst.2.1]

/-! ## A reliable network -/

/-- The end leads to the server over a reliable network. -/
structure Setup.Leads (rn : Setup E S) (endname : E) (r : Route S) : Prop where
  enabled : rn.enabled endname = true
  connected : rn.connections endname = some r.servername
  server : rn.servers r.servername = some r.server
  reliable : rn.reliable = true ∧ r.reliable = true
  working : rn.done = false

/-- The event does not touch what the end leads to. -/
def Keeps (endname : E) (servername : S) : NetEvent E S B → Prop
  | .makeEnd n | .connect n _ => n ≠ endname
  | .enable n yes => n = endname → yes = true
  | .addServer name _ | .deleteServer name => name ≠ servername
  | .setReliable yes => yes = true
  | .cleanup => False
  | _ => True

instance (endname : E) (servername : S) (e : NetEvent E S B) :
    Decidable (Keeps endname servername e) :=
  match e with
  | .makeEnd _ | .connect .. => inferInstanceAs (Decidable (_ ≠ _))
  | .enable .. => inferInstanceAs (Decidable (_ → _))
  | .addServer .. | .deleteServer _ => inferInstanceAs (Decidable (_ ≠ _))
  | .setReliable _ => inferInstanceAs (Decidable (_ = _))
  | .cleanup => .isFalse id
  | .makeServer | .addService .. | .quit | .call .. | .act .. => .isTrue trivial

theorem Setup.Leads.after {rn : Setup E S} {endname : E} {r : Route S} (h : rn.Leads endname r)
    (hk : Keeps endname r.servername e) : (rn.after e).Leads endname r := by
  cases e with
  | makeEnd n =>
    simp only [Setup.after]
    split
    · exact h
    · have hne : endname ≠ n := Ne.symm hk
      exact ⟨by simp [makeEnd, hne, h.enabled], by simp [makeEnd, hne, h.connected], h.server,
        h.reliable, h.working⟩
  | connect n name =>
    have hne : endname ≠ n := Ne.symm hk
    exact ⟨h.enabled, by simp [Setup.after, connect, hne, h.connected], h.server, h.reliable,
      h.working⟩
  | enable n yes =>
    refine ⟨?_, h.connected, h.server, h.reliable, h.working⟩
    by_cases hn : n = endname
    · obtain rfl := hk hn
      simp [Setup.after, enable, hn]
    · simp [Setup.after, enable, Ne.symm hn, h.enabled]
  | addServer name _ | deleteServer name =>
    have hne : r.servername ≠ name := Ne.symm hk
    exact ⟨h.enabled, h.connected, by simp [Setup.after, addServer, deleteServer, hne, h.server],
      h.reliable, h.working⟩
  | setReliable yes => exact ⟨h.enabled, h.connected, h.server, ⟨hk, h.reliable.2⟩, h.working⟩
  | cleanup => exact absurd hk id
  | quit => exact ⟨h.enabled, h.connected, h.server, h.reliable, h.working⟩
  | makeServer | addService | call | act => exact h

omit [DecidableEq E] [DecidableEq S] in
theorem Setup.Leads.info {rn : Setup E S} {endname : E} {r : Route S} (h : rn.Leads endname r) :
    rn.readEndnameInfo endname = some r ∧ rn.isServerDead endname r = false := by
  obtain ⟨name, server, reliable⟩ := r
  have hrel : reliable = true := h.reliable.2
  constructor
  · simp [readEndnameInfo, h.enabled, h.connected, h.server, h.reliable.1, hrel]
  · simp [isServerDead, h.enabled, h.server]

/-- Nothing has gone wrong with the call. -/
structure Fine (r : Route S) (c : Call E S B) : Prop where
  handler : ∀ reply, c.handler = .finished reply → reply.ok = true
  phase : match c.phase with
    | .sending | .accepted => True
    | .routed r' | .waiting r' => r' = r
    | .got r' reply | .checked r' reply => r' = r ∧ reply.ok = true
    | .gaveUp _ => False
    | .replying reply | .returned reply => reply.ok = true

omit [DecidableEq E] [DecidableEq S] in
theorem Fine.step {rn : Setup E S} {r : Route S} {c c' : Call E S B} {a : Action B}
    (h : Fine r c) (hl : rn.Leads c.endname r) (hs : Call.Step rn c a c') : Fine r c' := by
  obtain ⟨hinfo, halive⟩ := hl.info
  have hphase := h.phase
  cases hs with
  | accept => exact ⟨h.handler, trivial⟩
  | abandon _ hd => exact absurd (hl.working.symm.trans hd) (by simp)
  | route _ hr => exact ⟨h.handler, Option.some.inj (hr.symm.trans hinfo)⟩
  | noRoute _ hr => exact absurd (hr.symm.trans hinfo) (by simp)
  | dropRequest hp hu =>
    simp only [hp] at hphase
    subst hphase
    exact absurd (hu.symm.trans hl.reliable.2) (by simp)
  | execute hp =>
    simp only [hp] at hphase
    exact ⟨by simp, hphase⟩
  | receive hp hh =>
    simp only [hp] at hphase
    exact ⟨by simp, hphase, h.handler _ hh⟩
  | pollDead hp hd =>
    simp only [hp] at hphase
    subst hphase
    exact absurd (hd.symm.trans halive) (by simp)
  | pollAlive => exact h
  | checkDead hp hd =>
    simp only [hp] at hphase
    obtain ⟨rfl, -⟩ := hphase
    exact absurd (hd.symm.trans halive) (by simp)
  | checkAlive hp =>
    simp only [hp] at hphase
    exact ⟨h.handler, hphase⟩
  | checkGaveUp hp =>
    simp only [hp] at hphase
  | dropReply hp hu =>
    simp only [hp] at hphase
    obtain ⟨rfl, -⟩ := hphase
    exact absurd (hu.symm.trans hl.reliable.2) (by simp)
  | send hp =>
    simp only [hp] at hphase
    exact ⟨h.handler, hphase.2⟩
  | deliver hp =>
    simp only [hp] at hphase
    exact ⟨h.handler, hphase⟩
  | dispatch | drain => exact ⟨by simp, hphase⟩
  | handled reply =>
    refine ⟨fun reply' hh => ?_, hphase⟩
    cases hh
    rfl

/-- No call fails over a reliable network while its end leads to a server that stays: each call
that is made on the end from then on and returns, returns true. -/
theorem reliable_calls_succeed {endname : E} {r : Route S} (hl : rn.Leads endname r)
    {es : List (NetEvent E S B)}
    (h : Run Network.step (fun _ e => Keeps endname r.servername e) rn es rn') {i : Nat}
    {c : Call E S B} (hnew : rn.calls.length ≤ i) (hc : rn'.calls[i]? = some c)
    (hend : c.endname = endname) (reply : ReplyMsg B) (hret : c.phase = .returned reply) :
    reply.ok = true := by
  have hinv := h.invariant
    (fun rn₁ => rn₁.Leads endname r ∧
      ∀ c, rn₁.calls[i]? = some c → c.endname = endname → Fine r c)
    ⟨hl, fun c hc _ => absurd hc (by rw [List.getElem?_eq_none hnew]; simp)⟩ (by
      rintro rn₁ e rn₂ ⟨hl, hfine⟩ hk hs
      refine ⟨Network.step_setup hs ▸ hl.after hk, fun c hc hend => ?_⟩
      cases Network.step_call_inv hs hc with
      | new _ _ _ _ _ hc' =>
        subst hc'
        exact ⟨by simp, trivial⟩
      | kept hc₀ => exact hfine c hc₀ hend
      | moved a c₀ _ hc₀ hstep =>
        have hend₀ : c₀.endname = endname := hstep.endname ▸ hend
        exact (hfine c₀ hc₀ hend₀).step (hend₀ ▸ hl) hstep)
  have hphase := (hinv.2 c hc hend).phase
  simp only [hret] at hphase
  exact hphase

theorem reliable_calls_succeed_vote :
    ∃ rn rn' c, NetRun .makeNetwork (callVote.take 6) rn ∧ rn.Leads 7 ⟨1, 0, true⟩ ∧
      NetRun rn (callVote.drop 6 ++ replyVote) rn' ∧ rn.calls.length = 0 ∧
      rn'.calls[0]? = some c ∧ c.phase = .returned ⟨true, [9]⟩ ∧
      ∀ reply, c.phase = .returned reply → reply.ok = true := by
  have hexec : (exec Network.step (fun _ _ => True) .makeNetwork (callVote.take 6)).map
      (fun rn => (rn.calls, rn.enabled 7, rn.connections 7, rn.servers 1, rn.reliable, rn.done)) =
        some ([], true, some 1, some 0, true, false) := by decide +kernel
  have hexec' : (exec Network.step (fun _ _ => True) .makeNetwork
      (callVote.take 6 ++ (callVote.drop 6 ++ replyVote))).map (fun rn => rn.calls) =
        some [⟨7, "Raft.RequestVote", [5], .returned ⟨true, [9]⟩, .gone, false⟩] := by
    decide +kernel
  obtain ⟨rn, hrun, hst⟩ := run_of_exec_map _ hexec
  obtain ⟨rn', hrun', hcalls'⟩ := run_of_exec_map _ hexec'
  simp only [Prod.mk.injEq] at hst
  have hl : rn.Leads 7 ⟨1, 0, true⟩ :=
    ⟨hst.2.1, hst.2.2.1, hst.2.2.2.1, ⟨hst.2.2.2.2.1, rfl⟩, hst.2.2.2.2.2⟩
  have hrest := hrun.rest hrun'
  have hkeeps : Run Network.step (fun _ e => Keeps 7 1 e) rn (callVote.drop 6 ++ replyVote) rn' := by
    refine hrest.mono fun _ e he _ => ?_
    have hall : ∀ e ∈ callVote.drop 6 ++ replyVote, Keeps 7 1 e := by decide
    exact hall e he
  have hnone : rn.calls.length = 0 := by rw [hst.1]; rfl
  have hcall : rn'.calls[0]? = some ⟨7, "Raft.RequestVote", [5], .returned ⟨true, [9]⟩, .gone,
      false⟩ := by rw [hcalls']; rfl
  exact ⟨rn, rn', _, hrun, hl, hrest, hnone, hcall, rfl,
    reliable_calls_succeed hl hkeeps (Nat.le_of_eq hnone) hcall rfl⟩

end DistributionSystem.Labrpc
