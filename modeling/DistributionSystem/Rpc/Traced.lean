import DistributionSystem.Rpc.Calls

/-! A call in terms of what is around the network: to which servers its request may get, which
replies a server makes to it, and which of these the caller may see. -/

namespace DistributionSystem.Labrpc

variable {E S B : Type}

/-- The request gets to a server with `sent`, which makes a reply with `made`; behind the last
look at the server the reply has `seen`. -/
structure Traced (dst : S) (sent : Nat → Prop) (made : Nat → List B → Prop) (seen : List B → Prop)
    (c : Call E S B) : Prop where
  handler : match c.handler with
    | .started b | .running b => sent b
    | .idle | .finished _ | .gone => True
  phase : match c.phase with
    | .sending | .accepted => c.handler = .idle
    | .routed r => c.handler = .idle ∧ r.servername = dst ∧ sent r.server
    | .waiting r => r.servername = dst ∧ match c.handler with
      | .started b | .running b => b = r.server
      | .finished reply => made r.server reply.reply
      | .idle | .gone => True
    | .got r reply => r.servername = dst ∧ made r.server reply.reply
    | .gaveUp _ => True
    | .checked _ reply | .replying reply | .returned reply => reply.ok = true → seen reply.reply

namespace Traced

variable {dst : S} {sent sent' : Nat → Prop} {made made' : Nat → List B → Prop}
  {seen seen' : List B → Prop} {c c' : Call E S B}

theorem new (dst : S) (sent : Nat → Prop) (made : Nat → List B → Prop) (seen : List B → Prop)
    (endname : E) (svcMeth : String) (args : List B) :
    Traced dst sent made seen
      (⟨endname, svcMeth, args, .sending, .idle, false⟩ : Call E S B) :=
  ⟨trivial, rfl⟩

theorem mono (h : Traced dst sent made seen c) (hsent : ∀ b, sent b → sent' b)
    (hmade : ∀ b reply, made b reply → made' b reply) (hseen : ∀ reply, seen reply → seen' reply) :
    Traced dst sent' made' seen' c := by
  obtain ⟨hh, hp⟩ := h
  refine ⟨?_, ?_⟩
  · split at hh
    · exact hsent _ hh
    · exact hsent _ hh
    all_goals trivial
  · split at hp
    · exact hp
    · exact hp
    · exact ⟨hp.1, hp.2.1, hsent _ hp.2.2⟩
    · refine ⟨hp.1, ?_⟩
      obtain ⟨-, hp⟩ := hp
      split at hp
      · exact hp
      · exact hp
      · exact hmade _ _ hp
      all_goals trivial
    · exact ⟨hp.1, hmade _ _ hp.2⟩
    · trivial
    · exact fun hok => hseen _ (hp hok)
    · exact fun hok => hseen _ (hp hok)
    · exact fun hok => hseen _ (hp hok)

theorem step {rn : Setup E S} {a : Action B} (h : Traced dst sent made seen c)
    (hs : Call.Step rn c a c')
    (hroute : ∀ r, rn.readEndnameInfo c.endname = some r → r.servername = dst ∧ sent r.server)
    (hmade : ∀ b reply, a = .handled reply → c.handler = .running b → made b reply)
    (hseen : ∀ r reply, a = .check → rn.isServerDead c.endname r = false → r.servername = dst →
      made r.server reply → seen reply) : Traced dst sent made seen c' := by
  obtain ⟨hh, hp⟩ := h
  cases hs with
  | accept hphase =>
    simp only [hphase] at hp
    exact ⟨hh, hp⟩
  | route hphase hr =>
    simp only [hphase] at hp
    exact ⟨hh, hp, hroute _ hr⟩
  | abandon | noRoute | dropRequest | checkDead | checkGaveUp | dropReply =>
    exact ⟨hh, fun hok => absurd hok (by simp [noReply])⟩
  | execute hphase =>
    simp only [hphase] at hp
    exact ⟨hp.2.2, hp.2.1, rfl⟩
  | receive hphase hfin =>
    simp only [hphase, hfin] at hp
    exact ⟨trivial, hp⟩
  | pollDead => exact ⟨hh, trivial⟩
  | pollAlive => exact ⟨hh, hp⟩
  | checkAlive hphase hd =>
    simp only [hphase] at hp
    exact ⟨hh, fun _ => hseen _ _ rfl hd hp.1 hp.2⟩
  | send hphase | deliver hphase =>
    simp only [hphase] at hp
    exact ⟨hh, hp⟩
  | dispatch hst =>
    simp only [hst] at hh hp
    refine ⟨hh, ?_⟩
    -- only a call that waits has a handler
    split at hp <;> simp_all
  | handled reply hrun =>
    have hm := hmade _ _ rfl hrun
    simp only [hrun] at hh hp
    refine ⟨trivial, ?_⟩
    split at hp <;> simp_all
  | drain hfin =>
    simp only [hfin] at hh hp
    refine ⟨trivial, ?_⟩
    split at hp <;> simp_all

end Traced

end DistributionSystem.Labrpc
