import DistributionSystem.KV.TestBed

/-! What is left of a server behind `ShutdownServer`. Its goroutines go on, for nothing stops
them, but the network cuts them off for good. -/

namespace DistributionSystem.Config

open Labrpc

variable {n : Nat} {W B P : Type} {cfg cfg' : Config n W B P}

/-- No slot has the instance. -/
def Gone (cfg : Config n W B P) (a : Nat) : Prop := ∀ i, (cfg.slots i).runs a = false

instance (cfg : Config n W B P) (a : Nat) : Decidable (cfg.Gone a) :=
  inferInstanceAs (Decidable (∀ i, (cfg.slots i).runs a = false))

theorem Gone.not_running {a : Nat} (h : cfg.Gone a) {i : Fin n} {added : Bool} :
    cfg.slots i ≠ .running a added := by
  intro hs
  have hi := h i
  rw [hs] at hi
  exact absurd hi (by simp [Slot.runs])

theorem Gone.setSlot {a : Nat} (h : cfg.Gone a) (i : Fin n) {slot : Slot W B}
    (hslot : slot.runs a = false) : (cfg.setSlot i slot).Gone a := by
  intro j
  by_cases hj : j = i
  · subst hj
    simp only [Config.setSlot, Function.update_self]
    exact hslot
  · simp only [Config.setSlot, Function.update_of_ne hj]
    exact h j

theorem instances_operation {op : Operation n} (h : cfg.operation op = some cfg') :
    cfg'.instances = cfg.instances := by
  cases op with
  | makeEnd | connect | enable | deleteServer =>
    obtain ⟨net, -, rfl⟩ := netStep_eq_some h
    rfl
  | copy | prepare | makeClerk =>
    cases h
    rfl

theorem Gone.operation {a : Nat} (h : cfg.Gone a) {op : Operation n}
    (ho : cfg.operation op = some cfg') : cfg'.Gone a := by
  cases op with
  | makeEnd | connect | enable | deleteServer =>
    obtain ⟨net, -, rfl⟩ := netStep_eq_some ho
    exact h
  | copy i | prepare i =>
    cases ho
    exact h.setSlot i rfl
  | makeClerk =>
    cases ho
    exact h

/-! ### Calls made later -/

/-- The server object `b` may serve a call on the end: neither is of the instance `a`. -/
def Serves (a : Nat) (p : Fin n × Nat) (endname : EndName n) (b : Nat) : Prop :=
  b ≠ a ∧ ∀ dst, endname ≠ .server p.1 p.2 dst

/-- The network leads neither to the instance nor from it. -/
theorem Isolated.serves (h : cfg.Isolated) {a : Nat} {p : Fin n × Nat}
    (hp : cfg.instances[a]?.map Instance.place = some p) (hg : cfg.Gone a) {endname : EndName n}
    {r : Route (Fin n)} (hr : cfg.net.readEndnameInfo endname = some r) :
    r.servername = endname.dst ∧ Serves a p endname r.server := by
  obtain ⟨inst, ha, rfl⟩ := Option.map_eq_some_iff.mp hp
  unfold Setup.readEndnameInfo at hr
  split at hr
  · rename_i hen
    split at hr
    · exact absurd hr (by simp)
    · rename_i name hconn
      obtain ⟨b, hb, rfl⟩ := Option.map_eq_some_iff.mp hr
      refine ⟨h.connections _ _ hconn, ?_, ?_⟩
      · rintro rfl
        exact hg.not_running (h.servers _ _ hb)
      · rintro dst rfl
        obtain ⟨added, hslot⟩ := (h.last a inst ha).2 (h.enabled _ _ _ hen)
        exact hg.not_running hslot
  · exact absurd hr (by simp)

/-- What holds of the calls from number `first` on while the instance is gone. -/
structure CutOff (a first : Nat) (p : Fin n × Nat) (cfg : Config n W B P) : Prop where
  isolated : cfg.Isolated
  place : cfg.instances[a]?.map Instance.place = some p
  gone : cfg.Gone a
  calls : ∀ k c, first ≤ k → cfg.net.calls[k]? = some c →
    Traced c.endname.dst (Serves a p c.endname) (fun b _ => Serves a p c.endname b)
      (fun _ => ∃ b, Serves a p c.endname b) c

variable [DecidableEq B] {rgob : Labgob Op W} {gob : KVGob B} {wgob : WireGob B P}
  {e : ConfigEvent n B P}

/-- An instance stays what it is, and one that is gone stays so. -/
theorem Step.gone (hs : Step rgob gob wgob cfg e cfg') {a : Nat} {p : Fin n × Nat}
    (hp : cfg.instances[a]?.map Instance.place = some p) (hg : cfg.Gone a) :
    cfg'.instances[a]?.map Instance.place = some p ∧ cfg'.Gone a := by
  cases e with
  | enter call =>
    cases hs with
    | enter => cases call <;> exact ⟨hp, hg⟩
  | operate =>
    cases hs with
    | @operate op rest cfg₁ _ ho =>
      refine ⟨?_, show cfg₁.Gone a from hg.operation ho⟩
      show cfg₁.instances[a]?.map Instance.place = some p
      rw [instances_operation ho]
      exact hp
  | boot i =>
    cases hs with
    | boot =>
      obtain ⟨inst, ha, -⟩ := Option.map_eq_some_iff.mp hp
      have hlt : a < cfg.instances.length := (List.getElem?_eq_some_iff.mp ha).1
      refine ⟨?_, hg.setSlot i (by simp [Slot.runs, Nat.ne_of_gt hlt])⟩
      simp only [List.getElem?_append_left hlt]
      exact hp
  | addServer i =>
    cases hs with
    | addServer hslot =>
      have hi := hg i
      rw [hslot] at hi
      exact ⟨hp, Gone.setSlot hg i hi⟩
  | _ =>
    have hf := hs.frame (by simp) (by simp) (by simp) (by simp)
    refine ⟨(hf.instances a).trans hp, ?_⟩
    unfold Gone
    rw [hf.slots]
    exact hg

/-- The calls change only by steps of the network. -/
theorem Step.net_step (hs : Step rgob gob wgob cfg e cfg') :
    cfg'.net.calls = cfg.net.calls ∨ ∃ f, cfg.net.step f = some cfg'.net := by
  cases hs with
  | @enter call =>
    cases call <;> exact Or.inl rfl
  | @operate op rest cfg₁ _ ho =>
    cases op with
    | makeEnd | connect | enable | deleteServer =>
      obtain ⟨net, hn, rfl⟩ := netStep_eq_some ho
      exact Or.inr ⟨_, hn⟩
    | copy | prepare | makeClerk =>
      cases ho
      exact Or.inl rfl
  | boot _ _ hcalls => exact Or.inl hcalls
  | addServer _ hn | net _ hn | call _ _ hn | dispatch _ hn | serve _ _ _ _ _ _ hn
  | requestFatal _ hn | request _ hn | finish _ _ _ _ _ hn | send _ _ hn => exact Or.inr ⟨_, hn⟩
  | inst | answer | invoke | receiveFail => exact Or.inl rfl
  | receive => split <;> exact Or.inl rfl

theorem CutOff.step {a first : Nat} {p : Fin n × Nat} (h : CutOff a first p cfg)
    (horder : cfg.Orderly e) (hs : Step rgob gob wgob cfg e cfg') : CutOff a first p cfg' := by
  obtain ⟨hplace, hgone⟩ := hs.gone h.place h.gone
  refine ⟨h.isolated.step horder hs, hplace, hgone, fun k c hk hc => ?_⟩
  rcases hs.net_step with hsame | ⟨f, hf⟩
  · rw [hsame] at hc
    exact h.calls k c hk hc
  · cases Network.step_call_inv hf hc with
    | new _ _ _ _ _ hnew =>
      subst hnew
      exact .new ..
    | kept hc₀ => exact h.calls k c hk hc₀
    | moved act c₀ _ hc₀ hstep =>
      have ht := h.calls k c₀ hk hc₀
      rw [hstep.endname]
      refine ht.step hstep (fun r hr => h.isolated.serves h.place h.gone hr)
        (fun b reply _ hrun => ?_) fun r reply _ _ _ hm => ⟨_, hm⟩
      have hsent := ht.handler
      simp only [hrun] at hsent
      exact hsent

/-- Once a server is shut down, its old instance is cut off, however the test goes on: it is no
server of the network, no call that is made later gets to one of its handlers, and no later call
of its own gets to a handler or returns true. -/
theorem shutdown_cuts_off {handles : Int → Nat → Nat} {es es' : List (ConfigEvent n B P)}
    (h : Runs.Run (step rgob gob wgob) Orderly (init n handles) es cfg) {a : Nat}
    {inst : Instance n W B} (ha : cfg.instances[a]? = some inst) (hgone : cfg.Gone a)
    (h' : Runs.Run (step rgob gob wgob) Orderly cfg es' cfg') :
    (∀ i, cfg'.net.servers i ≠ some a) ∧
      ∀ k c, cfg.net.calls.length ≤ k → cfg'.net.calls[k]? = some c →
        (∀ b, c.handler = .running b → b ≠ a ∧ ∀ dst, c.endname ≠ inst.endname dst) ∧
        ∀ reply dst, c.phase = .returned reply → c.endname = inst.endname dst →
          reply.ok = false := by
  have hiso : cfg.Isolated := h.invariant Isolated (isolated_init n handles)
    fun _ _ _ hi ho hs => hi.step ho (step_cases hs)
  have hcut : CutOff a cfg.net.calls.length inst.place cfg' :=
    h'.invariant (CutOff a cfg.net.calls.length inst.place)
      ⟨hiso, by rw [ha]; rfl, hgone, fun k c hk hc =>
        absurd (List.getElem?_eq_some_iff.mp hc).1 (Nat.not_lt.mpr hk)⟩
      fun _ _ _ hi ho hs => hi.step ho (step_cases hs)
  refine ⟨fun i hi => hcut.gone.not_running (hcut.isolated.servers i a hi), fun k c hk hc => ⟨?_, ?_⟩⟩
  · intro b hrun
    have hsent := (hcut.calls k c hk hc).handler
    simp only [hrun] at hsent
    exact hsent
  · intro reply dst hp hend
    have hseen := (hcut.calls k c hk hc).phase
    simp only [hp] at hseen
    by_contra hok
    obtain ⟨b, -, hno⟩ := hseen (by simpa using hok)
    exact hno dst hend

theorem shutdown_cuts_off_heartbeat :
    ∃ (cfg cfg' : Config 2 (Word Op) KVWord (Wire KVWord)) (inst : Instance 2 (Word Op) KVWord),
      cfg.instances[0]? = some inst ∧ cfg.Gone 0 ∧
      (∃ c, cfg'.net.calls[cfg.net.calls.length]? = some c ∧ c.endname = inst.endname 1 ∧
        c.phase = .returned noReply) ∧
      ∀ k c, cfg.net.calls.length ≤ k → cfg'.net.calls[k]? = some c →
        ∀ reply dst, c.phase = .returned reply → c.endname = inst.endname dst →
          reply.ok = false := by
  have hexec : (Runs.exec (step (Labgob.words Op) KVGob.words (WireGob.words KVWord)) Orderly
      (init 2 shuffled) (makeConfig ++ put ++ shutdownLeader)).map (fun cfg =>
        (cfg.instances[0]?.map Instance.place, decide (cfg.Gone 0),
          (Runs.exec (step (Labgob.words Op) KVGob.words (WireGob.words KVWord)) Orderly cfg
            (restartLeader ++ get)).map fun cfg' =>
              cfg'.net.calls[cfg.net.calls.length]?.map fun c =>
                decide (c.endname = .server 0 1 1 ∧ c.phase = .returned noReply))) =
      some (some (0, 1), true, some (some true)) := by
    decide +kernel
  obtain ⟨cfg, hrun, hst⟩ := Runs.run_of_exec_map _ hexec
  simp only [Prod.mk.injEq, decide_eq_true_eq] at hst
  obtain ⟨hplace, hgone, hexec'⟩ := hst
  obtain ⟨inst, ha, hinst⟩ := Option.map_eq_some_iff.mp hplace
  obtain ⟨hnum, hstart⟩ := Prod.mk.inj hinst
  obtain ⟨cfg', hrun', hcall⟩ := Runs.run_of_exec_map _ hexec'
  obtain ⟨c, hc, hlost⟩ := Option.map_eq_some_iff.mp hcall
  obtain ⟨hend, hphase⟩ := of_decide_eq_true hlost
  have hcut := (shutdown_cuts_off hrun ha hgone hrun').2
  refine ⟨cfg, cfg', inst, ha, hgone, ⟨c, hc, ?_, hphase⟩, fun k c hk hc => (hcut k c hk hc).2⟩
  unfold Instance.endname
  rw [hend, hnum, hstart]

end DistributionSystem.Config
