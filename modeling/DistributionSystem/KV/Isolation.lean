import DistributionSystem.KV.ConfigBodies

/-! A server that was shut down is cut off for good: no end of its old instance is enabled any
more, and the network does not lead to it. This is what the order of the steps of
`ShutdownServer` is for: the persister is copied when no reply of the old instance can get out. -/

namespace DistributionSystem.Config

variable {n : Nat} {W B P : Type} {cfg cfg' : Config n W B P}

/-- What an old instance can still do. -/
structure Isolated (cfg : Config n W B P) : Prop where
  runs : ∀ i a added, cfg.slots i = .running a added →
    ∃ inst : Instance n W B, cfg.instances[a]? = some inst ∧ inst.number = i ∧
      inst.start = cfg.starts i
  /-- At most the instance in the slot is of the last start of its server. -/
  last : ∀ (a : Nat) (inst : Instance n W B), cfg.instances[a]? = some inst →
    inst.start ≤ cfg.starts inst.number ∧ (cfg.Present inst.number inst.start →
      ∃ added, cfg.slots inst.number = .running a added)
  servers : ∀ i a, cfg.net.servers i = some a → cfg.slots i = .running a true
  enabled : ∀ i start dst, cfg.net.enabled (.server i start dst) = true → cfg.Present i start
  connections : ∀ endname j, cfg.net.connections endname = some j → j = endname.dst
  enables : ∀ i start dst, .enable (.server i start dst) true ∈ cfg.doing → cfg.Present i start
  prepares : ∀ ops i rest, cfg.doing = ops ++ .prepare i :: rest → rest = [] ∧
    (cfg.slots i).alive = false ∧
      ∀ (a : Nat) (inst : Instance n W B), cfg.instances[a]? = some inst → inst.number = i →
        inst.start < cfg.starts i
  /-- Before the copy all ends of the server are disabled and the server is deleted. -/
  copies : ∀ ops i rest, cfg.doing = ops ++ .copy i :: rest → rest = [] ∧
    (cfg.slots i).settled = true ∧ (∀ op ∈ ops, Cuts op) ∧
      (∀ start dst, cfg.net.enabled (.server i start dst) = true →
        .enable (.server i start dst) false ∈ ops) ∧
      (cfg.net.servers i ≠ none → .deleteServer i ∈ ops)

theorem isolated_init (n : Nat) (handles : Int → Nat → Nat) :
    (init n handles : Config n W B P).Isolated := by
  refine ⟨?_, ?_, ?_, ?_, ?_, ?_, ?_, ?_⟩ <;> simp [init, Labrpc.Network.makeNetwork]

/-! ### Steps outside of `config` -/

/-- What the isolation depends on is as it was. -/
structure Frame (cfg cfg' : Config n W B P) : Prop where
  slots : cfg'.slots = cfg.slots
  starts : cfg'.starts = cfg.starts
  doing : cfg'.doing = cfg.doing
  enabled : cfg'.net.enabled = cfg.net.enabled
  servers : cfg'.net.servers = cfg.net.servers
  connections : cfg'.net.connections = cfg.net.connections
  instances : ∀ a : Nat, cfg'.instances[a]?.map Instance.place =
    cfg.instances[a]?.map Instance.place

theorem Frame.instance_old (h : Frame cfg cfg') {a : Nat} {inst' : Instance n W B}
    (ha : cfg'.instances[a]? = some inst') :
    ∃ inst, cfg.instances[a]? = some inst ∧ inst.number = inst'.number ∧
      inst.start = inst'.start := by
  have hi := h.instances a
  rw [ha, Option.map_some, eq_comm, Option.map_eq_some_iff] at hi
  obtain ⟨inst, hinst, he⟩ := hi
  exact ⟨inst, hinst, (Prod.mk.inj he).1, (Prod.mk.inj he).2⟩

theorem Frame.instance_new (h : Frame cfg cfg') {a : Nat} {inst : Instance n W B}
    (ha : cfg.instances[a]? = some inst) :
    ∃ inst', cfg'.instances[a]? = some inst' ∧ inst'.number = inst.number ∧
      inst'.start = inst.start := by
  have hi := h.instances a
  rw [ha, Option.map_some, Option.map_eq_some_iff] at hi
  obtain ⟨inst', hinst, he⟩ := hi
  exact ⟨inst', hinst, (Prod.mk.inj he).1, (Prod.mk.inj he).2⟩

theorem Frame.present (h : Frame cfg cfg') (i : Fin n) (start : Nat) :
    cfg'.Present i start ↔ cfg.Present i start := by
  unfold Present
  rw [h.starts, h.slots]

namespace Isolated

theorem frame (h : cfg.Isolated) (hf : Frame cfg cfg') : cfg'.Isolated := by
  refine ⟨fun i a added hs => ?_, fun a inst ha => ?_, ?_, ?_, ?_, ?_, ?_, ?_⟩
  · rw [hf.slots] at hs
    obtain ⟨inst, ha, hnum, hstart⟩ := h.runs i a added hs
    obtain ⟨inst', ha', hnum', hstart'⟩ := hf.instance_new ha
    exact ⟨inst', ha', hnum'.trans hnum, by rw [hstart', hstart, hf.starts]⟩
  · obtain ⟨inst₀, ha₀, hnum, hstart⟩ := hf.instance_old ha
    have hlast := h.last a inst₀ ha₀
    rw [hnum, hstart] at hlast
    rw [hf.starts, hf.present, hf.slots]
    exact hlast
  · rw [hf.servers, hf.slots]
    exact h.servers
  · intro i start dst
    rw [hf.enabled, hf.present]
    exact h.enabled i start dst
  · rw [hf.connections]
    exact h.connections
  · intro i start dst
    rw [hf.doing, hf.present]
    exact h.enables i start dst
  · intro ops i rest hd
    rw [hf.doing] at hd
    obtain ⟨hrest, halive, hold⟩ := h.prepares ops i rest hd
    rw [hf.slots, hf.starts]
    refine ⟨hrest, halive, fun a inst ha hnum => ?_⟩
    obtain ⟨inst₀, ha₀, hnum₀, hstart⟩ := hf.instance_old ha
    rw [← hstart]
    exact hold a inst₀ ha₀ (hnum₀.trans hnum)
  · rw [hf.doing, hf.slots, hf.enabled, hf.servers]
    exact h.copies

/-! ### The functions of `config` -/

theorem enterOther (h : cfg.Isolated) {call : ConfigCall n} {ops : List (Operation n)}
    (hstart : ∀ i, call ≠ .startServer i) (hshut : ∀ i, call ≠ .shutdownServer i)
    (horder : cfg.Orderly (.enter call : ConfigEvent n B P)) (hb : cfg.body call = some ops) :
    ({ cfg with doing := ops } : Config n W B P).Isolated := by
  have hmem := mem_body hstart hshut horder hb
  refine { h with enables := ?_, prepares := ?_, copies := ?_ }
  · intro i start dst hop
    rcases hmem _ hop with hno | ⟨k, dst', hk, he⟩
    · exact absurd hno id
    · cases he
      exact hk
  · rintro pre i rest hops
    rcases hmem (.prepare i) (by simp_all) with hno | ⟨k, dst, -, he⟩
    · exact absurd hno id
    · cases he
  · rintro pre i rest hops
    rcases hmem (.copy i) (by simp_all) with hno | ⟨k, dst, -, he⟩
    · exact absurd hno id
    · cases he

/-- `ShutdownServer` disables the ends, deletes the server and copies the persister, in this
order. -/
theorem enterShutdown (h : cfg.Isolated) {i : Fin n} {ops : List (Operation n)}
    (horder : (cfg.slots i).settled = true) (hb : cfg.body (.shutdownServer i) = some ops) :
    ({ cfg with doing := ops } : Config n W B P).Isolated := by
  obtain ⟨cut, hcut, rfl⟩ := Option.map_eq_some_iff.mp hb
  obtain ⟨hoff, hall⟩ := disconnectUnlocked_spec hcut
  have hcuts : ∀ op ∈ cut ++ [.deleteServer i], Cuts op := by
    intro op hop
    rcases List.mem_append.mp hop with hop | hop
    · obtain ⟨name, rfl⟩ := hoff op hop
      trivial
    · obtain rfl := List.mem_singleton.mp hop
      trivial
  have hops : cut ++ [.deleteServer i, .copy i] = (cut ++ [.deleteServer i]) ++ [.copy i] := by
    simp
  refine { h with enables := ?_, prepares := ?_, copies := ?_ }
  · intro k start dst hop
    rw [hops] at hop
    rcases List.mem_append.mp hop with hop | hop
    · exact absurd (hcuts _ hop) id
    · exact absurd (List.mem_singleton.mp hop) (by simp)
  · intro pre k rest he
    simp only [hops] at he
    obtain ⟨-, hlast, -⟩ := eq_concat_of_notMem he fun hin => absurd (hcuts _ hin) id
    exact absurd hlast (by simp)
  · intro pre k rest he
    simp only [hops] at he
    obtain ⟨rfl, hlast, rfl⟩ := eq_concat_of_notMem he fun hin => absurd (hcuts _ hin) id
    cases hlast
    refine ⟨rfl, horder, hcuts, fun start dst hen => ?_, fun _ => by simp⟩
    obtain ⟨rfl, h₀, -⟩ := h.enabled i start dst hen
    exact List.mem_append_left _ (hall dst (List.mem_finRange dst) h₀)

theorem enterStart (h : cfg.Isolated) {i : Fin n} (horder : (cfg.slots i).alive = false) :
    ({ cfg.named (.startServer i) with
      doing := makeEnds (.server i (cfg.starts i + 1)) ++ [.prepare i] } :
        Config n W B P).Isolated := by
  have hstarts : ∀ k, k ≠ i → Function.update cfg.starts i (cfg.starts i + 1) k = cfg.starts k :=
    fun k hk => Function.update_of_ne hk ..
  have hne : ∀ k, (cfg.slots k).alive = true → k ≠ i := by
    rintro k hk rfl
    rw [horder] at hk
    cases hk
  refine { h with
    runs := ?_, last := ?_, enabled := ?_, enables := ?_, prepares := ?_, copies := ?_ }
  · intro k a added hs
    obtain ⟨inst, ha, hnum, hst⟩ := h.runs k a added hs
    have hk : k ≠ i := hne k (by rw [show cfg.slots k = _ from hs]; rfl)
    exact ⟨inst, ha, hnum, hst.trans (hstarts k hk).symm⟩
  · intro a inst ha
    obtain ⟨hle, hpres⟩ := h.last a inst ha
    constructor
    · by_cases hk : inst.number = i
      · show inst.start ≤ Function.update cfg.starts i (cfg.starts i + 1) inst.number
        rw [hk] at hle ⊢
        rw [Function.update_self]
        omega
      · exact Nat.le_trans hle (Nat.le_of_eq (hstarts _ hk).symm)
    · rintro ⟨hst, h₀, halive⟩
      exact hpres ⟨hst.trans (hstarts _ (hne _ halive)), h₀, halive⟩
  · intro k start dst hen
    obtain ⟨hst, h₀, halive⟩ := h.enabled k start dst hen
    exact ⟨hst.trans (hstarts k (hne k halive)).symm, h₀, halive⟩
  · intro k start dst hop
    rcases List.mem_append.mp hop with hop | hop
    · exact absurd (mem_makeEnds hop) id
    · exact absurd (List.mem_singleton.mp hop) (by simp)
  · intro pre k rest he
    obtain ⟨-, hlast, rfl⟩ := eq_concat_of_notMem he fun hin => absurd (mem_makeEnds hin) id
    cases hlast
    refine ⟨rfl, horder, fun a inst ha hnum => ?_⟩
    have hle := (h.last a inst ha).1
    rw [hnum] at hle
    show inst.start < Function.update cfg.starts i (cfg.starts i + 1) i
    rw [Function.update_self]
    omega
  · intro pre k rest he
    obtain ⟨-, hlast, -⟩ := eq_concat_of_notMem he fun hin => absurd (mem_makeEnds hin) id
    exact absurd hlast (by simp)

theorem enter (h : cfg.Isolated) {call : ConfigCall n} {ops : List (Operation n)}
    (horder : cfg.Orderly (.enter call : ConfigEvent n B P))
    (hb : (cfg.named call).body call = some ops) :
    ({ cfg.named call with doing := ops } : Config n W B P).Isolated := by
  cases call with
  | startServer i =>
    cases hb
    have hnew : (cfg.named (.startServer i)).starts i = cfg.starts i + 1 := Function.update_self ..
    rw [hnew]
    exact h.enterStart horder
  | shutdownServer i => exact h.enterShutdown horder hb
  | _ => exact h.enterOther (by simp) (by simp) horder hb

/-- A step of `config` that changes no slot. -/
theorem operateNet (h : cfg.Isolated) {op : Operation n} {rest : List (Operation n)}
    (hd : cfg.doing = op :: rest) (hslots : cfg'.slots = cfg.slots)
    (hstarts : cfg'.starts = cfg.starts) (hinst : cfg'.instances = cfg.instances)
    (hrest : cfg'.doing = rest)
    (hon : ∀ name, cfg'.net.enabled name = true →
      cfg.net.enabled name = true ∨ op = .enable name true)
    (hoff : ∀ name, op = .enable name false → cfg'.net.enabled name = false)
    (hservers : ∀ i a, cfg'.net.servers i = some a → cfg.net.servers i = some a)
    (hdelete : ∀ i, op = .deleteServer i → cfg'.net.servers i = none)
    (hconnect : ∀ name j, cfg'.net.connections name = some j → j = name.dst) :
    cfg'.Isolated := by
  have hpresent : ∀ i start, cfg.Present i start → cfg'.Present i start := by
    intro i start hp
    unfold Present
    rw [hstarts, hslots]
    exact hp
  refine ⟨?_, fun a inst ha => ?_, fun i a hs => ?_, fun i start dst hen => ?_, hconnect,
    fun i start dst hop => ?_, fun pre i post he => ?_, fun pre i post he => ?_⟩
  · rw [hslots, hstarts, hinst]
    exact h.runs
  · rw [hinst] at ha
    obtain ⟨hle, hpres⟩ := h.last a inst ha
    rw [hstarts, hslots]
    refine ⟨hle, fun hp => hpres ?_⟩
    unfold Present at hp
    rw [hstarts, hslots] at hp
    exact hp
  · rw [hslots]
    exact h.servers i a (hservers i a hs)
  · rcases hon _ hen with hen | rfl
    · exact hpresent _ _ (h.enabled i start dst hen)
    · exact hpresent _ _ (h.enables i start dst (by rw [hd]; exact List.mem_cons_self))
  · rw [hrest] at hop
    exact hpresent _ _ (h.enables i start dst (by rw [hd]; exact List.mem_cons_of_mem _ hop))
  · rw [hrest] at he
    rw [hslots, hstarts, hinst]
    exact h.prepares (op :: pre) i post (by rw [hd, he]; rfl)
  · rw [hrest] at he
    obtain ⟨hpost, hsettled, hcuts, hen, hsv⟩ :=
      h.copies (op :: pre) i post (by rw [hd, he]; rfl)
    rw [hslots]
    refine ⟨hpost, hsettled, fun o ho => hcuts o (List.mem_cons_of_mem _ ho),
      fun start dst hon' => ?_, fun hne => ?_⟩
    · rcases hon _ hon' with hold | rfl
      · rcases List.mem_cons.mp (hen start dst hold) with he | hin
        · exact absurd (hon'.symm.trans (hoff _ he.symm)) (by simp)
        · exact hin
      · exact absurd (hcuts _ List.mem_cons_self) id
    · obtain ⟨a, ha⟩ := Option.ne_none_iff_exists'.mp hne
      have hold : cfg.net.servers i ≠ none := by
        rw [hservers i a ha]
        simp
      rcases List.mem_cons.mp (hsv hold) with he | hin
      · exact absurd (hdelete i he.symm) hne
      · exact hin

/-- The last step of a function changes the slot of a server to which nothing leads. -/
theorem operateSlot (h : cfg.Isolated) {i : Fin n} {slot : Slot W B}
    (hrun : ∀ a added, slot ≠ .running a added)
    (hlast : slot.alive = true → ∀ (a : Nat) (inst : Instance n W B),
      cfg.instances[a]? = some inst → inst.number = i → inst.start < cfg.starts i)
    (hserver : ∀ a, cfg.net.servers i ≠ some a)
    (henabled : ∀ start dst, cfg.net.enabled (.server i start dst) ≠ true) :
    ({ cfg.setSlot i slot with doing := [] } : Config n W B P).Isolated := by
  have hself : Function.update cfg.slots i slot i = slot := Function.update_self ..
  have hslot : ∀ k, k ≠ i → Function.update cfg.slots i slot k = cfg.slots k :=
    fun k hk => Function.update_of_ne hk ..
  refine { h with runs := ?_, last := ?_, servers := ?_, enabled := ?_, enables := ?_,
                  prepares := ?_, copies := ?_ }
  · intro k a added hs
    by_cases hk : k = i
    · subst hk
      exact absurd (hself.symm.trans hs) (hrun a added)
    · exact h.runs k a added ((hslot k hk).symm.trans hs)
  · intro a inst ha
    obtain ⟨hle, hpres⟩ := h.last a inst ha
    refine ⟨hle, fun hp => ?_⟩
    have hk : inst.number ≠ i := by
      intro hk
      have halive : (Function.update cfg.slots i slot inst.number).alive = true := hp.2.2
      rw [hk, hself] at halive
      have hlt := hlast halive a inst ha hk
      have hst : inst.start = cfg.starts inst.number := hp.1
      rw [hk] at hst
      omega
    obtain ⟨added, hadd⟩ := hpres ⟨hp.1, hp.2.1, by rw [← hslot _ hk]; exact hp.2.2⟩
    exact ⟨added, (hslot _ hk).trans hadd⟩
  · intro k a hs
    have hk : k ≠ i := by
      rintro rfl
      exact hserver a hs
    exact (hslot k hk).trans (h.servers k a hs)
  · intro k start dst hon
    have hk : k ≠ i := by
      rintro rfl
      exact henabled start dst hon
    obtain ⟨hst, h₀, halive⟩ := h.enabled k start dst hon
    exact ⟨hst, h₀, (congrArg Slot.alive (hslot k hk)).trans halive⟩
  · intro k start dst hop
    exact absurd hop List.not_mem_nil
  · intro pre k post he
    exact absurd he (by simp)
  · intro pre k post he
    exact absurd he (by simp)

theorem operateCopy (h : cfg.Isolated) {i : Fin n} {rest : List (Operation n)}
    (hd : cfg.doing = .copy i :: rest) {saved : Option (Persister (List B) W)} :
    ({ cfg.setSlot i (.down saved) with doing := rest } : Config n W B P).Isolated := by
  obtain ⟨rfl, -, -, hen, hsv⟩ := h.copies [] i rest hd
  refine h.operateSlot (by simp) (by simp [Slot.alive]) (fun a hs => ?_) fun start dst hon => ?_
  · exact absurd (hsv (by rw [hs]; simp)) List.not_mem_nil
  · exact absurd (hen start dst hon) List.not_mem_nil

theorem operatePrepare (h : cfg.Isolated) {i : Fin n} {rest : List (Operation n)}
    (hd : cfg.doing = .prepare i :: rest) {saved : Persister (List B) W} :
    ({ cfg.setSlot i (.prepared saved) with doing := rest } : Config n W B P).Isolated := by
  obtain ⟨rfl, hdown, hold⟩ := h.prepares [] i rest hd
  refine h.operateSlot (by simp) (fun _ => hold) (fun a hs => ?_) fun start dst hon => ?_
  · rw [h.servers i a hs] at hdown
    cases hdown
  · cases hdown.symm.trans (h.enabled i start dst hon).2.2

theorem operate (h : cfg.Isolated) {op : Operation n} {rest : List (Operation n)}
    (hd : cfg.doing = op :: rest) (ho : cfg.operation op = some cfg') :
    ({ cfg' with doing := rest } : Config n W B P).Isolated := by
  cases op with
  | makeEnd endname =>
    obtain ⟨net, hn, rfl⟩ := netStep_eq_some ho
    have hsetup := Labrpc.Network.step_setup hn
    simp only [Labrpc.Setup.after] at hsetup
    refine h.operateNet hd rfl rfl rfl rfl (fun name (hen : net.toSetup.enabled name = true) =>
      Or.inl ?_) (by simp) (fun i a (hs : net.toSetup.servers i = some a) => ?_) (by simp)
      (fun name j (hc : net.toSetup.connections name = some j) => h.connections name j ?_)
    · rw [hsetup] at hen
      split at hen
      · exact hen
      · by_cases hname : name = endname
        · simp [Labrpc.Setup.makeEnd, hname] at hen
        · simpa [Labrpc.Setup.makeEnd, hname] using hen
    · rw [hsetup] at hs
      split at hs <;> exact hs
    · rw [hsetup] at hc
      split at hc
      · exact hc
      · by_cases hname : name = endname
        · simp [Labrpc.Setup.makeEnd, hname] at hc
        · simpa [Labrpc.Setup.makeEnd, hname] using hc
  | connect endname =>
    obtain ⟨net, hn, rfl⟩ := netStep_eq_some ho
    have hsetup := Labrpc.Network.step_setup hn
    refine h.operateNet hd rfl rfl rfl rfl (fun name (hen : net.toSetup.enabled name = true) =>
      Or.inl ?_) (by simp) (fun i a (hs : net.toSetup.servers i = some a) => ?_) (by simp)
      (fun name j (hc : net.toSetup.connections name = some j) => ?_)
    · rwa [hsetup] at hen
    · rwa [hsetup] at hs
    · rw [hsetup] at hc
      by_cases hname : name = endname
      · subst hname
        simpa [Labrpc.Setup.after, Labrpc.Setup.connect, eq_comm] using hc
      · refine h.connections name j ?_
        simpa [Labrpc.Setup.after, Labrpc.Setup.connect, hname] using hc
  | enable endname yes =>
    obtain ⟨net, hn, rfl⟩ := netStep_eq_some ho
    have hsetup := Labrpc.Network.step_setup hn
    refine h.operateNet hd rfl rfl rfl rfl
      (fun name (hen : net.toSetup.enabled name = true) => ?_) (fun name he => ?_)
      (fun i a (hs : net.toSetup.servers i = some a) => ?_) (by simp)
      (fun name j (hc : net.toSetup.connections name = some j) => h.connections name j ?_)
    · rw [hsetup] at hen
      by_cases hname : name = endname
      · subst hname
        refine Or.inr ?_
        simpa [Labrpc.Setup.after, Labrpc.Setup.enable] using hen
      · refine Or.inl ?_
        simpa [Labrpc.Setup.after, Labrpc.Setup.enable, hname] using hen
    · cases he
      show net.toSetup.enabled endname = false
      rw [hsetup]
      simp [Labrpc.Setup.after, Labrpc.Setup.enable]
    · rwa [hsetup] at hs
    · rwa [hsetup] at hc
  | deleteServer i =>
    obtain ⟨net, hn, rfl⟩ := netStep_eq_some ho
    have hsetup := Labrpc.Network.step_setup hn
    refine h.operateNet hd rfl rfl rfl rfl (fun name (hen : net.toSetup.enabled name = true) =>
      Or.inl ?_) (by simp) (fun k a (hs : net.toSetup.servers k = some a) => ?_) (fun k he => ?_)
      (fun name j (hc : net.toSetup.connections name = some j) => h.connections name j ?_)
    · rwa [hsetup] at hen
    · rw [hsetup] at hs
      by_cases hk : k = i
      · simp [Labrpc.Setup.after, Labrpc.Setup.deleteServer, hk] at hs
      · simpa [Labrpc.Setup.after, Labrpc.Setup.deleteServer, hk] using hs
    · cases he
      show net.toSetup.servers i = none
      rw [hsetup]
      simp [Labrpc.Setup.after, Labrpc.Setup.deleteServer]
    · rwa [hsetup] at hc
  | copy i =>
    cases ho
    exact h.operateCopy hd
  | prepare i =>
    cases ho
    exact h.operatePrepare hd
  | makeClerk client =>
    cases ho
    exact h.operateNet hd rfl rfl rfl rfl (fun name hen => Or.inl hen) (by simp)
      (fun i a hs => hs) (by simp) h.connections

/-! ### The rest of `StartServer` -/

/-- What the steps behind the `Unlock` have in common: the slot of a server that is being started
gets its instance. -/
structure Starts (cfg cfg' : Config n W B P) (i : Fin n) (a : Nat) (added : Bool) : Prop where
  unsettled : (cfg.slots i).settled = false
  previous : ∀ b added, cfg.slots i = .running b added → b = a
  slots : cfg'.slots = Function.update cfg.slots i (.running a added)
  starts : cfg'.starts = cfg.starts
  doing : cfg'.doing = cfg.doing
  enabled : cfg'.net.enabled = cfg.net.enabled
  connections : cfg'.net.connections = cfg.net.connections
  servers : ∀ k b, cfg'.net.servers k = some b →
    cfg.net.servers k = some b ∨ (k = i ∧ b = a ∧ added = true)
  here : ∃ inst : Instance n W B, cfg'.instances[a]? = some inst ∧ inst.number = i ∧
    inst.start = cfg.starts i
  kept : ∀ (b : Nat) (inst : Instance n W B), cfg.instances[b]? = some inst →
    cfg'.instances[b]? = some inst
  only : ∀ (b : Nat) (inst : Instance n W B), cfg'.instances[b]? = some inst →
    cfg.instances[b]? = some inst ∨ (b = a ∧ inst.number = i ∧ inst.start = cfg.starts i)

namespace Starts

variable {i : Fin n} {a : Nat} {added : Bool}

theorem alive_here (h : Starts cfg cfg' i a added) : (cfg.slots i).alive = true := by
  have hu := h.unsettled
  cases hs : cfg.slots i with
  | down => rw [hs] at hu; cases hu
  | prepared | running => rfl

theorem slot_self (h : Starts cfg cfg' i a added) : cfg'.slots i = .running a added := by
  rw [h.slots]
  exact Function.update_self ..

theorem slot_ne (h : Starts cfg cfg' i a added) {k : Fin n} (hk : k ≠ i) :
    cfg'.slots k = cfg.slots k := by
  rw [h.slots]
  exact Function.update_of_ne hk ..

theorem alive (h : Starts cfg cfg' i a added) (k : Fin n) :
    (cfg'.slots k).alive = (cfg.slots k).alive := by
  by_cases hk : k = i
  · subst hk
    rw [h.slot_self, h.alive_here]
    rfl
  · rw [h.slot_ne hk]

theorem present (h : Starts cfg cfg' i a added) (k : Fin n) (start : Nat) :
    cfg'.Present k start ↔ cfg.Present k start := by
  unfold Present
  rw [h.starts, h.alive]

end Starts

theorem starts (h : cfg.Isolated) (i : Fin n) (a : Nat) (added : Bool)
    (hst : Starts cfg cfg' i a added) : cfg'.Isolated := by
  refine ⟨fun k b added' hk => ?_, fun b inst hb => ?_, fun k b hk => ?_,
    fun k start dst hen => ?_, ?_, fun k start dst hop => ?_, fun pre k post he => ?_,
    fun pre k post he => ?_⟩
  · by_cases hki : k = i
    · subst hki
      cases hst.slot_self.symm.trans hk
      rw [hst.starts]
      exact hst.here
    · rw [hst.slot_ne hki] at hk
      obtain ⟨inst, hb, hnum, hstart⟩ := h.runs k b added' hk
      exact ⟨inst, hst.kept b inst hb, hnum, hstart.trans (congrFun hst.starts k).symm⟩
  · rw [hst.starts, hst.present]
    rcases hst.only b inst hb with hb | ⟨rfl, hnum, hstart⟩
    · obtain ⟨hle, hpres⟩ := h.last b inst hb
      refine ⟨hle, fun hp => ?_⟩
      obtain ⟨added', hadd⟩ := hpres hp
      by_cases hk : inst.number = i
      · rw [hk] at hadd ⊢
        exact ⟨added, hst.previous b added' hadd ▸ hst.slot_self⟩
      · exact ⟨added', (hst.slot_ne hk).trans hadd⟩
    · rw [hnum]
      exact ⟨Nat.le_of_eq hstart, fun _ => ⟨added, hst.slot_self⟩⟩
  · rcases hst.servers k b hk with hk | ⟨rfl, rfl, rfl⟩
    · have hrun := h.servers k b hk
      have hne : k ≠ i := by
        rintro rfl
        have hu := hst.unsettled
        rw [hrun] at hu
        cases hu
      exact (hst.slot_ne hne).trans hrun
    · exact hst.slot_self
  · rw [hst.enabled] at hen
    rw [hst.present]
    exact h.enabled k start dst hen
  · rw [hst.connections]
    exact h.connections
  · rw [hst.doing] at hop
    rw [hst.present]
    exact h.enables k start dst hop
  · rw [hst.doing] at he
    obtain ⟨hpost, hdown, hlt⟩ := h.prepares pre k post he
    rw [hst.alive, hst.starts]
    refine ⟨hpost, hdown, fun b inst hb hnum => ?_⟩
    rcases hst.only b inst hb with hb | ⟨-, hnum', -⟩
    · exact hlt b inst hb hnum
    · -- the new instance is of another server
      obtain rfl : k = i := hnum.symm.trans hnum'
      cases hdown.symm.trans hst.alive_here
  · rw [hst.doing] at he
    obtain ⟨hpost, hsettled, hcuts, hen, hsv⟩ := h.copies pre k post he
    have hne : k ≠ i := by
      rintro rfl
      cases hsettled.symm.trans hst.unsettled
    rw [hst.slot_ne hne, hst.enabled]
    refine ⟨hpost, hsettled, hcuts, hen, fun hnn => hsv ?_⟩
    obtain ⟨b, hb⟩ := Option.ne_none_iff_exists'.mp hnn
    rcases hst.servers k b hb with hb | ⟨rfl, -⟩
    · rw [hb]
      simp
    · exact absurd rfl hne

theorem boot (h : cfg.Isolated) {rgob : Labgob Op W} {gob : KVGob B} {i : Fin n}
    {persister : Persister (List B) W} {net : Labrpc.Network (EndName n) (Fin n) P}
    (hs : cfg.slots i = .prepared persister) (hsetup : net.toSetup = cfg.net.toSetup) :
    ({ cfg.setSlot i (.running cfg.instances.length false) with
      net := net
      instances := cfg.instances ++ [Instance.boot rgob gob i (cfg.starts i) persister] } :
        Config n W B P).Isolated := by
  exact h.starts i cfg.instances.length false {
    unsettled := by rw [hs]; rfl
    previous := fun b added hrun => by cases hs.symm.trans hrun
    slots := rfl
    starts := rfl
    doing := rfl
    enabled := congrArg Labrpc.Setup.enabled hsetup
    connections := congrArg Labrpc.Setup.connections hsetup
    servers := fun k b hk =>
      Or.inl ((congrFun (congrArg Labrpc.Setup.servers hsetup) k).symm.trans hk)
    here := ⟨_, List.getElem?_concat_length, rfl, rfl⟩
    kept := fun b inst hb => concat_old hb
    only := fun b inst hb => by
      rcases concat_cases hb with hb | ⟨rfl, rfl⟩
      · exact Or.inl hb
      · exact Or.inr ⟨rfl, rfl, rfl⟩ }

theorem addServer (h : cfg.Isolated) {i : Fin n} {a : Nat}
    {net : Labrpc.Network (EndName n) (Fin n) P} (hs : cfg.slots i = .running a false)
    (hn : cfg.net.step (.addServer i a) = some net) :
    (({ cfg with net := net } : Config n W B P).setSlot i (.running a true)).Isolated := by
  have hsetup := Labrpc.Network.step_setup hn
  obtain ⟨inst, ha, hnum, hstart⟩ := h.runs i a false hs
  have hen := congrArg Labrpc.Setup.enabled hsetup
  have hco := congrArg Labrpc.Setup.connections hsetup
  exact h.starts i a true {
    unsettled := by rw [hs]; rfl
    previous := fun b added hrun => by cases hs.symm.trans hrun; rfl
    slots := rfl
    starts := rfl
    doing := rfl
    enabled := hen
    connections := hco
    servers := fun k b hk => by
      have hk : net.toSetup.servers k = some b := hk
      rw [hsetup] at hk
      by_cases hki : k = i
      · subst hki
        have hself := Function.update_self k (some a) cfg.net.servers
        cases hself.symm.trans hk
        exact Or.inr ⟨rfl, rfl, rfl⟩
      · exact Or.inl ((Function.update_of_ne hki ..).symm.trans hk)
    here := ⟨inst, ha, hnum, hstart⟩
    kept := fun b inst hb => hb
    only := fun b inst hb => Or.inl hb }

end Isolated

/-! ### All steps -/

theorem frame_of_net {net : Labrpc.Network (EndName n) (Fin n) P}
    {e : Labrpc.NetEvent (EndName n) (Fin n) P} (h : cfg.net.step e = some net)
    (he : Free e ∨ (∃ i a, e = .act i a) ∨ ∃ m s b, e = .call m s b) :
    net.enabled = cfg.net.enabled ∧ net.servers = cfg.net.servers ∧
      net.connections = cfg.net.connections := by
  have hsetup := Labrpc.Network.step_setup h
  show net.toSetup.enabled = _ ∧ net.toSetup.servers = _ ∧ net.toSetup.connections = _
  rw [hsetup]
  rcases he with hf | ⟨i, a, rfl⟩ | ⟨m, s, b, rfl⟩
  · cases e with
    | setReliable | cleanup | quit | act => exact ⟨rfl, rfl, rfl⟩
    | _ => exact absurd hf id
  · exact ⟨rfl, rfl, rfl⟩
  · exact ⟨rfl, rfl, rfl⟩

theorem place_set {l : List (Instance n W B)} {a : Nat} {inst inst' : Instance n W B}
    (ha : l[a]? = some inst) (hp : inst'.place = inst.place) (b : Nat) :
    (l.set a inst')[b]?.map Instance.place = l[b]?.map Instance.place := by
  by_cases hab : a = b
  · subst hab
    obtain ⟨hlt, -⟩ := List.getElem?_eq_some_iff.mp ha
    rw [List.getElem?_set_self hlt, ha, Option.map_some, Option.map_some, hp]
  · rw [List.getElem?_set_ne hab]

/-- Only the functions of `config` change what the isolation depends on. -/
theorem Step.frame [DecidableEq B] {rgob : Labgob Op W} {gob : KVGob B} {wgob : WireGob B P}
    {e : ConfigEvent n B P} (h : Step rgob gob wgob cfg e cfg') (henter : ∀ call, e ≠ .enter call)
    (hoperate : e ≠ .operate) (hboot : ∀ i, e ≠ .boot i) (hadd : ∀ i, e ≠ .addServer i) :
    Frame cfg cfg' := by
  cases h with
  | enter => exact absurd rfl (henter _)
  | operate => exact absurd rfl hoperate
  | boot => exact absurd rfl (hboot _)
  | addServer => exact absurd rfl (hadd _)
  | net hf hn =>
    obtain ⟨hen, hsv, hco⟩ := frame_of_net hn (Or.inl hf)
    exact ⟨rfl, rfl, rfl, hen, hsv, hco, fun _ => rfl⟩
  | inst ha hs =>
    exact ⟨rfl, rfl, rfl, rfl, rfl, rfl, place_set ha (Instance.step_grows hs).1.place⟩
  | call ha _ hn =>
    obtain ⟨hen, hsv, hco⟩ := frame_of_net hn (Or.inr (Or.inr ⟨_, _, _, rfl⟩))
    exact ⟨rfl, rfl, rfl, hen, hsv, hco, place_set ha rfl⟩
  | dispatch _ hn | requestFatal _ hn | finish _ _ _ _ _ hn =>
    obtain ⟨hen, hsv, hco⟩ := frame_of_net hn (Or.inr (Or.inl ⟨_, _, rfl⟩))
    exact ⟨rfl, rfl, rfl, hen, hsv, hco, fun _ => rfl⟩
  | serve _ _ hb _ hs _ hn =>
    obtain ⟨hen, hsv, hco⟩ := frame_of_net hn (Or.inr (Or.inl ⟨_, _, rfl⟩))
    exact ⟨rfl, rfl, rfl, hen, hsv, hco, place_set hb (Instance.raftStep_grows hs).1.place⟩
  | answer _ _ ha hs =>
    exact ⟨rfl, rfl, rfl, rfl, rfl, rfl, place_set ha (Instance.raftStep_grows hs).1.place⟩
  | request _ hn _ _ hb _ hs =>
    obtain ⟨hen, hsv, hco⟩ := frame_of_net hn (Or.inr (Or.inl ⟨_, _, rfl⟩))
    exact ⟨rfl, rfl, rfl, hen, hsv, hco, place_set hb (Instance.kvStep_grows hs).1.place⟩
  | invoke | receiveFail => exact ⟨rfl, rfl, rfl, rfl, rfl, rfl, fun _ => rfl⟩
  | send _ _ hn =>
    obtain ⟨hen, hsv, hco⟩ := frame_of_net hn (Or.inr (Or.inr ⟨_, _, _, rfl⟩))
    exact ⟨rfl, rfl, rfl, hen, hsv, hco, fun _ => rfl⟩
  | receive => split <;> exact ⟨rfl, rfl, rfl, rfl, rfl, rfl, fun _ => rfl⟩

theorem Isolated.step [DecidableEq B] {rgob : Labgob Op W} {gob : KVGob B} {wgob : WireGob B P}
    (h : cfg.Isolated) {e : ConfigEvent n B P} (horder : cfg.Orderly e)
    (hs : Step rgob gob wgob cfg e cfg') : cfg'.Isolated := by
  cases e with
  | enter call =>
    cases hs with
    | enter _ hb => exact h.enter horder hb
  | operate =>
    cases hs with
    | operate hd ho => exact h.operate hd ho
  | boot i =>
    cases hs with
    | boot hslot hsetup => exact h.boot hslot hsetup
  | addServer i =>
    cases hs with
    | addServer hslot hn => exact h.addServer hslot hn
  | _ => exact h.frame (hs.frame (by simp) (by simp) (by simp) (by simp))

end DistributionSystem.Config
