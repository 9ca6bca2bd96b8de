import DistributionSystem.KV.System

/-! Linearization points in an ordered log. A call of `Put` or `Append` takes effect at
the first entry of its op, and a `Get` at the prefix of the log behind which it has read.
`Ordered` says what a log and a history need for that, `Ordered.linearizable` that it is
enough, and the last section how it lasts while both grow. -/

namespace DistributionSystem

open Linearizability

def Op.id (op : Op) : Int × Int := (op.clientId, op.requestId)

def Op.call (op : Op) : KVCall :=
  match op.name with
  | .get => .get op.key
  | .put => .put op.key op.value
  | .append => .append op.key op.value

@[simp] theorem KVCall.call_op (call : KVCall) (c r : Int) : (call.op c r).call = call := by
  cases call <;> rfl

@[simp] theorem KVCall.id_op (call : KVCall) (c r : Int) : (call.op c r).id = (c, r) := by
  cases call <;> rfl

def KVCall.isGet : KVCall → Bool
  | .get _ => true
  | .put .. | .append .. => false

theorem Op.isGet_call (op : Op) : op.call.isGet = true ↔ op.name = .get := by
  unfold Op.call
  cases op.name <;> simp [KVCall.isGet]

/-! ## The state of the log as a map -/

/-- A server's map as the callers see it. -/
def Store.view (kv : Store) (key : String) : String := (kv.db.lookup key).getD ""

theorem Store.view_insert (kv : Store) (key value : String) (ids : GoMap Int Int) :
    Store.view ⟨kv.db.insert key value, ids⟩ = Function.update kv.view key value := by
  funext k
  unfold Store.view
  by_cases h : k = key
  · subst h
    rw [Function.update_self, Finmap.lookup_insert, Option.getD_some]
  · rw [Function.update_of_ne h, Finmap.lookup_insert_of_ne _ h]

theorem Store.view_execute (kv : Store) (op : Op) :
    (kv.execute op).view = (mapSpec kv.view op.call).1 := by
  unfold Store.execute Op.call
  cases op.name with
  | get => rfl
  | put => exact Store.view_insert kv _ _ _
  | append => exact Store.view_insert kv _ _ _

/-- The map behind the first `k` entries of the log. -/
def mapAt (log : List Op) (k : Nat) : String → String := (Store.replay (log.take k)).view

/-- The entry at `k` is a new request. -/
def New (log : List Op) (k : Nat) (op : Op) : Prop :=
  log[k]? = some op ∧
    ¬ (Store.replay (log.take k)).isDuplicateRequest op.clientId op.requestId = true

theorem mapAt_of_new {log : List Op} {k : Nat} {op : Op} (h : New log k op) :
    mapAt log (k + 1) = (mapSpec (mapAt log k) op.call).1 := by
  unfold mapAt
  rw [Store.replay_take_succ h.1, Store.apply, if_neg h.2, Store.view_execute]

theorem New.eq {log : List Op} {i j : Nat} {a b : Op} (ha : New log i a) (hb : New log j b)
    (hid : a.id = b.id) : i = j := by
  have hlt : ∀ {i j : Nat} {a b : Op}, New log i a → New log j b → a.id = b.id → ¬ i < j := by
    intro i j a b ha hb hid hij
    obtain ⟨hc, hr⟩ := Prod.mk.inj hid
    have hdup := Store.duplicate_of_lt ha.1 hij
    rw [hc, hr] at hdup
    exact hb.2 hdup
  have h₁ := hlt ha hb hid
  have h₂ := hlt hb ha hid.symm
  omega

/-! ## What the log and the history need -/

def OccursBefore (log : List Op) (id : Int × Int) (k : Nat) : Prop :=
  ∃ p op, p < k ∧ log[p]? = some op ∧ op.id = id

def Issued (history : List Stamped) (op : Op) : Prop := ∃ f, (f, .invoke op.id op.call) ∈ history

/-- The result is the one behind the first `k` entries, among which is the call's own. -/
structure AnswerAt (log : List Op) (history : List Stamped) (id : Int × Int)
    (res : Option String) (call : KVCall) (k : Nat) : Prop where
  invoked : ∃ f, (f, .invoke id call) ∈ history
  occurs : OccursBefore log id k
  result : res = (mapSpec (mapAt log k) call).2

def responses (history : List Stamped) : List (Nat × (Int × Int) × Option String) :=
  history.filterMap fun x =>
    match x.2 with
    | .respond id res => some (x.1, id, res)
    | .invoke .. => none

structure Ordered (log : List Op) (history : List Stamped) : Prop where
  sorted : history.Pairwise fun a b => a.1 ≤ b.1
  stamp_le : ∀ x ∈ history, x.1 ≤ log.length
  unique : ∀ f f' id call call', (f, .invoke id call) ∈ history →
    (f', .invoke id call') ∈ history → call = call'
  positive : ∀ f c r call, (f, .invoke (c, r) call) ∈ history → 0 < r
  /-- A clerk makes its calls one after the other. -/
  prior : ∀ f c r call, (f, .invoke (c, r) call) ∈ history → ∀ r', 0 < r' → r' < r →
    ∃ f' res, (f', .respond (c, r') res) ∈ history ∧ f' ≤ f
  /-- An op does not come up before its call. -/
  later : ∀ f id call, (f, .invoke id call) ∈ history →
    ∀ p op, log[p]? = some op → op.id = id → f ≤ p
  issued : ∀ op ∈ log, Issued history op
  answered : ∀ f id res, (f, .respond id res) ∈ history →
    ∃ call k, k ≤ f ∧ AnswerAt log history id res call k
  once : ((responses history).map fun x => x.2.1).Nodup

theorem mem_responses {history : List Stamped} {f : Nat} {id : Int × Int} {res : Option String} :
    (f, id, res) ∈ responses history ↔ (f, .respond id res) ∈ history := by
  unfold responses
  rw [List.mem_filterMap]
  constructor
  · rintro ⟨⟨f', e⟩, hm, he⟩
    cases e with
    | invoke => exact absurd he (by simp)
    | respond id' res' =>
      simp only [Option.some.injEq, Prod.mk.injEq] at he
      obtain ⟨rfl, rfl, rfl⟩ := he
      exact hm
  · exact fun hm => ⟨_, hm, rfl⟩

namespace Ordered

variable {log : List Op} {history : List Stamped}

/-- A request that the state counts as a duplicate is in the log. -/
theorem occurs_of_duplicate (h : Ordered log history) {c r : Int} (hpos : 0 < r) {k : Nat}
    (hd : (Store.replay (log.take k)).isDuplicateRequest c r = true) :
    OccursBefore log (c, r) k := by
  obtain ⟨a, ha, hle⟩ := Store.isDuplicateRequest_iff.mp hd
  obtain ⟨i, op, hi, hop, rfl, rfl⟩ := Store.exists_of_recorded ha
  by_cases heq : r = op.requestId
  · exact ⟨i, op, hi, hop, by rw [heq]; rfl⟩
  · -- the recorded request is a later one, and was made when this one had returned
    obtain ⟨f, hf⟩ := h.issued op (List.mem_of_getElem? hop)
    obtain ⟨f', res, hres, hle'⟩ := h.prior f _ _ _ hf r hpos (by omega)
    obtain ⟨call, k', hk', hans⟩ := h.answered f' _ _ hres
    obtain ⟨p, op', hp, hop', hid⟩ := hans.occurs
    have hfi := h.later f _ _ hf i op hop rfl
    exact ⟨p, op', by omega, hop', hid⟩

/-- The first entry of an op is a new request. -/
theorem exists_new (h : Ordered log history) {id : Int × Int} {k : Nat}
    (ho : OccursBefore log id k) : ∃ p op, p < k ∧ New log p op ∧ op.id = id := by
  induction k using Nat.strongRecOn with
  | ind k ih =>
    obtain ⟨p, op, hp, hop, hid⟩ := ho
    by_cases hd : (Store.replay (log.take p)).isDuplicateRequest op.clientId op.requestId = true
    · obtain ⟨f, hf⟩ := h.issued op (List.mem_of_getElem? hop)
      have ho' : OccursBefore log id p :=
        hid ▸ h.occurs_of_duplicate (h.positive f _ _ _ hf) hd
      obtain ⟨q, op', hq, hnew⟩ := ih p hp ho'
      exact ⟨q, op', by omega, hnew⟩
    · exact ⟨p, op, hp, ⟨hop, hd⟩, hid⟩

theorem call_eq (h : Ordered log history) {op : Op} {k f : Nat} {id : Int × Int} {call : KVCall}
    (hnew : New log k op) (hid : op.id = id) (hf : (f, .invoke id call) ∈ history) :
    op.call = call := by
  obtain ⟨f', hf'⟩ := h.issued op (List.mem_of_getElem? hnew.1)
  exact h.unique f' f id _ _ (hid ▸ hf') hf

end Ordered

/-! ## The blocks -/

open Classical in
/-- The update that the entry at `k` makes. -/
noncomputable def updates (log : List Op) (k : Nat) : List (Call (Int × Int) KVCall (Option String)) :=
  match log[k]? with
  | some op => if New log k op ∧ op.name ≠ .get then [⟨op.id, op.call, none⟩] else []
  | none => []

/-- The calls of `Get` that have read behind the entry at `k`, where `point` gives the call
and the prefix for each return. -/
def reads (point : Nat × (Int × Int) × Option String → KVCall × Nat) (history : List Stamped)
    (k : Nat) : List (Call (Int × Int) KVCall (Option String)) :=
  ((responses history).filter fun x => (point x).1.isGet && (point x).2 == k + 1).map
    fun x => ⟨x.2.1, (point x).1, x.2.2⟩

theorem mem_updates {log : List Op} {k : Nat} {c : Call (Int × Int) KVCall (Option String)} :
    c ∈ updates log k ↔
      ∃ op, New log k op ∧ op.name ≠ .get ∧ c = ⟨op.id, op.call, none⟩ := by
  unfold updates
  cases hop : log[k]? with
  | none =>
    simp only [List.not_mem_nil, false_iff]
    rintro ⟨op, hnew, -⟩
    exact absurd (hop.symm.trans hnew.1) (by simp)
  | some op =>
    constructor
    · intro hc
      dsimp only at hc
      split at hc
      · rename_i hnew
        exact ⟨op, hnew.1, hnew.2, List.mem_singleton.mp hc⟩
      · exact absurd hc (by simp)
    · rintro ⟨op', hnew, hget, rfl⟩
      obtain rfl := Option.some.inj (hop.symm.trans hnew.1)
      dsimp only
      rw [if_pos ⟨hnew, hget⟩]
      exact List.mem_singleton_self _

section

variable {point : Nat × (Int × Int) × Option String → KVCall × Nat} {log : List Op}
  {history : List Stamped}

theorem mem_reads {k : Nat} {c : Call (Int × Int) KVCall (Option String)} :
    c ∈ reads point history k ↔ ∃ x ∈ responses history, (point x).1.isGet = true ∧
      (point x).2 = k + 1 ∧ c = ⟨x.2.1, (point x).1, x.2.2⟩ := by
  unfold reads
  simp only [List.mem_map, List.mem_filter, Bool.and_eq_true, beq_iff_eq]
  constructor
  · rintro ⟨x, ⟨hx, hget, hk⟩, rfl⟩
    exact ⟨x, hx, hget, hk, rfl⟩
  · rintro ⟨x, hx, hget, hk, rfl⟩
    exact ⟨x, ⟨hx, hget, hk⟩, rfl⟩

theorem legal_updates (log : List Op) {k : Nat} (hk : k < log.length) :
    Legal mapSpec (mapAt log k) (updates log k) ∧
      final mapSpec (mapAt log k) (updates log k) = mapAt log (k + 1) := by
  obtain ⟨op, hop⟩ : ∃ op, log[k]? = some op := ⟨_, List.getElem?_eq_getElem hk⟩
  unfold updates
  rw [hop]
  dsimp only
  by_cases hnew : New log k op
  · rw [mapAt_of_new hnew]
    by_cases hget : op.name = .get
    · rw [if_neg fun hc => hc.2 hget]
      refine ⟨trivial, ?_⟩
      unfold Op.call
      rw [hget]
      rfl
    · rw [if_pos ⟨hnew, hget⟩]
      refine ⟨⟨?_, trivial⟩, rfl⟩
      show (mapSpec _ op.call).2 = none
      unfold Op.call
      cases hn : op.name with
      | get => exact absurd hn hget
      | put | append => rfl
  · rw [if_neg fun hc => hnew hc.1]
    refine ⟨trivial, ?_⟩
    show mapAt log k = mapAt log (k + 1)
    unfold mapAt
    have hdup : (Store.replay (log.take k)).isDuplicateRequest op.clientId op.requestId = true := by
      by_contra hd
      exact hnew ⟨hop, hd⟩
    rw [Store.replay_take_succ hop, Store.apply_of_duplicate hdup]

/-- `point` gives each return its call and a prefix that explains its result. -/
def Explains (log : List Op) (history : List Stamped)
    (point : Nat × (Int × Int) × Option String → KVCall × Nat) : Prop :=
  ∀ x ∈ responses history, (point x).2 ≤ x.1 ∧
    AnswerAt log history x.2.1 x.2.2 (point x).1 (point x).2

theorem legal_reads (hp : Explains log history point) (k : Nat) :
    Legal mapSpec (mapAt log (k + 1)) (reads point history k) ∧
      final mapSpec (mapAt log (k + 1)) (reads point history k) = mapAt log (k + 1) := by
  refine legal_of_reads fun c hc => ?_
  obtain ⟨x, hx, hget, hk, rfl⟩ := mem_reads.mp hc
  have hres := (hp x hx).2.result
  rw [hk] at hres
  show mapSpec _ (point x).1 = (_, x.2.2)
  rw [hres]
  cases hcall : (point x).1 with
  | get key => rfl
  | put | append => rw [hcall] at hget; exact absurd hget (by simp [KVCall.isGet])

namespace Ordered

theorem response_eq (h : Ordered log history) {x y : Nat × (Int × Int) × Option String}
    (hx : x ∈ responses history) (hy : y ∈ responses history) (hid : x.2.1 = y.2.1) : x = y :=
  List.inj_on_of_nodup_map h.once hx hy hid

/-- What is known of a call in the block of `k`. -/
theorem block_spec (h : Ordered log history) (hp : Explains log history point) {k : Nat}
    {c : Call (Int × Int) KVCall (Option String)}
    (hc : c ∈ updates log k ++ reads point history k) :
    (∃ f, (f, .invoke c.id c.op) ∈ history) ∧ OccursBefore log c.id (k + 1) ∧
      ∀ f res, (f, .respond c.id res) ∈ history → k < f := by
  rcases List.mem_append.mp hc with hc | hc
  · obtain ⟨op, hnew, -, rfl⟩ := mem_updates.mp hc
    refine ⟨h.issued op (List.mem_of_getElem? hnew.1), ⟨k, op, Nat.lt_succ_self k, hnew.1, rfl⟩, ?_⟩
    intro f res hres
    obtain ⟨call, k', hk', hans⟩ := h.answered f _ _ hres
    obtain ⟨p, op', hp', hnew', hid⟩ := h.exists_new hans.occurs
    have := hnew'.eq hnew hid
    omega
  · obtain ⟨x, hx, -, hk, rfl⟩ := mem_reads.mp hc
    obtain ⟨hle, hans⟩ := hp x hx
    refine ⟨hans.invoked, hk ▸ hans.occurs, ?_⟩
    intro f res hres
    have hxy := h.response_eq hx (mem_responses.mpr hres) rfl
    rw [hxy] at hle hk
    have hle' : (point (f, x.2.1, res)).2 ≤ f := hle
    omega

/-- An update and a read are different calls. -/
theorem update_ne_read (h : Ordered log history) (hp : Explains log history point) {i j : Nat}
    {a b : Call (Int × Int) KVCall (Option String)} (ha : a ∈ updates log i)
    (hb : b ∈ reads point history j) : a.id ≠ b.id := by
  obtain ⟨op, hnew, hget, rfl⟩ := mem_updates.mp ha
  obtain ⟨x, hx, hread, -, rfl⟩ := mem_reads.mp hb
  intro hid
  obtain ⟨f, hf⟩ := (hp x hx).2.invoked
  have hcall := h.call_eq hnew hid hf
  rw [← hcall] at hread
  exact hget ((Op.isGet_call op).mp hread)

theorem block_nodup (h : Ordered log history) (hp : Explains log history point) (k : Nat) :
    ((updates log k ++ reads point history k).map Call.id).Nodup := by
  rw [List.map_append, List.nodup_append']
  refine ⟨?_, ?_, ?_⟩
  · unfold updates
    split
    · split <;> simp
    · exact List.nodup_nil
  · unfold reads
    rw [List.map_map]
    exact h.once.sublist (List.filter_sublist.map _)
  · intro id hi hj
    obtain ⟨a, ha, rfl⟩ := List.mem_map.mp hi
    obtain ⟨b, hb, heq⟩ := List.mem_map.mp hj
    exact h.update_ne_read hp ha hb heq.symm

theorem block_unique (h : Ordered log history) (hp : Explains log history point) {i j : Nat}
    {a b : Call (Int × Int) KVCall (Option String)}
    (ha : a ∈ updates log i ++ reads point history i)
    (hb : b ∈ updates log j ++ reads point history j) (hid : a.id = b.id) : i = j := by
  rcases List.mem_append.mp ha with ha | ha <;> rcases List.mem_append.mp hb with hb | hb
  · obtain ⟨op, hnew, -, rfl⟩ := mem_updates.mp ha
    obtain ⟨op', hnew', -, rfl⟩ := mem_updates.mp hb
    exact hnew.eq hnew' hid
  · exact absurd hid (h.update_ne_read hp ha hb)
  · exact absurd hid.symm (h.update_ne_read hp hb ha)
  · obtain ⟨x, hx, -, hk, rfl⟩ := mem_reads.mp ha
    obtain ⟨y, hy, -, hk', rfl⟩ := mem_reads.mp hb
    rw [h.response_eq hx hy hid] at hk
    omega

/-- A call that has returned is in the block of its point. -/
theorem block_of_response (h : Ordered log history) (hp : Explains log history point) {f : Nat}
    {id : Int × Int} {res : Option String} (hres : (f, .respond id res) ∈ history) :
    ∃ k < log.length, ∃ c ∈ updates log k ++ reads point history k, c.id = id ∧ c.res = res := by
  have hx := mem_responses.mpr hres
  obtain ⟨hle, hans⟩ := hp _ hx
  have hlen : f ≤ log.length := h.stamp_le _ hres
  obtain ⟨p, op, hlt, hnew, hid⟩ := h.exists_new hans.occurs
  have hle' : (point (f, id, res)).2 ≤ f := hle
  by_cases hget : (point (f, id, res)).1.isGet = true
  · refine ⟨(point (f, id, res)).2 - 1, by omega, _, List.mem_append_right _ (mem_reads.mpr
      ⟨_, hx, hget, by omega, rfl⟩), rfl, rfl⟩
  · obtain ⟨f', hf'⟩ := hans.invoked
    have hcall := h.call_eq hnew hid hf'
    have hname : op.name ≠ .get := fun hn => hget (hcall ▸ (Op.isGet_call op).mpr hn)
    refine ⟨p, by omega, ⟨op.id, op.call, none⟩,
      List.mem_append_left _ (mem_updates.mpr ⟨op, hnew, hname, rfl⟩), hid, ?_⟩
    have hresult : res = _ := hans.result
    rw [hresult]
    cases hc : (point (f, id, res)).1 with
    | get => rw [hc] at hget; exact absurd rfl hget
    | put | append => rfl

/-- A call that has returned before another one is made is in an earlier block. -/
theorem block_lt (h : Ordered log history) (hp : Explains log history point) {i j : Nat}
    {a b : Call (Int × Int) KVCall (Option String)}
    (ha : a ∈ updates log i ++ reads point history i)
    (hb : b ∈ updates log j ++ reads point history j)
    (hab : Precedes (history.map Prod.snd) a.id b.id) : i < j := by
  obtain ⟨h₁, h₂, res, op, heq, hres, hinv⟩ := hab
  obtain ⟨H₁, H₂, rfl, rfl, rfl⟩ := List.map_eq_append_iff.mp heq
  obtain ⟨⟨f, e⟩, hf, hfe⟩ := List.mem_map.mp hres
  obtain ⟨⟨g, e'⟩, hg, hge⟩ := List.mem_map.mp hinv
  dsimp only at hfe hge
  subst hfe hge
  have hfg : f ≤ g := (List.pairwise_append.mp h.sorted).2.2 _ hf _ hg
  have hi := (h.block_spec hp ha).2.2 f res (List.mem_append_left _ hf)
  obtain ⟨p, opb, hpj, hop, hid⟩ := (h.block_spec hp hb).2.1
  have hgp := h.later g b.id op (List.mem_append_right _ hg) p opb hop hid
  omega

/-- Calls with an ordered log are linearizable. -/
theorem linearizable (h : Ordered log history) :
    Linearizable mapSpec (fun _ => "") (history.map Prod.snd) := by
  have hans : ∀ x ∈ responses history, ∃ y : KVCall × Nat, y.2 ≤ x.1 ∧
      AnswerAt log history x.2.1 x.2.2 y.1 y.2 := by
    rintro ⟨f, id, res⟩ hx
    obtain ⟨call, k, hk, ha⟩ := h.answered f id res (mem_responses.mp hx)
    exact ⟨(call, k), hk, ha⟩
  have : Inhabited (KVCall × Nat) := ⟨(.get "", 0)⟩
  choose! point hp using hans
  have hp : Explains log history point := hp
  have hlin : Linearizable mapSpec (mapAt log 0) (history.map Prod.snd) := by
    refine linearizable_of_blocks log.length (fun k hk => ?_) (h.block_nodup hp)
      (fun i j a ha b hb hid => h.block_unique hp ha hb hid) ?_ ?_
      (fun i j a ha b hb hab => h.block_lt hp ha hb hab)
    · obtain ⟨hl, hf⟩ := legal_updates log hk
      obtain ⟨hl', hf'⟩ := legal_reads hp k
      rw [legal_append, final_append, hf]
      exact ⟨⟨hl, hl'⟩, hf'⟩
    · intro k c hc
      obtain ⟨f, hf⟩ := (h.block_spec hp hc).1
      exact List.mem_map.mpr ⟨_, hf, rfl⟩
    · intro id res hr
      obtain ⟨⟨f, e⟩, hf, rfl⟩ := List.mem_map.mp hr
      exact h.block_of_response hp hf
  exact hlin

end Ordered

end

/-! ## The log and the history grow -/

theorem mapAt_append {log : List Op} {k : Nat} (hk : k ≤ log.length) (op : Op) :
    mapAt (log ++ [op]) k = mapAt log k := by
  unfold mapAt
  rw [List.take_append_of_le_length hk]

theorem getElem?_append_of_some {log : List Op} {p : Nat} {a : Op} (h : log[p]? = some a) (op : Op) :
    (log ++ [op])[p]? = some a := by
  rw [List.getElem?_append_left (List.getElem?_eq_some_iff.mp h).1, h]

theorem OccursBefore.append {log : List Op} {id : Int × Int} {k : Nat}
    (h : OccursBefore log id k) (op : Op) : OccursBefore (log ++ [op]) id k := by
  obtain ⟨p, a, hp, ha, hid⟩ := h
  exact ⟨p, a, hp, getElem?_append_of_some ha op, hid⟩

theorem Issued.mono {history new : List Stamped} {op : Op} (h : Issued history op) :
    Issued (history ++ new) op := by
  obtain ⟨f, hf⟩ := h
  exact ⟨f, List.mem_append_left _ hf⟩

theorem AnswerAt.mono {log : List Op} {history new : List Stamped} {id : Int × Int}
    {res : Option String} {call : KVCall} {k : Nat} (h : AnswerAt log history id res call k) :
    AnswerAt log (history ++ new) id res call k := by
  obtain ⟨⟨f, hf⟩, ho, hr⟩ := h
  exact ⟨⟨f, List.mem_append_left _ hf⟩, ho, hr⟩

theorem AnswerAt.append {log : List Op} {history : List Stamped} {id : Int × Int}
    {res : Option String} {call : KVCall} {k : Nat} (h : AnswerAt log history id res call k)
    (hk : k ≤ log.length) (op : Op) : AnswerAt (log ++ [op]) history id res call k :=
  ⟨h.invoked, h.occurs.append op, by rw [mapAt_append hk]; exact h.result⟩

theorem mem_note {history : List Stamped} {f g : Nat}
    {e e' : Event (Int × Int) KVCall (Option String)} :
    (f, e) ∈ history ++ [(g, e')] ↔ (f, e) ∈ history ∨ (f = g ∧ e = e') := by
  rw [List.mem_append, List.mem_singleton, Prod.mk.injEq]

theorem responses_append (history new : List Stamped) :
    responses (history ++ new) = responses history ++ responses new :=
  List.filterMap_append

namespace Ordered

variable {log : List Op} {history : List Stamped}

theorem sorted_note (h : Ordered log history) (e : Event (Int × Int) KVCall (Option String)) :
    (history ++ [(log.length, e)]).Pairwise fun a b => a.1 ≤ b.1 := by
  refine List.pairwise_append.mpr ⟨h.sorted, List.pairwise_singleton _ _, fun a ha b hb => ?_⟩
  rw [List.mem_singleton] at hb
  subst hb
  exact h.stamp_le a ha

theorem stamp_le_note (h : Ordered log history) (e : Event (Int × Int) KVCall (Option String)) :
    ∀ x ∈ history ++ [(log.length, e)], x.1 ≤ log.length := by
  intro x hx
  rcases List.mem_append.mp hx with hx | hx
  · exact h.stamp_le x hx
  · rw [List.mem_singleton] at hx
    subst hx
    exact Nat.le_refl _

/-- A clerk makes the next call. -/
theorem invoke (h : Ordered log history) {c r : Int} (call : KVCall) (hpos : 0 < r)
    (hfresh : ∀ f call', (f, .invoke (c, r) call') ∉ history)
    (hprior : ∀ r', 0 < r' → r' < r → ∃ f res, (f, .respond (c, r') res) ∈ history) :
    Ordered log (history ++ [(log.length, .invoke (c, r) call)]) := by
  refine ⟨h.sorted_note _, h.stamp_le_note _, ?_, ?_, ?_, ?_, fun op hop => (h.issued op hop).mono,
    ?_, ?_⟩
  · intro f f' id call₁ call₂ h₁ h₂
    rcases mem_note.mp h₁ with h₁ | ⟨-, h₁⟩ <;> rcases mem_note.mp h₂ with h₂ | ⟨-, h₂⟩
    · exact h.unique f f' id call₁ call₂ h₁ h₂
    · cases h₂
      exact absurd h₁ (hfresh f call₁)
    · cases h₁
      exact absurd h₂ (hfresh f' call₂)
    · cases h₁
      cases h₂
      rfl
  · intro f c' r' call' hm
    rcases mem_note.mp hm with hm | ⟨-, hm⟩
    · exact h.positive f c' r' call' hm
    · cases hm
      exact hpos
  · intro f c' r' call' hm r'' hpos'' hlt
    rcases mem_note.mp hm with hm | ⟨rfl, he⟩
    · obtain ⟨f', res, hres, hle⟩ := h.prior f c' r' call' hm r'' hpos'' hlt
      exact ⟨f', res, List.mem_append_left _ hres, hle⟩
    · cases he
      obtain ⟨f', res, hres⟩ := hprior r'' hpos'' hlt
      exact ⟨f', res, List.mem_append_left _ hres, h.stamp_le _ hres⟩
  · intro f id call' hm p op hop hid
    rcases mem_note.mp hm with hm | ⟨-, hm⟩
    · exact h.later f id call' hm p op hop hid
    · -- the op of a call that was not made cannot be in the log
      cases hm
      obtain ⟨f', hf'⟩ := h.issued op (List.mem_of_getElem? hop)
      rw [hid] at hf'
      exact absurd hf' (hfresh f' _)
  · intro f id res hm
    rcases mem_note.mp hm with hm | ⟨-, hm⟩
    · obtain ⟨call', k, hk, hans⟩ := h.answered f id res hm
      exact ⟨call', k, hk, hans.mono⟩
    · exact absurd hm (by simp)
  · rw [responses_append]
    exact (List.append_nil (responses history)).symm ▸ h.once

/-- A call returns. -/
theorem respond (h : Ordered log history) {id : Int × Int} {res : Option String} {call : KVCall}
    {k : Nat} (hfresh : ∀ f res', (f, .respond id res') ∉ history) (hk : k ≤ log.length)
    (hans : AnswerAt log history id res call k) :
    Ordered log (history ++ [(log.length, .respond id res)]) := by
  have hold : ∀ {f id' call'}, (f, .invoke id' call') ∈ history ++ [(log.length, .respond id res)] →
      (f, .invoke id' call') ∈ history := by
    intro f id' call' hm
    rcases mem_note.mp hm with hm | ⟨-, hm⟩
    · exact hm
    · exact absurd hm (by simp)
  refine ⟨h.sorted_note _, h.stamp_le_note _,
    fun f f' id' c₁ c₂ h₁ h₂ => h.unique f f' id' c₁ c₂ (hold h₁) (hold h₂),
    fun f c r call' hm => h.positive f c r call' (hold hm), ?_,
    fun f id' call' hm => h.later f id' call' (hold hm), fun op hop => (h.issued op hop).mono,
    ?_, ?_⟩
  · intro f c r call' hm r' hpos hlt
    obtain ⟨f', res', hres, hle⟩ := h.prior f c r call' (hold hm) r' hpos hlt
    exact ⟨f', res', List.mem_append_left _ hres, hle⟩
  · intro f id' res' hm
    rcases mem_note.mp hm with hm | ⟨rfl, he⟩
    · obtain ⟨call', k', hk', hans'⟩ := h.answered f id' res' hm
      exact ⟨call', k', hk', hans'.mono⟩
    · cases he
      exact ⟨call, k, hk, hans.mono⟩
  · rw [responses_append, List.map_append, List.nodup_append']
    refine ⟨h.once, List.nodup_singleton _, ?_⟩
    intro id' hm hm'
    obtain ⟨⟨f, id₁, res₁⟩, hx, rfl⟩ := List.mem_map.mp hm
    obtain ⟨y, hy, heq⟩ := List.mem_map.mp hm'
    obtain rfl : y = (log.length, id, res) := List.mem_singleton.mp hy
    have hid : id = id₁ := heq
    subst hid
    exact hfresh f res₁ (mem_responses.mp hx)

/-- An op that was started comes up. -/
theorem deliver (h : Ordered log history) {op : Op} (hi : Issued history op) :
    Ordered (log ++ [op]) history := by
  have hlen : (log ++ [op]).length = log.length + 1 := by simp
  refine ⟨h.sorted, fun x hx => ?_, h.unique, h.positive, h.prior, ?_, ?_, ?_, h.once⟩
  · have := h.stamp_le x hx
    omega
  · intro f id call hm p a ha hid
    by_cases hp : p < log.length
    · rw [List.getElem?_append_left hp] at ha
      exact h.later f id call hm p a ha hid
    · have hf : f ≤ log.length := h.stamp_le _ hm
      omega
  · intro a ha
    rcases List.mem_append.mp ha with ha | ha
    · exact h.issued a ha
    · exact List.mem_singleton.mp ha ▸ hi
  · intro f id res hm
    obtain ⟨call, k, hk, hans⟩ := h.answered f id res hm
    have hf : f ≤ log.length := h.stamp_le _ hm
    exact ⟨call, k, hk, hans.append (by omega) op⟩

end Ordered

end DistributionSystem
