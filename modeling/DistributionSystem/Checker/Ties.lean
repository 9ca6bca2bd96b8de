import DistributionSystem.Checker.Verdicts

/-! Equal times in a history of operations. `Less` of `byTime` does not look at the kind of an
entry, so `sort.Sort` may put the return of one operation before or after the call of another at
the same time, and even before the operation's own call. The verdict is between two readings of
the history: it is true if the operations take time and are linearizable with a return before
every call at the same time, and it is false if they are not linearizable at all. -/

namespace DistributionSystem.Checker

open Runs

variable {I O S : Type}

/-- The other reading: a return comes before a call at the same time. -/
def Operation.BeforeOrAt (a b : Operation I O) : Prop := a.ret ≤ b.call

/-- The numbers of the operations do not matter. -/
theorem serializable_zipIdx (step : S → I → O → Bool × S)
    (precedes : Operation I O → Operation I O → Prop) (s : S) (history : List (Operation I O)) :
    Serial.Serializable (fun s (x : Operation I O × Nat) => step s x.1.input x.1.output)
        (fun a b => precedes a.1 b.1) s history.zipIdx ↔
      Serial.Serializable (fun s v => step s v.input v.output) precedes s history := by
  have hmap : Serial.Serializable (fun s v => step s v.input v.output) precedes s
      (history.zipIdx.map Prod.fst) ↔
        Serial.Serializable (fun s (x : Operation I O × Nat) => step s x.1.input x.1.output)
          (fun a b => precedes a.1 b.1) s history.zipIdx :=
    Serial.serializable_map (fun _ _ => rfl) fun _ _ _ _ => Iff.rfl
  rw [← hmap, List.zipIdx_map_fst]

theorem mem_history {history : List (Operation I O)} {op : Operation I O} :
    op ∈ history ↔ ∃ x ∈ history.zipIdx, x.1 = op := by
  have hmem : op ∈ history.zipIdx.map Prod.fst ↔ op ∈ history := by rw [List.zipIdx_map_fst]
  rw [← hmem, List.mem_map]

namespace Timed

variable {history : List (Operation I O)} {es : List (Entry (I ⊕ O))}
  {model : OperationModel I O S} {s : S}

/-- In whatever order the ties are, an order of the entries' operations is one of the history. -/
theorem linearizable (h : Timed history es)
    (hl : LinearizableFrom model.search s (es.map Entry.event)) :
    Linearizable model.step s history := by
  apply (serializable_zipIdx model.step Operation.Before s history).mp
  apply ((h.linearizableFrom_iff model s).mp hl).mono
  intro a ha b hb hlt
  exact h.precedes_of_lt ha hb hlt

/-- And an order that has returns before calls at the same time is one of the entries. -/
theorem linearizableFrom (h : Timed history es)
    (hl : Serial.Serializable (fun s v => model.step s v.input v.output) Operation.BeforeOrAt s
      history) : LinearizableFrom model.search s (es.map Entry.event) := by
  apply (h.linearizableFrom_iff model s).mpr
  apply ((serializable_zipIdx model.step Operation.BeforeOrAt s history).mpr hl).mono
  intro a ha b hb hp
  exact h.le_of_precedes ha hb hp

theorem wellFormed (h : Timed history es) (hlt : ∀ op ∈ history, op.call < op.ret) :
    WellFormed (es.map Entry.event) :=
  h.wellFormed_iff.mpr fun x hx => h.forward_of_lt hx (hlt x.1 (mem_history.mpr ⟨x, hx, rfl⟩))

end Timed

/-- Returns come before calls at the same time. -/
def returnsFirst {V : Type} (e : Entry V) : Int :=
  match e.kind with
  | .ret => 2 * e.time
  | .call => 2 * e.time + 1

theorem sortsByTime_returnsFirst {V : Type} :
    SortsByTime (sortBy (returnsFirst : Entry V → Int)) := by
  apply sortsByTime_sortBy
  intro a b hle
  simp only [returnsFirst] at hle
  split at hle <;> split at hle <;> omega

section returnsFirst

variable {history : List (Operation I O)} {model : OperationModel I O S} {s : S}

/-- With this sort an operation is forward only if it takes time. -/
theorem lt_of_wellFormed
    (hw : WellFormed ((makeEntries (sortBy returnsFirst) history).map Entry.event)) :
    ∀ op ∈ history, op.call < op.ret := by
  intro op hop
  obtain ⟨x, hx, rfl⟩ := mem_history.mp hop
  have h := sortsByTime_returnsFirst.timed history
  have hf := h.wellFormed_iff.mp hw x hx
  have hsorted := (pairwise_sortBy returnsFirst (history.zipIdx.flatMap fun x =>
    [callEntry x, returnEntry x])).filter fun e => e.event.of x.2
  rw [Forward, Timed.filter_of] at hf
  rcases eq_or_eq_of_perm_pair (h.filter_perm hx) with heq | heq
  · have hpw : [callEntry x, returnEntry x].Pairwise fun a b =>
        returnsFirst a ≤ returnsFirst b := heq ▸ hsorted
    have hle : 2 * x.1.call + 1 ≤ 2 * x.1.ret :=
      (List.pairwise_cons.mp hpw).1 _ List.mem_cons_self
    omega
  · rw [heq] at hf
    exact absurd hf (by simp [returnEntry, callEntry, Entry.event])

/-- And a return at the time of a call precedes it. -/
theorem serializable_of_linearizableFrom
    (hl : LinearizableFrom model.search s
      ((makeEntries (sortBy returnsFirst) history).map Entry.event)) :
    Serial.Serializable (fun s v => model.step s v.input v.output) Operation.BeforeOrAt s
      history := by
  have h := sortsByTime_returnsFirst.timed history
  apply (serializable_zipIdx model.step Operation.BeforeOrAt s history).mp
  apply ((h.linearizableFrom_iff model s).mp hl).mono
  intro a ha b hb hat
  have hat : a.1.ret ≤ b.1.call := hat
  rcases h.precedes_or ha hb (pairwise_sortBy returnsFirst _) with hp | hle
  · exact hp
  · have hle : 2 * b.1.call + 1 ≤ 2 * a.1.ret := hle
    omega

end returnsFirst

section single

variable [DecidableEq S] {model : GivenModel I O S} {history part : List (Operation I O)}
  {sort : List (Entry (I ⊕ O)) → List (Entry (I ⊕ O))}

/-- The verdict on a history that is one part. -/
theorem checkOperationsTimeout_single (hm : (fillDefault model).search.Lawful)
    (hs : SortsByTime sort) (hpart : (fillDefault model).partition history = [part]) :
    ∃ c verdict, checkOperationsTimeout sort model history = some c ∧
      Gives (fillDefault model).search 0 c verdict ∧
      (verdict = true ↔ WellFormed ((makeEntries sort part).map Entry.event) ∧
        LinearizableFrom (fillDefault model).search model.init
          ((makeEntries sort part).map Entry.event)) := by
  obtain ⟨c, verdicts, hstart, -, hown, hinv⟩ := checkOperationsTimeout_inv hs model history
  obtain ⟨ps, h⟩ := hinv 0
  rw [hpart] at hown
  obtain ⟨verdict, rest, hverdict, hrest, rfl⟩ := List.forall₂_cons_left_iff.mp hown
  obtain rfl := List.forall₂_nil_left_iff.mp hrest
  have htimed := hs.timed part
  obtain ⟨answer, bound, hcheck, hiff⟩ :=
    htimed.coupled.checkEntries_decides (fillDefault model).search htimed.id_lt
  obtain rfl : answer = verdict := OwnVerdict.unique ⟨bound, hcheck⟩ hverdict
  refine ⟨c, answer, hstart, ?_, hiff hm⟩
  simpa using h.gives (by simp)

end single

/-- The verdict is a matter of the operations alone, for every order of the history and every
sort by time, if a linearizable history has only operations that take time and is linearizable
also with every return before the calls at the same time; and for no other history. -/
theorem verdict_by_operations [DecidableEq S] {model : GivenModel I O S}
    (hm : (fillDefault model).search.Lawful)
    (hpart : ∀ history, ∃ part, (fillDefault model).partition history = [part] ∧
      part.Perm history) (history : List (Operation I O)) :
    (∀ history' : List (Operation I O), history'.Perm history → ∀ sort, SortsByTime sort →
      ∃ c verdict, checkOperationsTimeout sort model history' = some c ∧
        Gives (fillDefault model).search 0 c verdict ∧
        (verdict = true ↔ Linearizable model.step model.init history)) ↔
    (Linearizable model.step model.init history → (∀ op ∈ history, op.call < op.ret) ∧
      Serial.Serializable (fun s v => model.step s v.input v.output) Operation.BeforeOrAt
        model.init history) := by
  constructor
  · intro hall hlin
    obtain ⟨part, hp, hperm⟩ := hpart history
    obtain ⟨c, verdict, hstart, hgives, hiff⟩ :=
      hall history (List.Perm.refl _) _ sortsByTime_returnsFirst
    obtain ⟨c', verdict', hstart', hgives', hiff'⟩ :=
      checkOperationsTimeout_single hm sortsByTime_returnsFirst hp
    obtain rfl := Option.some.inj (hstart.symm.trans hstart')
    obtain rfl := hgives.unique hgives'
    obtain ⟨hw, hl⟩ := hiff'.mp (hiff.mpr hlin)
    refine ⟨fun op hop => lt_of_wellFormed hw op (hperm.mem_iff.mpr hop), ?_⟩
    exact (serializable_of_linearizableFrom hl).perm hperm
  · intro hcond history' hperm' sort hs
    obtain ⟨part, hp, hperm⟩ := hpart history'
    have hperm := hperm.trans hperm'
    obtain ⟨c, verdict, hstart, hgives, hiff⟩ := checkOperationsTimeout_single hm hs hp
    have htimed := hs.timed part
    refine ⟨c, verdict, hstart, hgives, hiff.trans ⟨fun h => ?_, fun hlin => ?_⟩⟩
    · exact (htimed.linearizable h.2).perm hperm
    · obtain ⟨hlt, hat⟩ := hcond hlin
      refine ⟨htimed.wellFormed fun op hop => hlt op (hperm.mem_iff.mp hop), ?_⟩
      exact htimed.linearizableFrom (hat.perm hperm.symm)

/-- The key/value model for one key, without a partition. -/
def oneKey : GivenModel KvInput KvOutput String := { KvModel.model with partition := none }

theorem oneKey_lawful : (fillDefault oneKey).search.Lawful :=
  fillDefault_lawful fun _ h => (Option.mem_some.mp h).symm

/-- A put, and a get that is called after it. -/
def apart : List KvOperation :=
  [⟨⟨1, "x", "b"⟩, 1, ⟨""⟩, 2⟩, ⟨⟨0, "x", ""⟩, 3, ⟨"b"⟩, 4⟩]

theorem verdict_by_operations_apart :
    (fillDefault oneKey).search.Lawful ∧ Linearizable KvModel.step KvModel.init apart ∧
      ∀ history' : List KvOperation, history'.Perm apart → ∀ sort, SortsByTime sort →
        ∃ c verdict, checkOperationsTimeout sort oneKey history' = some c ∧
          Gives (fillDefault oneKey).search 0 c verdict ∧
          (verdict = true ↔ Linearizable KvModel.step KvModel.init apart) := by
  have hat : Serial.Serializable (fun s (v : KvOperation) => KvModel.step s v.input v.output)
      Operation.BeforeOrAt KvModel.init apart := by
    refine ⟨apart, List.Perm.refl _, ?_, ?_⟩
    · exact ⟨by decide, by decide, trivial⟩
    · simp [apart, Operation.BeforeOrAt]
  have hlt : ∀ op ∈ apart, op.call < op.ret := by decide
  refine ⟨oneKey_lawful, hat.mono fun a _ b _ h => Int.le_of_lt h, ?_⟩
  exact (verdict_by_operations oneKey_lawful (fun history => ⟨history, rfl, List.Perm.refl _⟩)
    apart).mpr fun _ => ⟨hlt, hat⟩

/-- A get returns at the time at which the put of what it has read is called. -/
def tied : List KvOperation :=
  [⟨⟨0, "x", ""⟩, 1, ⟨"b"⟩, 2⟩, ⟨⟨1, "x", "b"⟩, 2, ⟨""⟩, 3⟩]

/-- The history is linearizable, but with a sort that keeps the order of equal entries the verdict
is false; for the same operations in the other order it is true. -/
theorem tied_reordered :
    SortsByTime (sortBy (Entry.time : Entry (KvInput ⊕ KvOutput) → Int)) ∧
      (∀ op ∈ tied, op.call ≤ op.ret) ∧ Linearizable KvModel.step KvModel.init tied ∧
      tied.reverse.Perm tied ∧
      (∃ c, checkOperationsTimeout (sortBy Entry.time) oneKey tied = some c ∧
        Gives (fillDefault oneKey).search 0 c false) ∧
      ∃ c, checkOperationsTimeout (sortBy Entry.time) oneKey tied.reverse = some c ∧
        Gives (fillDefault oneKey).search 0 c true := by
  have hs : SortsByTime (sortBy (Entry.time : Entry (KvInput ⊕ KvOutput) → Int)) :=
    sortsByTime_sortBy fun _ _ h => h
  have hgives : ∀ (history : List KvOperation) (as : List Action) (result : Bool),
      ((checkOperationsTimeout (sortBy Entry.time) oneKey history).bind fun c =>
        (exec (Collection.step (fillDefault oneKey).search 0) (fun _ _ => True) c as).map
          Collection.returned) = some (some result) →
      ∃ c, checkOperationsTimeout (sortBy Entry.time) oneKey history = some c ∧
        Gives (fillDefault oneKey).search 0 c result := by
    intro history as result h
    obtain ⟨c, hstart, hexec⟩ := Option.bind_eq_some_iff.mp h
    obtain ⟨c', hr, hret⟩ := run_of_exec_map Collection.returned hexec
    have hne : (fillDefault oneKey).partition history ≠ [] := List.cons_ne_nil history []
    exact ⟨c, hstart, gives_of_returned hs hne hstart hr hret⟩
  refine ⟨hs, by decide, ⟨tied.reverse, List.reverse_perm _, ?_, ?_⟩, List.reverse_perm _, ?_, ?_⟩
  · exact ⟨by decide, by decide, trivial⟩
  · simp [tied, Operation.Before]
  · exact hgives tied [.round 0, .round 0, .receive 0] false (by decide +kernel)
  · exact hgives tied.reverse [.round 0, .round 0, .round 0, .round 0, .receive 0] true
      (by decide +kernel)

end DistributionSystem.Checker
