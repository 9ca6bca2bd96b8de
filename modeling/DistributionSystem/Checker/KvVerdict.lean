import DistributionSystem.Checker.Ties

/-! The checker on histories of the key/value store: `CheckOperationsTimeout` with `KvModel`,
from the partition by key over the sort of the entries and the searches to the collected
verdict, against linearizability of the whole map from keys to strings. -/

namespace DistributionSystem.Checker

variable {I O S : Type}

/-- What comes out of a check in terms of its parts, with every timeout. -/
theorem checkOperationsTimeout_parts [DecidableEq S] {model : GivenModel I O S}
    (hm : (fillDefault model).search.Lawful)
    {sort : List (Entry (I ⊕ O)) → List (Entry (I ⊕ O))} (hs : SortsByTime sort)
    {history : List (Operation I O)} (hne : (fillDefault model).partition history ≠ []) :
    ∃ c verdict, checkOperationsTimeout sort model history = some c ∧
      Gives (fillDefault model).search 0 c verdict ∧
      (verdict = true ↔ ∀ sub ∈ (fillDefault model).partition history,
        WellFormed ((makeEntries sort sub).map Entry.event) ∧
          LinearizableFrom (fillDefault model).search model.init
            ((makeEntries sort sub).map Entry.event)) ∧
      ∀ timeout as c', CollectRun (fillDefault model).search timeout c as c' →
        c'.returned = some false → verdict = false := by
  obtain ⟨c, verdicts, hstart, -, hown, hinv⟩ := checkOperationsTimeout_inv hs model history
  have hverdicts : verdicts ≠ [] := by
    rintro rfl
    exact hne (List.forall₂_nil_right_iff.mp hown)
  obtain ⟨ps, h⟩ := hinv 0
  refine ⟨c, verdicts.all id, hstart, h.gives hverdicts, all_verdicts hown ?_, ?_⟩
  · intro sub _ v hv
    have htimed := hs.timed sub
    obtain ⟨answer, bound, hcheck, hiff⟩ :=
      htimed.coupled.checkEntries_decides (fillDefault model).search htimed.id_lt
    obtain rfl : answer = v := OwnVerdict.unique ⟨bound, hcheck⟩ hv
    exact hiff hm
  · intro timeout as c' hr hfalse
    obtain ⟨ps, h⟩ := hinv timeout
    obtain ⟨ps', h', -⟩ := h.run hr
    rcases h'.result false hfalse with heq | ⟨-, heq⟩
    · exact heq.symm
    · exact absurd heq (by simp)

namespace KvModel

variable {sort : List (Entry (KvInput ⊕ KvOutput)) → List (Entry (KvInput ⊕ KvOutput))}
  {history : List KvOperation}

theorem model_lawful : (fillDefault model).search.Lawful :=
  fillDefault_lawful fun _ h => (Option.mem_some.mp h).symm

theorem partition_ne_nil (hne : history ≠ []) : partition history ≠ [] := by
  obtain ⟨v, hv⟩ := List.exists_mem_of_ne_nil history hne
  exact List.ne_nil_of_mem (mem_partition.mpr ⟨v, hv, rfl⟩)

/-- The verdict is between two readings of the times: a history that it accepts is
linearizable, and it accepts one that is linearizable with every return before the calls at
the same time. -/
theorem checkOperationsTimeout_between (hs : SortsByTime sort) (hne : history ≠ [])
    (hlt : ∀ v ∈ history, v.call < v.ret) :
    ∃ c verdict, checkOperationsTimeout sort model history = some c ∧
      Gives (fillDefault model).search 0 c verdict ∧
      (verdict = true → Linearizable mapStep (fun _ => "") history) ∧
      (Serial.Serializable (fun σ v => mapStep σ v.input v.output) Operation.BeforeOrAt
        (fun _ => "") history → verdict = true) ∧
      ∀ timeout as c', CollectRun (fillDefault model).search timeout c as c' →
        c'.returned = some false → verdict = false := by
  obtain ⟨c, verdict, hstart, hgives, hiff, hfalse⟩ :=
    checkOperationsTimeout_parts model_lawful hs (partition_ne_nil hne)
  refine ⟨c, verdict, hstart, hgives, fun hv => ?_, fun hat => ?_, hfalse⟩
  · apply linearizable_of_parts hlt
    intro sub hsub
    have hlin := (hs.timed sub).linearizable (hiff.mp hv sub hsub).2
    exact hlin
  · apply hiff.mpr
    intro sub hsub
    have hltsub : ∀ v ∈ sub, v.call < v.ret := by
      obtain ⟨w, -, rfl⟩ := mem_partition.mp hsub
      exact fun v hv => hlt v (List.mem_filter.mp hv).1
    have hat : Serial.Serializable (fun s v => (fillDefault model).step s v.input v.output)
        Operation.BeforeOrAt model.init sub := serializable_part hat hsub
    exact ⟨(hs.timed sub).wellFormed hltsub, (hs.timed sub).linearizableFrom hat⟩

/-- On a history whose operations take time and have no ties, the check is exact from end to
end: under every schedule of its goroutines it ends, and says whether the operations are
linearizable on the map from keys to strings; with a timeout it never says no wrongly. -/
theorem checkOperations_exact (hs : SortsByTime sort) (hne : history ≠ [])
    (hlt : ∀ v ∈ history, v.call < v.ret)
    (hties : ∀ a ∈ history, ∀ b ∈ history, a.ret ≠ b.call) :
    ∃ c verdict, checkOperationsTimeout sort model history = some c ∧
      Gives (fillDefault model).search 0 c verdict ∧
      (verdict = true ↔ Linearizable mapStep (fun _ => "") history) ∧
      ∀ timeout as c', CollectRun (fillDefault model).search timeout c as c' →
        c'.returned = some false → ¬ Linearizable mapStep (fun _ => "") history := by
  obtain ⟨c, verdict, hstart, hgives, hsound, hcomplete, hfalse⟩ :=
    checkOperationsTimeout_between hs hne hlt
  have hiff : verdict = true ↔ Linearizable mapStep (fun _ => "") history := by
    refine ⟨hsound, fun hlin => hcomplete (hlin.mono fun a ha b hb hat => ?_)⟩
    exact Int.lt_iff_le_and_ne.mpr ⟨hat, hties a ha b hb⟩
  refine ⟨c, verdict, hstart, hgives, hiff, fun timeout as c' hr hret hlin => ?_⟩
  have hno := hfalse timeout as c' hr hret
  rw [hiff.mpr hlin] at hno
  exact absurd hno (by simp)

theorem checkOperations_exact_overlapping :
    (∀ v ∈ overlapping, v.call < v.ret) ∧
      (∀ a ∈ overlapping, ∀ b ∈ overlapping, a.ret ≠ b.call) ∧
      ∃ c verdict, checkOperationsTimeout (sortBy Entry.time) model overlapping = some c ∧
        Gives (fillDefault model).search 0 c verdict ∧
        (verdict = true ↔ Linearizable mapStep (fun _ => "") overlapping) := by
  have hlt : ∀ v ∈ overlapping, v.call < v.ret := by decide
  have hties : ∀ a ∈ overlapping, ∀ b ∈ overlapping, a.ret ≠ b.call := by decide
  obtain ⟨c, verdict, hstart, hgives, hiff, -⟩ :=
    checkOperations_exact (sortsByTime_sortBy fun _ _ h => h) (by simp [overlapping]) hlt hties
  exact ⟨hlt, hties, c, verdict, hstart, hgives, hiff⟩

end KvModel

end DistributionSystem.Checker
