import DistributionSystem.Checker.Collect
import DistributionSystem.Checker.KvModel

/-! The checks of a whole history (`CheckOperations`, `CheckEvents`): the history is split by the
model's partition, each part is searched, and the verdicts are collected. -/

namespace DistributionSystem.Checker

open Runs

variable {I O V S : Type}

/-- A model as it is given: `none` stands for a function that is nil. -/
structure GivenModel (I O S : Type) where
  partition : Option (List (Operation I O) → List (List (Operation I O)))
  partitionEvent : Option (List (Event (I ⊕ O)) → List (List (Event (I ⊕ O))))
  init : S
  step : S → I → O → Bool × S
  equal : Option (S → S → Bool)

def noPartition (history : List (Operation I O)) : List (List (Operation I O)) := [history]

def noPartitionEvent (history : List (Event V)) : List (List (Event V)) := [history]

def shallowEqual [DecidableEq S] (state1 state2 : S) : Bool := state1 = state2

def fillDefault [DecidableEq S] (model : GivenModel I O S) : OperationModel I O S where
  partition := model.partition.getD noPartition
  partitionEvent := model.partitionEvent.getD noPartitionEvent
  init := model.init
  step := model.step
  equal := model.equal.getD shallowEqual

/-- Equality of the states themselves, given or by default, is lawful for every `Step`. -/
theorem fillDefault_lawful [DecidableEq S] {model : GivenModel I O S}
    (h : ∀ equal ∈ model.equal, equal = shallowEqual) :
    (fillDefault model).search.Lawful := by
  have heq : ∀ s t, (fillDefault model).search.equal s t = true ↔ s = t := by
    intro s t
    have hequal : (fillDefault model).search.equal = shallowEqual := by
      cases hm : model.equal with
      | none => simp [fillDefault, OperationModel.search, hm]
      | some equal => simp [fillDefault, OperationModel.search, hm, h equal hm]
    simp [hequal, shallowEqual]
  constructor
  · exact fun s => (heq s s).mpr rfl
  · exact fun s t hst => (heq t s).mpr ((heq s t).mp hst).symm
  · exact fun s t u hst htu => (heq s u).mpr (((heq s t).mp hst).trans ((heq t u).mp htu))
  · intro s t v w hst
    rw [(heq s t).mp hst]
  · intro s t v w hst _
    rw [heq, (heq s t).mp hst]

namespace KvModel

/-- `KvModel`. -/
def model : GivenModel KvInput KvOutput String where
  partition := some KvModel.partition
  partitionEvent := none
  init := KvModel.init
  step := KvModel.step
  equal := some shallowEqual

end KvModel

/-- `CheckOperationsTimeout` up to its loop. The rest is a run of `Collection.step`. -/
def checkOperationsTimeout [DecidableEq S]
    (sort : List (Entry (I ⊕ O)) → List (Entry (I ⊕ O))) (model : GivenModel I O S)
    (history : List (Operation I O)) : Option (Collection (I ⊕ O) S) :=
  let model := fillDefault model
  start model.search ((model.partition history).map (makeEntries sort))

def checkEventsTimeout [DecidableEq S] (model : GivenModel I O S)
    (history : List (Event (I ⊕ O))) : Option (Collection (I ⊕ O) S) :=
  let model := fillDefault model
  start model.search ((model.partitionEvent history).map fun subhistory =>
    convertEntries (renumber subhistory))

section verdicts

/-- The goroutine of a part begins with the search that gives the part's own verdict. -/
theorem exists_part (model : Model V S) {entries : List (Entry V)}
    (hc : Coupled (entries.map Entry.event))
    (hid : ∀ e ∈ entries.map Entry.event, e.id < (entries.map Entry.event).length / 2) :
    ∃ (l : Heap V) (root : Option Nat) (m : Nat → Option Nat) (p : Part V S),
      makeLinkedEntries entries = some (l, root, m) ∧
      p.worker = Worker.start model l root ∧ OwnVerdict model entries p.verdict ∧
      p.Fits model false none := by
  obtain ⟨answer, bound, hcheck, -⟩ := hc.checkEntries_decides model hid
  obtain ⟨l, root, m, h', hmake, hlen, -, hstart⟩ := startSearch_eq (S := S) rfl hid
  -- with this fuel the search of `checkEntries` ends
  let fuel := max bound (entries.map Entry.event).length
  have hfuel := hcheck fuel (Nat.le_max_left ..)
  simp only [checkEntries, hmake, Option.bind_eq_bind, Option.bind_some, checkSingle_eq,
    hstart model fuel (Nat.le_max_right ..)] at hfuel
  refine ⟨l, root, m, ⟨answer, fuel + 1, Worker.start model l root⟩, hmake, rfl,
    ⟨bound, hcheck⟩, ?_⟩
  simp only [Worker.start, hstart model _ (Nat.le_of_eq hlen.symm), Part.Fits]
  exact ⟨fuel, rfl, hfuel⟩

/-- The goroutines of all parts. -/
theorem exists_parts (model : Model V S) {parts : List (List (Entry V))}
    (hparts : ∀ entries ∈ parts, Coupled (entries.map Entry.event) ∧
      ∀ e ∈ entries.map Entry.event, e.id < (entries.map Entry.event).length / 2) :
    ∃ (ls : List (Heap V × Option Nat × (Nat → Option Nat))) (ps : List (Part V S)),
      parts.mapM makeLinkedEntries = some ls ∧
      (ls.map fun l => Worker.start model l.1 l.2.1) = ps.map Part.worker ∧
      List.Forall₂ (OwnVerdict model) parts (ps.map Part.verdict) ∧
      ∀ p ∈ ps, p.Fits model false none ∧ p.worker.isDone = false := by
  induction parts with
  | nil => exact ⟨[], [], rfl, rfl, .nil, by simp⟩
  | cons entries parts ih =>
    obtain ⟨ls, ps, hmake, hworkers, hown, hfits⟩ :=
      ih fun e he => hparts e (List.mem_cons_of_mem _ he)
    obtain ⟨hc, hid⟩ := hparts entries List.mem_cons_self
    obtain ⟨l, root, m, p, hl, hp, hv, hf⟩ := exists_part model hc hid
    have hsearches : p.worker.isDone = false := by
      rw [hp, Worker.start]
      split <;> rfl
    refine ⟨(l, root, m) :: ls, p :: ps, ?_, ?_, .cons hv hown, ?_⟩
    · simp [List.mapM_cons, hl, hmake]
    · simp [hworkers, hp]
    · exact List.forall_mem_cons.mpr ⟨⟨hf, hsearches⟩, hfits⟩

/-- The state when the loop begins. -/
theorem start_inv (model : Model V S) {parts : List (List (Entry V))}
    (hparts : ∀ entries ∈ parts, Coupled (entries.map Entry.event) ∧
      ∀ e ∈ entries.map Entry.event, e.id < (entries.map Entry.event).length / 2) :
    ∃ c verdicts, start model parts = some c ∧ c.returned = none ∧
      List.Forall₂ (OwnVerdict model) parts verdicts ∧
      ∀ timeout, ∃ ps, c.Inv model timeout verdicts ps := by
  obtain ⟨ls, ps, hmake, hworkers, hown, hfits⟩ := exists_parts model hparts
  refine ⟨⟨ps.map Part.worker, false, true, 0, none⟩, ps.map Part.verdict, ?_, rfl, hown,
    fun timeout => ⟨ps, rfl, rfl, fun p hp => (hfits p hp).1, fun _ => ⟨rfl, rfl, ?_, ?_⟩, by simp⟩⟩
  · simp [start, hmake, hworkers]
  · rw [eq_comm, List.countP_eq_zero]
    intro w hw
    obtain ⟨p, hp, rfl⟩ := List.mem_map.mp hw
    simp [(hfits p hp).2]
  · exact List.length_pos_of_ne_nil

/-- The parts of a history of operations. -/
theorem checkOperationsTimeout_inv [DecidableEq S]
    {sort : List (Entry (I ⊕ O)) → List (Entry (I ⊕ O))} (hs : SortsByTime sort)
    (model : GivenModel I O S) (history : List (Operation I O)) :
    ∃ c verdicts, checkOperationsTimeout sort model history = some c ∧ c.returned = none ∧
      List.Forall₂ (fun sub => OwnVerdict (fillDefault model).search (makeEntries sort sub))
        ((fillDefault model).partition history) verdicts ∧
      ∀ timeout, ∃ ps, c.Inv (fillDefault model).search timeout verdicts ps := by
  have hparts : ∀ entries ∈ ((fillDefault model).partition history).map (makeEntries sort),
      Coupled (entries.map Entry.event) ∧
        ∀ e ∈ entries.map Entry.event, e.id < (entries.map Entry.event).length / 2 := by
    intro entries he
    obtain ⟨sub, -, rfl⟩ := List.mem_map.mp he
    exact ⟨(hs.timed sub).coupled, (hs.timed sub).id_lt⟩
  obtain ⟨c, verdicts, hstart, hret, hown, hinv⟩ := start_inv (fillDefault model).search hparts
  exact ⟨c, verdicts, hstart, hret, List.forall₂_map_left_iff.mp hown, hinv⟩

/-- One run that leaves the loop shows what all runs give. -/
theorem gives_of_returned [DecidableEq S]
    {sort : List (Entry (I ⊕ O)) → List (Entry (I ⊕ O))} (hs : SortsByTime sort)
    {model : GivenModel I O S} {history : List (Operation I O)}
    (hne : (fillDefault model).partition history ≠ []) {c c' : Collection (I ⊕ O) S}
    (hstart : checkOperationsTimeout sort model history = some c) {as : List Action}
    (hr : CollectRun (fillDefault model).search 0 c as c') {result : Bool}
    (hret : c'.returned = some result) : Gives (fillDefault model).search 0 c result := by
  obtain ⟨c₀, verdicts, hstart₀, -, hown, hinv⟩ := checkOperationsTimeout_inv hs model history
  obtain rfl := Option.some.inj (hstart.symm.trans hstart₀)
  obtain ⟨ps, h⟩ := hinv 0
  have hgives := h.gives fun hnil => hne (List.forall₂_nil_right_iff.mp (hnil ▸ hown))
  exact hgives.returns as c' hr result hret ▸ hgives

/-- The conjunction of the verdicts says that every part is as its verdict says. -/
theorem all_verdicts {A : Type} {R : A → Bool → Prop} {P : A → Prop} {parts : List A}
    {verdicts : List Bool} (h : List.Forall₂ R parts verdicts)
    (hP : ∀ a ∈ parts, ∀ v, R a v → (v = true ↔ P a)) :
    verdicts.all id = true ↔ ∀ a ∈ parts, P a := by
  induction h with
  | nil => simp
  | @cons a v parts verdicts hv _ ih =>
    have hhead := hP a List.mem_cons_self v hv
    have htail := ih fun b hb => hP b (List.mem_cons_of_mem _ hb)
    simp only [List.all_cons, id, Bool.and_eq_true, List.forall_mem_cons]
    exact and_congr hhead htail

/-- `CheckEvents` says whether every part of a history of events is linearizable. -/
theorem checkEventsTimeout_gives [DecidableEq S] {model : GivenModel I O S}
    (hm : (fillDefault model).search.Lawful) {history : List (Event (I ⊕ O))}
    (hw : ∀ sub ∈ (fillDefault model).partitionEvent history, WellFormed sub)
    (hne : (fillDefault model).partitionEvent history ≠ []) :
    ∃ c verdict, checkEventsTimeout model history = some c ∧
      Gives (fillDefault model).search 0 c verdict ∧
      (verdict = true ↔ ∀ sub ∈ (fillDefault model).partitionEvent history,
        LinearizableFrom (fillDefault model).search model.init sub) := by
  have hparts : ∀ entries ∈ ((fillDefault model).partitionEvent history).map fun sub =>
      convertEntries (renumber sub), Coupled (entries.map Entry.event) ∧
        ∀ e ∈ entries.map Entry.event, e.id < (entries.map Entry.event).length / 2 := by
    intro entries he
    obtain ⟨sub, hsub, rfl⟩ := List.mem_map.mp he
    obtain ⟨hw', hid, -⟩ := renumbered (fillDefault model).search (hw sub hsub)
    exact ⟨fun e he => (hw' e he) ▸ List.Perm.refl _, hid⟩
  obtain ⟨c, verdicts, hstart, -, hown, hinv⟩ := start_inv (fillDefault model).search hparts
  have hown := List.forall₂_map_left_iff.mp hown
  obtain ⟨ps, h⟩ := hinv 0
  refine ⟨c, verdicts.all id, hstart, h.gives fun hnil => ?_, all_verdicts hown ?_⟩
  · exact hne (List.forall₂_nil_right_iff.mp (hnil ▸ hown))
  · intro sub hsub v hv
    obtain ⟨hw', hid, hlin⟩ := renumbered (fillDefault model).search (hw sub hsub)
    obtain ⟨answer, bound, hcheck, hiff⟩ := checkEntries_decides (fillDefault model).search hw' hid
    obtain rfl : answer = v := OwnVerdict.unique ⟨bound, hcheck⟩ hv
    exact (hiff hm).trans hlin

end verdicts

/-- Collecting the verdicts is exact, and ends, if there is a part to wait for: without a timeout
the result is the conjunction of the verdicts that the parts have alone, and with one it is
false only if one of these is. With no parts the loop is never left. -/
theorem collects_verdicts [DecidableEq S]
    {sort : List (Entry (I ⊕ O)) → List (Entry (I ⊕ O))} (hs : SortsByTime sort)
    (model : GivenModel I O S) (history : List (Operation I O)) :
    ∃ c verdicts, checkOperationsTimeout sort model history = some c ∧
      List.Forall₂ (fun sub => OwnVerdict (fillDefault model).search (makeEntries sort sub))
        ((fillDefault model).partition history) verdicts ∧
      ((Gives (fillDefault model).search 0 c (verdicts.all id) ∧
        ∀ timeout, 0 < timeout → ∀ as c',
          CollectRun (fillDefault model).search timeout c as c' →
            c'.returned = some false → false ∈ verdicts) ↔
        (fillDefault model).partition history ≠ []) := by
  obtain ⟨c, verdicts, hstart, hret, hown, hinv⟩ := checkOperationsTimeout_inv hs model history
  refine ⟨c, verdicts, hstart, hown, ?_, ?_⟩
  · rintro ⟨hgives, -⟩ hnil
    obtain ⟨ps, h⟩ := hinv 0
    rw [hnil] at hown
    have hps := h.parts_ne_nil.mpr (List.forall₂_nil_left_iff.mp hown)
    have hworkers : c.workers = [] := by
      rw [h.workers, hps]
      rfl
    exact not_gives_of_no_workers hworkers hret hgives
  · intro hne
    have hverdicts : verdicts ≠ [] := by
      rintro rfl
      exact hne (List.forall₂_nil_right_iff.mp hown)
    obtain ⟨ps, h⟩ := hinv 0
    refine ⟨h.gives hverdicts, fun timeout _ as c' hr hfalse => ?_⟩
    obtain ⟨ps, h⟩ := hinv timeout
    obtain ⟨ps', h', -⟩ := h.run hr
    rcases h'.result false hfalse with heq | ⟨-, heq⟩
    · obtain ⟨v, hv, hnot⟩ := List.all_eq_false.mp heq.symm
      rwa [show v = false from by simpa using hnot] at hv
    · exact absurd heq (by simp)

theorem collects_verdicts_overlapping :
    KvModel.model.partition = some KvModel.partition ∧
      KvModel.partition KvModel.overlapping ≠ [] ∧
      ∃ c verdicts,
        checkOperationsTimeout (sortBy Entry.time) KvModel.model KvModel.overlapping = some c ∧
        List.Forall₂ (fun sub => OwnVerdict (fillDefault KvModel.model).search
          (makeEntries (sortBy Entry.time) sub)) (KvModel.partition KvModel.overlapping) verdicts ∧
        Gives (fillDefault KvModel.model).search 0 c (verdicts.all id) := by
  have hne : KvModel.partition KvModel.overlapping ≠ [] := by
    refine List.ne_nil_of_mem (KvModel.mem_partition.mpr ⟨_, List.mem_cons_self, rfl⟩)
  obtain ⟨c, verdicts, hstart, hown, hiff⟩ := collects_verdicts
    (sortsByTime_sortBy fun _ _ h => h) KvModel.model KvModel.overlapping
  exact ⟨rfl, hne, c, verdicts, hstart, hown, (hiff.mpr hne).1⟩

/-- The empty history has no parts: it is linearizable, as all its parts are, but the loop waits
for a verdict that nobody sends. -/
theorem empty_history_waits :
    Linearizable KvModel.mapStep (fun _ => "") [] ∧
      (∀ sub ∈ KvModel.partition [], Linearizable KvModel.step KvModel.init sub) ∧
      ∃ c, checkOperationsTimeout (sortBy Entry.time) KvModel.model [] = some c ∧
        ∀ as c', CollectRun (fillDefault KvModel.model).search 0 c as c' →
          as = [] ∧ c'.returned = none := by
  refine ⟨⟨[], List.Perm.refl _, trivial, List.Pairwise.nil⟩, fun sub hsub => ?_,
    ⟨[], false, true, 0, none⟩, rfl, fun as c' hr => ?_⟩
  · obtain ⟨v, hv, -⟩ := KvModel.mem_partition.mp hsub
    exact absurd hv List.not_mem_nil
  · have hstuck := run_of_no_workers hr rfl rfl
    exact ⟨hstuck.1, by rw [hstuck.2]⟩

end DistributionSystem.Checker
