import DistributionSystem.Checker.Model
import DistributionSystem.Lib.Grouping

/-! The key/value model of the linearizability checker (`models.go`). Its state is the value of
one key, and its `Partition` splits a history by key; looking at each key alone loses nothing
against the map from keys to values. -/

namespace DistributionSystem.Checker

structure KvInput where
  op : UInt8
  key : String
  value : String
  deriving DecidableEq, Repr

structure KvOutput where
  value : String
  deriving DecidableEq, Repr

abbrev KvOperation := Operation KvInput KvOutput

namespace KvModel

/-- `Partition`. The sub-histories come in the order in which the Go map is read. -/
def partition (history : List KvOperation) : List (List KvOperation) :=
  let m := history.foldl (Grouping.collect (fun v => v.input.key) id) ∅
  m.entries.map fun e => e.2

def init : String := ""

def step (state : String) (inp : KvInput) (out : KvOutput) : Bool × String :=
  if inp.op = 0 then (out.value = state, state)
  else if inp.op = 1 then (true, inp.value)
  else (true, state ++ inp.value)

/-- Get, put and append on a map from keys to strings. -/
def mapStep (σ : String → String) (inp : KvInput) (out : KvOutput) : Bool × (String → String) :=
  if inp.op = 0 then (out.value = σ inp.key, σ)
  else if inp.op = 1 then (true, Function.update σ inp.key inp.value)
  else (true, Function.update σ inp.key (σ inp.key ++ inp.value))

theorem mapStep_product :
    (fun (σ : String → String) (v : KvOperation) => mapStep σ v.input v.output) =
      Serial.productStep (fun v => v.input.key) fun s v => step s v.input v.output := by
  funext σ v
  by_cases hget : v.input.op = 0
  · simp [mapStep, Serial.productStep, step, hget]
  · by_cases hput : v.input.op = 1
    · simp [mapStep, Serial.productStep, step, hput]
    · simp [mapStep, Serial.productStep, step, hget, hput]

/-- The sub-histories are those of the keys that occur, each in the order of the history. -/
theorem mem_partition {history sub : List KvOperation} :
    sub ∈ partition history ↔ ∃ v ∈ history,
      sub = Serial.on (fun v : KvOperation => v.input.key) v.input.key history := by
  have hlookup := fun k =>
    Grouping.lookup_foldl_collect (fun v : KvOperation => v.input.key) id k history ∅
  have hmem := fun k =>
    Grouping.mem_foldl_collect (fun v : KvOperation => v.input.key) id k history ∅
  simp only [partition, List.mem_map]
  simp only [AList.lookup_empty, Option.getD_none, List.nil_append, Grouping.valuesOf,
    List.map_id, AList.notMem_empty, false_or, List.mem_map] at hlookup hmem
  constructor
  · rintro ⟨⟨k, l⟩, he, rfl⟩
    have hl := AList.mem_lookup_iff.mpr he
    obtain ⟨v, hv, rfl⟩ := (hmem k).mp (AList.lookup_isSome.mp (Option.isSome_of_mem hl))
    refine ⟨v, hv, ?_⟩
    have heq := hlookup v.input.key
    rwa [Option.mem_def.mp hl, Option.getD_some] at heq
  · rintro ⟨v, hv, rfl⟩
    obtain ⟨l, hl⟩ := Option.isSome_iff_exists.mp
      (AList.lookup_isSome.mpr ((hmem v.input.key).mpr ⟨v, hv, rfl⟩))
    refine ⟨⟨v.input.key, l⟩, AList.mem_lookup_iff.mp hl, ?_⟩
    have heq := hlookup v.input.key
    rwa [hl, Option.getD_some] at heq

/-- Orders of the parts merge. -/
theorem linearizable_of_parts {history : List KvOperation} (hlt : ∀ v ∈ history, v.call < v.ret)
    (h : ∀ sub ∈ partition history, Linearizable step init sub) :
    Linearizable mapStep (fun _ => "") history := by
  unfold Linearizable Operation.Before
  rw [mapStep_product, Serial.serializable_product hlt]
  intro k
  cases hk : Serial.on (fun v : KvOperation => v.input.key) k history with
  | nil => exact ⟨[], List.Perm.refl _, trivial, List.Pairwise.nil⟩
  | cons v sub =>
    have hv : v ∈ Serial.on (fun v : KvOperation => v.input.key) k history :=
      hk ▸ List.mem_cons_self
    obtain ⟨hmem, hkey⟩ := List.mem_filter.mp hv
    obtain rfl : v.input.key = k := by simpa using hkey
    exact h _ (mem_partition.mpr ⟨v, hmem, hk.symm⟩)

/-- An order of the whole restricts to its parts, whatever the precedence is. -/
theorem serializable_part {history : List KvOperation}
    {precedes : KvOperation → KvOperation → Prop}
    (h : Serial.Serializable (fun σ v => mapStep σ v.input v.output) precedes (fun _ => "")
      history) {sub : List KvOperation} (hsub : sub ∈ partition history) :
    Serial.Serializable (fun s v => step s v.input v.output) precedes init sub := by
  obtain ⟨v, -, rfl⟩ := mem_partition.mp hsub
  obtain ⟨order, hperm, hacc, hpw⟩ := h
  rw [mapStep_product] at hacc
  exact ⟨_, hperm.filter _, Serial.accepts_product.mp hacc v.input.key, hpw.filter _⟩

/-- Checking per key is exact: the whole history is linearizable as operations on a map from
keys to strings if and only if every sub-history is linearizable as operations on one key. -/
theorem partition_exact (history : List KvOperation) (h : ∀ v ∈ history, v.call < v.ret) :
    Linearizable mapStep (fun _ => "") history ↔
      ∀ sub ∈ partition history, Linearizable step init sub :=
  ⟨fun hlin _ hsub => serializable_part hlin hsub, linearizable_of_parts h⟩

/-- Two overlapping operations on one key and one on another. -/
def overlapping : List KvOperation :=
  [⟨⟨1, "x", "a"⟩, 0, ⟨""⟩, 5⟩, ⟨⟨0, "x", ""⟩, 1, ⟨"a"⟩, 4⟩, ⟨⟨2, "y", "b"⟩, 6, ⟨""⟩, 7⟩]

theorem partition_exact_overlapping :
    (∀ v ∈ overlapping, v.call < v.ret) ∧ (partition overlapping).length = 2 ∧
      (Linearizable mapStep (fun _ => "") overlapping ↔
        ∀ sub ∈ partition overlapping, Linearizable step init sub) :=
  ⟨by decide, by decide +kernel, partition_exact overlapping (by decide)⟩

end KvModel

end DistributionSystem.Checker
