import DistributionSystem.Lib.Grouping
import DistributionSystem.MapReduce.Files
import Mathlib.Data.String.Basic

/-! The map task, the reduce task and the merge of their outputs (`common_map.go`,
`common_reduce.go`, `master_splitmerge.go`), with what each of them does to the files. A
result `none` stands for `log.Fatal` and for a panic. -/

namespace DistributionSystem.MapReduce

structure KeyValue where
  key : String
  value : String
  deriving DecidableEq, Repr

/-- `encoding/json` on streams of `KeyValue`. `decodeAll` gives the values decoded before the
first error, and whether there was none up to the end of the text. -/
structure Json where
  encode : KeyValue → String
  decodeAll : String → List KeyValue × Bool
  decode_encode : ∀ kvs, decodeAll (String.join (kvs.map encode)) = (kvs, true)

/-- The 32-bit FNV-1a hash of `hash/fnv`. -/
def fnv32a (bytes : List UInt8) : UInt32 :=
  bytes.foldl (fun h b => (h ^^^ b.toUInt32) * 16777619) 2166136261

def ihash (s : String) : Nat := (fnv32a s.toUTF8.data.toList &&& 0x7fffffff).toNat

variable (json : Json) (jobName : String)

/-- The loop body of `doMap` over the pairs: `encoders[r]` panics past the last encoder. -/
def encodeTo (mapTask nReduce : Nat) (fs : FileSystem) (kv : KeyValue) : Option FileSystem :=
  let r := ihash kv.key % nReduce
  if r < nReduce then some (fs.append (reduceName jobName mapTask r) (json.encode kv)) else none

/-- The intermediate files are created before the input file is read. -/
def doMap (mapTask : Nat) (inFile : String) (nReduce : Nat)
    (mapF : String → String → List KeyValue) (fs : FileSystem) : Option FileSystem :=
  let fs := (List.range nReduce).foldl (fun fs i => fs.create (reduceName jobName mapTask i)) fs
  match fs inFile with
  | none => none
  | some contents => (mapF inFile contents).foldlM (encodeTo json jobName mapTask nReduce) fs

/-- The loop body of `doReduce` over the map tasks. -/
def readIntermediate (reduceTask : Nat) (fs : FileSystem) (kvs : AList fun _ : String => List String)
    (m : Nat) : Option (AList fun _ : String => List String) :=
  match fs (reduceName jobName m reduceTask) with
  | none => none
  | some text =>
    match json.decodeAll text with
    | (decoded, true) => some (decoded.foldl (Grouping.collect KeyValue.key KeyValue.value) kvs)
    | (_, false) => none

def doReduce (reduceTask : Nat) (outFile : String) (nMap : Nat)
    (reduceF : String → List String → String) (fs : FileSystem) : Option FileSystem := do
  let kvs ← (List.range nMap).foldlM (readIntermediate json jobName reduceTask fs) ∅
  let keys := kvs.keys.insertionSort (· ≤ ·)
  some (fs.writeAll outFile
    (keys.map fun k => json.encode ⟨k, reduceF k ((kvs.lookup k).getD [])⟩))

/-- The loop body of `merge` over the reduce tasks: any decoding error ends the file. -/
def readOutput (fs : FileSystem) (kvs : AList fun _ : String => String) (i : Nat) :
    Option (AList fun _ : String => String) :=
  match fs (mergeName jobName i) with
  | none => none
  | some text =>
    some ((json.decodeAll text).1.foldl (Grouping.put KeyValue.key KeyValue.value) kvs)

/-- The line `merge` prints for a key. -/
def line (k v : String) : String := k ++ ": " ++ v ++ "\n"

def merge (nReduce : Nat) (fs : FileSystem) : Option FileSystem := do
  let kvs ← (List.range nReduce).foldlM (readOutput json jobName fs) ∅
  let keys := kvs.keys.insertionSort (· ≤ ·)
  some (fs.writeAll (outputName jobName) (keys.map fun k => line k ((kvs.lookup k).getD "")))

inductive JobPhase
  | mapPhase
  | reducePhase
  deriving DecidableEq, Repr

/-- The arguments of a `Worker.DoTask` call (`common_rpc.go`). -/
structure DoTaskArgs where
  jobName : String
  file : String
  phase : JobPhase
  taskNumber : Nat
  numOtherPhase : Nat
  deriving DecidableEq, Repr

/-- The task a worker executes in `DoTask` (`worker.go`). -/
def doTask (mapF : String → String → List KeyValue) (reduceF : String → List String → String)
    (arg : DoTaskArgs) (fs : FileSystem) : Option FileSystem :=
  match arg.phase with
  | .mapPhase => doMap json arg.jobName arg.taskNumber arg.file arg.numOtherPhase mapF fs
  | .reducePhase =>
    doReduce json arg.jobName arg.taskNumber (mergeName arg.jobName arg.taskNumber)
      arg.numOtherPhase reduceF fs

/-! What a map task leaves in its files. -/

/-- The pairs whose key falls to reduce task `r`. -/
def bucket (nReduce r : Nat) (kvs : List KeyValue) : List KeyValue :=
  kvs.filter fun kv => ihash kv.key % nReduce = r

/-- The text of pairs encoded one after the other. -/
def Json.text (json : Json) (kvs : List KeyValue) : String := String.join (kvs.map json.encode)

/-- The values emitted for a key, in order. -/
abbrev values (k : String) (kvs : List KeyValue) : List String :=
  Grouping.valuesOf KeyValue.key KeyValue.value k kvs

theorem mem_keys_bucket {nReduce r : Nat} {kvs : List KeyValue} {k : String} :
    k ∈ (bucket nReduce r kvs).map KeyValue.key ↔
      k ∈ kvs.map KeyValue.key ∧ ihash k % nReduce = r := by
  simp only [bucket, List.mem_map, List.mem_filter, decide_eq_true_eq]
  constructor
  · rintro ⟨kv, ⟨hkv, hr⟩, rfl⟩
    exact ⟨⟨kv, hkv, rfl⟩, hr⟩
  · rintro ⟨⟨kv, hkv, rfl⟩, hr⟩
    exact ⟨kv, ⟨hkv, hr⟩, rfl⟩

/-- The bucket of a key holds all values of that key. -/
theorem values_bucket {nReduce r : Nat} {k : String} (h : ihash k % nReduce = r)
    (kvs : List KeyValue) : values k (bucket nReduce r kvs) = values k kvs := by
  apply Grouping.valuesOf_filter
  intro kv _ hkey
  simp [hkey, h]

theorem bucket_flatMap {α : Type} (nReduce r : Nat) (l : List α) (f : α → List KeyValue) :
    l.flatMap (fun a => bucket nReduce r (f a)) = bucket nReduce r (l.flatMap f) := by
  simp only [bucket, List.filter_flatMap]

variable {json jobName}

variable (json) in
/-- Each encoded pair goes to the end of the file of its bucket. -/
theorem encodeAll_rewrites {m nReduce : Nat} (hn : 1 ≤ nReduce) (kvs : List KeyValue)
    {fs : FileSystem} {text : Nat → String}
    (h : ∀ r < nReduce, fs (reduceName jobName m r) = some (text r)) :
    ∃ fs', kvs.foldlM (encodeTo json jobName m nReduce) fs = some fs' ∧
      FileSystem.Rewrites nReduce (reduceName jobName m)
        (fun r => text r ++ json.text (bucket nReduce r kvs)) fs fs' := by
  induction kvs generalizing fs text with
  | nil => exact ⟨fs, rfl, fun r hr => by simp [bucket, Json.text, h r hr], fun f _ => rfl⟩
  | cons kv kvs ih =>
    have hr₀ : ihash kv.key % nReduce < nReduce := Nat.mod_lt _ hn
    have hstep : encodeTo json jobName m nReduce fs kv =
        some (fs.append (reduceName jobName m (ihash kv.key % nReduce)) (json.encode kv)) := by
      simp only [encodeTo, if_pos hr₀]
    -- only the file of the pair's bucket has grown
    have htext : ∀ r < nReduce,
        (fs.append (reduceName jobName m (ihash kv.key % nReduce)) (json.encode kv))
          (reduceName jobName m r) =
        some (text r ++ json.text (bucket nReduce r [kv])) := by
      intro r hr
      by_cases heq : ihash kv.key % nReduce = r
      · subst heq
        rw [FileSystem.append_self (h _ hr)]
        simp [bucket, Json.text]
      · rw [FileSystem.append_of_ne (fun hname => heq (reduceName_inj hname).2.symm), h r hr]
        simp [bucket, Json.text, heq]
    obtain ⟨fs', hrun, hnew, hold⟩ := ih htext
    refine ⟨fs', ?_, fun r hr => ?_, fun f hf => ?_⟩
    · rw [List.foldlM_cons, hstep]
      exact hrun
    · rw [hnew r hr]
      by_cases heq : ihash kv.key % nReduce = r
      · simp [bucket, Json.text, heq, String.append_assoc]
      · simp [bucket, Json.text, heq]
    · rw [hold f hf, FileSystem.append_of_ne (hf _ hr₀)]

variable (json) in
/-- A map task that finds its input rewrites its own intermediate files and nothing else. -/
theorem doMap_rewrites (mapF : String → String → List KeyValue) {m nReduce : Nat}
    {inFile contents : String} {fs : FileSystem} (hn : 1 ≤ nReduce)
    (hne : ∀ r < nReduce, inFile ≠ reduceName jobName m r) (hin : fs inFile = some contents) :
    ∃ fs', doMap json jobName m inFile nReduce mapF fs = some fs' ∧
      FileSystem.Rewrites nReduce (reduceName jobName m)
        (fun r => json.text (bucket nReduce r (mapF inFile contents))) fs fs' := by
  obtain ⟨hempty, hkept⟩ := FileSystem.rewrites_create nReduce (reduceName jobName m) fs
  have hread := (hkept inFile hne).trans hin
  obtain ⟨fs', hrun, hnew, hold⟩ := encodeAll_rewrites json hn (mapF inFile contents) hempty
  refine ⟨fs', ?_, fun r hr => ?_, fun f hf => ?_⟩
  · simp only [doMap, hread]
    exact hrun
  · simp [hnew r hr]
  · rw [hold f hf, hkept f hf]

/-! What a reduce task and the merge compute. -/

/-- The pairs a reduce task writes for the pairs `kvs` of its bucket. -/
def reduceAll (reduceF : String → List String → String) (kvs : List KeyValue) : List KeyValue :=
  ((kvs.foldl (Grouping.collect KeyValue.key KeyValue.value) ∅).keys.insertionSort (· ≤ ·)).map
    fun k => ⟨k, reduceF k (values k kvs)⟩

theorem mem_reduceAll {reduceF : String → List String → String} {kvs : List KeyValue}
    {kv : KeyValue} : kv ∈ reduceAll reduceF kvs ↔ kv.key ∈ kvs.map KeyValue.key ∧
      kv.value = reduceF kv.key (values kv.key kvs) := by
  simp only [reduceAll, List.mem_map, List.mem_insertionSort, ← AList.mem_keys,
    Grouping.mem_foldl_collect, AList.notMem_empty, false_or]
  constructor
  · rintro ⟨k, hk, rfl⟩
    exact ⟨hk, rfl⟩
  · rintro ⟨hk, hv⟩
    exact ⟨kv.key, hk, by rw [← hv]⟩

theorem mem_keys_reduceAll {reduceF : String → List String → String} {kvs : List KeyValue}
    {k : String} : k ∈ (reduceAll reduceF kvs).map KeyValue.key ↔ k ∈ kvs.map KeyValue.key := by
  rw [List.mem_map]
  constructor
  · rintro ⟨kv, hkv, rfl⟩
    exact (mem_reduceAll.mp hkv).1
  · intro hk
    exact ⟨⟨k, reduceF k (values k kvs)⟩, mem_reduceAll.mpr ⟨hk, rfl⟩, rfl⟩

theorem readIntermediate_all {r : Nat} {fs : FileSystem} {emitted : Nat → List KeyValue}
    (ms : List Nat) (h : ∀ m ∈ ms, fs (reduceName jobName m r) = some (json.text (emitted m)))
    (kvs : AList fun _ : String => List String) :
    ms.foldlM (readIntermediate json jobName r fs) kvs =
      some ((ms.flatMap emitted).foldl (Grouping.collect KeyValue.key KeyValue.value) kvs) := by
  induction ms generalizing kvs with
  | nil => rfl
  | cons m ms ih =>
    have hm := h m List.mem_cons_self
    rw [List.foldlM_cons, List.flatMap_cons, List.foldl_append]
    simp only [readIntermediate, hm, Json.text, json.decode_encode]
    exact ih (fun i hi => h i (List.mem_cons_of_mem _ hi)) _

/-- A reduce task that finds its intermediate files writes one pair for each key of theirs. -/
theorem doReduce_eq (outFile : String) (reduceF : String → List String → String) {r nMap : Nat}
    {fs : FileSystem} {emitted : Nat → List KeyValue}
    (h : ∀ m < nMap, fs (reduceName jobName m r) = some (json.text (emitted m))) :
    doReduce json jobName r outFile nMap reduceF fs = some (Function.update fs outFile
      (some (json.text (reduceAll reduceF ((List.range nMap).flatMap emitted))))) := by
  have hread := readIntermediate_all (List.range nMap) (fun m hm => h m (List.mem_range.mp hm)) ∅
  simp only [doReduce, hread, Option.bind_eq_bind, Option.bind_some, FileSystem.writeAll_eq,
    Grouping.lookup_foldl_collect, AList.lookup_empty, Option.getD_none, List.nil_append,
    Json.text, reduceAll, List.map_map, Function.comp_def]

theorem readOutput_all {fs : FileSystem} {out : Nat → List KeyValue} (rs : List Nat)
    (h : ∀ r ∈ rs, fs (mergeName jobName r) = some (json.text (out r)))
    (kvs : AList fun _ : String => String) :
    rs.foldlM (readOutput json jobName fs) kvs =
      some ((rs.flatMap out).foldl (Grouping.put KeyValue.key KeyValue.value) kvs) := by
  induction rs generalizing kvs with
  | nil => rfl
  | cons r rs ih =>
    have hr := h r List.mem_cons_self
    rw [List.foldlM_cons, List.flatMap_cons, List.foldl_append]
    simp only [readOutput, hr, Json.text, json.decode_encode]
    exact ih (fun i hi => h i (List.mem_cons_of_mem _ hi)) _

/-- Where the output files agree on the value `value k` of each key `k`, the merge prints the
keys in ascending order with these values. -/
theorem merge_eq {nReduce : Nat} {fs : FileSystem} {out : Nat → List KeyValue}
    (h : ∀ r < nReduce, fs (mergeName jobName r) = some (json.text (out r)))
    (value : String → String) (hval : ∀ r < nReduce, ∀ kv ∈ out r, kv.value = value kv.key) :
    ∃ keys : List String, keys.Pairwise (· < ·) ∧
      (∀ k, k ∈ keys ↔ ∃ r < nReduce, k ∈ (out r).map KeyValue.key) ∧
      merge json jobName nReduce fs = some (Function.update fs (outputName jobName)
        (some (String.join (keys.map fun k => line k (value k))))) := by
  have hread := readOutput_all (List.range nReduce) (fun r hr => h r (List.mem_range.mp hr)) ∅
  have hmem : ∀ k, k ∈ ((List.range nReduce).flatMap out).map KeyValue.key ↔
      ∃ r < nReduce, k ∈ (out r).map KeyValue.key := by
    intro k
    simp only [List.mem_map, List.mem_flatMap, List.mem_range]
    constructor
    · rintro ⟨kv, ⟨r, hr, hkv⟩, rfl⟩
      exact ⟨r, hr, kv, hkv, rfl⟩
    · rintro ⟨r, hr, kv, hkv, rfl⟩
      exact ⟨kv, ⟨r, hr, hkv⟩, rfl⟩
  set kvs := ((List.range nReduce).flatMap out).foldl
    (Grouping.put KeyValue.key KeyValue.value) ∅ with hkvs
  have hkeys : ∀ k, k ∈ kvs.keys.insertionSort (· ≤ ·) ↔
      k ∈ ((List.range nReduce).flatMap out).map KeyValue.key := by
    intro k
    rw [List.mem_insertionSort, ← AList.mem_keys, hkvs, Grouping.mem_foldl_put]
    simp only [AList.notMem_empty, false_or]
  refine ⟨kvs.keys.insertionSort (· ≤ ·), Grouping.ascending_insertionSort kvs.keys_nodup,
    fun k => (hkeys k).trans (hmem k), ?_⟩
  have hlines : ((kvs.keys.insertionSort (· ≤ ·)).map fun k => line k ((kvs.lookup k).getD "")) =
      (kvs.keys.insertionSort (· ≤ ·)).map fun k => line k (value k) := by
    apply List.map_congr_left
    intro k hk
    have hone : ∀ kv ∈ (List.range nReduce).flatMap out, kv.key = k → kv.value = value k := by
      intro kv hkv hkey
      obtain ⟨r, hr, hkv⟩ := List.mem_flatMap.mp hkv
      rw [hval r (List.mem_range.mp hr) kv hkv, hkey]
    rw [hkvs, Grouping.lookup_foldl_put _ _ hone (Or.inl ((hkeys k).mp hk)), Option.getD_some]
  simp only [merge, hread, Option.bind_eq_bind, Option.bind_some, FileSystem.writeAll_eq, hlines]

/-! The files that each task of a job writes. -/

inductive JobTask
  | map (mapTask : Nat)
  | reduce (reduceTask : Nat)
  | merge
  deriving DecidableEq, Repr

/-- The files of a task: a map task has one for each reduce task. -/
def JobTask.Owns (jobName : String) : JobTask → String → Prop
  | .map m, f => ∃ r, f = reduceName jobName m r
  | .reduce r, f => f = mergeName jobName r
  | .merge, f => f = outputName jobName

/-- The execution of a task of the job whose map task `m` reads the file `inFile m`. -/
def JobTask.run (json : Json) (jobName : String) (inFile : Nat → String) (nMap nReduce : Nat)
    (mapF : String → String → List KeyValue) (reduceF : String → List String → String)
    (fs : FileSystem) : JobTask → Option FileSystem
  | .map m => doMap json jobName m (inFile m) nReduce mapF fs
  | .reduce r => doReduce json jobName r (mergeName jobName r) nMap reduceF fs
  | .merge => MapReduce.merge json jobName nReduce fs

/-- No file belongs to two tasks. -/
theorem JobTask.Owns.unique {t t' : JobTask} {f : String} (h : t.Owns jobName f)
    (h' : t'.Owns jobName f) : t = t' := by
  cases t with
  | map m =>
    obtain ⟨r, rfl⟩ := h
    cases t' with
    | map m' =>
      obtain ⟨r', heq⟩ := h'
      rw [(reduceName_inj heq).1]
    | reduce r' => exact absurd h' (reduceName_ne_mergeName jobName m r r')
    | merge => exact absurd h'.symm (outputName_ne_reduceName jobName m r)
  | reduce r =>
    cases t' with
    | map m' =>
      obtain ⟨r', heq⟩ := h'
      exact absurd (heq.symm.trans h) (reduceName_ne_mergeName jobName m' r' r)
    | reduce r' => rw [mergeName_inj (h.symm.trans h')]
    | merge => exact absurd (h'.symm.trans h) (outputName_ne_mergeName jobName r)
  | merge =>
    cases t' with
    | map m' =>
      obtain ⟨r', heq⟩ := h'
      exact absurd (h.symm.trans heq) (outputName_ne_reduceName jobName m' r')
    | reduce r' => exact absurd (h.symm.trans h') (outputName_ne_mergeName jobName r')
    | merge => rfl

/-- Encoding pairs leaves the files of other tasks as they are. -/
theorem encodeAll_keeps {m nReduce : Nat} {kvs : List KeyValue} {fs fs' : FileSystem} {f : String}
    (h : kvs.foldlM (encodeTo json jobName m nReduce) fs = some fs')
    (hf : ∀ r, f ≠ reduceName jobName m r) : fs' f = fs f := by
  induction kvs generalizing fs with
  | nil => rw [Option.some.inj h]
  | cons kv kvs ih =>
    rw [List.foldlM_cons] at h
    obtain ⟨fs₁, hstep, hrest⟩ := Option.bind_eq_some_iff.mp h
    simp only [encodeTo] at hstep
    split at hstep
    · rw [ih hrest, ← Option.some.inj hstep, FileSystem.append_of_ne (hf _)]
    · exact absurd hstep (by simp)

/-- A task writes no file but its own. -/
theorem JobTask.run_keeps {t : JobTask} {inFile : Nat → String} {nMap nReduce : Nat}
    {mapF : String → String → List KeyValue} {reduceF : String → List String → String}
    {fs fs' : FileSystem} (h : t.run json jobName inFile nMap nReduce mapF reduceF fs = some fs')
    {f : String} (hf : ¬ t.Owns jobName f) : fs' f = fs f := by
  cases t with
  | map m =>
    have hne : ∀ r, f ≠ reduceName jobName m r := fun r heq => hf ⟨r, heq⟩
    have hcreated := (FileSystem.rewrites_create nReduce (reduceName jobName m) fs).2 f
      fun r _ => hne r
    simp only [JobTask.run, doMap] at h
    split at h
    · exact absurd h (by simp)
    · exact (encodeAll_keeps h hne).trans hcreated
  | reduce r =>
    obtain ⟨kvs, -, hw⟩ := Option.bind_eq_some_iff.mp h
    rw [← Option.some.inj hw, FileSystem.writeAll_eq]
    exact Function.update_of_ne hf ..
  | merge =>
    obtain ⟨kvs, -, hw⟩ := Option.bind_eq_some_iff.mp h
    rw [← Option.some.inj hw, FileSystem.writeAll_eq]
    exact Function.update_of_ne hf ..

/-- The names of the files of a job never clash, and so no task of the job overwrites a file of
another one. -/
theorem job_files_apart (jobName : String) :
    (∀ m r m' r', reduceName jobName m r = reduceName jobName m' r' → m = m' ∧ r = r') ∧
      (∀ r r', mergeName jobName r = mergeName jobName r' → r = r') ∧
      (∀ m r r', reduceName jobName m r ≠ mergeName jobName r') ∧
      (∀ m r, reduceName jobName m r ≠ outputName jobName) ∧
      (∀ r, mergeName jobName r ≠ outputName jobName) ∧
      ∀ (json : Json) (inFile : Nat → String) (nMap nReduce : Nat)
        (mapF : String → String → List KeyValue) (reduceF : String → List String → String)
        (fs fs' : FileSystem) (t t' : JobTask), t ≠ t' →
        t.run json jobName inFile nMap nReduce mapF reduceF fs = some fs' →
        ∀ f, t'.Owns jobName f → fs' f = fs f := by
  refine ⟨fun _ _ _ _ => reduceName_inj, fun _ _ => mergeName_inj, reduceName_ne_mergeName jobName,
    fun m r => (outputName_ne_reduceName jobName m r).symm,
    fun r => (outputName_ne_mergeName jobName r).symm, ?_⟩
  intro json inFile nMap nReduce mapF reduceF fs fs' t t' hne hrun f hf
  exact JobTask.run_keeps hrun fun hown => hne (hown.unique hf)

end DistributionSystem.MapReduce
