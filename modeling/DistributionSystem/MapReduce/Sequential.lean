import DistributionSystem.MapReduce.Codec

/-! A whole job run one task after the other (`Sequential` in `master.go`). The invariant
`Written` says what the files are once some of the tasks have been executed, if a map task may
emit one of several lists of pairs; every task keeps it. With a map function there is one list,
which is the invariant `Executed`, and the merged output follows from it. -/

namespace DistributionSystem.MapReduce

/-- The job of a master: its name, input files and number of reduce tasks, with the
functions of the user. -/
structure Job where
  jobName : String
  files : List String
  nReduce : Nat
  mapF : String → String → List KeyValue
  reduceF : String → List String → String

variable (json : Json) (job : Job)

/-- The map task number `i` on the file `f`. -/
def Job.map (f : String) (i : Nat) (fs : FileSystem) : Option FileSystem :=
  doMap json job.jobName i f job.nReduce job.mapF fs

/-- The reduce task number `i`. -/
def Job.reduce (i : Nat) (fs : FileSystem) : Option FileSystem :=
  doReduce json job.jobName i (mergeName job.jobName i) job.files.length job.reduceF fs

/-- `Sequential` through `run`: the map phase, the reduce phase and the merge. -/
def sequential (fs : FileSystem) : Option FileSystem := do
  let fs ← job.files.zipIdx.foldlM (fun fs (f, i) => job.map json f i fs) fs
  let fs ← (List.range job.nReduce).foldlM (fun fs i => job.reduce json i fs) fs
  merge json job.jobName job.nReduce fs

/-- All pairs the map calls emit, in the order of the files. -/
def Job.emitted (contents : String → String) : List KeyValue :=
  job.files.flatMap fun f => job.mapF f (contents f)

/-- The pairs emitted by the map task number `m`. -/
def Job.emittedBy (contents : String → String) (m : Nat) : List KeyValue :=
  (job.files[m]?.map fun f => job.mapF f (contents f)).getD []

variable {job} in
theorem Job.flatMap_emittedBy (contents : String → String) :
    (List.range job.files.length).flatMap (job.emittedBy contents) = job.emitted contents := by
  have hmap : (List.range job.files.length).map (job.emittedBy contents) =
      job.files.map fun f => job.mapF f (contents f) := by
    apply List.ext_getElem
    · simp
    · intro i h₁ h₂
      have hi : i < job.files.length := by simpa using h₂
      simp [Job.emittedBy, List.getElem?_eq_getElem hi]
  rw [List.flatMap_def, hmap, Job.emitted, List.flatMap_def]

variable {json job} in
/-- What the merge prints when each reduce task has reduced its part of the pairs `kvs`. -/
theorem merge_reduced {kvs : List KeyValue} {fs : FileSystem} (hn : 1 ≤ job.nReduce)
    (h : ∀ r < job.nReduce, fs (mergeName job.jobName r) =
      some (json.text (reduceAll job.reduceF (bucket job.nReduce r kvs))))
    {keys : List String} (hasc : keys.Pairwise (· < ·))
    (hkeys : ∀ k, k ∈ keys ↔ k ∈ kvs.map KeyValue.key) :
    merge json job.jobName job.nReduce fs = some (Function.update fs (outputName job.jobName)
      (some (String.join (keys.map fun k => line k (job.reduceF k (values k kvs)))))) := by
  have hval : ∀ r < job.nReduce, ∀ kv ∈ reduceAll job.reduceF (bucket job.nReduce r kvs),
      kv.value = job.reduceF kv.key (values kv.key kvs) := by
    intro r _ kv hkv
    obtain ⟨hmem, hval⟩ := mem_reduceAll.mp hkv
    rw [hval, values_bucket (mem_keys_bucket.mp hmem).2]
  obtain ⟨keys', hasc', hkeys', hmerge⟩ :=
    merge_eq h (fun k => job.reduceF k (values k kvs)) hval
  have heq : keys = keys' := by
    apply List.Pairwise.eq_of_mem_iff hasc hasc'
    intro k
    simp only [hkeys, hkeys', mem_keys_reduceAll, mem_keys_bucket]
    constructor
    · exact fun hk => ⟨ihash k % job.nReduce, Nat.mod_lt _ hn, hk, rfl⟩
    · exact fun ⟨_, _, hk, _⟩ => hk
  rw [heq]
  exact hmerge

/-- `fs` is `fs₀` but for the files of the map tasks in `M`, which hold pairs that the task may
have emitted, and of the reduce tasks in `R`, which hold their outcome. -/
structure Written (emits : Nat → List KeyValue → Prop) (outcome : Nat → List KeyValue)
    (fs₀ : FileSystem) (M R : Nat → Prop) (fs : FileSystem) : Prop where
  maps : ∀ m < job.files.length, M m → ∃ kvs, emits m kvs ∧ ∀ r < job.nReduce,
    fs (reduceName job.jobName m r) = some (json.text (bucket job.nReduce r kvs))
  reduces : ∀ r < job.nReduce, R r → fs (mergeName job.jobName r) = some (json.text (outcome r))
  rest : ∀ f, (∀ m < job.files.length, M m → ∀ r < job.nReduce, f ≠ reduceName job.jobName m r) →
    (∀ r < job.nReduce, R r → f ≠ mergeName job.jobName r) → fs f = fs₀ f

/-- Whatever the map tasks emit, the reduce tasks have the same outcome. -/
def Job.Settles (emits : Nat → List KeyValue → Prop) (outcome : Nat → List KeyValue) : Prop :=
  ∀ kvs : Nat → List KeyValue, (∀ m < job.files.length, emits m (kvs m)) → ∀ r < job.nReduce,
    reduceAll job.reduceF (bucket job.nReduce r ((List.range job.files.length).flatMap kvs)) =
      outcome r

namespace Written

variable {json job} {emits : Nat → List KeyValue → Prop} {outcome : Nat → List KeyValue}
  {fs₀ fs : FileSystem} {M R : Nat → Prop}

theorem start : Written json job emits outcome fs₀ (fun _ => False) (fun _ => False) fs₀ :=
  ⟨fun _ _ h => h.elim, fun _ _ h => h.elim, fun _ _ _ => rfl⟩

theorem congr (h : Written json job emits outcome fs₀ M R fs) {M' R' : Nat → Prop}
    (hM : ∀ m < job.files.length, M m ↔ M' m) (hR : ∀ r < job.nReduce, R r ↔ R' r) :
    Written json job emits outcome fs₀ M' R' fs := by
  refine ⟨fun m hm hdone => h.maps m hm ((hM m hm).mpr hdone),
    fun r hr hdone => h.reduces r hr ((hR r hr).mpr hdone),
    fun f hmap hred => h.rest f (fun m hm hdone => hmap m hm ((hM m hm).mp hdone))
      (fun r hr hdone => hred r hr ((hR r hr).mp hdone))⟩

/-- A map task that finds its input. -/
theorem map_step (h : Written json job emits outcome fs₀ M R fs) (hn : 1 ≤ job.nReduce) {m : Nat}
    (hm : m < job.files.length) {f contents : String} (hin : fs f = some contents)
    (hne : ∀ r < job.nReduce, f ≠ reduceName job.jobName m r)
    (mapF : String → String → List KeyValue) (hemits : emits m (mapF f contents)) :
    ∃ fs', doMap json job.jobName m f job.nReduce mapF fs = some fs' ∧
      Written json job emits outcome fs₀ (fun i => M i ∨ i = m) R fs' := by
  obtain ⟨fs', hrun, hnew, hold⟩ := doMap_rewrites json mapF hn hne hin
  refine ⟨fs', hrun, fun i hi hdone => ?_, fun r hr hdone => ?_, fun name hmap hred => ?_⟩
  · by_cases him : i = m
    · subst him
      exact ⟨_, hemits, hnew⟩
    · obtain ⟨kvs, hkvs, hfound⟩ := h.maps i hi (hdone.resolve_right him)
      refine ⟨kvs, hkvs, fun r hr => ?_⟩
      rw [hold _ fun r' _ heq => him (reduceName_inj heq).1]
      exact hfound r hr
  · rw [hold _ fun r' _ heq => reduceName_ne_mergeName _ _ _ _ heq.symm]
    exact h.reduces r hr hdone
  · rw [hold name (hmap m hm (Or.inr rfl))]
    exact h.rest name (fun i hi hdone => hmap i hi (Or.inl hdone)) hred

/-- A reduce task after all map tasks. -/
theorem reduce_step (h : Written json job emits outcome fs₀ M R fs)
    (hout : job.Settles emits outcome) (hM : ∀ m < job.files.length, M m) {r : Nat}
    (hr : r < job.nReduce) :
    ∃ fs', job.reduce json r fs = some fs' ∧
      Written json job emits outcome fs₀ M (fun i => R i ∨ i = r) fs' := by
  have hall : ∀ m, ∃ kvs, m < job.files.length → emits m kvs ∧ ∀ r < job.nReduce,
      fs (reduceName job.jobName m r) = some (json.text (bucket job.nReduce r kvs)) := by
    intro m
    by_cases hm : m < job.files.length
    · obtain ⟨kvs, hkvs⟩ := h.maps m hm (hM m hm)
      exact ⟨kvs, fun _ => hkvs⟩
    · exact ⟨[], fun hlt => absurd hlt hm⟩
  choose kvs hkvs using hall
  have hrun := doReduce_eq (mergeName job.jobName r) job.reduceF
    fun m hm => (hkvs m hm).2 r hr
  rw [bucket_flatMap, hout kvs (fun m hm => (hkvs m hm).1) r hr] at hrun
  refine ⟨_, hrun, fun m hm hdone => ?_, fun i hi hdone => ?_, fun name hmap hred => ?_⟩
  · obtain ⟨kvs, hkvs, hfound⟩ := h.maps m hm hdone
    refine ⟨kvs, hkvs, fun r' hr' => ?_⟩
    rw [Function.update_of_ne (reduceName_ne_mergeName _ _ _ _)]
    exact hfound r' hr'
  · by_cases hir : i = r
    · subst hir
      exact Function.update_self ..
    · rw [Function.update_of_ne fun heq => hir (mergeName_inj heq)]
      exact h.reduces i hi (hdone.resolve_right hir)
  · rw [Function.update_of_ne (hred r hr (Or.inr rfl))]
    exact h.rest name hmap fun i hi hdone => hred i hi (Or.inl hdone)

/-- The reduce tasks of a list, after all map tasks. -/
theorem reduce_run (h : Written json job emits outcome fs₀ M R fs)
    (hout : job.Settles emits outcome) (hM : ∀ m < job.files.length, M m) (rs : List Nat)
    (hrs : ∀ r ∈ rs, r < job.nReduce) :
    ∃ fs', rs.foldlM (fun fs i => job.reduce json i fs) fs = some fs' ∧
      Written json job emits outcome fs₀ M (fun i => R i ∨ i ∈ rs) fs' := by
  induction rs generalizing fs R with
  | nil => exact ⟨fs, rfl, h.congr (fun _ _ => Iff.rfl) (fun _ _ => by simp)⟩
  | cons r rs ih =>
    obtain ⟨fs₁, hstep, h₁⟩ := h.reduce_step hout hM (hrs r List.mem_cons_self)
    obtain ⟨fs₂, hrun, h₂⟩ := ih h₁ fun i hi => hrs i (List.mem_cons_of_mem _ hi)
    refine ⟨fs₂, ?_, h₂.congr (fun _ _ => Iff.rfl) fun i _ => ?_⟩
    · rw [List.foldlM_cons, hstep]
      exact hrun
    · rw [List.mem_cons, or_assoc]

end Written

/-- The files when each map task emits what `mapF` gives on its input. -/
abbrev Executed (contents : String → String) (fs₀ : FileSystem) (M R : Nat → Prop)
    (fs : FileSystem) : Prop :=
  Written json job (fun m kvs => kvs = job.emittedBy contents m)
    (fun r => reduceAll job.reduceF (bucket job.nReduce r (job.emitted contents))) fs₀ M R fs

namespace Executed

variable {json job} {contents : String → String} {fs₀ fs : FileSystem} {M R : Nat → Prop}

theorem settles : job.Settles (fun m kvs => kvs = job.emittedBy contents m)
    (fun r => reduceAll job.reduceF (bucket job.nReduce r (job.emitted contents))) := by
  intro kvs hkvs r _
  have heq : (List.range job.files.length).flatMap kvs =
      (List.range job.files.length).flatMap (job.emittedBy contents) := by
    simp only [List.flatMap_def]
    congr 1
    apply List.map_congr_left
    intro m hm
    exact hkvs m (List.mem_range.mp hm)
  rw [heq, Job.flatMap_emittedBy]

/-- The files are determined by the tasks that have been executed. -/
theorem unique {fs' : FileSystem} (h : Executed json job contents fs₀ M R fs)
    (h' : Executed json job contents fs₀ M R fs') : fs = fs' := by
  funext name
  by_cases hmap : ∃ m < job.files.length, M m ∧
      ∃ r < job.nReduce, name = reduceName job.jobName m r
  · obtain ⟨m, hlt, hm, r, hr, rfl⟩ := hmap
    obtain ⟨kvs, rfl, hfound⟩ := h.maps m hlt hm
    obtain ⟨kvs', rfl, hfound'⟩ := h'.maps m hlt hm
    rw [hfound r hr, hfound' r hr]
  by_cases hred : ∃ r < job.nReduce, R r ∧ name = mergeName job.jobName r
  · obtain ⟨r, hr, hdone, rfl⟩ := hred
    rw [h.reduces r hr hdone, h'.reduces r hr hdone]
  have hm' : ∀ m < job.files.length, M m → ∀ r < job.nReduce, name ≠ reduceName job.jobName m r :=
    fun m hlt hm r hr heq => hmap ⟨m, hlt, hm, r, hr, heq⟩
  have hr' : ∀ r < job.nReduce, R r → name ≠ mergeName job.jobName r :=
    fun r hr hdone heq => hred ⟨r, hr, hdone, heq⟩
  rw [h.rest name hm' hr', h'.rest name hm' hr']

/-- No map task reads a file that it, or a map task before it, has written. -/
def ReadsInputs (job : Job) : Prop :=
  ∀ i f, job.files[i]? = some f → ∀ m ≤ i, ∀ r < job.nReduce, f ≠ reduceName job.jobName m r

variable (json) in
/-- The map phase of `Sequential`, up to any of its tasks. -/
theorem map_run (hn : 1 ≤ job.nReduce) (hne : ReadsInputs job)
    (hin : ∀ f ∈ job.files, fs₀ f = some (contents f)) (k : Nat) :
    ∃ fs, (job.files.zipIdx.take k).foldlM (fun fs (f, i) => job.map json f i fs) fs₀ = some fs ∧
      Executed json job contents fs₀ (· < k) (fun _ => False) fs := by
  induction k with
  | zero =>
    exact ⟨fs₀, rfl, Written.start.congr (fun m _ => by simp) (fun _ _ => Iff.rfl)⟩
  | succ k ih =>
    obtain ⟨fs, hrun, h⟩ := ih
    cases hf : job.files[k]? with
    | none =>
      have hlen := List.getElem?_eq_none_iff.mp hf
      have htake : job.files.zipIdx.take (k + 1) = job.files.zipIdx.take k := by
        rw [List.take_of_length_le (by simp; omega), List.take_of_length_le (by simpa using hlen)]
      exact ⟨fs, htake ▸ hrun, h.congr (fun m hm => by omega) (fun _ _ => Iff.rfl)⟩
    | some f =>
      have htake : job.files.zipIdx.take (k + 1) = job.files.zipIdx.take k ++ [(f, k)] := by
        rw [List.take_add_one, List.getElem?_zipIdx, hf]
        simp
      have hfin : fs f = some (contents f) := by
        rw [h.rest f (fun m _ hm r hr => hne k f hf m (by omega) r hr) (fun _ _ h => h.elim)]
        exact hin f (List.mem_of_getElem? hf)
      have hemits : job.mapF f (contents f) = job.emittedBy contents k := by
        simp only [Job.emittedBy, hf, Option.map_some, Option.getD_some]
      obtain ⟨hk, -⟩ := List.getElem?_eq_some_iff.mp hf
      obtain ⟨fs', hstep, h'⟩ :=
        h.map_step hn hk hfin (hne k f hf k (Nat.le_refl k)) job.mapF hemits
      have hstep : job.map json f k fs = some fs' := hstep
      refine ⟨fs', ?_, h'.congr (fun m _ => by omega) (fun _ _ => Iff.rfl)⟩
      rw [htake, List.foldlM_append, hrun]
      simp [hstep]

/-- What the merge prints once all tasks have been executed. -/
theorem merge_output (h : Executed json job contents fs₀ M R fs) (hn : 1 ≤ job.nReduce)
    (hR : ∀ r < job.nReduce, R r) {keys : List String} (hasc : keys.Pairwise (· < ·))
    (hkeys : ∀ k, k ∈ keys ↔ k ∈ (job.emitted contents).map KeyValue.key) :
    merge json job.jobName job.nReduce fs = some (Function.update fs (outputName job.jobName)
      (some (String.join (keys.map fun k =>
        line k (job.reduceF k (values k (job.emitted contents))))))) :=
  merge_reduced hn (fun r hr => h.reduces r hr (hR r hr)) hasc hkeys

variable (json job) in
/-- `Sequential` executes every task and then merges. -/
theorem of_sequential (hn : 1 ≤ job.nReduce) (hne : ReadsInputs job)
    (hin : ∀ f ∈ job.files, fs₀ f = some (contents f)) :
    ∃ fs, Executed json job contents fs₀ (fun _ => True) (fun _ => True) fs ∧
      sequential json job fs₀ = merge json job.jobName job.nReduce fs := by
  obtain ⟨fs₁, hmap, h₁⟩ := map_run json hn hne hin job.files.length
  rw [List.take_of_length_le (by simp)] at hmap
  obtain ⟨fs₂, hreduce, h₂⟩ := h₁.reduce_run settles (fun m hm => hm)
    (List.range job.nReduce) (fun r hr => List.mem_range.mp hr)
  refine ⟨fs₂, h₂.congr (fun m hm => by simp [hm]) (fun r hr => by simp [hr]), ?_⟩
  simp only [sequential, hmap, hreduce, Option.bind_eq_bind, Option.bind_some]

end Executed

/-- The merged output has one line for each key that some map call emits, in ascending order,
with the value of `reduceF` on all values emitted for the key in file and emission order,
whatever the number of reduce tasks, if no map task reads an intermediate file that it or an
earlier one has written. -/
theorem sequential_output (json : Json) (jobName : String) (files : List String)
    (contents : String → String) (mapF : String → String → List KeyValue)
    (reduceF : String → List String → String) :
    ∃ keys : List String, keys.Pairwise (· < ·) ∧
      (∀ k, k ∈ keys ↔ ∃ f ∈ files, ∃ kv ∈ mapF f (contents f), kv.key = k) ∧
      ∀ (nReduce : Nat) (fs : FileSystem), 1 ≤ nReduce →
        (∀ f ∈ files, fs f = some (contents f)) →
        (∀ i f, files[i]? = some f → ∀ m ≤ i, ∀ r < nReduce, f ≠ reduceName jobName m r) →
        ∃ fs', sequential json ⟨jobName, files, nReduce, mapF, reduceF⟩ fs = some fs' ∧
          fs' (outputName jobName) = some (String.join (keys.map fun k =>
            line k (reduceF k (values k (files.flatMap fun f => mapF f (contents f)))))) := by
  obtain ⟨keys, hasc, hkeys⟩ := Grouping.exists_ascending
    ((files.flatMap fun f => mapF f (contents f)).map KeyValue.key)
  refine ⟨keys, hasc, fun k => ?_, ?_⟩
  · rw [hkeys, List.map_flatMap, List.mem_flatMap]
    simp only [List.mem_map]
  · intro nReduce fs hn hin hne
    obtain ⟨fs₁, h₁, hseq⟩ := Executed.of_sequential json
      ⟨jobName, files, nReduce, mapF, reduceF⟩ hn hne hin
    have hout := h₁.merge_output hn (fun _ _ => trivial) hasc hkeys
    exact ⟨_, hseq.trans hout, Function.update_self ..⟩

/-- A map function that emits each letter of a file once for each time it occurs. -/
def letters (_ contents : String) : List KeyValue :=
  contents.toList.map fun c => ⟨String.singleton c, "1"⟩

/-- A reduce function that counts the values. -/
def count (_ : String) (vs : List String) : String := Nat.repr vs.length

/-- The file system that holds the files `names`, each with the letters `text`. -/
def holding (names : List String) (text : String) : FileSystem :=
  fun f => if names.contains f then some text else none

theorem sequential_output_letters :
    ∃ keys : List String, keys.Pairwise (· < ·) ∧
      (∀ k, k ∈ keys ↔ ∃ f ∈ ["x", "y"], ∃ kv ∈ letters f "ab", kv.key = k) ∧
      ∃ fs', sequential Json.ofQuotes ⟨"wc", ["x", "y"], 2, letters, count⟩
          (holding ["x", "y"] "ab") = some fs' ∧
        fs' (outputName "wc") = some (String.join (keys.map fun k =>
          line k (count k (values k (["x", "y"].flatMap fun f => letters f "ab"))))) ∧
        fs' (outputName "wc") = some "a: 2\nb: 2\n" := by
  have heval : (sequential Json.ofQuotes ⟨"wc", ["x", "y"], 2, letters, count⟩
      (holding ["x", "y"] "ab")).bind (· (outputName "wc")) = some "a: 2\nb: 2\n" := by
    decide +kernel
  obtain ⟨keys, hasc, hmem, h⟩ :=
    sequential_output Json.ofQuotes "wc" ["x", "y"] (fun _ => "ab") letters count
  have hshort : ∀ f ∈ ["x", "y"], f.toList.length ≤ (outputName "wc").toList.length := by
    decide +kernel
  obtain ⟨fs', hrun, hout⟩ := h 2 (holding ["x", "y"] "ab") (by decide) (by decide)
    fun i f hf m _ r _ => ne_reduceName (hshort f (List.mem_of_getElem? hf)) m r
  refine ⟨keys, hasc, hmem, fs', hrun, hout, ?_⟩
  rwa [hrun, Option.bind_some] at heval

/-- An input file with the name of the job's first intermediate file is emptied before it is
read: the letters in it are lost. -/
theorem input_truncated :
    holding ["mrtmp.wc-0-0"] "ab" "mrtmp.wc-0-0" = some "ab" ∧
      (letters "mrtmp.wc-0-0" "ab").map KeyValue.key = ["a", "b"] ∧
      (sequential Json.ofQuotes ⟨"wc", ["mrtmp.wc-0-0"], 1, letters, count⟩
        (holding ["mrtmp.wc-0-0"] "ab")).bind (· (outputName "wc")) = some "" := by
  decide +kernel

end DistributionSystem.MapReduce
