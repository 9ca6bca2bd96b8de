import DistributionSystem.MapReduce.Sequential
import Mathlib.Data.List.Induction
import Mathlib.Data.List.TakeWhile

/-! Tasks executed by workers, in any order and any number of times. A call that the master
saw fail may have been executed, so a task can run again at any time; as long as the map tasks
have all run before the first reduce task, the files end up as `Sequential` leaves them. The run
lemma is about executions that each have a map function of their own. -/

namespace DistributionSystem.MapReduce

/-- The arguments belong to a task of the job. A reduce task does not read `file`. -/
def Job.HasTask (job : Job) (arg : DoTaskArgs) : Prop :=
  arg.jobName = job.jobName ∧
    match arg.phase with
    | .mapPhase => job.files[arg.taskNumber]? = some arg.file ∧ arg.numOtherPhase = job.nReduce
    | .reducePhase => arg.taskNumber < job.nReduce ∧ arg.numOtherPhase = job.files.length

/-- The tasks executed one after the other. -/
def execute (json : Json) (job : Job) (args : List DoTaskArgs) (fs : FileSystem) :
    Option FileSystem :=
  args.foldlM (fun fs arg => doTask json job.mapF job.reduceF arg fs) fs

/-- No input file bears the name of a file the tasks write. -/
def Job.InputsApart (job : Job) : Prop :=
  ∀ f ∈ job.files, (∀ m < job.files.length, ∀ r < job.nReduce, f ≠ reduceName job.jobName m r) ∧
    ∀ r < job.nReduce, f ≠ mergeName job.jobName r

/-- An execution of a task, with the map function of the worker that executes it. A map function
that ranges over a Go map emits its pairs in an order of its own in each call. -/
structure TaskRun where
  arg : DoTaskArgs
  mapF : String → String → List KeyValue

def runTasks (json : Json) (reduceF : String → List String → String) (runs : List TaskRun)
    (fs : FileSystem) : Option FileSystem :=
  runs.foldlM (fun fs c => doTask json c.mapF reduceF c.arg fs) fs

theorem execute_eq (json : Json) (job : Job) (args : List DoTaskArgs) (fs : FileSystem) :
    execute json job args fs =
      runTasks json job.reduceF (args.map fun arg => ⟨arg, job.mapF⟩) fs := by
  rw [runTasks, List.foldlM_map]
  rfl

/-- The task writes the file. -/
def Job.Writes (job : Job) (arg : DoTaskArgs) (name : String) : Prop :=
  match arg.phase with
  | .mapPhase => ∃ r < job.nReduce, name = reduceName job.jobName arg.taskNumber r
  | .reducePhase => name = mergeName job.jobName arg.taskNumber

/-- No map task reads a file that it, or a task executed before it, has written. -/
def Job.ReadsIntact (job : Job) (args : List DoTaskArgs) : Prop :=
  ∀ pre arg post, args = pre ++ arg :: post → arg.phase = .mapPhase →
    ∀ a ∈ pre ++ [arg], ¬ job.Writes a arg.file

/-- Every map task runs before the first reduce task, and every reduce task runs. -/
structure Job.Completes (job : Job) (args : List DoTaskArgs) : Prop where
  tasks : ∀ arg ∈ args, job.HasTask arg
  maps : ∀ m < job.files.length,
    ∃ arg ∈ args.takeWhile (fun arg => arg.phase = .mapPhase), arg.taskNumber = m
  reduces : ∀ r < job.nReduce, ∃ arg ∈ args, arg.phase = .reducePhase ∧ arg.taskNumber = r

/-- The task `i` of the phase is among those executed. -/
def Ran (phase : JobPhase) (args : List DoTaskArgs) (i : Nat) : Prop :=
  ∃ arg ∈ args, arg.phase = phase ∧ arg.taskNumber = i

section runs

variable {job : Job} {args : List DoTaskArgs}

theorem ran_concat {phase : JobPhase} {arg : DoTaskArgs} {i : Nat} :
    Ran phase (args ++ [arg]) i ↔ Ran phase args i ∨ arg.phase = phase ∧ arg.taskNumber = i := by
  simp only [Ran, List.mem_append, List.mem_singleton, or_and_right, exists_or, exists_eq_left]

theorem readsIntact_of_inputsApart (hap : job.InputsApart)
    (htasks : ∀ arg ∈ args, job.HasTask arg) : job.ReadsIntact args := by
  rintro pre arg post rfl hphase a ha hwrites
  have hmem : ∀ a ∈ pre ++ [arg], job.HasTask a := by
    intro a ha
    rw [List.append_cons] at htasks
    exact htasks a (List.mem_append_left _ ha)
  obtain ⟨-, harg⟩ := hmem arg (by simp)
  obtain ⟨-, ha⟩ := hmem a ha
  simp only [hphase] at harg
  obtain ⟨happ, hapm⟩ := hap arg.file (List.mem_of_getElem? harg.1)
  cases hpa : a.phase with
  | mapPhase =>
    simp only [hpa] at ha
    simp only [Job.Writes, hpa] at hwrites
    obtain ⟨hlt, -⟩ := List.getElem?_eq_some_iff.mp ha.1
    obtain ⟨r, hr, heq⟩ := hwrites
    exact happ a.taskNumber hlt r hr heq
  | reducePhase =>
    simp only [hpa] at ha
    simp only [Job.Writes, hpa] at hwrites
    exact hapm a.taskNumber ha.1 hwrites

/-- What runs before the first reduce task has run when a reduce task begins. -/
theorem Job.Completes.maps_before (h : job.Completes args) {pre post : List DoTaskArgs}
    {arg : DoTaskArgs} (hsplit : args = pre ++ arg :: post) (hphase : arg.phase = .reducePhase) :
    ∀ m < job.files.length, Ran .mapPhase pre m := by
  intro m hm
  obtain ⟨a, ha, hnum⟩ := h.maps m hm
  have hmap : a.phase = .mapPhase := by simpa using List.mem_takeWhile_imp ha
  refine ⟨a, ?_, hmap, hnum⟩
  rw [hsplit, List.takeWhile_append] at ha
  split at ha
  · rw [List.takeWhile_cons_of_neg (by simp [hphase]), List.append_nil] at ha
    exact ha
  · exact (List.takeWhile_sublist _).subset ha

end runs

namespace Written

variable {json : Json} {job : Job} {emits : Nat → List KeyValue → Prop}
  {outcome : Nat → List KeyValue} {fs₀ fs : FileSystem} {args : List DoTaskArgs}

/-- One execution, map or reduce, at any time. -/
theorem task_step
    (h : Written json job emits outcome fs₀ (Ran .mapPhase args) (Ran .reducePhase args) fs)
    (hn : 1 ≤ job.nReduce) (hout : job.Settles emits outcome)
    (hin : ∀ f ∈ job.files, (fs₀ f).isSome = true) {c : TaskRun} (harg : job.HasTask c.arg)
    (hemits : c.arg.phase = .mapPhase → ∀ text, fs₀ c.arg.file = some text →
      emits c.arg.taskNumber (c.mapF c.arg.file text))
    (hreads : c.arg.phase = .mapPhase → ∀ a ∈ args ++ [c.arg], ¬ job.Writes a c.arg.file)
    (hM : c.arg.phase = .reducePhase → ∀ m < job.files.length, Ran .mapPhase args m) :
    ∃ fs', doTask json c.mapF job.reduceF c.arg fs = some fs' ∧
      Written json job emits outcome fs₀ (Ran .mapPhase (args ++ [c.arg]))
        (Ran .reducePhase (args ++ [c.arg])) fs' := by
  obtain ⟨hname, harg⟩ := harg
  cases hphase : c.arg.phase with
  | mapPhase =>
    simp only [hphase] at harg
    obtain ⟨hfile, hother⟩ := harg
    obtain ⟨hlt, -⟩ := List.getElem?_eq_some_iff.mp hfile
    have hwrites : ∀ a ∈ args ++ [c.arg], ¬ job.Writes a c.arg.file := hreads hphase
    -- the input is as it was, since no task so far has written it
    have hkept : fs c.arg.file = fs₀ c.arg.file := by
      refine h.rest _ (fun m _ hran r hr heq => ?_) fun r _ hran heq => ?_
      · obtain ⟨a, ha, hpa, rfl⟩ := hran
        refine hwrites a (List.mem_append_left _ ha) ?_
        simp only [Job.Writes, hpa]
        exact ⟨r, hr, heq⟩
      · obtain ⟨a, ha, hpa, rfl⟩ := hran
        refine hwrites a (List.mem_append_left _ ha) ?_
        simp only [Job.Writes, hpa]
        exact heq
    obtain ⟨text, htext⟩ := Option.isSome_iff_exists.mp (hin _ (List.mem_of_getElem? hfile))
    have hne : ∀ r < job.nReduce, c.arg.file ≠ reduceName job.jobName c.arg.taskNumber r := by
      intro r hr heq
      refine hwrites c.arg (by simp) ?_
      simp only [Job.Writes, hphase]
      exact ⟨r, hr, heq⟩
    obtain ⟨fs', hrun, h'⟩ := h.map_step hn hlt (hkept.trans htext) hne c.mapF
      (hemits hphase text htext)
    refine ⟨fs', ?_, h'.congr (fun m _ => ?_) (fun r _ => ?_)⟩
    · simp only [doTask, hphase, hname, hother]
      exact hrun
    · simp only [ran_concat, hphase, true_and, eq_comm]
    · simp only [ran_concat, hphase, reduceCtorEq, false_and, or_false]
  | reducePhase =>
    simp only [hphase] at harg
    obtain ⟨hlt, hother⟩ := harg
    obtain ⟨fs', hrun, h'⟩ := h.reduce_step hout (hM hphase) hlt
    refine ⟨fs', ?_, h'.congr (fun m _ => ?_) (fun r _ => ?_)⟩
    · simp only [doTask, hphase, hname, hother]
      exact hrun
    · simp only [ran_concat, hphase, reduceCtorEq, false_and, or_false]
    · simp only [ran_concat, hphase, true_and, eq_comm]

variable (json) in
/-- After any number of the executions. -/
theorem task_run (hn : 1 ≤ job.nReduce) (hout : job.Settles emits outcome)
    (hin : ∀ f ∈ job.files, (fs₀ f).isSome = true) {runs : List TaskRun}
    (hc : job.Completes (runs.map TaskRun.arg))
    (hemits : ∀ c ∈ runs, c.arg.phase = .mapPhase → ∀ text, fs₀ c.arg.file = some text →
      emits c.arg.taskNumber (c.mapF c.arg.file text))
    (hreads : job.ReadsIntact (runs.map TaskRun.arg)) (done rest : List TaskRun)
    (hsplit : runs = done ++ rest) :
    ∃ fs, runTasks json job.reduceF done fs₀ = some fs ∧
      Written json job emits outcome fs₀ (Ran .mapPhase (done.map TaskRun.arg))
        (Ran .reducePhase (done.map TaskRun.arg)) fs := by
  induction done using List.reverseRecOn generalizing rest with
  | nil =>
    refine ⟨fs₀, rfl, ?_, ?_, fun _ _ _ => rfl⟩
    · rintro m - ⟨_, hmem, -⟩
      exact absurd hmem List.not_mem_nil
    · rintro r - ⟨_, hmem, -⟩
      exact absurd hmem List.not_mem_nil
  | append_singleton done c ih =>
    rw [List.append_assoc] at hsplit
    obtain ⟨fs, hdone, h⟩ := ih _ hsplit
    have hmem : c ∈ runs := by simp [hsplit]
    have hargs : runs.map TaskRun.arg =
        done.map TaskRun.arg ++ c.arg :: rest.map TaskRun.arg := by simp [hsplit]
    obtain ⟨fs', hstep, h'⟩ := h.task_step hn hout hin
      (hc.tasks _ (List.mem_map_of_mem hmem)) (hemits c hmem)
      (hreads _ _ _ hargs) (hc.maps_before hargs)
    refine ⟨fs', ?_, by simpa using h'⟩
    simp only [runTasks, List.foldlM_append, List.foldlM_cons, List.foldlM_nil] at hdone ⊢
    simp [hdone, hstep]

variable (json) in
/-- All tasks have been executed once the map tasks run before the first reduce task and the
reduce tasks run at all. -/
theorem of_runs (hn : 1 ≤ job.nReduce) (hout : job.Settles emits outcome)
    (hin : ∀ f ∈ job.files, (fs₀ f).isSome = true) {runs : List TaskRun}
    (hc : job.Completes (runs.map TaskRun.arg))
    (hemits : ∀ c ∈ runs, c.arg.phase = .mapPhase → ∀ text, fs₀ c.arg.file = some text →
      emits c.arg.taskNumber (c.mapF c.arg.file text))
    (hreads : job.ReadsIntact (runs.map TaskRun.arg)) :
    ∃ fs, runTasks json job.reduceF runs fs₀ = some fs ∧
      Written json job emits outcome fs₀ (fun _ => True) (fun _ => True) fs := by
  obtain ⟨fs, hall, h⟩ := task_run json hn hout hin hc hemits hreads runs [] (by simp)
  refine ⟨fs, hall, h.congr (fun m hm => iff_true_intro ?_) (fun r hr => iff_true_intro ?_)⟩
  · obtain ⟨a, ha, hnum⟩ := hc.maps m hm
    exact ⟨a, (List.takeWhile_sublist _).subset ha, by simpa using List.mem_takeWhile_imp ha, hnum⟩
  · exact hc.reduces r hr

end Written

variable (json : Json) in
/-- The executions with the map function of the job itself. -/
theorem Executed.of_tasks {job : Job} {contents : String → String} {fs₀ : FileSystem}
    (hn : 1 ≤ job.nReduce) (hap : job.InputsApart)
    (hin : ∀ f ∈ job.files, fs₀ f = some (contents f)) {args : List DoTaskArgs}
    (hc : job.Completes args) :
    ∃ fs, execute json job args fs₀ = some fs ∧
      Executed json job contents fs₀ (fun _ => True) (fun _ => True) fs := by
  have hruns : (args.map fun arg => (⟨arg, job.mapF⟩ : TaskRun)).map TaskRun.arg = args := by
    rw [List.map_map]
    exact List.map_id' args
  have hfound : ∀ f ∈ job.files, (fs₀ f).isSome = true := by
    intro f hf
    rw [hin f hf]
    rfl
  have hemits : ∀ c ∈ args.map fun arg => (⟨arg, job.mapF⟩ : TaskRun), c.arg.phase = .mapPhase →
      ∀ text, fs₀ c.arg.file = some text →
        c.mapF c.arg.file text = job.emittedBy contents c.arg.taskNumber := by
    rintro c hmem hphase text htext
    obtain ⟨arg, harg, rfl⟩ := List.mem_map.mp hmem
    obtain ⟨-, htask⟩ := hc.tasks arg harg
    have hphase : arg.phase = .mapPhase := hphase
    simp only [hphase] at htask
    rw [hin _ (List.mem_of_getElem? htask.1), Option.some.injEq] at htext
    simp only [Job.emittedBy, htask.1, Option.map_some, Option.getD_some, htext]
  obtain ⟨fs, hrun, h⟩ := Written.of_runs json hn Executed.settles hfound (hruns.symm ▸ hc) hemits
    (hruns.symm ▸ readsIntact_of_inputsApart hap hc.tasks)
  exact ⟨fs, (execute_eq ..).trans hrun, h⟩

/-- Tasks may be executed again and in any order: if every map task runs before the first
reduce task and every reduce task runs, then the intermediate files, the output files of the
reduce tasks and the merged output are those of `Sequential`, for inputs that are not named
like the files the tasks write. -/
theorem reexecution_like_sequential (json : Json) (job : Job) (contents : String → String)
    (fs : FileSystem) (hn : 1 ≤ job.nReduce) (hin : ∀ f ∈ job.files, fs f = some (contents f))
    (hap : job.InputsApart) (args : List DoTaskArgs) (hargs : ∀ arg ∈ args, job.HasTask arg)
    (hmaps : ∀ m < job.files.length,
      ∃ arg ∈ args.takeWhile (fun arg => arg.phase = .mapPhase), arg.taskNumber = m)
    (hreduces : ∀ r < job.nReduce, ∃ arg ∈ args, arg.phase = .reducePhase ∧ arg.taskNumber = r) :
    ∃ fs₁ fs₂, execute json job args fs = some fs₁ ∧ sequential json job fs = some fs₂ ∧
      (∀ m r, fs₁ (reduceName job.jobName m r) = fs₂ (reduceName job.jobName m r)) ∧
      (∀ r, fs₁ (mergeName job.jobName r) = fs₂ (mergeName job.jobName r)) ∧
      merge json job.jobName job.nReduce fs₁ = some fs₂ := by
  have hreads : Executed.ReadsInputs job := by
    intro i f hf m hm r hr
    obtain ⟨hi, -⟩ := List.getElem?_eq_some_iff.mp hf
    exact (hap f (List.mem_of_getElem? hf)).1 m (by omega) r hr
  obtain ⟨fs₁, hrun, h₁⟩ := Executed.of_tasks json hn hap hin ⟨hargs, hmaps, hreduces⟩
  obtain ⟨fs₁', h₁', hseq⟩ := Executed.of_sequential json job hn hreads hin
  obtain ⟨keys, hasc, hkeys⟩ :=
    Grouping.exists_ascending ((job.emitted contents).map KeyValue.key)
  have hmerge := h₁.merge_output hn (fun _ _ => trivial) hasc hkeys
  rw [← h₁.unique h₁'] at hseq
  refine ⟨fs₁, _, hrun, hseq.trans hmerge, fun m r => ?_, fun r => ?_, hmerge⟩
  · exact (Function.update_of_ne (outputName_ne_reduceName _ m r).symm ..).symm
  · exact (Function.update_of_ne (outputName_ne_mergeName _ r).symm ..).symm

/-- A map function that emits the size of a file. -/
def size (_ contents : String) : List KeyValue := [⟨"size", Nat.repr contents.toList.length⟩]

/-- A reduce function that joins the values. -/
def joined (_ : String) (vs : List String) : String := String.join vs

/-- A job with one map task, on the file `f`, and one reduce task. -/
def sizeJob (f : String) : Job := ⟨"sz", [f], 1, size, joined⟩

/-- The tasks of `sizeJob`, each executed twice. -/
def twice (f : String) : List DoTaskArgs :=
  [⟨"sz", f, .mapPhase, 0, 1⟩, ⟨"sz", f, .reducePhase, 0, 1⟩,
    ⟨"sz", f, .mapPhase, 0, 1⟩, ⟨"sz", f, .reducePhase, 0, 1⟩]

theorem twice_tasks (f : String) : ∀ arg ∈ twice f, (sizeJob f).HasTask arg := by
  intro arg harg
  simp only [twice, List.mem_cons, List.not_mem_nil, or_false] at harg
  rcases harg with rfl | rfl | rfl | rfl <;> simp [Job.HasTask, sizeJob]

theorem reexecution_like_sequential_twice :
    ∃ fs₁ fs₂, execute Json.ofQuotes (sizeJob "x") (twice "x") (holding ["x"] "ab") = some fs₁ ∧
      sequential Json.ofQuotes (sizeJob "x") (holding ["x"] "ab") = some fs₂ ∧
      (∀ m r, fs₁ (reduceName "sz" m r) = fs₂ (reduceName "sz" m r)) ∧
      (∀ r, fs₁ (mergeName "sz" r) = fs₂ (mergeName "sz" r)) ∧
      merge Json.ofQuotes "sz" 1 fs₁ = some fs₂ := by
  have hshort : ∀ f ∈ ["x"], f.toList.length ≤ (outputName "sz").toList.length := by
    decide +kernel
  exact reexecution_like_sequential Json.ofQuotes (sizeJob "x") (fun _ => "ab")
    (holding ["x"] "ab") (by decide) (by decide)
    (fun f hf => ⟨fun m _ r _ => ne_reduceName (hshort f hf) m r,
      fun r _ => ne_mergeName (hshort f hf) r⟩)
    (twice "x") (twice_tasks "x") (by decide) (by decide)

/-- An input file with the name of the output file of the reduce task: the second execution of
the map task reads what the reduce task wrote. -/
theorem input_overwritten :
    (∀ arg ∈ twice "mrtmp.sz-res-0", (sizeJob "mrtmp.sz-res-0").HasTask arg) ∧
      ((execute Json.ofQuotes (sizeJob "mrtmp.sz-res-0") (twice "mrtmp.sz-res-0")
        (holding ["mrtmp.sz-res-0"] "ab")).bind (merge Json.ofQuotes "sz" 1)).bind
          (· (outputName "sz")) = some "size: 27\n" ∧
      (sequential Json.ofQuotes (sizeJob "mrtmp.sz-res-0")
        (holding ["mrtmp.sz-res-0"] "ab")).bind (· (outputName "sz")) = some "size: 2\n" :=
  ⟨twice_tasks _, by decide +kernel, by decide +kernel⟩

end DistributionSystem.MapReduce
