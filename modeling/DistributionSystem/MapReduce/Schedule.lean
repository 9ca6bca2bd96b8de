import DistributionSystem.Lib.Runs
import DistributionSystem.MapReduce.Tasks

/-! The scheduler of one phase (`schedule.go`): a goroutine for each task, which takes workers
from `registerChan` until a `Worker.DoTask` call to one of them returns true. The steps are the
ones that the others can see: goroutines are spawned, build their arguments, receive a worker,
get the result of their call, and leave; `schedule` returns when all have left. -/

namespace DistributionSystem.MapReduce

/-- The arguments of `schedule`, the channel apart. -/
structure Phase where
  jobName : String
  mapFiles : List String
  nReduce : Nat
  phase : JobPhase

namespace Phase

def ntasks (p : Phase) : Nat :=
  match p.phase with
  | .mapPhase => p.mapFiles.length
  | .reducePhase => p.nReduce

def nOther (p : Phase) : Nat :=
  match p.phase with
  | .mapPhase => p.nReduce
  | .reducePhase => p.mapFiles.length

/-- The arguments a task goroutine builds; `mapFiles[task_num]` panics out of range. -/
def taskArgs (p : Phase) (taskNum : Nat) : Option DoTaskArgs :=
  match p.mapFiles[taskNum]? with
  | none => none
  | some file => some ⟨p.jobName, file, p.phase, taskNum, p.nOther⟩

end Phase

/-- Where a task goroutine stands. -/
inductive Task
  | started
  | waiting (args : DoTaskArgs)
  | calling (args : DoTaskArgs) (worker : String)
  | leaving
  | done
  deriving DecidableEq, Repr

namespace Task

/-- The arguments a goroutine holds. -/
def args : Task → Option DoTaskArgs
  | .waiting a => some a
  | .calling a _ => some a
  | _ => none

/-- The worker a goroutine has called and not heard of yet. -/
def worker : Task → Option String
  | .calling _ w => some w
  | _ => none

/-- The call of the goroutine has returned true. -/
def finished : Task → Bool
  | .leaving => true
  | .done => true
  | _ => false

/-- `wg.Done` is still to come. -/
def active : Task → Bool
  | .done => false
  | _ => true

end Task

/-- The beginning and the end of a `Worker.DoTask` call. -/
inductive Call
  | sent (args : DoTaskArgs) (worker : String)
  | returned (args : DoTaskArgs) (worker : String) (ok : Bool)
  deriving DecidableEq, Repr

namespace Call

/-- The arguments of a call that has returned true. -/
def succeeded : Call → Option DoTaskArgs
  | .returned args _ true => some args
  | _ => none

/-- The worker of a call that has returned false. -/
def failed : Call → Option String
  | .returned _ worker false => some worker
  | _ => none

end Call

inductive Status
  | running
  | returned
  | panicked
  deriving DecidableEq, Repr

/-- A call of `schedule`: its task goroutines by number, the `WaitGroup`, the goroutines that
wait to send a worker on `registerChan`, and the calls made so far. -/
structure Schedule where
  tasks : List Task := []
  wg : Nat := 0
  senders : List String := []
  calls : List Call := []
  status : Status := .running
  deriving DecidableEq, Repr

/-- The steps of a call of `schedule`; `offer` is the start of a goroutine that sends a worker
on the channel from outside. -/
inductive ScheduleEvent
  | offer (worker : String)
  | spawn
  | build (task : Nat)
  | receive (task : Nat) (worker : String)
  | reply (task : Nat) (ok : Bool)
  | leave (task : Nat)
  | finish
  deriving DecidableEq, Repr

namespace Schedule

/-- A panic in one goroutine ends the program. -/
def step (p : Phase) (s : Schedule) (e : ScheduleEvent) : Option Schedule :=
  if s.status = .panicked then none else
  match e with
  | .offer worker => some { s with senders := s.senders ++ [worker] }
  | .spawn =>
    if s.status = .running ∧ s.tasks.length < p.ntasks then
      some { s with tasks := s.tasks ++ [.started], wg := s.wg + 1 }
    else none
  | .build i =>
    match s.tasks[i]? with
    | some .started =>
      match p.taskArgs i with
      | none => some { s with status := .panicked }
      | some args => some { s with tasks := s.tasks.set i (.waiting args) }
    | _ => none
  | .receive i worker =>
    match s.tasks[i]? with
    | some (.waiting args) =>
      if s.senders.contains worker then
        some { s with tasks := s.tasks.set i (.calling args worker),
                      senders := s.senders.erase worker,
                      calls := s.calls ++ [.sent args worker] }
      else none
    | _ => none
  | .reply i ok =>
    match s.tasks[i]? with
    | some (.calling args worker) =>
      -- after a success the worker is sent back from a goroutine of its own
      if ok then
        some { s with tasks := s.tasks.set i .leaving,
                      senders := s.senders ++ [worker],
                      calls := s.calls ++ [.returned args worker true] }
      else
        some { s with tasks := s.tasks.set i (.waiting args),
                      calls := s.calls ++ [.returned args worker false] }
    | _ => none
  | .leave i =>
    match s.tasks[i]? with
    | some .leaving => some { s with tasks := s.tasks.set i .done, wg := s.wg - 1 }
    | _ => none
  | .finish =>
    if s.status = .running ∧ s.tasks.length = p.ntasks ∧ s.wg = 0 then
      some { s with status := .returned }
    else none

/-- What one step does. -/
inductive Move (p : Phase) (s : Schedule) : ScheduleEvent → Schedule → Prop
  | offer (worker : String) :
      Move p s (.offer worker) { s with senders := s.senders ++ [worker] }
  | spawn (hs : s.status = .running) (hlt : s.tasks.length < p.ntasks) :
      Move p s .spawn { s with tasks := s.tasks ++ [.started], wg := s.wg + 1 }
  | panic (i : Nat) (ht : s.tasks[i]? = some .started) (ha : p.taskArgs i = none) :
      Move p s (.build i) { s with status := .panicked }
  | build (i : Nat) (args : DoTaskArgs) (ht : s.tasks[i]? = some .started)
      (ha : p.taskArgs i = some args) :
      Move p s (.build i) { s with tasks := s.tasks.set i (.waiting args) }
  | receive (i : Nat) (args : DoTaskArgs) (worker : String)
      (ht : s.tasks[i]? = some (.waiting args)) (hw : worker ∈ s.senders) :
      Move p s (.receive i worker)
        { s with tasks := s.tasks.set i (.calling args worker),
                 senders := s.senders.erase worker,
                 calls := s.calls ++ [.sent args worker] }
  | succeed (i : Nat) (args : DoTaskArgs) (worker : String)
      (ht : s.tasks[i]? = some (.calling args worker)) :
      Move p s (.reply i true)
        { s with tasks := s.tasks.set i .leaving,
                 senders := s.senders ++ [worker],
                 calls := s.calls ++ [.returned args worker true] }
  | fail (i : Nat) (args : DoTaskArgs) (worker : String)
      (ht : s.tasks[i]? = some (.calling args worker)) :
      Move p s (.reply i false)
        { s with tasks := s.tasks.set i (.waiting args),
                 calls := s.calls ++ [.returned args worker false] }
  | leave (i : Nat) (ht : s.tasks[i]? = some .leaving) :
      Move p s (.leave i) { s with tasks := s.tasks.set i .done, wg := s.wg - 1 }
  | finish (hs : s.status = .running) (hlen : s.tasks.length = p.ntasks) (hwg : s.wg = 0) :
      Move p s .finish { s with status := .returned }

theorem step_move {p : Phase} {s s' : Schedule} {e : ScheduleEvent} (h : s.step p e = some s') :
    s.status ≠ .panicked ∧ Move p s e s' := by
  unfold step at h
  split at h
  · exact absurd h (by simp)
  rename_i hs
  refine ⟨hs, ?_⟩
  cases e with
  | offer worker => exact Option.some.inj h ▸ .offer worker
  | spawn =>
    simp only [Option.ite_none_right_eq_some, Option.some.injEq] at h
    obtain ⟨⟨hrun, hlt⟩, rfl⟩ := h
    exact .spawn hrun hlt
  | build i =>
    simp only at h
    split at h
    · rename_i ht
      split at h
      · rename_i ha
        exact Option.some.inj h ▸ .panic i ht ha
      · rename_i args ha
        exact Option.some.inj h ▸ .build i args ht ha
    · exact absurd h (by simp)
  | receive i worker =>
    simp only at h
    split at h
    · rename_i args ht
      simp only [List.contains_iff_mem, Option.ite_none_right_eq_some, Option.some.injEq] at h
      obtain ⟨hw, rfl⟩ := h
      exact .receive i args worker ht hw
    · exact absurd h (by simp)
  | reply i ok =>
    simp only at h
    split at h
    · rename_i args worker ht
      cases ok with
      | true => exact Option.some.inj h ▸ .succeed i args worker ht
      | false => exact Option.some.inj h ▸ .fail i args worker ht
    · exact absurd h (by simp)
  | leave i =>
    simp only at h
    split at h
    · rename_i ht
      exact Option.some.inj h ▸ .leave i ht
    · exact absurd h (by simp)
  | finish =>
    simp only [Option.ite_none_right_eq_some, Option.some.injEq] at h
    obtain ⟨⟨hrun, hlen, hwg⟩, rfl⟩ := h
    exact .finish hrun hlen hwg

/-- The arguments of the calls that have returned true. -/
def succeeded (s : Schedule) : List DoTaskArgs := s.calls.filterMap Call.succeeded

/-- The workers with an outstanding call. -/
def outstanding (s : Schedule) : List String := s.tasks.filterMap Task.worker

/-- Whether the call of task `i` has returned true. -/
def finishedAt (s : Schedule) (i : Nat) : Bool := (s.tasks[i]?.map Task.finished).getD false

theorem getElem?_concat {α : Type} {l : List α} {a b : α} {i : Nat}
    (h : (l ++ [a])[i]? = some b) : l[i]? = some b ∨ b = a := by
  rw [List.getElem?_append] at h
  split at h
  · exact Or.inl h
  · exact Or.inr (List.mem_singleton.mp (List.mem_of_getElem? h))

/-- A new goroutine has not made its call. -/
theorem finishedAt_spawn (s : Schedule) (i : Nat) :
    ((s.tasks ++ [.started])[i]?.map Task.finished).getD false = s.finishedAt i := by
  rw [finishedAt]
  cases h : s.tasks[i]? with
  | some t =>
    obtain ⟨hi, -⟩ := List.getElem?_eq_some_iff.mp h
    rw [List.getElem?_append_left hi, h]
  | none =>
    cases h' : (s.tasks ++ [.started])[i]? with
    | none => rfl
    | some t =>
      rcases getElem?_concat h' with ht | rfl
      · exact absurd (h.symm.trans ht) (by simp)
      · rfl

theorem finishedAt_set {s s' : Schedule} {i : Nat} {t t' : Task} (ht : s.tasks[i]? = some t)
    (hs : s'.tasks = s.tasks.set i t') (j : Nat) :
    s'.finishedAt j = if j = i then t'.finished else s.finishedAt j := by
  obtain ⟨hi, -⟩ := List.getElem?_eq_some_iff.mp ht
  by_cases hj : j = i
  · subst hj
    simp [finishedAt, hs, hi]
  · rw [if_neg hj, finishedAt, hs, List.getElem?_set_ne (Ne.symm hj), finishedAt]

/-- What holds in every state of a call of `schedule`. -/
structure Inv (p : Phase) (s : Schedule) : Prop where
  wg : s.wg = s.tasks.countP Task.active
  len : s.tasks.length ≤ p.ntasks
  held : ∀ i t a, s.tasks[i]? = some t → t.args = some a → p.taskArgs i = some a
  once : ∀ i, (s.succeeded.map DoTaskArgs.taskNumber).count i = (s.finishedAt i).toNat
  built : ∀ a ∈ s.succeeded, p.taskArgs a.taskNumber = some a
  returned : s.status = .returned → s.tasks.length = p.ntasks ∧ s.wg = 0

theorem inv_init (p : Phase) : Inv p {} := by
  constructor <;> simp [succeeded, finishedAt]

theorem taskNumber_of_taskArgs {p : Phase} {i : Nat} {a : DoTaskArgs}
    (h : p.taskArgs i = some a) : a.taskNumber = i := by
  unfold Phase.taskArgs at h
  split at h
  · exact absurd h (by simp)
  · exact Option.some.inj h ▸ rfl

theorem nOther_of_taskArgs {p : Phase} {i : Nat} {a : DoTaskArgs}
    (h : p.taskArgs i = some a) : a.numOtherPhase = p.nOther := by
  unfold Phase.taskArgs at h
  split at h
  · exact absurd h (by simp)
  · exact Option.some.inj h ▸ rfl

theorem taskArgs_eq_none {p : Phase} {i : Nat} :
    p.taskArgs i = none ↔ p.mapFiles.length ≤ i := by
  rw [← List.getElem?_eq_none_iff, Phase.taskArgs]
  cases p.mapFiles[i]? <;> simp

/-- Once `schedule` has returned its goroutines have left. -/
theorem Inv.left {p : Phase} {s : Schedule} (h : Inv p s) (hs : s.status = .returned) {i : Nat}
    {t : Task} (ht : s.tasks[i]? = some t) : t.active = false := by
  have hzero := h.wg.symm.trans (h.returned hs).2
  rw [List.countP_eq_zero] at hzero
  simpa using hzero t (List.mem_of_getElem? ht)

/-- A step that changes the goroutine of one task, adds to the calls what has returned true and
keeps the rest. -/
theorem Inv.set_task {p : Phase} {s s' : Schedule} (h : Inv p s) {i : Nat} {t t' : Task}
    (ht : s.tasks[i]? = some t) (hs : s'.tasks = s.tasks.set i t')
    (hact : s'.wg + t.active.toNat = s.wg + t'.active.toNat)
    (hargs : ∀ a, t'.args = some a → p.taskArgs i = some a)
    (hsucc : (t'.finished = t.finished ∧ s'.succeeded = s.succeeded) ∨
      ∃ a, t.args = some a ∧ t.finished = false ∧ t'.finished = true ∧
        s'.succeeded = s.succeeded ++ [a])
    (hst : s'.status = s.status) (hrun : t.active = true) : Inv p s' := by
  have hfin := finishedAt_set ht hs
  have hti : s.finishedAt i = t.finished := by simp [finishedAt, ht]
  constructor
  · obtain ⟨xs, ys, hl, hset⟩ := Runs.split_at ht
    have hwg := h.wg
    rw [hl] at hwg
    rw [hs, hset]
    simp only [List.countP_append, List.countP_cons] at hwg ⊢
    cases hb : t.active <;> cases hb' : t'.active <;>
      simp only [hb, hb', Bool.toNat_false, Bool.toNat_true, ↓reduceIte, Bool.false_eq_true]
        at hact hwg ⊢ <;> omega
  · rw [hs, List.length_set]
    exact h.len
  · intro j u a hu ha
    rw [hs] at hu
    by_cases hj : j = i
    · subst hj
      obtain ⟨hlt, -⟩ := List.getElem?_eq_some_iff.mp ht
      rw [List.getElem?_set_self hlt, Option.some.injEq] at hu
      subst hu
      exact hargs a ha
    · rw [List.getElem?_set_ne (Ne.symm hj)] at hu
      exact h.held j u a hu ha
  · intro j
    rw [hfin j]
    rcases hsucc with ⟨hf, hsame⟩ | ⟨a, ha, hf, hf', hnew⟩
    · rw [hsame, h.once j]
      split
      · rename_i hj
        rw [hj, hti, hf]
      · rfl
    · have hnum := taskNumber_of_taskArgs (h.held i t a ht ha)
      rw [hnew, List.map_append, List.count_append, h.once j]
      by_cases hj : j = i
      · subst hj
        simp [hti, hf, hf', hnum]
      · simp [hj, hnum, Ne.symm hj]
  · intro a ha
    rcases hsucc with ⟨_, hsame⟩ | ⟨b, hb, _, _, hnew⟩
    · exact h.built a (hsame ▸ ha)
    · rw [hnew] at ha
      rcases List.mem_append.mp ha with ha | ha
      · exact h.built a ha
      · have hargsb := h.held i t b ht hb
        rw [List.mem_singleton.mp ha, taskNumber_of_taskArgs hargsb]
        exact hargsb
  · intro hret
    have hleft := h.left (hst ▸ hret) ht
    exact absurd (hrun.symm.trans hleft) (by simp)

theorem Move.inv {p : Phase} {s s' : Schedule} {e : ScheduleEvent} (hm : Move p s e s')
    (h : Inv p s) : Inv p s' := by
  cases hm with
  | offer worker => exact ⟨h.wg, h.len, h.held, h.once, h.built, h.returned⟩
  | spawn hs hlt =>
    refine ⟨?_, ?_, fun i t a ht ha => ?_, fun i => ?_, h.built, fun hret => ?_⟩
    · simp [h.wg, Task.active]
    · rw [List.length_append]
      exact hlt
    · rcases getElem?_concat ht with ht | rfl
      · exact h.held i t a ht ha
      · exact absurd ha (by simp [Task.args])
    · have hfin : finishedAt { s with tasks := s.tasks ++ [.started], wg := s.wg + 1 } i =
          s.finishedAt i := finishedAt_spawn s i
      rw [hfin]
      exact h.once i
    · exact absurd (hs.symm.trans hret) (by decide)
  | panic i ht ha => exact ⟨h.wg, h.len, h.held, h.once, h.built, fun hs => absurd hs (by simp)⟩
  | build i args ht ha =>
    exact h.set_task ht rfl rfl (fun a heq => Option.some.inj heq ▸ ha) (Or.inl ⟨rfl, rfl⟩) rfl rfl
  | receive i args worker ht hw =>
    refine h.set_task ht rfl rfl (fun a heq => h.held i _ a ht heq) (Or.inl ⟨rfl, ?_⟩) rfl rfl
    simp [succeeded, Call.succeeded]
  | succeed i args worker ht =>
    refine h.set_task ht rfl rfl (fun a heq => absurd heq (by simp [Task.args]))
      (Or.inr ⟨args, rfl, rfl, rfl, ?_⟩) rfl rfl
    simp [succeeded, Call.succeeded]
  | fail i args worker ht =>
    refine h.set_task ht rfl rfl (fun a heq => h.held i _ a ht heq) (Or.inl ⟨rfl, ?_⟩) rfl rfl
    simp [succeeded, Call.succeeded]
  | leave i ht =>
    have hpos : 0 < s.wg := by
      rw [h.wg, List.countP_pos_iff]
      exact ⟨_, List.mem_of_getElem? ht, rfl⟩
    refine h.set_task ht rfl ?_ (fun a heq => absurd heq (by simp [Task.args]))
      (Or.inl ⟨rfl, rfl⟩) rfl rfl
    simp only [Task.active, Bool.toNat_true, Bool.toNat_false]
    omega
  | finish hs hlen hwg => exact ⟨h.wg, h.len, h.held, h.once, h.built, fun _ => ⟨hlen, hwg⟩⟩

/-- Each task has had one call that returned true, with its number and the number of tasks of
the other phase. -/
def Completed (p : Phase) (s : Schedule) : Prop :=
  (∀ i < p.ntasks, (s.succeeded.map DoTaskArgs.taskNumber).count i = 1) ∧
    ∀ a ∈ s.succeeded, a.taskNumber < p.ntasks ∧ a.numOtherPhase = p.nOther ∧
      p.taskArgs a.taskNumber = some a

theorem Inv.completed {p : Phase} {s : Schedule} (h : Inv p s) (hs : s.status = .returned) :
    s.Completed p := by
  obtain ⟨hlen, -⟩ := h.returned hs
  refine ⟨fun i hi => ?_, fun a ha => ?_⟩
  · have ht := List.getElem?_eq_getElem (hlen ▸ hi)
    rw [h.once i, finishedAt, ht]
    cases hcase : s.tasks[i] with
    | leaving => rfl
    | done => rfl
    | _ =>
      have hleft := h.left hs ht
      rw [hcase] at hleft
      exact absurd hleft (by simp [Task.active])
  · have hargs := h.built a ha
    refine ⟨?_, nOther_of_taskArgs hargs, hargs⟩
    have hcount : 0 < (s.succeeded.map DoTaskArgs.taskNumber).count a.taskNumber :=
      List.count_pos_iff.mpr (List.mem_map_of_mem ha)
    rw [h.once, finishedAt] at hcount
    cases ht : s.tasks[a.taskNumber]? with
    | none => simp [ht] at hcount
    | some t =>
      obtain ⟨hi, -⟩ := List.getElem?_eq_some_iff.mp ht
      exact hlen ▸ hi

/-- The spawn loop, up to `k` tasks. -/
theorem spawn_run (p : Phase) {k : Nat} (hk : k ≤ p.ntasks) :
    Runs.Run (step p) (fun _ _ => True) {} (List.replicate k .spawn)
      { tasks := List.replicate k .started, wg := k } := by
  induction k with
  | zero => exact Runs.Run.nil
  | succ k ih =>
    rw [List.replicate_succ']
    refine Runs.Run.snoc (ih (by omega)) trivial ?_
    have hlt : k < p.ntasks := by omega
    simp [step, hlt, List.replicate_succ']

theorem panic_step {p : Phase} {s : Schedule} {i : Nat} (hs : s.status = .running)
    (ht : s.tasks[i]? = some .started) (ha : p.taskArgs i = none) :
    s.step p (.build i) = some { s with status := .panicked } := by
  simp [step, hs, ht, ha]

/-- No step panics where each task has a map file of its number. -/
theorem not_panicked {p : Phase} (hle : p.ntasks ≤ p.mapFiles.length) {s s' : Schedule}
    (h : Inv p s) {e : ScheduleEvent} (hs : s.step p e = some s') : s'.status ≠ .panicked := by
  obtain ⟨hp, hm⟩ := step_move hs
  cases hm with
  | panic i ht ha =>
    obtain ⟨hi, -⟩ := List.getElem?_eq_some_iff.mp ht
    have hlen := h.len
    have hout := taskArgs_eq_none.mp ha
    omega
  | finish => exact fun hbad => absurd hbad (by simp)
  | _ => exact hp

/-- `schedule` builds the arguments of every task and, when it returns, has had one successful
call for each of them, in every interleaving, if and only if there are no more tasks than map
files: the goroutine of a reduce task reads `mapFiles` at its own number too. -/
theorem schedule_completes (p : Phase) :
    (∀ es s, Runs.Run (step p) (fun _ _ => True) {} es s →
      s.status ≠ .panicked ∧
      (∀ i t a, s.tasks[i]? = some t → t.args = some a → p.taskArgs i = some a) ∧
      (s.status = .returned → s.Completed p)) ↔
      p.phase = .mapPhase ∨ p.nReduce ≤ p.mapFiles.length := by
  constructor
  · intro h
    cases hphase : p.phase with
    | mapPhase => exact Or.inl rfl
    | reducePhase =>
      right
      by_contra hmore
      have hn : p.mapFiles.length + 1 ≤ p.ntasks := by
        simp only [Phase.ntasks, hphase]
        omega
      have hpanic := Runs.Run.snoc (spawn_run p hn) trivial
        (panic_step (i := p.mapFiles.length) (by simp) (by simp)
          (taskArgs_eq_none.mpr (Nat.le_refl _)))
      exact (h _ _ hpanic).1 rfl
  · intro hcond
    have hle : p.ntasks ≤ p.mapFiles.length := by
      rcases hcond with hphase | hle
      · simp [Phase.ntasks, hphase]
      · unfold Phase.ntasks
        split
        · exact Nat.le_refl _
        · exact hle
    intro es s hrun
    have hinv := hrun.invariant (fun s => Inv p s ∧ s.status ≠ .panicked) ⟨inv_init p, by decide⟩
      fun s _ s' hinv _ hs => ⟨(step_move hs).2.inv hinv.1, not_panicked hle hinv.1 hs⟩
    exact ⟨hinv.2, hinv.1.held, hinv.1.completed⟩

/-- One map file and two reduce tasks: the goroutine of the second reduce task panics. -/
theorem second_reduce_panics :
    ∃ s, Runs.Run (step ⟨"wc", ["x"], 2, .reducePhase⟩) (fun _ _ => True) {}
      [.spawn, .spawn, .build 1] s ∧ s.status = .panicked := by
  have hexec : Runs.exec (step ⟨"wc", ["x"], 2, .reducePhase⟩) (fun _ _ => True) {}
      [.spawn, .spawn, .build 1] =
        some { tasks := [.started, .started], wg := 2, status := .panicked } := rfl
  exact ⟨_, Runs.run_of_exec hexec, rfl⟩

end Schedule

end DistributionSystem.MapReduce
