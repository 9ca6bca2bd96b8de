import DistributionSystem.MapReduce.Schedule

/-! A distributed job (`Distributed` in `master.go`): workers register at any time, each phase
has a channel and a forwarder of its own, which goes through all workers from the first on, and
the second phase starts when `schedule` has returned from the first. The address of a worker
goes around like a token: in each phase it is with a goroutine that sends it, with a call, or
lost with a call that failed. -/

namespace DistributionSystem.MapReduce

/-- A phase of the job: the call of `schedule` and the loop variable of
`forwardRegistrations`. -/
structure PhaseRun where
  schedule : Schedule := {}
  forwarded : Nat := 0

inductive PhaseEvent
  | forward
  | schedule (e : ScheduleEvent)

/-- Workers come to the channel of a phase through its forwarder only. -/
def PhaseRun.step (p : Phase) (workers : List String) (r : PhaseRun) :
    PhaseEvent → Option PhaseRun
  | .forward =>
    match workers[r.forwarded]? with
    | none => none
    | some worker =>
      (r.schedule.step p (.offer worker)).map fun s => ⟨s, r.forwarded + 1⟩
  | .schedule (.offer _) => none
  | .schedule e => (r.schedule.step p e).map fun s => { r with schedule := s }

/-- The master of a distributed job. -/
structure Master where
  workers : List String := []
  mapRun : PhaseRun := {}
  reduceRun : Option PhaseRun := none

inductive MasterEvent
  | register (worker : String)
  | map (e : PhaseEvent)
  | nextPhase
  | reduce (e : PhaseEvent)

namespace Master

/-- A panic in one of the goroutines has ended the program. -/
def panicked (m : Master) : Bool :=
  m.mapRun.schedule.status = .panicked ∨
    (m.reduceRun.map fun r => r.schedule.status) = some .panicked

def step (jobName : String) (files : List String) (nReduce : Nat) (m : Master)
    (e : MasterEvent) : Option Master :=
  if m.panicked then none else
  match e with
  | .register worker => some { m with workers := m.workers ++ [worker] }
  | .map e =>
    (m.mapRun.step ⟨jobName, files, nReduce, .mapPhase⟩ m.workers e).map fun r =>
      { m with mapRun := r }
  | .nextPhase =>
    match m.reduceRun with
    | some _ => none
    | none =>
      if m.mapRun.schedule.status = .returned then some { m with reduceRun := some {} } else none
  | .reduce e =>
    match m.reduceRun with
    | none => none
    | some r =>
      (r.step ⟨jobName, files, nReduce, .reducePhase⟩ m.workers e).map fun r =>
        { m with reduceRun := some r }

/-- Every worker registers under an address of its own. -/
def Distinct (m : Master) : MasterEvent → Prop
  | .register worker => m.workers.contains worker = false
  | _ => True

instance (m : Master) : (e : MasterEvent) → Decidable (m.Distinct e)
  | .register worker => inferInstanceAs (Decidable (m.workers.contains worker = false))
  | .map _ => .isTrue trivial
  | .nextPhase => .isTrue trivial
  | .reduce _ => .isTrue trivial

/-- The workers with an outstanding `Worker.DoTask` call of the master. -/
def outstanding (m : Master) : List String :=
  m.mapRun.schedule.outstanding ++
    (m.reduceRun.map fun r => r.schedule.outstanding).getD []

end Master

/-- No call is sent to a worker after one to it has failed. -/
def NoRetry (calls : List Call) : Prop :=
  calls.Pairwise fun c d => ∀ worker args, c.failed = some worker → d ≠ .sent args worker

namespace Schedule

/-- The workers whose call has failed. -/
def failed (s : Schedule) : List String := s.calls.filterMap Call.failed

/-- The number of places in which the address of a worker is. -/
def held (s : Schedule) (worker : String) : Nat :=
  s.senders.count worker + s.outstanding.count worker + s.failed.count worker

/-- A step that changes the goroutine of one task. -/
theorem held_set {s s' : Schedule} {i : Nat} {t t' : Task} (ht : s.tasks[i]? = some t)
    (hs : s'.tasks = s.tasks.set i t') (w : String)
    (hbal : s'.senders.count w + t'.worker.toList.count w + s'.failed.count w =
      s.senders.count w + t.worker.toList.count w + s.failed.count w) :
    s'.held w = s.held w := by
  obtain ⟨xs, ys, hl, hset⟩ := Runs.split_at ht
  have hout : s'.outstanding.count w + t.worker.toList.count w =
      s.outstanding.count w + t'.worker.toList.count w := by
    rw [outstanding, hs, hset, outstanding, hl]
    simp only [List.filterMap_append, List.filterMap_cons, List.count_append]
    cases t.worker <;> cases t'.worker <;> simp [List.count_cons] <;> omega
  rw [held, held]
  omega

/-- A step of `schedule` moves addresses around; only an offer brings in a new one. -/
theorem Move.held_eq {p : Phase} {s s' : Schedule} {e : ScheduleEvent} (hm : Move p s e s')
    (w : String) : s'.held w = s.held w + (match e with
      | .offer worker => [worker].count w
      | _ => 0) := by
  cases hm with
  | offer worker =>
    simp only [held, outstanding, failed, List.count_append]
    omega
  | spawn hs hlt => simp [held, outstanding, failed, List.filterMap_cons, Task.worker]
  | panic i ht ha => rfl
  | build i args ht ha =>
    refine held_set ht rfl w ?_
    simp [failed, Task.worker]
  | receive i args worker ht hw =>
    refine held_set ht rfl w ?_
    rw [(List.perm_cons_erase hw).count_eq w]
    simp [failed, List.filterMap_cons, Call.failed, Task.worker, List.count_cons]
  | succeed i args worker ht =>
    refine held_set ht rfl w ?_
    simp [failed, List.filterMap_cons, Call.failed, Task.worker]
  | fail i args worker ht =>
    refine held_set ht rfl w ?_
    simp only [failed, List.filterMap_append, List.filterMap_cons, Call.failed, Task.worker,
      List.filterMap_nil, List.count_append, Option.toList_none, Option.toList_some, List.count_nil]
    omega
  | leave i ht =>
    refine held_set ht rfl w ?_
    simp [failed, Task.worker]
  | finish hs hlen hwg => rfl

/-- A call goes to a worker that is on offer. -/
theorem Move.noRetry {p : Phase} {s s' : Schedule} {e : ScheduleEvent} (hm : Move p s e s')
    (h : NoRetry s.calls) (hone : ∀ w, s.held w ≤ 1) : NoRetry s'.calls := by
  have hsnoc : ∀ d : Call, (∀ worker args, worker ∈ s.failed → d ≠ .sent args worker) →
      NoRetry (s.calls ++ [d]) := by
    intro d hd
    refine List.pairwise_append.mpr ⟨h, List.pairwise_singleton .., ?_⟩
    intro c hc d' hd' worker args hfail
    rw [List.mem_singleton.mp hd']
    exact hd worker args (List.mem_filterMap.mpr ⟨c, hc, hfail⟩)
  cases hm with
  | receive i args worker ht hw =>
    apply hsnoc
    rintro w args' hfailed heq
    obtain ⟨-, rfl⟩ := Call.sent.inj heq
    have hpos : 0 < s.senders.count worker := List.count_pos_iff.mpr hw
    have hpos' : 0 < s.failed.count worker := List.count_pos_iff.mpr hfailed
    have hle := hone worker
    simp only [held] at hle
    omega
  | succeed i args worker ht => exact hsnoc _ fun _ _ _ heq => absurd heq (by simp)
  | fail i args worker ht => exact hsnoc _ fun _ _ _ heq => absurd heq (by simp)
  | _ => exact h

/-- After `schedule` has returned it stays so, and no call is outstanding. -/
theorem Move.returned {p : Phase} {s s' : Schedule} {e : ScheduleEvent} (hm : Move p s e s')
    (h : Inv p s) (hs : s.status = .returned) : s'.status = .returned := by
  cases hm with
  | panic i ht ha => exact absurd (h.left hs ht) (by simp [Task.active])
  | finish => rfl
  | _ => exact hs

theorem Inv.outstanding_nil {p : Phase} {s : Schedule} (h : Inv p s)
    (hs : s.status = .returned) : s.outstanding = [] := by
  rw [outstanding, List.filterMap_eq_nil_iff]
  intro t ht
  obtain ⟨i, hi⟩ := List.mem_iff_getElem?.mp ht
  have hleft := h.left hs hi
  cases t with
  | calling args worker => exact absurd hleft (by simp [Task.active])
  | _ => rfl

end Schedule

/-- In a phase each forwarded worker is in exactly one place. -/
structure PhaseRun.Inv (p : Phase) (workers : List String) (r : PhaseRun) : Prop where
  schedule : r.schedule.Inv p
  forwarded : r.forwarded ≤ workers.length
  held : ∀ w, r.schedule.held w = (workers.take r.forwarded).count w
  noRetry : NoRetry r.schedule.calls

namespace PhaseRun

theorem inv_init (p : Phase) (workers : List String) : Inv p workers {} := by
  refine ⟨Schedule.inv_init p, Nat.zero_le _, fun w => ?_, List.Pairwise.nil⟩
  simp [Schedule.held, Schedule.outstanding, Schedule.failed]

theorem Inv.register {p : Phase} {workers : List String} {r : PhaseRun} (h : Inv p workers r)
    (worker : String) : Inv p (workers ++ [worker]) r := by
  refine ⟨h.schedule, ?_, fun w => ?_, h.noRetry⟩
  · have hle := h.forwarded
    rw [List.length_append]
    omega
  · rw [List.take_append_of_le_length h.forwarded]
    exact h.held w

theorem Inv.held_le {p : Phase} {workers : List String} {r : PhaseRun} (h : Inv p workers r)
    (hd : workers.Nodup) (w : String) : r.schedule.held w ≤ 1 := by
  rw [h.held w]
  exact List.nodup_iff_count_le_one.mp (hd.sublist (List.take_sublist ..)) w

/-- The schedule of a phase takes one step, which is an offer of the next worker if the
forwarder takes it. -/
theorem step_schedule {p : Phase} {workers : List String} {r r' : PhaseRun} {e : PhaseEvent}
    (h : r.step p workers e = some r') :
    (∃ worker, workers[r.forwarded]? = some worker ∧ r'.forwarded = r.forwarded + 1 ∧
      r.schedule.step p (.offer worker) = some r'.schedule) ∨
    (∃ e, (∀ worker, e ≠ .offer worker) ∧ r'.forwarded = r.forwarded ∧
      r.schedule.step p e = some r'.schedule) := by
  unfold step at h
  split at h
  · split at h
    · exact absurd h (by simp)
    · rename_i worker hw
      obtain ⟨s, hs, rfl⟩ := Option.map_eq_some_iff.mp h
      exact Or.inl ⟨worker, hw, rfl, hs⟩
  · exact absurd h (by simp)
  · rename_i e hne
    obtain ⟨s, hs, rfl⟩ := Option.map_eq_some_iff.mp h
    exact Or.inr ⟨e, hne, rfl, hs⟩

theorem Inv.step {p : Phase} {workers : List String} {r r' : PhaseRun} {e : PhaseEvent}
    (h : Inv p workers r) (hd : workers.Nodup) (hs : r.step p workers e = some r') :
    Inv p workers r' ∧ (r.schedule.status = .returned → r'.schedule.status = .returned) := by
  rcases step_schedule hs with ⟨worker, hw, hf, hstep⟩ | ⟨e, hne, hf, hstep⟩
  · have hm := (Schedule.step_move hstep).2
    obtain ⟨hlt, -⟩ := List.getElem?_eq_some_iff.mp hw
    refine ⟨⟨hm.inv h.schedule, by omega, fun w => ?_, hm.noRetry h.noRetry (h.held_le hd)⟩,
      hm.returned h.schedule⟩
    rw [hm.held_eq w, h.held w, hf, List.take_add_one, hw, List.count_append]
    rfl
  · have hm := (Schedule.step_move hstep).2
    refine ⟨⟨hm.inv h.schedule, hf ▸ h.forwarded, fun w => ?_,
      hm.noRetry h.noRetry (h.held_le hd)⟩, hm.returned h.schedule⟩
    rw [hm.held_eq w, h.held w, hf]
    cases e with
    | offer worker => exact absurd rfl (hne worker)
    | _ => rfl

end PhaseRun

namespace Master

/-- In each phase every forwarded worker is in one place, and the second phase finds nothing
outstanding of the first. -/
structure Inv (jobName : String) (files : List String) (nReduce : Nat) (m : Master) : Prop where
  distinct : m.workers.Nodup
  map : m.mapRun.Inv ⟨jobName, files, nReduce, .mapPhase⟩ m.workers
  reduce : ∀ r, m.reduceRun = some r → r.Inv ⟨jobName, files, nReduce, .reducePhase⟩ m.workers ∧
    m.mapRun.schedule.status = .returned

variable {jobName : String} {files : List String} {nReduce : Nat}

theorem inv_init : Inv jobName files nReduce {} :=
  ⟨List.nodup_nil, PhaseRun.inv_init _ _, fun _ h => absurd h (by simp)⟩

theorem Inv.step {m m' : Master} {e : MasterEvent} (h : Inv jobName files nReduce m)
    (hd : m.Distinct e) (hs : m.step jobName files nReduce e = some m') :
    Inv jobName files nReduce m' := by
  unfold Master.step at hs
  split at hs
  · exact absurd hs (by simp)
  cases e with
  | register worker =>
    obtain rfl := Option.some.inj hs
    have hnew : worker ∉ m.workers := by
      intro hmem
      exact absurd (List.contains_iff_mem.mpr hmem) (by rw [hd]; decide)
    refine ⟨?_, h.map.register worker, fun r hr => ?_⟩
    · simpa [List.nodup_append, h.distinct] using fun a ha (heq : a = worker) => hnew (heq ▸ ha)
    · exact ⟨(h.reduce r hr).1.register worker, (h.reduce r hr).2⟩
  | map e =>
    obtain ⟨r, hr, rfl⟩ := Option.map_eq_some_iff.mp hs
    obtain ⟨hinv, hret⟩ := h.map.step h.distinct hr
    exact ⟨h.distinct, hinv, fun r' hr' => ⟨(h.reduce r' hr').1, hret (h.reduce r' hr').2⟩⟩
  | nextPhase =>
    simp only at hs
    split at hs
    · exact absurd hs (by simp)
    · split at hs
      · rename_i hret
        obtain rfl := Option.some.inj hs
        exact ⟨h.distinct, h.map, fun r hr => Option.some.inj hr ▸
          ⟨PhaseRun.inv_init _ _, hret⟩⟩
      · exact absurd hs (by simp)
  | reduce e =>
    simp only at hs
    split at hs
    · exact absurd hs (by simp)
    · rename_i r hr
      obtain ⟨r', hr', rfl⟩ := Option.map_eq_some_iff.mp hs
      obtain ⟨hinv, -⟩ := (h.reduce r hr).1.step h.distinct hr'
      exact ⟨h.distinct, h.map, fun r'' heq => Option.some.inj heq ▸ ⟨hinv, (h.reduce r hr).2⟩⟩

/-- A phase has at most one outstanding call to a worker. -/
theorem outstanding_nodup {p : Phase} {workers : List String} {r : PhaseRun}
    (h : r.Inv p workers) (hd : workers.Nodup) : r.schedule.outstanding.Nodup := by
  rw [List.nodup_iff_count_le_one]
  intro w
  have hle := h.held_le hd w
  rw [Schedule.held] at hle
  omega

/-- Workers that register once each under distinct addresses: the master never has two
outstanding calls to one worker, and a worker whose call failed gets no further call in that
phase. -/
theorem one_task_per_worker {es : List MasterEvent} {m : Master}
    (h : Runs.Run (step jobName files nReduce) Distinct {} es m) :
    m.outstanding.Nodup ∧ NoRetry m.mapRun.schedule.calls ∧
      ∀ r, m.reduceRun = some r → NoRetry r.schedule.calls := by
  have hinv := h.invariant (Inv jobName files nReduce) inv_init
    fun _ _ _ hinv hd hs => hinv.step hd hs
  refine ⟨?_, hinv.map.noRetry, fun r hr => (hinv.reduce r hr).1.noRetry⟩
  cases hr : m.reduceRun with
  | none =>
    rw [outstanding, hr, Option.map_none, Option.getD_none, List.append_nil]
    exact outstanding_nodup hinv.map hinv.distinct
  | some r =>
    obtain ⟨hreduce, hret⟩ := hinv.reduce r hr
    rw [outstanding, hr, hinv.map.schedule.outstanding_nil hret, List.nil_append]
    exact outstanding_nodup hreduce hinv.distinct

/-- Two workers, one map task and one reduce task. The first worker fails in the map phase and
is called again in the reduce phase. -/
def failedOnce : List MasterEvent :=
  [.register "w0", .register "w1", .map .forward, .map (.schedule .spawn),
    .map (.schedule (.build 0)), .map (.schedule (.receive 0 "w0")),
    .map (.schedule (.reply 0 false)), .map .forward, .map (.schedule (.receive 0 "w1")),
    .map (.schedule (.reply 0 true)), .map (.schedule (.leave 0)), .map (.schedule .finish),
    .nextPhase, .reduce .forward, .reduce (.schedule .spawn), .reduce (.schedule (.build 0)),
    .reduce (.schedule (.receive 0 "w0"))]

theorem one_task_per_worker_failedOnce :
    ∃ m : Master, m.outstanding = ["w0"] ∧ m.outstanding.Nodup ∧
      m.mapRun.schedule.failed = ["w0"] ∧ NoRetry m.mapRun.schedule.calls ∧
      ∀ r, m.reduceRun = some r → NoRetry r.schedule.calls := by
  have hexec : (Runs.exec (step "wc" ["x"] 1) Distinct {} failedOnce).map
      (fun m => (m.outstanding, m.mapRun.schedule.failed)) = some (["w0"], ["w0"]) := by
    decide +kernel
  obtain ⟨m, hrun, hm⟩ := Runs.run_of_exec_map _ hexec
  obtain ⟨hout, hfailed⟩ := Prod.mk.inj hm
  obtain ⟨hnodup, hmap, hreduce⟩ := one_task_per_worker hrun
  exact ⟨m, hout, hnodup, hfailed, hmap, hreduce⟩

end Master

end DistributionSystem.MapReduce
