import Scamp.Distributed.Job

/-!
# `Distributed.JobList` — the jobs of the server, and whose turn it is

`job_list.cpp`: all jobs the server knows, and the ids of those that run, in the order in which
`ScheduleRoundRobin` will ask them for work. The other schedules leave that order alone and are not part of
the model.

What a job answers may depend on more than its state (`has_work` reads the clock and the iteration order of a
map): `E` is what it sees when it is asked. The jobs and their answers are parameters; `jobHasWork` and
`checkJob` are those of a `Job`.
-/

namespace Scamp

/-- The task list, whose keys are `0`, …, `count - 1`, and the run list. Both lists hold a job at most
    once, and every running job is known. -/
structure JobList (J : Type) where
  count : ℕ
  task : ℕ → J
  runList : List ℕ
  nodup : runList.Nodup
  known : ∀ id ∈ runList, id < count

namespace JobList
variable {J E : Type}

/-- A new job list. -/
def empty [Inhabited J] : JobList J where
  count := 0
  task := fun _ => default
  runList := []
  nodup := List.nodup_nil
  known := fun _ h => absurd h List.not_mem_nil

/-- `JobList::add_job`, with the id of the job. -/
def addJob (l : JobList J) (job : J) : JobList J × ℕ :=
  let jobId := l.count
  ({ count := l.count + 1
     task := Function.update l.task jobId job
     runList := l.runList ++ [jobId]
     nodup := by
       have hnew : jobId ∉ l.runList := fun h => Nat.lt_irrefl _ (l.known jobId h)
       exact l.nodup.append (List.nodup_singleton jobId) (by simpa using hnew)
     known := by
       intro id h
       rcases List.mem_append.mp h with hold | hnew
       · exact Nat.lt_succ_of_lt (l.known id hold)
       · rw [List.mem_singleton.mp hnew]
         exact Nat.lt_succ_self _ }, jobId)

/-- `JobList::cleanup_jobs`: every running job checks its tiles, and leaves the run list if it does not run
    any more. `check` is `check_time_tile` followed by the question whether the job still runs. -/
def cleanupJobs (check : J → E → J × Bool) (env : ℕ → E) (l : JobList J) : JobList J where
  count := l.count
  task := fun id => if id ∈ l.runList then (check (l.task id) (env id)).1 else l.task id
  runList := l.runList.filter fun id => (check (l.task id) (env id)).2
  nodup := l.nodup.filter _
  known := fun id h => l.known id (List.mem_of_mem_filter h)

/-- The loop of `ScheduleRoundRobin`, from iteration `i` on, over the task list and the run list. -/
def roundRobinFrom (hasWork : J → E → J × Bool) (env : ℕ → E) (i : ℕ) (task : ℕ → J) :
    List ℕ → (ℕ → J) × List ℕ × Option ℕ
  | [] => (task, [], none)
  | jobId :: rest =>
      if i < (jobId :: rest).length then
        let asked := hasWork (task jobId) (env i)
        let task := Function.update task jobId asked.1
        if asked.2 then (task, rest ++ [jobId], some jobId)
        else roundRobinFrom hasWork env (i + 1) task (rest ++ [jobId])
      else (task, jobId :: rest, none)
termination_by runList => runList.length - i
decreasing_by
  simp only [List.length_append, List.length_cons, List.length_nil] at *
  omega

/-- The loop keeps the ids. -/
theorem roundRobinFrom_perm (hasWork : J → E → J × Bool) (env : ℕ → E) (i : ℕ) (task : ℕ → J)
    (runList : List ℕ) : (roundRobinFrom hasWork env i task runList).2.1.Perm runList := by
  fun_induction roundRobinFrom hasWork env i task runList with
  | case1 => exact List.Perm.refl _
  | case2 i task jobId rest => exact List.perm_append_singleton jobId rest
  | case3 i task jobId rest _ _ _ _ ih => exact ih.trans (List.perm_append_singleton jobId rest)
  | case4 => exact List.Perm.refl _

/-- `JobList::ScheduleRoundRobin`: the job to work on, and the job list afterwards. -/
def scheduleRoundRobin (hasWork : J → E → J × Bool) (env : ℕ → E) (l : JobList J) : JobList J × Option ℕ :=
  let r := roundRobinFrom hasWork env 0 l.task l.runList
  ({ count := l.count
     task := r.1
     runList := r.2.1
     nodup := (roundRobinFrom_perm hasWork env 0 l.task l.runList).nodup_iff.mpr l.nodup
     known := fun id h =>
       l.known id ((roundRobinFrom_perm hasWork env 0 l.task l.runList).mem_iff.mp h) }, r.2.2)

/-! ## Single operations

What the methods do to the lists between two calls of a job. -/

/-- `JobList::get_job`: the key of the job, which is an `int`, if there is such a job. -/
def getJob (l : JobList J) (jobId : ℤ) : Option ℕ :=
  let key := int32 jobId
  if 0 ≤ key ∧ key < l.count then some key.toNat else none

/-- A job after one of its methods. -/
def setTask (l : JobList J) (id : ℕ) (job : J) : JobList J :=
  { l with task := Function.update l.task id job }

/-- `pop_front` and `push_back` in the loop of `ScheduleRoundRobin`. -/
def passFront (l : JobList J) : JobList J where
  count := l.count
  task := l.task
  runList := l.runList.rotate 1
  nodup := List.nodup_rotate.mpr l.nodup
  known := fun id h => l.known id (List.mem_rotate.mp h)

/-- `run_list_.erase` in the loop of `cleanup_jobs`. -/
def eraseAt (l : JobList J) (iter : ℕ) : JobList J where
  count := l.count
  task := l.task
  runList := l.runList.eraseIdx iter
  nodup := l.nodup.sublist (List.eraseIdx_sublist ..)
  known := fun id h => l.known id (List.mem_of_mem_eraseIdx h)

end JobList

/-! ## The jobs of the server -/

section
variable {K : Type}

/-- `Job::has_work`, asked with an iteration order of the tiles and the time. -/
def jobHasWork (job : Job K) (env : List ℕ × ℤ) : Job K × Bool := job.hasWork env.1 env.2

/-- `Job::check_time_tile`, and whether the job still runs. -/
def checkJob (job : Job K) (now : ℕ → ℤ) : Job K × Bool :=
  (job.checkTimeTile now, decide ((job.checkTimeTile now).status = .running))

end

end Scamp
